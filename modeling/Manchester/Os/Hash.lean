import Manchester.Framework.OneAtATime
import Manchester.Os.Build

namespace Manchester.Os

open Compiler Framework

variable {ω : Type} {host : Host ω} {call : CName → List DataType → ω → Option (DataType × ω)}
  {n : Nat} {σ : Env DataType} {w : ω}

theorem functionBody_jenkinsHashFunctionCont : functionBody os Fn.jenkinsHashFunctionCont=
    some ([Var.input,Var.length,Var.hash],jenkinsHashFunctionCont) := by rfl

theorem functionBody_jenkinsHashFunction : functionBody os Fn.jenkinsHashFunction=
    some ([Var.input,Var.length],jenkinsHashFunction) := by rfl

@[simp] theorem hexFFFFFFFF_run (s : Store ω) :
    hexFFFFFFFF.run host call s=some (0xffffffff#64,s.2) := by
  have hvalue : hexFFFFFFFF.literalValue=some 4294967295 := by decide +kernel
  rw [Expr.run_literal hvalue]
  rfl

/-- The variables of the hash function at byte `i`. -/
structure Hashing (input length h : DataType) (i : Nat) (σ : Env DataType) : Prop where
  input : σ Var.input=some input
  length : σ Var.length=some length
  hash : σ Var.hash=some h
  index : σ Var.i=some (BitVec.ofNat 64 i)

theorem jenkinsLoop_run {input length h c : DataType} {i : Nat} (hat : Hashing input length h i σ)
    (hchar : call Fn.charAt [input,BitVec.ofNat 64 i] w=some (c,w)) :
    ∃ τ,Stmt.runAll host call n jenkinsHashFunctionContLoop (σ,w)=some (.next (τ,w)) ∧
      Hashing input length (OneAtATime.mix h c) (i+1) τ := by
  simp (disch := decide) [jenkinsHashFunctionContLoop,hat.input,hat.hash,hat.index,hchar,
    Host.compute_of_lt]
  constructor <;> simp (disch := decide) [hat.input,hat.length,OneAtATime.mix,OneAtATime.fold,
    OneAtATime.spread]

/-- The test of a loop that runs until it has come to a number. -/
theorem test_notEquals {x : CName} {i m : Nat} (hindex : σ Var.i=some (BitVec.ofNat 64 i))
    (hx : σ x=some (BitVec.ofNat 64 m)) (hi : i ≤ m) (hm : m < 2^63) :
    (Expr.binaryOperation Var.i .notEquals x).test host call (σ,w)=
      some (decide (i < m),σ,w) := by
  have hdiffer : (BitVec.ofNat 64 i != BitVec.ofNat 64 m)=decide (i < m) := by
    rw [bne,beq_small (by omega) hm,← decide_not]
    exact decide_eq_decide.mpr (by omega)
  simp (disch := decide) [hindex,hx,hdiffer]

variable (host) in
theorem jenkinsLoop_loop {input h : DataType} {m : Nat} (hm : m ≤ 8) (hn : 9 ≤ n)
    (hat : Hashing input (BitVec.ofNat 64 m) h 0 σ) :
    ∃ τ,(Stmt.whileLoop (.binaryOperation Var.i .notEquals Var.length)
      jenkinsHashFunctionContLoop).run host (host.call os n) n (σ,w)=some (.next (τ,w)) ∧
      Hashing input (BitVec.ofNat 64 m) (OneAtATime.mixAll h (firstBytes input m)) m τ := by
  refine Stmt.run_whileLoop_counts (fun i => Hashing input (BitVec.ofNat 64 m)
    (OneAtATime.mixAll h (firstBytes input i)) i) (i := 0) ?_ ?_ hat (Nat.zero_le _) (by omega)
  · intro i τ hi hτ
    exact test_notEquals hτ.index hτ.length hi (by omega)
  · intro i τ hi hτ
    rw [firstBytes_succ,OneAtATime.mixAll_snoc]
    exact jenkinsLoop_run hτ (charAt_byte (by omega) input (by omega))

theorem and_low32 (x : DataType) : x&&&0xffffffff#64=(x.setWidth 32).setWidth 64 := by
  apply BitVec.eq_of_toNat_eq
  have hmask : (0xffffffff#64).toNat=2^32-1 := by decide
  have hlow : x.toNat%2^32 < 2^64 := by omega
  rw [BitVec.toNat_and,hmask,Nat.and_two_pow_sub_one_eq_mod,BitVec.toNat_setWidth,
    BitVec.toNat_setWidth,Nat.mod_eq_of_lt hlow]

theorem jenkinsHashFunctionCont_call (input h : DataType) {m : Nat} (hm : m ≤ 8) (hn : 10 ≤ n) :
    host.call os n Fn.jenkinsHashFunctionCont [input,BitVec.ofNat 64 m,h] w=
      some (((OneAtATime.finish (OneAtATime.mixAll h (firstBytes input m))).setWidth 32).setWidth 64,
        w) := by
  obtain ⟨k,rfl⟩ : ∃ k,n=k+1 := ⟨n-1,by omega⟩
  have hstart : Hashing input (BitVec.ofNat 64 m) h 0 (Function.update (Function.update
      (Function.update (Function.update (fun _ => none) Var.hash (some h)) Var.length
      (some (BitVec.ofNat 64 m))) Var.input (some input)) Var.i (some 0#64)) := by
    constructor <;> simp (disch := decide)
  obtain ⟨τ,hrun,hτ⟩ := jenkinsLoop_loop host (n := k) (w := w) hm (by omega) hstart
  rw [Host.call,functionBody_jenkinsHashFunctionCont,← and_low32]
  simp (disch := decide) [jenkinsHashFunctionCont,hrun,hτ.hash,Host.compute_of_lt,
    OneAtATime.finish,OneAtATime.spread,OneAtATime.fold]

/-- The hash is that in registers of 64 bits, cut to 32 at the end. -/
theorem jenkinsHashFunction_call (input : DataType) {m : Nat} (hm : m ≤ 8) (hn : 11 ≤ n) :
    host.call os n Fn.jenkinsHashFunction [input,BitVec.ofNat 64 m] w=
      some (((OneAtATime.hash 64 (firstBytes input m)).setWidth 32).setWidth 64,w) := by
  obtain ⟨k,rfl⟩ : ∃ k,n=k+1 := ⟨n-1,by omega⟩
  have hcont : host.call os k Fn.jenkinsHashFunctionCont [input,BitVec.ofNat 64 m,0#64] w=
      some (((OneAtATime.hash 64 (firstBytes input m)).setWidth 32).setWidth 64,w) :=
    jenkinsHashFunctionCont_call input 0#64 hm (by omega)
  rw [Host.call,functionBody_jenkinsHashFunction]
  simp (disch := decide) [jenkinsHashFunction,hcont]

section Meets

variable {input : DataType} {length : Nat}

/-- The result is the one-at-a-time hash with all values modulo `2^32`. -/
def HashesBytes (host : Host ω) (w : ω) (input : DataType) (length : Nat) : Prop :=
  host.Returns os Fn.jenkinsHashFunction [input,BitVec.ofNat 64 length] w
    ((OneAtATime.hash 32 (firstBytes input length)).setWidth 64) w

/-- The bytes that are hashed, without the zeros that they begin with. -/
def significantBytes (input : DataType) (length : Nat) : List UInt8 :=
  (firstBytes input length).dropWhile (· == 0)

theorem hashesBytes_iff (h8 : length ≤ 8) :
    HashesBytes host w input length ↔
      (OneAtATime.hash 64 (significantBytes input length)).setWidth 32=
        OneAtATime.hash 32 (significantBytes input length) := by
  have hreturns : host.Returns os Fn.jenkinsHashFunction [input,BitVec.ofNat 64 length] w
      (((OneAtATime.hash 64 (firstBytes input length)).setWidth 32).setWidth 64) w :=
    ⟨11,fun _ hn => jenkinsHashFunction_call input h8 hn⟩
  rw [significantBytes,OneAtATime.hash_dropWhile,OneAtATime.hash_dropWhile]
  constructor
  · intro h
    have hwide := congrArg (BitVec.setWidth 32) (hreturns.unique h).1
    rwa [BitVec.setWidth_setWidth_of_le _ (by decide),BitVec.setWidth_setWidth_of_le _ (by decide),
      BitVec.setWidth_setWidth_of_le _ (by decide),BitVec.setWidth_eq] at hwide
  · intro h
    rwa [h] at hreturns

theorem hashesBytes_of_two (h8 : length ≤ 8) (hfew : (significantBytes input length).length ≤ 2) :
    HashesBytes host w input length :=
  (hashesBytes_iff h8).mpr (OneAtATime.hash_narrow (by decide) (by decide) hfew)

theorem not_hashesBytes_of_three (h8 : length ≤ 8)
    (hthree : (significantBytes input length).length=3) : ¬HashesBytes host w input length := by
  obtain ⟨a,b,c,habc⟩ := List.length_eq_three.mp hthree
  have hne : a ≠ 0 := by
    have hhead := List.head?_dropWhile_not (· == 0) (firstBytes input length)
    rw [← significantBytes,habc] at hhead
    simpa using hhead
  rw [hashesBytes_iff h8,habc]
  exact OneAtATime.hash_differs hne b c

/-- The word whose bytes up to `length` end in 1, 0, 0. -/
theorem significantBytes_late (h3 : 3 ≤ length) (h8 : length ≤ 8) :
    significantBytes (pack (List.replicate (length-3) 0++[1,0,0])) length=[1,0,0] := by
  have hlength : (List.replicate (length-3) 0++[(1 : UInt8),0,0]).length=length := by
    rw [List.length_append,List.length_replicate]
    exact Nat.sub_add_cancel h3
  have hbytes := @firstBytes_pack (List.replicate (length-3) 0++[1,0,0]) (by omega)
  rw [hlength] at hbytes
  rw [significantBytes,hbytes,List.dropWhile_append_of_pos (by simp)]
  rfl

/-- `jenkins_hash_function` is the 32-bit one-at-a-time hash where at most two bytes are left when
the zeros in front are taken off; with three the high bits that come back always show. So it is
the hash for all words just of the lengths up to 2. -/
theorem jenkins_meets_iff (host : Host ω) (w : ω) :
    (∀ (input : DataType) (length : Nat),length ≤ 8 → (significantBytes input length).length ≤ 2 →
      HashesBytes host w input length) ∧
    (∀ (input : DataType) (length : Nat),length ≤ 8 → (significantBytes input length).length=3 →
      ¬HashesBytes host w input length) ∧
    ∀ length ≤ 8,(∀ input,HashesBytes host w input length) ↔ length ≤ 2 := by
  refine ⟨fun _ _ => hashesBytes_of_two,fun _ _ => not_hashesBytes_of_three,?_⟩
  intro length h8
  constructor
  · intro hall
    by_contra hlong
    have hlate := @significantBytes_late length (by omega) h8
    exact not_hashesBytes_of_three h8 (by rw [hlate]; rfl) (hall _)
  · intro hshort input
    apply hashesBytes_of_two h8
    have hle := List.length_dropWhile_le (· == 0) (firstBytes input length)
    rw [length_firstBytes] at hle
    exact Nat.le_trans hle hshort

/-- The letters `ab`. -/
theorem jenkins_two_letters :
    HashesBytes (Host.modular fun _ _ (_ : Unit) => none) () 0x6261#64 2 :=
  (jenkins_meets_iff _ ()).1 0x6261#64 2 (by decide) (by decide)

/-- The letters `abc`. -/
theorem jenkins_three_letters :
    ¬HashesBytes (Host.modular fun _ _ (_ : Unit) => none) () 0x636261#64 3 :=
  not_hashesBytes_of_three (by decide) (by decide)

end Meets

end Manchester.Os
