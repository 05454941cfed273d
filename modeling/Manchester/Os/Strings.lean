import Manchester.Os.Source
import Manchester.Os.Words

namespace Manchester.Os

open Compiler Framework

variable {ω : Type} {host : Host ω} {call : CName → List DataType → ω → Option (DataType × ω)}
  {n : Nat} {σ : Env DataType} {w : ω}

@[simp] theorem number_run (k : Nat) (s : Store ω) :
    (number k).run host call s=some (BitVec.ofNat 64 k,s.2) := by
  have hvalue : (number k).literalValue=some (k : Int) := by
    simp [number,Expr.literalValue,parseArg_decimal]
  rw [Expr.run_literal hvalue,BitVec.ofInt_natCast]

@[simp] theorem minusOne_run (s : Store ω) : minusOne.run host call s=some (-1#64,s.2) := by
  have hvalue : minusOne.literalValue=some (-1) := by decide +kernel
  rw [Expr.run_literal hvalue]
  rfl

@[simp] theorem hexFF_run (s : Store ω) : hexFF.run host call s=some (0xff#64,s.2) := by
  have hvalue : hexFF.literalValue=some 255 := by decide +kernel
  rw [Expr.run_literal hvalue]
  rfl

@[simp] theorem asm_run (text : String) (s : Store ω) :
    (asm text).run host call n s=some (.next s) := by
  rw [asm,Stmt.run]

attribute [simp] Op.opcode Assembler.compute boolData_and boolData_or boolData_bne_zero
  beq_small slt_small sle_small ofNat_add_one

/-- The test of a loop that runs until it is done. -/
theorem test_done {d : Nat} (h : σ Var.done=some (BitVec.ofNat 64 d)) (hd : d < 2) :
    (Expr.binaryOperation Var.done .equals (number 0)).test host call (σ,w)=
      some (decide (d=0),σ,w) := by
  simp (disch := first | decide | omega) [h]

theorem functionBody_charAt : functionBody os Fn.charAt=some ([Var.s,Var.i],charAt) := by rfl

/-- What `char_at` gives, if the shift does. -/
def hostCharAt (host : Host ω) (s i : DataType) : Option DataType :=
  (host.compute .SHR s (i*8#64)).map (· &&& 0xff#64)

/-- In every program that has this function. -/
theorem charAt_call_in {program : List Stmt}
    (hbody : functionBody program Fn.charAt=some ([Var.s,Var.i],charAt)) (hn : 0 < n)
    (s i : DataType) :
    host.call program n Fn.charAt [s,i] w=(hostCharAt host s i).map fun v => (v,w) := by
  obtain ⟨m,rfl⟩ : ∃ m,n=m+1 := ⟨n-1,by omega⟩
  rw [Host.call,hbody,hostCharAt]
  cases hshift : host.compute .SHR s (i*8#64) with
  | none => simp (disch := decide) [charAt,hshift]
  | some v => simp (disch := decide) [charAt,hshift]

theorem charAt_call (hn : 0 < n) (s i : DataType) :
    host.call os n Fn.charAt [s,i] w=(hostCharAt host s i).map fun v => (v,w) :=
  charAt_call_in functionBody_charAt hn s i

theorem hostCharAt_of_lt (s : DataType) {i : Nat} (hi : i < 8) :
    hostCharAt host s (BitVec.ofNat 64 i)=some (ofByte (byteAt s i)) := by
  have hcount : (BitVec.ofNat 64 i*8#64).toNat=8*i := by
    rw [BitVec.toNat_mul,toNat_small (by omega)]
    simp
    omega
  rw [hostCharAt,Host.compute_of_lt (by omega),Assembler.compute,hcount,Nat.mod_eq_of_lt (by omega),
    Option.map_some,shiftRight_and]

theorem charAt_byte (hn : 0 < n) (s : DataType) {i : Nat} (hi : i < 8) :
    host.call os n Fn.charAt [s,BitVec.ofNat 64 i] w=some (ofByte (byteAt s i),w) := by
  rw [charAt_call hn,hostCharAt_of_lt s hi,Option.map_some]

theorem hostCharAt_modular (special : CName → List DataType → ω → Option (DataType × ω))
    (s i : DataType) : ∃ c,hostCharAt (Host.modular special) s i=some c := by
  rw [hostCharAt,Host.modular_compute]
  exact ⟨_,rfl⟩

theorem ofByte_eq_zero_iff (b : UInt8) : ofByte b=0#64 ↔ b=0 := ofByte_eq_iff b 0

theorem ofNat_mul_eight_toNat {k : Nat} (hk : k ≤ 8) : (BitVec.ofNat 64 k*8#64).toNat=8*k := by
  rw [BitVec.toNat_mul,toNat_small (by omega)]
  simp
  omega

theorem eight_mul_ofNat_toNat {k : Nat} (hk : k ≤ 8) : (8#64*BitVec.ofNat 64 k).toNat=8*k := by
  rw [BitVec.mul_comm,ofNat_mul_eight_toNat hk]

theorem compute_shl_bytes (a : DataType) {k : Nat} (hk : k < 8) :
    host.compute .SHL a (8#64*BitVec.ofNat 64 k)=some (a <<< (8*k)) := by
  have hcount := @eight_mul_ofNat_toNat k (by omega)
  rw [Host.compute_of_lt (by omega),Assembler.compute,hcount,Nat.mod_eq_of_lt (by omega)]

theorem functionBody_strlen : functionBody os Fn.strlen=some ([Var.s],strlen) := by rfl

/-- The variables of `strlen` at byte `i`. -/
structure Scan (s : DataType) (i d : Nat) (σ : Env DataType) : Prop where
  word : σ Var.s=some s
  index : σ Var.i=some (BitVec.ofNat 64 i)
  flag : σ Var.done=some (BitVec.ofNat 64 d)

theorem strlenLoop_stop {s c : DataType} {i : Nat} (h : Scan s i 0 σ)
    (hcall : call Fn.charAt [s,BitVec.ofNat 64 i] w=some (c,w)) (hi : i ≤ 8)
    (hstop : c=0#64 ∨ i=8) :
    ∃ τ,Stmt.runAll host call n strlenLoop (σ,w)=some (.next (τ,w)) ∧ Scan s i 1 τ := by
  refine ⟨Function.update (Function.update σ Var.char (some c)) Var.done (some 1#64),?_,?_⟩
  · simp (disch := first | decide | omega) [strlenLoop,h.word,h.index,hcall,hstop]
  · constructor <;> simp (disch := decide) [h.word,h.index]

theorem strlenLoop_next {s c : DataType} {i : Nat} (h : Scan s i 0 σ)
    (hcall : call Fn.charAt [s,BitVec.ofNat 64 i] w=some (c,w)) (hi : i ≤ 8)
    (hnext : ¬(c=0#64 ∨ i=8)) :
    ∃ τ,Stmt.runAll host call n strlenLoop (σ,w)=some (.next (τ,w)) ∧ Scan s (i+1) 0 τ := by
  refine ⟨Function.update (Function.update σ Var.char (some c)) Var.i
    (some (BitVec.ofNat 64 (i+1))),?_,?_⟩
  · simp (disch := first | decide | omega) [strlenLoop,h.word,h.index,hcall,hnext]
  · constructor <;> simp (disch := decide) [h.word,h.flag]

/-- The byte that `strlen` stops at is the first zero, or the one behind the word. -/
theorem charAt_stops {s : DataType} {i : Nat} (hn : 0 < n) (hi : i ≤ strLength s)
    (hoversized : strLength s=8 → ∃ c,hostCharAt host s 8#64=some c) :
    ∃ c,host.call os n Fn.charAt [s,BitVec.ofNat 64 i] w=some (c,w) ∧
      (c=0#64 ∨ i=8 ↔ i=strLength s) := by
  have hle := strLength_le s
  rw [charAt_call hn]
  by_cases h8 : i=8
  · subst h8
    obtain ⟨c,hc⟩ := hoversized (by omega)
    refine ⟨c,by rw [hc]; rfl,?_⟩
    omega
  · refine ⟨_,by rw [hostCharAt_of_lt s (by omega)]; rfl,?_⟩
    rw [ofByte_eq_zero_iff]
    rcases Nat.lt_or_eq_of_le hi with hlt | rfl
    · simp [byteAt_ne_zero hlt,h8,hlt.ne]
    · simp [byteAt_strLength (Nat.lt_of_le_of_ne hle h8)]

/-- What holds before each test of the loop: the flag is set at the length only. -/
def StrlenInv (s : DataType) (k : Nat) (σ : Env DataType) : Prop :=
  ∃ i,Scan s i 0 σ ∧ i ≤ strLength s ∧ k=9-i ∨ Scan s i 1 σ ∧ i=strLength s ∧ k=0

theorem strlen_round {s : DataType}
    (hoversized : strLength s=8 → ∃ c,hostCharAt host s 8#64=some c) (hn : 0 < n) (k : Nat)
    (σ : Env DataType) (hinv : StrlenInv s k σ) :
    LoopRound host (host.call os n) n w (.binaryOperation Var.done .equals (number 0))
      strlenLoop (StrlenInv s) (· Var.i=some (BitVec.ofNat 64 (strLength s))) k σ := by
  have hle := strLength_le s
  rcases hinv with ⟨i,⟨hscan,hi,rfl⟩ | ⟨hscan,rfl,rfl⟩⟩
  · right
    refine ⟨test_done hscan.flag (by decide),?_⟩
    obtain ⟨c,hcall,hstop⟩ := charAt_stops hn hi hoversized
    by_cases hend : i=strLength s
    · obtain ⟨τ,hrun,hτ⟩ := strlenLoop_stop hscan hcall (by omega) (hstop.mpr hend)
      exact ⟨τ,hrun,0,by omega,i,Or.inr ⟨hτ,hend,rfl⟩⟩
    · obtain ⟨τ,hrun,hτ⟩ := strlenLoop_next hscan hcall (by omega) (mt hstop.mp hend)
      exact ⟨τ,hrun,9-(i+1),by omega,i+1,Or.inl ⟨hτ,by omega,rfl⟩⟩
  · exact Or.inl ⟨test_done hscan.flag (by decide),hscan.index⟩

/-- The variables before the loop. -/
theorem scan_start (s : DataType) :
    Scan s 0 0 (Function.update (Function.update
      (Function.update (fun _ => none) Var.s (some s)) Var.i (some 0#64)) Var.done
      (some 0#64)) := by
  constructor <;> simp (disch := decide)

/-- `strlen` finds the length of every word; only for a word of eight bytes the shift by 64 has
to give something. -/
theorem strlen_call {s : DataType}
    (hoversized : strLength s=8 → ∃ c,hostCharAt host s 8#64=some c) (hn : 11 ≤ n) :
    host.call os n Fn.strlen [s] w=some (BitVec.ofNat 64 (strLength s),w) := by
  obtain ⟨m,rfl⟩ : ∃ m,n=m+1 := ⟨n-1,by omega⟩
  obtain ⟨τ,hrun,hτ⟩ := Stmt.run_whileLoop_of (strlen_round (n := m) (w := w) hoversized (by omega))
    (k := 9) ⟨0,Or.inl ⟨scan_start s,Nat.zero_le _,rfl⟩⟩ (by omega)
  rw [Host.call,functionBody_strlen]
  simp (disch := decide) [strlen,hrun,hτ]

end Manchester.Os
