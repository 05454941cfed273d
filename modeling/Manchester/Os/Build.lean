import Manchester.Os.Search

namespace Manchester.Os

open Compiler Framework

variable {ω : Type} {host : Host ω} {call : CName → List DataType → ω → Option (DataType × ω)}
  {n : Nat} {σ : Env DataType} {w : ω}

/-- A string of at most eight bytes, none of them zero. -/
def IsString (bs : List UInt8) : Prop := bs.length ≤ 8 ∧ 0∉bs

theorem functionBody_strcat : functionBody os Fn.strcat=some ([Var.s1,Var.s2],strcat) := by rfl

theorem strlen_pack {bs : List UInt8} (h : IsString bs)
    (hoversized : bs.length=8 → ∃ c,hostCharAt host (pack bs) 8#64=some c) (hn : 11 ≤ n) :
    host.call os n Fn.strlen [pack bs] w=some (BitVec.ofNat 64 bs.length,w) := by
  rw [← strLength_pack h.1 h.2] at hoversized ⊢
  exact strlen_call hoversized hn

theorem shl_modular {as bs : List UInt8} (h : as.length+bs.length ≤ 8) :
    Assembler.compute .SHL (pack bs) (BitVec.ofNat 64 as.length*8#64)=
      some (pack bs <<< (8*as.length)) := by
  have hcount := @ofNat_mul_eight_toNat as.length (by omega)
  rw [Assembler.compute,hcount]
  by_cases hfull : as.length=8
  · obtain rfl := List.eq_nil_of_length_eq_zero (by omega : bs.length=0)
    have hzero : pack []=0#64 := rfl
    rw [hzero,BitVec.zero_shiftLeft,BitVec.zero_shiftLeft]
  · rw [Nat.mod_eq_of_lt (by omega)]

theorem strcat_word {s1 s2 c : DataType} {l1 l2 : Nat} (h1 : l1 ≤ 8) (h2 : l2 ≤ 8)
    (hlen1 : host.call os n Fn.strlen [s1] w=some (BitVec.ofNat 64 l1,w))
    (hlen2 : host.call os n Fn.strlen [s2] w=some (BitVec.ofNat 64 l2,w))
    (hshift : l1+l2 ≤ 8 → host.compute .SHL s2 (BitVec.ofNat 64 l1*8#64)=some c) :
    host.call os (n+1) Fn.strcat [s1,s2] w=some (if l1+l2 ≤ 8 then c^^^s1 else 0,w) := by
  have hsum : BitVec.ofNat 64 l1+BitVec.ofNat 64 l2=BitVec.ofNat 64 (l1+l2) :=
    (BitVec.ofNat_add _ _).symm
  rw [Host.call,functionBody_strcat]
  by_cases hfit : l1+l2 ≤ 8
  · have hnot : ¬8 < l1+l2 := by omega
    simp (disch := first | decide | omega) [strcat,hlen1,hlen2,hsum,hnot,hfit,hshift hfit]
  · have hlong : 8 < l1+l2 := by omega
    simp (disch := first | decide | omega) [strcat,hlen1,hlen2,hsum,hlong,hfit]

/-- Joins two strings; the empty string if the result would be too long. -/
theorem strcat_call {as bs : List UInt8} (ha : IsString as) (hb : IsString bs) (hn : 12 ≤ n)
    (special : CName → List DataType → ω → Option (DataType × ω)) :
    (Host.modular special).call os n Fn.strcat [pack as,pack bs] w=
      some (if as.length+bs.length ≤ 8 then pack (as++bs) else 0,w) := by
  obtain ⟨m,rfl⟩ : ∃ m,n=m+1 := ⟨n-1,by omega⟩
  have hlen1 := strlen_pack (n := m) (w := w) ha (fun _ => hostCharAt_modular special _ _)
    (by omega)
  have hlen2 := strlen_pack (n := m) (w := w) hb (fun _ => hostCharAt_modular special _ _)
    (by omega)
  rw [strcat_word ha.1 hb.1 hlen1 hlen2 fun hfit =>
    (Host.modular_compute special _ _ _).trans (shl_modular hfit)]
  split_ifs with hfit
  · rw [BitVec.xor_comm,pack_append hfit]
  · rfl

theorem functionBody_substring :
    functionBody os Fn.substring=some ([Var.str,Var.start,Var.endPos],substring) := by rfl

/-- The bytes of a word from `start` up to `stop`, both cut to the word. -/
def sliceOf (s : DataType) (start stop : Int) : List UInt8 :=
  ((Bytes.ofNatLE 8 s.toNat).take (min stop 8).toNat).drop (max start 0).toNat

/-- The part of a slice before byte `i`. -/
def sliceUpTo (s : DataType) (start stop : Int) (i : Nat) : List UInt8 :=
  sliceOf s start (min stop i)

theorem length_sliceUpTo_le (s : DataType) (start stop : Int) (i : Nat) :
    (sliceUpTo s start stop i).length ≤ i := by
  simp only [sliceUpTo,sliceOf,List.length_drop,List.length_take]
  omega

theorem sliceUpTo_succ_in {s : DataType} {start stop : Int} {i : Nat} (hi : i < 8)
    (hstart : start ≤ i) (hstop : (i : Int) < stop) :
    sliceUpTo s start stop (i+1)=sliceUpTo s start stop i++[byteAt s i] := by
  have hnow : (min (min stop (i : Int)) 8).toNat=i := by omega
  have hnext : (min (min stop ((i+1 : Nat) : Int)) 8).toNat=i+1 := by omega
  have hlength : (max start 0).toNat ≤ ((Bytes.ofNatLE 8 s.toNat).take i).length := by
    rw [List.length_take,Bytes.length_ofNatLE]
    omega
  rw [sliceUpTo,sliceUpTo,sliceOf,sliceOf,hnow,hnext,List.take_add_one,getElem?_bytes,if_pos hi,
    List.drop_append_of_le_length hlength]
  rfl

theorem sliceUpTo_succ_out {s : DataType} {start stop : Int} {i : Nat} (hi : i < 8)
    (hout : ¬(start ≤ i ∧ (i : Int) < stop)) :
    sliceUpTo s start stop (i+1)=sliceUpTo s start stop i := by
  by_cases hstart : start ≤ i
  · have hsame : min stop ((i+1 : Nat) : Int)=min stop (i : Int) := by omega
    rw [sliceUpTo,sliceUpTo,hsame]
  · have hnow : sliceUpTo s start stop i=[] := by
      apply List.drop_eq_nil_of_le
      rw [List.length_take]
      omega
    have hnext : sliceUpTo s start stop (i+1)=[] := by
      apply List.drop_eq_nil_of_le
      rw [List.length_take]
      omega
    rw [hnow,hnext]

/-- The variables of `substring` at byte `i`. -/
structure Slicing (s start stop : DataType) (acc : List UInt8) (i : Nat) (σ : Env DataType) :
    Prop where
  word : σ Var.str=some s
  start : σ Var.start=some start
  stop : σ Var.endPos=some stop
  index : σ Var.i=some (BitVec.ofNat 64 i)
  result : σ Var.toReturn=some (pack acc)
  position : σ Var.toReturnIdx=some (BitVec.ofNat 64 acc.length)

section Round

variable {s start stop : DataType} {acc : List UInt8} {i : Nat}

theorem substringLoop_in (h : Slicing s start stop acc i σ) (hacc : acc.length < 8)
    (hcall : call Fn.charAt [s,BitVec.ofNat 64 i] w=some (ofByte (byteAt s i),w))
    (hin : (start.sle (BitVec.ofNat 64 i) && (BitVec.ofNat 64 i).slt stop)=true) :
    ∃ τ,Stmt.runAll host call n substringLoop (σ,w)=some (.next (τ,w)) ∧
      Slicing s start stop (acc++[byteAt s i]) (i+1) τ := by
  have hshift : host.compute .SHL (ofByte (byteAt s i)) (8#64*BitVec.ofNat 64 acc.length)=
      some (ofByte (byteAt s i) <<< (8*acc.length)) := compute_shl_bytes _ hacc
  simp (disch := first | decide | omega) [substringLoop,h.word,h.start,h.stop,h.index,h.result,
    h.position,hcall,hin,hshift,pack_snoc hacc]
  constructor <;> simp (disch := decide) [h.word,h.start,h.stop]

theorem substringLoop_out (h : Slicing s start stop acc i σ)
    (hout : (start.sle (BitVec.ofNat 64 i) && (BitVec.ofNat 64 i).slt stop)=false) :
    ∃ τ,Stmt.runAll host call n substringLoop (σ,w)=some (.next (τ,w)) ∧
      Slicing s start stop acc (i+1) τ := by
  simp (disch := first | decide | omega) [substringLoop,h.start,h.stop,h.index,hout]
  constructor <;> simp (disch := decide) [h.word,h.start,h.stop,h.result,h.position]

end Round

theorem inRange_iff (start stop : DataType) {i : Nat} (hi : i < 8) :
    (start.sle (BitVec.ofNat 64 i) && (BitVec.ofNat 64 i).slt stop)=
      decide (start.toInt ≤ i ∧ (i : Int) < stop.toInt) := by
  rw [BitVec.sle,BitVec.slt,toInt_small (by omega),Bool.decide_and]

theorem substringLoop_run {s start stop : DataType} {i : Nat} (hn : 0 < n) (hi : i < 8)
    (h : Slicing s start stop (sliceUpTo s start.toInt stop.toInt i) i σ) :
    ∃ τ,Stmt.runAll host (host.call os n) n substringLoop (σ,w)=some (.next (τ,w)) ∧
      Slicing s start stop (sliceUpTo s start.toInt stop.toInt (i+1)) (i+1) τ := by
  have hrange := inRange_iff start stop hi
  by_cases hin : start.toInt ≤ i ∧ (i : Int) < stop.toInt
  · have hlength := length_sliceUpTo_le s start.toInt stop.toInt i
    rw [sliceUpTo_succ_in hi hin.1 hin.2]
    exact substringLoop_in h (by omega) (charAt_byte hn s hi) (hrange.trans (decide_eq_true hin))
  · rw [sliceUpTo_succ_out hi hin]
    exact substringLoop_out h (hrange.trans (decide_eq_false hin))

/-- The test of a loop over the eight bytes. -/
theorem test_eight {i : Nat} (hindex : σ Var.i=some (BitVec.ofNat 64 i)) (hi : i ≤ 8) :
    (Expr.binaryOperation Var.i .lessThan (number 8)).test host call (σ,w)=
      some (decide (i < 8),σ,w) := by
  simp (disch := first | decide | omega) [hindex]

variable (host) in
theorem substringLoop_loop {s start stop : DataType} (hn : 9 ≤ n)
    (h : Slicing s start stop [] 0 σ) :
    ∃ τ,(Stmt.whileLoop (.binaryOperation Var.i .lessThan (number 8)) substringLoop).run
      host (host.call os n) n (σ,w)=some (.next (τ,w)) ∧
      Slicing s start stop (sliceUpTo s start.toInt stop.toInt 8) 8 τ := by
  have hnil : sliceUpTo s start.toInt stop.toInt 0=[] :=
    List.eq_nil_of_length_eq_zero (Nat.le_zero.mp (length_sliceUpTo_le _ _ _ 0))
  rw [← hnil] at h
  refine Stmt.run_whileLoop_counts
    (fun i => Slicing s start stop (sliceUpTo s start.toInt stop.toInt i) i) ?_ ?_ h
    (Nat.zero_le 8) (by omega)
  · intro i τ hi hτ
    exact test_eight hτ.index hi
  · intro i τ hi hτ
    exact substringLoop_run (by omega) hi hτ

theorem substring_call (s start stop : DataType) (hn : 11 ≤ n) :
    host.call os n Fn.substring [s,start,stop] w=
      some (pack (sliceOf s start.toInt stop.toInt),w) := by
  obtain ⟨m,rfl⟩ : ∃ m,n=m+1 := ⟨n-1,by omega⟩
  have hstart : Slicing s start stop [] 0 (Function.update (Function.update (Function.update
      (Function.update (Function.update (Function.update (fun _ => none) Var.endPos (some stop))
      Var.start (some start)) Var.str (some s)) Var.i (some 0#64)) Var.toReturn (some 0#64))
      Var.toReturnIdx (some 0#64)) := by
    constructor <;> simp (disch := decide) [pack,Bytes.toNatLE]
  obtain ⟨τ,hrun,hτ⟩ := substringLoop_loop host (n := m) (w := w) (by omega) hstart
  have hwhole : sliceUpTo s start.toInt stop.toInt 8=sliceOf s start.toInt stop.toInt := by
    rw [sliceUpTo,sliceOf,sliceOf]
    congr 3
    omega
  rw [Host.call,functionBody_substring]
  simp (disch := decide) [substring,hrun,hτ.result,hwhole]

theorem functionBody_reverseString :
    functionBody os Fn.reverseString=some ([Var.str],reverseString) := by rfl

theorem functionBody_upcase : functionBody os Fn.upcase=some ([Var.str],upcase) := by rfl

/-- The variables of a loop over the bytes of a string, at byte `i`. -/
structure Walking (s : DataType) (len : Nat) (acc : List UInt8) (i : Nat) (σ : Env DataType) :
    Prop where
  word : σ Var.str=some s
  length : σ Var.len=some (BitVec.ofNat 64 len)
  result : σ Var.toReturn=some (pack acc)
  index : σ Var.i=some (BitVec.ofNat 64 i)

section Round

variable {s : DataType} {len : Nat} {acc : List UInt8} {i : Nat} {b : UInt8}

theorem reverseStringLoop_run (h : Walking s len acc i σ) (hacc : acc.length < 8)
    (hcall : call Fn.charAt [s,BitVec.ofNat 64 i] w=some (ofByte b,w)) :
    ∃ τ,Stmt.runAll host call n reverseStringLoop (σ,w)=some (.next (τ,w)) ∧
      Walking s len (b::acc) (i+1) τ := by
  simp (disch := first | decide | omega) [reverseStringLoop,h.word,h.index,h.result,hcall,
    Host.compute_of_lt,pack_cons hacc]
  constructor <;> simp (disch := decide) [h.word,h.length]

/-- What `upcase` does to a byte. -/
def upByte (b : UInt8) : UInt8 := if 97 ≤ b ∧ b ≤ 122 then b-32 else b

theorem isLower_iff (b : UInt8) :
    ((97#64).sle (ofByte b) && (ofByte b).sle (122#64))=decide (97 ≤ b ∧ b ≤ 122) := by
  have hb := b.toNat_lt
  rw [ofByte,sle_small (by omega) (by omega),sle_small (by omega) (by omega),← Bool.decide_and]
  rfl

theorem ofByte_sub (b : UInt8) (h : 97 ≤ b ∧ b ≤ 122) : ofByte b-32#64=ofByte (b-32) := by
  have hle : 97 ≤ b.toNat := UInt8.le_iff_toNat_le.mp h.1
  have hlt := b.toNat_lt
  have hsub : (b-32).toNat=b.toNat-32 :=
    UInt8.toNat_sub_of_le b 32 (UInt8.le_iff_toNat_le.mpr (Nat.le_trans (by decide) hle))
  apply BitVec.eq_of_toNat_eq
  rw [BitVec.toNat_sub,ofByte,ofByte,toNat_small (by omega),toNat_small (by omega),hsub]
  simp
  omega

theorem upcaseLoop_run (h : Walking s len acc i σ) (hacc : acc.length < 8) (hi : acc.length=i)
    (hcall : call Fn.charAt [s,BitVec.ofNat 64 i] w=some (ofByte b,w)) :
    ∃ τ,Stmt.runAll host call n upcaseLoop (σ,w)=some (.next (τ,w)) ∧
      Walking s len (acc++[upByte b]) (i+1) τ := by
  subst hi
  have hshift : ∀ c,host.compute .SHL (ofByte c) (8#64*BitVec.ofNat 64 acc.length)=
      some (ofByte c <<< (8*acc.length)) := fun c => compute_shl_bytes (ofByte c) hacc
  have hlower := isLower_iff b
  by_cases hletter : 97 ≤ b ∧ b ≤ 122
  · rw [decide_eq_true hletter] at hlower
    rw [upByte,if_pos hletter]
    simp (disch := first | decide | omega) [upcaseLoop,h.word,h.index,h.result,hcall,hlower,
      ofByte_sub b hletter,hshift,pack_snoc hacc]
    constructor <;> simp (disch := decide) [h.word,h.length]
  · rw [decide_eq_false hletter] at hlower
    rw [upByte,if_neg hletter]
    simp (disch := first | decide | omega) [upcaseLoop,h.word,h.index,h.result,hcall,hlower,
      hshift,pack_snoc hacc]
    constructor <;> simp (disch := decide) [h.word,h.length]

end Round

/-- A loop over the first bytes of a word: `acc i` is the string that is packed before byte `i`. -/
theorem walk_loop {s : DataType} {len : Nat} {loop : List Stmt} (acc : Nat → List UInt8)
    (hlen : len ≤ 8)
    (hround : ∀ i σ,i < len → Walking s len (acc i) i σ →
      ∃ τ,Stmt.runAll host call n loop (σ,w)=some (.next (τ,w)) ∧
        Walking s len (acc (i+1)) (i+1) τ)
    (hn : 9 ≤ n) (h : Walking s len (acc 0) 0 σ) :
    ∃ τ,(Stmt.whileLoop (.binaryOperation Var.i .lessThan Var.len) loop).run host call n (σ,w)=
      some (.next (τ,w)) ∧ Walking s len (acc len) len τ := by
  refine Stmt.run_whileLoop_counts (fun i => Walking s len (acc i) i) ?_ hround h
    (Nat.zero_le _) (by omega)
  intro i τ hi hτ
  exact test_less hτ.index hτ.length (by omega) (by omega)

/-- The variables before the loop. -/
theorem walking_start (s : DataType) (len : Nat) :
    Walking s len [] 0 (Function.update (Function.update (Function.update
      (Function.update (fun _ => none) Var.str (some s)) Var.len (some (BitVec.ofNat 64 len)))
      Var.toReturn (some 0#64)) Var.i (some 0#64)) := by
  constructor <;> simp (disch := decide) [pack,Bytes.toNatLE]

theorem reverseString_word {s : DataType}
    (hoversized : strLength s=8 → ∃ c,hostCharAt host s 8#64=some c) (hn : 12 ≤ n) :
    host.call os n Fn.reverseString [s] w=some (pack (firstBytes s (strLength s)).reverse,w) := by
  obtain ⟨m,rfl⟩ : ∃ m,n=m+1 := ⟨n-1,by omega⟩
  have hlen := strLength_le s
  have hstrlen := strlen_call (n := m) (w := w) hoversized (by omega)
  have hround : ∀ i σ,i < strLength s → Walking s (strLength s) (firstBytes s i).reverse i σ →
      ∃ τ,Stmt.runAll host (host.call os m) m reverseStringLoop (σ,w)=some (.next (τ,w)) ∧
        Walking s (strLength s) (firstBytes s (i+1)).reverse (i+1) τ := by
    intro i σ hi hσ
    have hacc : (firstBytes s i).reverse.length < 8 := by
      rw [List.length_reverse,length_firstBytes]
      omega
    rw [firstBytes_succ,List.reverse_concat]
    exact reverseStringLoop_run hσ hacc (charAt_byte (by omega) s (by omega))
  obtain ⟨τ,hrun,hτ⟩ := walk_loop (fun i => (firstBytes s i).reverse) hlen hround (by omega)
    (walking_start s (strLength s))
  rw [Host.call,functionBody_reverseString]
  simp (disch := decide) [reverseString,hstrlen,hrun,hτ.result]

theorem upcase_word {s : DataType}
    (hoversized : strLength s=8 → ∃ c,hostCharAt host s 8#64=some c) (hn : 12 ≤ n) :
    host.call os n Fn.upcase [s] w=some (pack ((firstBytes s (strLength s)).map upByte),w) := by
  obtain ⟨m,rfl⟩ : ∃ m,n=m+1 := ⟨n-1,by omega⟩
  have hlen := strLength_le s
  have hstrlen := strlen_call (n := m) (w := w) hoversized (by omega)
  have hround : ∀ i σ,i < strLength s →
      Walking s (strLength s) ((firstBytes s i).map upByte) i σ →
      ∃ τ,Stmt.runAll host (host.call os m) m upcaseLoop (σ,w)=some (.next (τ,w)) ∧
        Walking s (strLength s) ((firstBytes s (i+1)).map upByte) (i+1) τ := by
    intro i σ hi hσ
    have hacc : ((firstBytes s i).map upByte).length=i := by
      rw [List.length_map,length_firstBytes]
    rw [firstBytes_succ,List.map_append]
    exact upcaseLoop_run hσ (by omega) hacc (charAt_byte (by omega) s (by omega))
  obtain ⟨τ,hrun,hτ⟩ := walk_loop (fun i => (firstBytes s i).map upByte) hlen hround (by omega)
    (walking_start s (strLength s))
  rw [Host.call,functionBody_upcase]
  simp (disch := decide) [upcase,hstrlen,hrun,hτ.result]

theorem IsString.strLength_pack {bs : List UInt8} (h : IsString bs) :
    strLength (pack bs)=bs.length := Os.strLength_pack h.1 h.2

theorem reverseString_call {bs : List UInt8} (h : IsString bs)
    (hoversized : bs.length=8 → ∃ c,hostCharAt host (pack bs) 8#64=some c) (hn : 12 ≤ n) :
    host.call os n Fn.reverseString [pack bs] w=some (pack bs.reverse,w) := by
  rw [reverseString_word (by rwa [h.strLength_pack]) hn,h.strLength_pack,firstBytes_pack h.1]

theorem upcase_call {bs : List UInt8} (h : IsString bs)
    (hoversized : bs.length=8 → ∃ c,hostCharAt host (pack bs) 8#64=some c) (hn : 12 ≤ n) :
    host.call os n Fn.upcase [pack bs] w=some (pack (bs.map upByte),w) := by
  rw [upcase_word (by rwa [h.strLength_pack]) hn,h.strLength_pack,firstBytes_pack h.1]

/-- `bs[max(start,0) : min(stop,8)]`. -/
def sliceString (bs : List UInt8) (start stop : Int) : List UInt8 :=
  (bs.take (min stop 8).toNat).drop (max start 0).toNat

theorem pack_sliceOf {bs : List UInt8} (h : bs.length ≤ 8) (start stop : Int) :
    pack (sliceOf (pack bs) start stop)=pack (sliceString bs start stop) := by
  rw [sliceOf,sliceString,bytes_pack h,List.take_append,List.drop_append,List.take_replicate,
    List.drop_replicate,pack_append_zeros]

theorem IsString.take {bs : List UInt8} (h : IsString bs) (k : Nat) : IsString (bs.take k) :=
  ⟨(List.length_take_le' k bs).trans h.1,fun hmem => h.2 (List.mem_of_mem_take hmem)⟩

theorem IsString.drop {bs : List UInt8} (h : IsString bs) (k : Nat) : IsString (bs.drop k) := by
  have hlen := h.1
  refine ⟨?_,fun hmem => h.2 (List.mem_of_mem_drop hmem)⟩
  rw [List.length_drop]
  omega

theorem IsString.reverse {bs : List UInt8} (h : IsString bs) : IsString bs.reverse :=
  ⟨by rw [List.length_reverse]; exact h.1,fun hmem => h.2 (List.mem_reverse.mp hmem)⟩

/-- A string is split at a position of it. -/
theorem sliceString_split {bs : List UInt8} (h : bs.length ≤ 8) {k : Nat} (hk : k ≤ bs.length) :
    sliceString bs 0 k=bs.take k ∧ sliceString bs k bs.length=bs.drop k := by
  have hstop : (min (k : Int) 8).toNat=k := by omega
  have hstart : (max (k : Int) 0).toNat=k := by omega
  have hend : (min (bs.length : Int) 8).toNat=bs.length := by omega
  refine ⟨?_,?_⟩
  · rw [sliceString,hstop]
    rfl
  · rw [sliceString,hstart,hend,List.take_length]

/-- The functions on strings are those on the packed bytes. -/
theorem string_functions (special : CName → List DataType → ω → Option (DataType × ω)) :
    (∀ a w,IsString a → (Host.modular special).Returns os Fn.strlen [pack a] w
      (BitVec.ofNat 64 a.length) w) ∧
    (∀ a b w,IsString a → IsString b → (Host.modular special).Returns os Fn.strcat
      [pack a,pack b] w (if a.length+b.length ≤ 8 then pack (a++b) else 0) w) ∧
    (∀ a i j w,IsString a → (Host.modular special).Returns os Fn.substring [pack a,i,j] w
      (pack (sliceString a i.toInt j.toInt)) w) ∧
    (∀ a w,IsString a → (Host.modular special).Returns os Fn.reverseString [pack a] w
      (pack a.reverse) w ∧ (Host.modular special).Returns os Fn.reverseString [pack a.reverse] w
      (pack a) w) ∧
    (∀ a w,IsString a → (Host.modular special).Returns os Fn.upcase [pack a] w
      (pack (a.map upByte)) w) ∧
    ∀ a k w,IsString a → k ≤ a.length → ∃ len l r,
      (Host.modular special).Returns os Fn.strlen [pack a] w len w ∧
      (Host.modular special).Returns os Fn.substring [pack a,0,BitVec.ofNat 64 k] w l w ∧
      (Host.modular special).Returns os Fn.substring [pack a,BitVec.ofNat 64 k,len] w r w ∧
      (Host.modular special).Returns os Fn.strcat [l,r] w (pack a) w := by
  have hfull : ∀ a : List UInt8,a.length=8 →
      ∃ c,hostCharAt (Host.modular special) (pack a) 8#64=some c :=
    fun a _ => hostCharAt_modular special _ _
  have hslice : ∀ a i j w n,IsString a → 11 ≤ n →
      (Host.modular special).call os n Fn.substring [pack a,i,j] w=
        some (pack (sliceString a i.toInt j.toInt),w) := by
    intro a i j w n ha hn
    rw [substring_call _ _ _ hn,pack_sliceOf ha.1]
  refine ⟨?_,?_,?_,?_,?_,?_⟩
  · intro a w ha
    exact ⟨11,fun n hn => strlen_pack ha (hfull a) hn⟩
  · intro a b w ha hb
    exact ⟨12,fun n hn => strcat_call ha hb hn special⟩
  · intro a i j w ha
    exact ⟨11,fun n hn => hslice a i j w n ha hn⟩
  · intro a w ha
    have hback := fun n hn =>
      reverseString_call (n := n) (w := w) ha.reverse (hfull a.reverse) hn
    rw [List.reverse_reverse] at hback
    exact ⟨⟨12,fun n hn => reverseString_call ha (hfull a) hn⟩,12,hback⟩
  · intro a w ha
    exact ⟨12,fun n hn => upcase_call ha (hfull a) hn⟩
  · intro a k w ha hk
    have hlen := ha.1
    have hzero : (0 : DataType).toInt=0 := by decide
    obtain ⟨hfront,hback⟩ := sliceString_split hlen hk
    refine ⟨_,pack (a.take k),pack (a.drop k),⟨11,fun n hn => strlen_pack ha (hfull a) hn⟩,
      ⟨11,fun n hn => ?_⟩,⟨11,fun n hn => ?_⟩,⟨12,fun n hn => ?_⟩⟩
    · rw [hslice a _ _ w n ha hn,hzero,toInt_small (by omega),hfront]
    · rw [hslice a _ _ w n ha hn,toInt_small (by omega),toInt_small (by omega),hback]
    · rw [strcat_call (ha.take k) (ha.drop k) hn special,List.take_append_drop,if_pos]
      rw [List.length_take,List.length_drop]
      omega

/-- `ab` and `Cd` are joined, turned round, cut, put in capitals, and taken apart after the `a`. -/
theorem string_functions_letters :
    let host := Host.modular fun _ _ (_ : Unit) => none
    host.Returns os Fn.strcat [pack [97,98],pack [67,100]] () (pack [97,98,67,100]) () ∧
      host.Returns os Fn.reverseString [pack [97,98,67,100]] () (pack [100,67,98,97]) () ∧
      host.Returns os Fn.substring [pack [97,98,67,100],-1,2] () (pack [97,98]) () ∧
      host.Returns os Fn.upcase [pack [97,98,67,100]] () (pack [65,66,67,68]) () ∧
      ∃ len l r,host.Returns os Fn.strlen [pack [97,98,67,100]] () len () ∧
        host.Returns os Fn.substring [pack [97,98,67,100],0,1] () l () ∧
        host.Returns os Fn.substring [pack [97,98,67,100],1,len] () r () ∧
        host.Returns os Fn.strcat [l,r] () (pack [97,98,67,100]) () := by
  have hstring : IsString [97,98,67,100] := ⟨by decide,by decide⟩
  obtain ⟨-,hstrcat,hsubstring,hreverse,hupcase,hsplit⟩ :=
    string_functions fun _ _ (_ : Unit) => none
  exact ⟨hstrcat [97,98] [67,100] () ⟨by decide,by decide⟩ ⟨by decide,by decide⟩,
    (hreverse _ () hstring).1,hsubstring _ (-1) 2 () hstring,hupcase _ () hstring,
    hsplit _ 1 () hstring (by decide)⟩

end Manchester.Os
