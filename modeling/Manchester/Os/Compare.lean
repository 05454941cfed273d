import Manchester.Os.Strings
import Mathlib.Data.List.Lex

namespace Manchester.Os

open Compiler Framework

theorem eq_of_byteAt {s1 s2 : DataType} (h : ∀ i < 8,byteAt s1 i=byteAt s2 i) : s1=s2 := by
  have hbytes : Bytes.ofNatLE 8 s1.toNat=Bytes.ofNatLE 8 s2.toNat := by
    apply List.ext_getElem?
    intro i
    rw [getElem?_bytes,getElem?_bytes]
    split_ifs with hi
    · rw [h i hi]
    · rfl
  have hvalue := congrArg Bytes.toNatLE hbytes
  rw [Bytes.toNatLE_ofNatLE,Bytes.toNatLE_ofNatLE] at hvalue
  apply BitVec.eq_of_toNat_eq
  have h1 := s1.isLt
  have h2 := s2.isLt
  omega

def byteList (w : DataType) : List Nat := (List.range 8).map fun i => (byteAt w i).toNat

theorem byteList_injective : Function.Injective byteList := by
  intro s1 s2 h
  apply eq_of_byteAt
  intro i hi
  have hget := congrArg (·[i]?) h
  simpa [byteList,hi,UInt8.toNat_inj] using hget

theorem byteList_lt {s1 s2 : DataType} {i : Nat} (hi : i < 8)
    (hsame : ∀ j < i,byteAt s1 j=byteAt s2 j) (hlt : byteAt s1 i < byteAt s2 i) :
    byteList s1 < byteList s2 := by
  apply List.lt_iff_exists.mpr
  right
  refine ⟨i,by simpa [byteList] using hi,by simpa [byteList] using hi,?_,?_⟩
  · intro j hj
    simp [byteList,hsame j hj]
  · simpa [byteList] using UInt8.lt_iff_toNat_lt.mp hlt

theorem byte_lt_of_not_lt {a b : UInt8} (h : ¬a < b) (hne : a ≠ b) : b < a := by
  rw [UInt8.lt_iff_toNat_lt] at h ⊢
  have hnat : a.toNat ≠ b.toNat := fun heq => hne (UInt8.toNat_inj.mp heq)
  omega

/-- What a comparison of two words is to give. -/
def strcmpValue (s1 s2 : DataType) : DataType :=
  if byteList s1 < byteList s2 then -1 else if byteList s2 < byteList s1 then 1 else 0

theorem strcmpValue_of_lt {s1 s2 : DataType} (h : byteList s1 < byteList s2) :
    strcmpValue s1 s2=-1 := if_pos h

theorem strcmpValue_of_gt {s1 s2 : DataType} (h : byteList s2 < byteList s1) :
    strcmpValue s1 s2=1 := by
  rw [strcmpValue,if_neg h.asymm,if_pos h]

theorem strcmpValue_self (s : DataType) : strcmpValue s s=0 := by
  rw [strcmpValue,if_neg (lt_irrefl _),if_neg (lt_irrefl _)]

/-- The three answers are those of a linear order. -/
theorem strcmpValue_cases (s1 s2 : DataType) :
    byteList s1 < byteList s2 ∧ strcmpValue s1 s2=-1 ∧ strcmpValue s2 s1=1 ∨ s1=s2 ∨
      byteList s2 < byteList s1 ∧ strcmpValue s1 s2=1 ∧ strcmpValue s2 s1=-1 := by
  rcases lt_trichotomy (byteList s1) (byteList s2) with h | h | h
  · exact Or.inl ⟨h,strcmpValue_of_lt h,strcmpValue_of_gt h⟩
  · exact Or.inr (Or.inl (byteList_injective h))
  · exact Or.inr (Or.inr ⟨h,strcmpValue_of_gt h,strcmpValue_of_lt h⟩)

theorem strcmpValue_eq_zero_iff (s1 s2 : DataType) : strcmpValue s1 s2=0 ↔ s1=s2 := by
  rcases strcmpValue_cases s1 s2 with ⟨hlt,hvalue,-⟩ | rfl | ⟨hgt,hvalue,-⟩
  · rw [hvalue]
    exact iff_of_false (by decide) fun heq => lt_irrefl _ (heq ▸ hlt)
  · exact iff_of_true (strcmpValue_self s1) rfl
  · rw [hvalue]
    exact iff_of_false (by decide) fun heq => lt_irrefl _ (heq ▸ hgt)

theorem strcmpValue_neg (s1 s2 : DataType) : strcmpValue s2 s1=-strcmpValue s1 s2 := by
  rcases strcmpValue_cases s1 s2 with ⟨-,hvalue,hback⟩ | rfl | ⟨-,hvalue,hback⟩
  · rw [hvalue,hback]
    decide
  · rw [strcmpValue_self]
    decide
  · rw [hvalue,hback]

theorem strcmpValue_le_iff (s1 s2 : DataType) :
    (strcmpValue s1 s2).toInt ≤ 0 ↔ byteList s1 ≤ byteList s2 := by
  rcases strcmpValue_cases s1 s2 with ⟨hlt,hvalue,-⟩ | rfl | ⟨hgt,hvalue,-⟩
  · rw [hvalue]
    exact iff_of_true (by decide) hlt.le
  · rw [strcmpValue_self]
    exact iff_of_true (by decide) le_rfl
  · rw [hvalue]
    exact iff_of_false (by decide) hgt.not_ge

theorem strcmpValue_differ {s1 s2 : DataType} {i : Nat} (hi : i < 8)
    (hsame : ∀ j < i,byteAt s1 j=byteAt s2 j) (hne : byteAt s1 i ≠ byteAt s2 i) :
    strcmpValue s1 s2=if byteAt s1 i < byteAt s2 i then -1 else 1 := by
  split_ifs with hlt
  · exact strcmpValue_of_lt (byteList_lt hi hsame hlt)
  · have hgt := byte_lt_of_not_lt hlt hne
    exact strcmpValue_of_gt (byteList_lt hi (fun j hj => (hsame j hj).symm) hgt)

variable {ω : Type} {host : Host ω} {call : CName → List DataType → ω → Option (DataType × ω)}
  {n : Nat} {σ : Env DataType} {w : ω}

theorem functionBody_strcmp : functionBody os Fn.strcmp=some ([Var.s1,Var.s2],strcmp) := by rfl

/-- The variables of `strcmp` at byte `i`. -/
structure Comparing (s1 s2 r : DataType) (i d : Nat) (σ : Env DataType) : Prop where
  first : σ Var.s1=some s1
  second : σ Var.s2=some s2
  result : σ Var.toReturn=some r
  index : σ Var.i=some (BitVec.ofNat 64 i)
  flag : σ Var.done=some (BitVec.ofNat 64 d)

section Round

variable {s1 s2 c1 c2 r : DataType} {i : Nat}

/-- The end of a round, after the two bytes were compared. -/
theorem strcmpLoop_end {σ₁ : Env DataType} {d : Nat}
    (hrun : Stmt.runAll host call n (strcmpLoop.take 4) (σ,w)=some (.next (σ₁,w)))
    (h : Comparing s1 s2 r i d σ₁) (hi : i < 10) :
    ∃ τ,Stmt.runAll host call n strcmpLoop (σ,w)=some (.next (τ,w)) ∧
      Comparing s1 s2 r (i+1) (if 8 < i then 1 else d) τ := by
  rw [← List.take_append_drop 4 strcmpLoop,Stmt.runAll_append,hrun,Outcome.next_andThen]
  by_cases hend : 8 < i
  · simp (disch := first | decide | omega) [strcmpLoop,h.index,hend]
    constructor <;> simp (disch := decide) [h.first,h.second,h.result]
  · simp (disch := first | decide | omega) [strcmpLoop,h.index,hend]
    constructor <;> simp (disch := decide) [h.first,h.second,h.result,h.flag]

theorem strcmpLoop_less (h : Comparing s1 s2 r i 0 σ)
    (hcall1 : call Fn.charAt [s1,BitVec.ofNat 64 i] w=some (c1,w))
    (hcall2 : call Fn.charAt [s2,BitVec.ofNat 64 i] w=some (c2,w)) (hi : i < 10)
    (hlt : c1.slt c2=true) :
    ∃ τ,Stmt.runAll host call n strcmpLoop (σ,w)=some (.next (τ,w)) ∧
      Comparing s1 s2 (-1) (i+1) 1 τ := by
  obtain ⟨σ₁,hrun,h₁⟩ : ∃ σ₁,Stmt.runAll host call n (strcmpLoop.take 4) (σ,w)=
      some (.next (σ₁,w)) ∧ Comparing s1 s2 (-1) i 1 σ₁ := by
    simp (disch := decide) [strcmpLoop,h.first,h.second,h.index,hcall1,hcall2,hlt]
    constructor <;> simp (disch := decide) [h.first,h.second,h.index]
  obtain ⟨τ,hτ,hnext⟩ := strcmpLoop_end hrun h₁ hi
  rw [ite_self] at hnext
  exact ⟨τ,hτ,hnext⟩

theorem strcmpLoop_greater (h : Comparing s1 s2 r i 0 σ)
    (hcall1 : call Fn.charAt [s1,BitVec.ofNat 64 i] w=some (c1,w))
    (hcall2 : call Fn.charAt [s2,BitVec.ofNat 64 i] w=some (c2,w)) (hi : i < 10)
    (hnot : c1.slt c2=false) (hgt : c2.slt c1=true) :
    ∃ τ,Stmt.runAll host call n strcmpLoop (σ,w)=some (.next (τ,w)) ∧
      Comparing s1 s2 1 (i+1) 1 τ := by
  obtain ⟨σ₁,hrun,h₁⟩ : ∃ σ₁,Stmt.runAll host call n (strcmpLoop.take 4) (σ,w)=
      some (.next (σ₁,w)) ∧ Comparing s1 s2 1 i 1 σ₁ := by
    simp (disch := decide) [strcmpLoop,h.first,h.second,h.index,hcall1,hcall2,hnot,hgt]
    constructor <;> simp (disch := decide) [h.first,h.second,h.index]
  obtain ⟨τ,hτ,hnext⟩ := strcmpLoop_end hrun h₁ hi
  rw [ite_self] at hnext
  exact ⟨τ,hτ,hnext⟩

theorem strcmpLoop_same (h : Comparing s1 s2 r i 0 σ)
    (hcall1 : call Fn.charAt [s1,BitVec.ofNat 64 i] w=some (c1,w))
    (hcall2 : call Fn.charAt [s2,BitVec.ofNat 64 i] w=some (c1,w)) (hi : i < 10) :
    ∃ τ,Stmt.runAll host call n strcmpLoop (σ,w)=some (.next (τ,w)) ∧
      Comparing s1 s2 r (i+1) (if 8 < i then 1 else 0) τ := by
  have hnot : c1.slt c1=false := by simp [BitVec.slt]
  apply strcmpLoop_end _ _ hi
  · exact Function.update (Function.update σ Var.char1 (some c1)) Var.char2 (some c1)
  · simp (disch := decide) [strcmpLoop,h.first,h.second,h.index,hcall1,hcall2,hnot]
  · constructor <;> simp (disch := decide) [h.first,h.second,h.result,h.index,h.flag]

end Round

/-- A host on which every shift gives something. -/
def Host.total (v : OpcodeType → DataType → DataType → DataType)
    (special : CName → List DataType → ω → Option (DataType × ω)) : Host ω :=
  ⟨fun o a b => some (v o a b),special⟩

/-- What holds before each test of the loop: no byte differed so far, or the result is there. -/
def StrcmpInv (s1 s2 : DataType) (k : Nat) (σ : Env DataType) : Prop :=
  ∃ i,Comparing s1 s2 0 i 0 σ ∧ i < 10 ∧ (∀ j < i,byteAt s1 j=byteAt s2 j) ∧ k=10-i ∨
    Comparing s1 s2 (strcmpValue s1 s2) i 1 σ ∧ k=0

/-- The bytes behind a word are not looked at unless the words are the same. -/
theorem charAt_both {s1 s2 : DataType} {i : Nat} (hn : 0 < n)
    (hsame : ∀ j < i,byteAt s1 j=byteAt s2 j)
    (htotal : s1=s2 → ∃ c,hostCharAt host s1 (BitVec.ofNat 64 i)=some c) :
    ∃ c1 c2,host.call os n Fn.charAt [s1,BitVec.ofNat 64 i] w=some (c1,w) ∧
      host.call os n Fn.charAt [s2,BitVec.ofNat 64 i] w=some (c2,w) ∧
      (i < 8 ∧ c1=ofByte (byteAt s1 i) ∧ c2=ofByte (byteAt s2 i) ∨ s1=s2 ∧ c1=c2) := by
  by_cases hi : i < 8
  · exact ⟨_,_,charAt_byte hn s1 hi,charAt_byte hn s2 hi,Or.inl ⟨hi,rfl,rfl⟩⟩
  · obtain rfl := eq_of_byteAt fun j hj => hsame j (by omega)
    obtain ⟨c,hc⟩ := htotal rfl
    have hcall : host.call os n Fn.charAt [s1,BitVec.ofNat 64 i] w=some (c,w) := by
      rw [charAt_call hn,hc,Option.map_some]
    exact ⟨c,c,hcall,hcall,Or.inr ⟨rfl,rfl⟩⟩

theorem strcmp_round {s1 s2 : DataType}
    (htotal : s1=s2 → ∀ i,∃ c,hostCharAt host s1 i=some c)
    (hn : 0 < n) (k : Nat) (σ : Env DataType) (hinv : StrcmpInv s1 s2 k σ) :
    LoopRound host (host.call os n) n w (.binaryOperation Var.done .equals (number 0))
      strcmpLoop (StrcmpInv s1 s2) (· Var.toReturn=some (strcmpValue s1 s2)) k σ := by
  rcases hinv with ⟨i,⟨hat,hi,hsame,rfl⟩ | ⟨hat,rfl⟩⟩
  · right
    refine ⟨test_done hat.flag (by decide),?_⟩
    obtain ⟨c1,c2,hcall1,hcall2,hcase⟩ :=
      charAt_both (w := w) hn hsame fun heq => htotal heq (BitVec.ofNat 64 i)
    by_cases hequal : c1=c2
    · subst hequal
      obtain ⟨τ,hrun,hτ⟩ := strcmpLoop_same (n := n) hat hcall1 hcall2 hi
      refine ⟨τ,hrun,?_⟩
      have hnext : ∀ j < i+1,byteAt s1 j=byteAt s2 j := by
        intro j hj
        rcases hcase with ⟨-,h1,h2⟩ | ⟨rfl,-⟩
        · rcases Nat.lt_succ_iff_lt_or_eq.mp hj with hlt | rfl
          · exact hsame j hlt
          · exact (ofByte_eq_iff _ _).mp (h1.symm.trans h2)
        · rfl
      by_cases hend : 8 < i
      · obtain rfl := eq_of_byteAt fun j hj => hnext j (by omega)
        rw [if_pos hend] at hτ
        exact ⟨0,by omega,i+1,Or.inr ⟨by rwa [strcmpValue_self],rfl⟩⟩
      · rw [if_neg hend] at hτ
        exact ⟨10-(i+1),by omega,i+1,Or.inl ⟨hτ,by omega,hnext,rfl⟩⟩
    · obtain ⟨hi8,rfl,rfl⟩ : i < 8 ∧ c1=ofByte (byteAt s1 i) ∧ c2=ofByte (byteAt s2 i) :=
        hcase.resolve_right fun h => hequal h.2
      have hne : byteAt s1 i ≠ byteAt s2 i := fun h => hequal (congrArg ofByte h)
      have hvalue := strcmpValue_differ hi8 hsame hne
      by_cases hlt : byteAt s1 i < byteAt s2 i
      · obtain ⟨τ,hrun,hτ⟩ := strcmpLoop_less (n := n) hat hcall1 hcall2 hi
          ((ofByte_slt _ _).trans (decide_eq_true hlt))
        rw [if_pos hlt] at hvalue
        exact ⟨τ,hrun,0,by omega,i+1,Or.inr ⟨hvalue ▸ hτ,rfl⟩⟩
      · have hgt := byte_lt_of_not_lt hlt hne
        obtain ⟨τ,hrun,hτ⟩ := strcmpLoop_greater (n := n) hat hcall1 hcall2 hi
          ((ofByte_slt _ _).trans (decide_eq_false hlt))
          ((ofByte_slt _ _).trans (decide_eq_true hgt))
        rw [if_neg hlt] at hvalue
        exact ⟨τ,hrun,0,by omega,i+1,Or.inr ⟨hvalue ▸ hτ,rfl⟩⟩
  · exact Or.inl ⟨test_done hat.flag (by decide),hat.result⟩

/-- The variables before the loop. -/
theorem comparing_start (s1 s2 : DataType) :
    Comparing s1 s2 0 0 0 (Function.update (Function.update (Function.update
      (Function.update (Function.update (fun _ => none) Var.s2 (some s2)) Var.s1 (some s1))
      Var.i (some 0#64)) Var.toReturn (some 0#64)) Var.done (some 0#64)) := by
  constructor <;> simp (disch := decide)

theorem strcmp_call {s1 s2 : DataType} (htotal : s1=s2 → ∀ i,∃ c,hostCharAt host s1 i=some c)
    (hn : 12 ≤ n) : host.call os n Fn.strcmp [s1,s2] w=some (strcmpValue s1 s2,w) := by
  obtain ⟨m,rfl⟩ : ∃ m,n=m+1 := ⟨n-1,by omega⟩
  obtain ⟨τ,hrun,hτ⟩ := Stmt.run_whileLoop_of (strcmp_round (n := m) (w := w) htotal (by omega))
    (k := 10) ⟨0,Or.inl ⟨comparing_start s1 s2,by decide,
      fun j hj => absurd hj (Nat.not_lt_zero j),rfl⟩⟩ (by omega)
  rw [Host.call,functionBody_strcmp]
  simp (disch := decide) [strcmp,hrun,hτ]

theorem hostCharAt_total (v : OpcodeType → DataType → DataType → DataType)
    (special : CName → List DataType → ω → Option (DataType × ω)) (s i : DataType) :
    ∃ c,hostCharAt (Host.total v special) s i=some c := by
  rw [hostCharAt,Host.compute]
  split_ifs
  · exact ⟨_,rfl⟩
  · exact ⟨_,rfl⟩

/-- Whatever a shift by 64 or more gives, `strcmp` returns the unsigned order of the first byte in
which the words differ, and 0 of the same word only. It is a total order. -/
theorem strcmp_total_order (v : OpcodeType → DataType → DataType → DataType)
    (special : CName → List DataType → ω → Option (DataType × ω)) :
    (∀ s1 s2 w,
      (Host.total v special).Returns os Fn.strcmp [s1,s2] w (strcmpValue s1 s2) w) ∧
    (∀ s1 s2,strcmpValue s1 s2=0 ↔ s1=s2) ∧
    (∀ s1 s2 i,i < 8 → (∀ j < i,byteAt s1 j=byteAt s2 j) → byteAt s1 i ≠ byteAt s2 i →
      strcmpValue s1 s2=if byteAt s1 i < byteAt s2 i then -1 else 1) ∧
    (∀ s1 s2,strcmpValue s2 s1=-strcmpValue s1 s2) ∧
    (∀ s1 s2,(strcmpValue s1 s2).toInt ≤ 0 ∨ (strcmpValue s2 s1).toInt ≤ 0) ∧
    (∀ s1 s2,(strcmpValue s1 s2).toInt ≤ 0 → (strcmpValue s2 s1).toInt ≤ 0 → s1=s2) ∧
    (∀ s1 s2 s3,(strcmpValue s1 s2).toInt ≤ 0 → (strcmpValue s2 s3).toInt ≤ 0 →
      (strcmpValue s1 s3).toInt ≤ 0) := by
  refine ⟨?_,strcmpValue_eq_zero_iff,fun _ _ _ => strcmpValue_differ,strcmpValue_neg,?_⟩
  · intro s1 s2 w
    exact ⟨12,fun n hn => strcmp_call (fun _ => hostCharAt_total v special s1) hn⟩
  · simp only [strcmpValue_le_iff]
    exact ⟨fun s1 s2 => le_total _ _,fun s1 s2 h h' => byteList_injective (le_antisymm h h'),
      fun s1 s2 s3 h h' => le_trans h h'⟩

/-- `abc` comes before `abd`, and after `ab`. -/
theorem strcmp_total_order_letters :
    (Host.total (fun _ _ _ => 7) fun _ _ (_ : Unit) => none).Returns os Fn.strcmp
        [pack [97,98,99],pack [97,98,100]] () (-1) () ∧
      (Host.total (fun _ _ _ => 7) fun _ _ (_ : Unit) => none).Returns os Fn.strcmp
        [pack [97,98,99],pack [97,98]] () 1 () := by
  obtain ⟨hreturns,-,hdiffer,-⟩ :=
    strcmp_total_order (fun _ _ _ => 7) fun _ _ (_ : Unit) => none
  have hless : strcmpValue (pack [97,98,99]) (pack [97,98,100])=-1 :=
    hdiffer _ _ 2 (by decide) (by decide) (by decide)
  have hmore : strcmpValue (pack [97,98,99]) (pack [97,98])=1 :=
    hdiffer _ _ 2 (by decide) (by decide) (by decide)
  constructor
  · rw [← hless]
    exact hreturns _ _ ()
  · rw [← hmore]
    exact hreturns _ _ ()

end Manchester.Os
