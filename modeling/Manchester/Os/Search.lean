import Manchester.Os.Strings

namespace Manchester.Os

open Compiler Framework

/-- The bytes from a position on; there are zeros behind the word. -/
def bytesFrom (h : DataType) (i m : Nat) : List UInt8 :=
  (List.range m).map fun j => byteAt h (i+j)

def OccursAt (h : DataType) (needle : List UInt8) (i : Nat) : Prop :=
  bytesFrom h i needle.length=needle

instance (h : DataType) (needle : List UInt8) (i : Nat) : Decidable (OccursAt h needle i) :=
  inferInstanceAs (Decidable (bytesFrom h i needle.length=needle))

theorem bytesFrom_eq (h : DataType) (i m : Nat) :
    bytesFrom h i m=Bytes.ofNatLE m (h.toNat/256^i) := by
  apply List.ext_getElem?
  intro j
  rw [Bytes.getElem?_ofNatLE,bytesFrom,List.getElem?_map]
  split_ifs with hj
  · rw [List.getElem?_range hj,Option.map_some,byteAt,Nat.div_div_eq_div_mul,pow_add]
  · rw [List.getElem?_eq_none (by simpa using hj),Option.map_none]

/-- An occurrence as the masked comparison of numbers. -/
theorem occursAt_iff (h : DataType) (needle : List UInt8) (i : Nat) :
    OccursAt h needle i ↔ h.toNat/256^i%256^needle.length=Bytes.toNatLE needle := by
  rw [OccursAt,bytesFrom_eq,← Bytes.toNatLE_inj (Bytes.length_ofNatLE _ _),
    Bytes.toNatLE_ofNatLE]

theorem occursAt_nil (h : DataType) (i : Nat) : OccursAt h [] i := rfl

/-- Behind the last byte that is not zero there is only the empty string. -/
theorem not_occursAt_of_zero {h : DataType} {needle : List UInt8} {i : Nat} (hne : 0∉needle)
    (hempty : needle ≠ []) (hzero : h.toNat/256^i=0) : ¬OccursAt h needle i := by
  obtain ⟨b,bs,rfl⟩ := List.exists_cons_of_ne_nil hempty
  intro hocc
  rw [occursAt_iff,hzero,Nat.zero_mod,Bytes.toNatLE] at hocc
  have hb : b=0 := UInt8.toNat_inj.mp (by simpa using (show b.toNat=0 by omega))
  exact hne (by simp [hb])

/-- What a search is to give: the first occurrence. -/
def strstrValue (h : DataType) (needle : List UInt8) : DataType :=
  match (List.range 8).find? fun i => OccursAt h needle i with
  | some i => BitVec.ofNat 64 i
  | none => -1

section Value

variable {h : DataType} {needle : List UInt8} {i : Nat}

theorem occursAt_lt (hne : 0∉needle) (hocc : OccursAt h needle i)
    (hfirst : ∀ j < i,¬OccursAt h needle j) : i < 8 := by
  by_contra hge
  rcases eq_or_ne needle [] with rfl | hempty
  · exact hfirst 0 (by omega) (occursAt_nil h 0)
  · have hpow : 256^8 ≤ 256^i := Nat.pow_le_pow_right (by decide) (by omega)
    have hlt := h.isLt
    exact not_occursAt_of_zero hne hempty (Nat.div_eq_of_lt (by omega)) hocc

theorem strstrValue_found (hne : 0∉needle) (hocc : OccursAt h needle i)
    (hfirst : ∀ j < i,¬OccursAt h needle j) : strstrValue h needle=BitVec.ofNat 64 i := by
  have hfind : (List.range 8).find? (fun i => OccursAt h needle i)=some i := by
    rw [List.find?_range_eq_some]
    simp only [decide_eq_true_eq,List.mem_range]
    exact ⟨hocc,occursAt_lt hne hocc hfirst,fun j hj => by simpa using hfirst j hj⟩
  rw [strstrValue,hfind]

theorem strstrValue_none (hnone : ∀ i,¬OccursAt h needle i) : strstrValue h needle=-1 := by
  have hfind : (List.range 8).find? (fun i => OccursAt h needle i)=none := by
    rw [List.find?_eq_none]
    intro i _
    simpa using hnone i
  rw [strstrValue,hfind]

/-- It is the least position of an occurrence, or -1 if there is none. -/
theorem strstrValue_spec (h : DataType) (hne : 0∉needle) :
    (∃ i < 8,OccursAt h needle i ∧ (∀ j < i,¬OccursAt h needle j) ∧
      strstrValue h needle=BitVec.ofNat 64 i) ∨
    (∀ i,¬OccursAt h needle i) ∧ strstrValue h needle=-1 := by
  by_cases hex : ∃ i,OccursAt h needle i
  · have hocc := Nat.find_spec hex
    have hfirst : ∀ j < Nat.find hex,¬OccursAt h needle j := fun j => Nat.find_min hex
    exact Or.inl ⟨_,occursAt_lt hne hocc hfirst,hocc,hfirst,strstrValue_found hne hocc hfirst⟩
  · have hnone := not_exists.mp hex
    exact Or.inr ⟨hnone,strstrValue_none hnone⟩

end Value

def maskWord (m : Nat) : DataType := BitVec.ofNat 64 (256^m-1)

theorem maskWord_succ {i : Nat} (hi : i < 8) : maskWord i <<< 8|||255#64=maskWord (i+1) := by
  have hpow : 256^(i+1) ≤ 256^8 := Nat.pow_le_pow_right (by decide) hi
  have hpos : 0 < 256^i := Nat.pow_pos (by decide)
  have hsucc : 256^(i+1)=256*256^i := pow_succ' 256 i
  apply BitVec.eq_of_toNat_eq
  have hshift : (maskWord i <<< 8).toNat=(256^i-1) <<< 8 := by
    have hvalue : (maskWord i).toNat=256^i-1 := by
      rw [maskWord,BitVec.toNat_ofNat,Nat.mod_eq_of_lt (by omega)]
    rw [BitVec.toNat_shiftLeft,hvalue,Nat.shiftLeft_eq,Nat.mod_eq_of_lt (by omega)]
  have hlow : (255#64).toNat=255 := by decide
  rw [BitVec.toNat_or,hshift,hlow,← Nat.shiftLeft_add_eq_or_of_lt (by decide),maskWord,
    BitVec.toNat_ofNat,Nat.mod_eq_of_lt (by omega),Nat.shiftLeft_eq]
  omega

theorem and_maskWord {needle : List UInt8} (hlen : needle.length ≤ 8) (h : DataType) (i : Nat) :
    (h >>> (8*i))&&&maskWord needle.length=pack needle ↔ OccursAt h needle i := by
  have hpow : ∀ m,2^(8*m)=256^m := fun m => by rw [Nat.pow_mul]
  have hle : 256^needle.length ≤ 256^8 := Nat.pow_le_pow_right (by decide) hlen
  have hmask : (maskWord needle.length).toNat=2^(8*needle.length)-1 := by
    rw [maskWord,BitVec.toNat_ofNat,hpow,Nat.mod_eq_of_lt (by omega)]
  rw [occursAt_iff,← BitVec.toNat_inj,BitVec.toNat_and,hmask,Nat.and_two_pow_sub_one_eq_mod,
    BitVec.toNat_ushiftRight,Nat.shiftRight_eq_div_pow,hpow,hpow,toNat_pack hlen]

variable {ω : Type} {host : Host ω} {call : CName → List DataType → ω → Option (DataType × ω)}
  {n : Nat} {σ : Env DataType} {w : ω}

theorem functionBody_strstr :
    functionBody os Fn.strstr=some ([Var.haystack,Var.needle],strstr) := by rfl

/-- The variables of `strstr` in both of its loops. -/
structure Seeking (haystack needle mask : DataType) (i : Nat) (σ : Env DataType) : Prop where
  haystack : σ Var.haystack=some haystack
  needle : σ Var.needle=some needle
  mask : σ Var.mask=some mask
  index : σ Var.i=some (BitVec.ofNat 64 i)

theorem test_less {x : CName} {i m : Nat} (hindex : σ Var.i=some (BitVec.ofNat 64 i))
    (hx : σ x=some (BitVec.ofNat 64 m)) (hi : i < 2^63) (hm : m < 2^63) :
    (Expr.binaryOperation Var.i .lessThan x).test host call (σ,w)=
      some (decide (i < m),σ,w) := by
  simp (disch := first | decide | omega) [hindex,hx]

theorem strstrMaskLoop_run {haystack needle : DataType} {m i : Nat}
    (h : Seeking haystack needle (maskWord i) i σ)
    (hlen : σ Var.needleLen=some (BitVec.ofNat 64 m)) (hi : i < 8) :
    ∃ τ,Stmt.runAll host call n strstrMaskLoop (σ,w)=some (.next (τ,w)) ∧
      Seeking haystack needle (maskWord (i+1)) (i+1) τ ∧
      τ Var.needleLen=some (BitVec.ofNat 64 m) := by
  simp (disch := first | decide | omega) [strstrMaskLoop,h.mask,h.index,Host.compute_of_lt,hlen,
    maskWord_succ hi]
  constructor <;> simp (disch := decide) [h.haystack,h.needle]

/-- What holds before each test of the first loop. -/
def MaskInv (haystack needle : DataType) (m i : Nat) (σ : Env DataType) : Prop :=
  Seeking haystack needle (maskWord i) i σ ∧ σ Var.needleLen=some (BitVec.ofNat 64 m)

variable (host call) in
theorem strstrMaskLoop_loop {haystack needle : DataType} {m : Nat} (hm : m ≤ 8) (hn : 9 ≤ n)
    (h : MaskInv haystack needle m 0 σ) :
    ∃ τ,(Stmt.whileLoop (.binaryOperation Var.i .lessThan Var.needleLen) strstrMaskLoop).run
      host call n (σ,w)=some (.next (τ,w)) ∧ MaskInv haystack needle m m τ := by
  refine Stmt.run_whileLoop_counts (MaskInv haystack needle m) ?_ ?_ h (Nat.zero_le m) (by omega)
  · intro i τ hi hτ
    exact test_less hτ.1.index hτ.2 (by omega) (by omega)
  · intro i τ hi hτ
    exact strstrMaskLoop_run hτ.1 hτ.2 (by omega)

/-- The variables before the first loop. -/
theorem mask_start (haystack needle : DataType) (m : Nat) :
    MaskInv haystack needle m 0 (Function.update (Function.update (Function.update
      (Function.update (Function.update (fun _ => none) Var.needle (some needle)) Var.haystack
      (some haystack)) Var.needleLen (some (BitVec.ofNat 64 m))) Var.mask (some 0#64)) Var.i
      (some 0#64)) := by
  refine ⟨?_,by simp (disch := decide)⟩
  constructor <;> simp (disch := decide) [maskWord]

theorem strstrLoop_found {haystack needle mask : DataType} {i : Nat}
    (h : Seeking haystack needle mask i σ) (hmatch : (haystack&&&mask==needle)=true) :
    ∃ τ,Stmt.runAll host call n strstrLoop (σ,w)=some (.next (τ,w)) ∧
      τ Var.toReturn=some (BitVec.ofNat 64 i) ∧ τ Var.done=some 1#64 := by
  cases hzero : haystack==0#64
  · simp (disch := first | decide | omega) [strstrLoop,h.haystack,h.needle,h.mask,h.index,hmatch,
      hzero]
  · simp (disch := first | decide | omega) [strstrLoop,h.haystack,h.needle,h.mask,h.index,hmatch,
      hzero]

theorem strstrLoop_next {haystack needle mask r : DataType} {i : Nat}
    (h : Seeking haystack needle mask i σ) (hmatch : (haystack&&&mask==needle)=false)
    (hresult : σ Var.toReturn=some r) (hdone : σ Var.done=some 0#64) :
    ∃ τ,Stmt.runAll host call n strstrLoop (σ,w)=some (.next (τ,w)) ∧
      Seeking (haystack >>> 8) needle mask (i+1) τ ∧ τ Var.toReturn=some r ∧
      τ Var.done=some (boolData (haystack==0#64)) := by
  cases hzero : haystack==0#64
  · simp (disch := first | decide | omega) [strstrLoop,h.haystack,h.needle,h.mask,h.index,hmatch,
      hzero,Host.compute_of_lt]
    refine ⟨?_,hresult,hdone⟩
    constructor <;> simp (disch := decide) [h.needle,h.mask]
  · simp (disch := first | decide | omega) [strstrLoop,h.haystack,h.needle,h.mask,h.index,hmatch,
      hzero,Host.compute_of_lt]
    refine ⟨?_,hresult,rfl⟩
    constructor <;> simp (disch := decide) [h.needle,h.mask]

/-- What holds before each test of the second loop: nothing was found so far, or the result is
there. -/
def StrstrInv (h : DataType) (needle : List UInt8) (k : Nat) (σ : Env DataType) : Prop :=
  (∃ i ≤ 8,Seeking (h >>> (8*i)) (pack needle) (maskWord needle.length) i σ ∧
    σ Var.toReturn=some (-1) ∧ σ Var.done=some 0#64 ∧ (∀ j < i,¬OccursAt h needle j) ∧ k=10-i) ∨
  σ Var.toReturn=some (strstrValue h needle) ∧ σ Var.done=some 1#64 ∧ k=0

theorem shifted_eq_zero_iff (h : DataType) (i : Nat) : h >>> (8*i)=0#64 ↔ h.toNat/256^i=0 := by
  have hpow : 2^(8*i)=256^i := by rw [Nat.pow_mul]
  rw [← BitVec.toNat_inj,BitVec.toNat_ushiftRight,Nat.shiftRight_eq_div_pow,hpow]
  rfl

theorem lt_of_shifted_ne_zero {h : DataType} {i : Nat} (hi : i ≤ 8)
    (hzero : h >>> (8*i) ≠ 0#64) : i < 8 := by
  apply Nat.lt_of_le_of_ne hi
  rintro rfl
  exact hzero ((shifted_eq_zero_iff h 8).mpr (Nat.div_eq_of_lt h.isLt))

/-- Nothing occurs any more when only zeros are left. -/
theorem not_occursAt_rest {h : DataType} {needle : List UInt8} {i : Nat} (hne : 0∉needle)
    (hzero : h >>> (8*i)=0#64) (hfirst : ∀ j < i+1,¬OccursAt h needle j) (j : Nat) :
    ¬OccursAt h needle j := by
  by_cases hj : j < i+1
  · exact hfirst j hj
  · have hempty : needle ≠ [] := by
      rintro rfl
      exact hfirst i (Nat.lt_succ_self i) (occursAt_nil h i)
    have hpow : 256^i ≤ 256^j := Nat.pow_le_pow_right (by decide) (by omega)
    have hle : h.toNat/256^j ≤ h.toNat/256^i := Nat.div_le_div_left hpow (Nat.pow_pos (by decide))
    rw [(shifted_eq_zero_iff h i).mp hzero] at hle
    exact not_occursAt_of_zero hne hempty (Nat.le_zero.mp hle)

theorem strstr_round {h : DataType} {needle : List UInt8} (hlen : needle.length ≤ 8)
    (hne : 0∉needle) (k : Nat) (σ : Env DataType) (hinv : StrstrInv h needle k σ) :
    LoopRound host call n w (.binaryOperation Var.done .equals (number 0)) strstrLoop
      (StrstrInv h needle) (· Var.toReturn=some (strstrValue h needle)) k σ := by
  rcases hinv with ⟨i,hi,hat,hresult,hdone,hfirst,rfl⟩ | ⟨hresult,hdone,rfl⟩
  · right
    refine ⟨test_done hdone (by decide),?_⟩
    by_cases hocc : OccursAt h needle i
    · have hmatch := (and_maskWord hlen h i).mpr hocc
      obtain ⟨τ,hrun,hfound,hend⟩ := strstrLoop_found (n := n) hat (beq_iff_eq.mpr hmatch)
      rw [← strstrValue_found hne hocc hfirst] at hfound
      exact ⟨τ,hrun,0,by omega,Or.inr ⟨hfound,hend,rfl⟩⟩
    · have hmatch := mt (and_maskWord hlen h i).mp hocc
      obtain ⟨τ,hrun,hτ,hkept,hend⟩ :=
        strstrLoop_next (n := n) hat (beq_eq_false_iff_ne.mpr hmatch) hresult hdone
      refine ⟨τ,hrun,?_⟩
      have hnext : ∀ j < i+1,¬OccursAt h needle j := by
        intro j hj
        rcases Nat.lt_succ_iff_lt_or_eq.mp hj with hlt | rfl
        · exact hfirst j hlt
        · exact hocc
      by_cases hzero : h >>> (8*i)=0#64
      · rw [← strstrValue_none (not_occursAt_rest hne hzero hnext)] at hkept
        rw [beq_iff_eq.mpr hzero] at hend
        exact ⟨0,by omega,Or.inr ⟨hkept,hend,rfl⟩⟩
      · have hlt := lt_of_shifted_ne_zero hi hzero
        rw [beq_eq_false_iff_ne.mpr hzero] at hend
        rw [← BitVec.shiftRight_add] at hτ
        exact ⟨10-(i+1),by omega,Or.inl ⟨i+1,hlt,hτ,hkept,hend,hnext,rfl⟩⟩
  · exact Or.inl ⟨test_done hdone (by decide),hresult⟩

variable (host call) in
theorem strstrLoop_loop {h : DataType} {needle : List UInt8} (hlen : needle.length ≤ 8)
    (hne : 0∉needle) (hn : 11 ≤ n) (hinv : StrstrInv h needle 10 σ) :
    ∃ τ,(Stmt.whileLoop (.binaryOperation Var.done .equals (number 0)) strstrLoop).run
      host call n (σ,w)=some (.next (τ,w)) ∧ τ Var.toReturn=some (strstrValue h needle) :=
  Stmt.run_whileLoop_of (strstr_round hlen hne) hinv (by omega)

theorem strstr_call {h : DataType} {needle : List UInt8} (hlen : needle.length ≤ 8)
    (hne : 0∉needle)
    (hoversized : needle.length=8 → ∃ c,hostCharAt host (pack needle) 8#64=some c) (hn : 13 ≤ n) :
    host.call os n Fn.strstr [h,pack needle] w=some (strstrValue h needle,w) := by
  obtain ⟨m,rfl⟩ : ∃ m,n=m+1 := ⟨n-1,by omega⟩
  have hlength := strLength_pack hlen hne
  have hstrlen : host.call os m Fn.strlen [pack needle] w=
      some (BitVec.ofNat 64 needle.length,w) := by
    rw [← hlength] at hoversized ⊢
    exact strlen_call hoversized (by omega)
  obtain ⟨σ₁,hrun₁,hmask,-⟩ := strstrMaskLoop_loop host (host.call os m) (n := m) (w := w) hlen
    (by omega) (mask_start h (pack needle) needle.length)
  have hsecond : StrstrInv h needle 10 (Function.update (Function.update (Function.update σ₁
      Var.toReturn (some (-1#64))) Var.done (some 0#64)) Var.i (some 0#64)) := by
    refine Or.inl ⟨0,by decide,?_,?_,?_,?_,rfl⟩
    · constructor <;> simp (disch := decide) [hmask.haystack,hmask.needle,hmask.mask]
    · simp (disch := decide)
    · simp (disch := decide)
    · intro j hj
      omega
  obtain ⟨σ₂,hrun₂,hresult⟩ := strstrLoop_loop host (host.call os m) (n := m) (w := w) hlen hne
    (by omega) hsecond
  rw [Host.call,functionBody_strstr]
  simp (disch := decide) [strstr,hstrlen,hrun₁,hrun₂,hresult,-BitVec.reduceNeg]

theorem functionBody_openFile :
    functionBody os Fn.openFile=some ([Var.filename,Var.flags],openFile) := by rfl

def flagName : List UInt8 := [102,108,97,103]

@[simp] theorem flagText_run (s : Store ω) : flagText.run host call s=some (pack flagName,s.2) := by
  have hvalue : flagText.literalValue=some 1734437990 := by decide +kernel
  rw [Expr.run_literal hvalue]
  rfl

theorem byteAt_of_packedName {f : DataType} {i : Nat} {b : UInt8} (h : (packedName f)[i]?=some b) :
    byteAt f i=b := by
  obtain ⟨rest,hrest⟩ := List.takeWhile_prefix (· != 0) (l := Bytes.ofNatLE 8 f.toNat)
  obtain ⟨hi,-⟩ := List.getElem?_eq_some_iff.mp h
  have hget := getElem?_bytes f i
  rw [← hrest,← packedName,List.getElem?_append_left hi,h] at hget
  split_ifs at hget
  exact (Option.some.inj hget).symm

/-- A part of a path is found in the word that holds the path. -/
theorem occursAt_of_part {f : DataType} {needle : List UInt8} (h : needle <:+: packedName f) :
    ∃ i,OccursAt f needle i := by
  obtain ⟨front,back,hpath⟩ := h
  refine ⟨front.length,?_⟩
  apply List.ext_getElem?
  intro j
  by_cases hj : j < needle.length
  · have hbyte : (packedName f)[front.length+j]?=some needle[j] := by
      rw [← hpath,List.append_assoc,List.getElem?_append_right (Nat.le_add_right _ _),
        Nat.add_sub_cancel_left,List.getElem?_append_left hj,List.getElem?_eq_getElem hj]
    rw [bytesFrom,List.getElem?_map,List.getElem?_range hj,Option.map_some,
      byteAt_of_packedName hbyte,List.getElem?_eq_getElem hj]
  · rw [List.getElem?_eq_none (by simpa [bytesFrom] using hj),
      List.getElem?_eq_none (Nat.le_of_not_lt hj)]

theorem openFile_refuses {f : DataType} (hocc : ∃ i,OccursAt f flagName i) (flags : DataType)
    (hn : 14 ≤ n) : host.call os n Fn.openFile [f,flags] w=some (-1,w) := by
  obtain ⟨m,rfl⟩ : ∃ m,n=m+1 := ⟨n-1,by omega⟩
  have hstrstr : host.call os m Fn.strstr [f,pack flagName] w=some (strstrValue f flagName,w) :=
    strstr_call (by decide) (by decide) (fun h => absurd h (by decide)) (by omega)
  have hfound : (strstrValue f flagName != -1#64)=true := by
    have hne : 0∉flagName := by decide
    rcases strstrValue_spec f hne with ⟨i,hi,-,-,hvalue⟩ | ⟨hnone,-⟩
    · rw [hvalue,bne_iff_ne]
      intro heq
      have hnat := congrArg BitVec.toNat heq
      rw [toNat_small (by omega)] at hnat
      simp at hnat
      omega
    · obtain ⟨i,hi⟩ := hocc
      exact absurd hi (hnone i)
  rw [Host.call,functionBody_openFile]
  simp (disch := decide) [openFile,hstrstr,hfound,-BitVec.reduceNeg]

/-- `strstr` finds the least position at which a string without zeros occurs in a word, and -1 if
there is none. `open_file` asks nobody outside, and so never opens a file, when the path that the
machine would open has the name of the flag in it. -/
theorem strstr_guards_open (special : CName → List DataType → ω → Option (DataType × ω)) :
    (∀ (h : DataType) (needle : List UInt8) (w : ω),needle.length ≤ 8 → 0∉needle →
      ∃ r,(Host.modular special).Returns os Fn.strstr [h,pack needle] w r w ∧
        ((∃ i,OccursAt h needle i ∧ (∀ j < i,¬OccursAt h needle j) ∧ r=BitVec.ofNat 64 i) ∨
          (∀ i,¬OccursAt h needle i) ∧ r=-1)) ∧
    ∀ (f flags : DataType) (w : ω),flagName <:+: packedName f →
      (Host.modular special).Returns os Fn.openFile [f,flags] w (-1) w := by
  refine ⟨?_,?_⟩
  · intro h needle w hlen hne
    refine ⟨strstrValue h needle,⟨13,fun n hn =>
      strstr_call hlen hne (fun _ => hostCharAt_modular special _ _) hn⟩,?_⟩
    rcases strstrValue_spec h hne with ⟨i,-,hocc,hfirst,hvalue⟩ | hnone
    · exact Or.inl ⟨i,hocc,hfirst,hvalue⟩
    · exact Or.inr hnone
  · intro f flags w hpath
    exact ⟨14,fun n hn => openFile_refuses (occursAt_of_part hpath) flags hn⟩

/-- The name of the flag occurs in `/flag` at the second byte, and the path is not opened. -/
theorem strstr_guards_open_flag :
    (Host.modular fun _ _ (_ : Unit) => none).Returns os Fn.strstr
        [pack (47::flagName),pack flagName] () 1 () ∧
      (Host.modular fun _ _ (_ : Unit) => none).Returns os Fn.openFile
        [pack (47::flagName),0] () (-1) () := by
  obtain ⟨hsearch,hopen⟩ := strstr_guards_open fun _ _ (_ : Unit) => none
  refine ⟨?_,hopen (pack (47::flagName)) 0 () ⟨[47],[],by decide⟩⟩
  have hfound : OccursAt (pack (47::flagName)) flagName 1 := by decide
  have hnot : ¬OccursAt (pack (47::flagName)) flagName 0 := by decide
  obtain ⟨r,hreturns,⟨i,hi,hfirst,rfl⟩ | ⟨hnone,-⟩⟩ :=
    hsearch (pack (47::flagName)) flagName () (by decide) (by decide)
  · obtain rfl : i=1 := by
      have hle : ¬1 < i := fun h => hfirst 1 h hfound
      have hne : i ≠ 0 := by
        rintro rfl
        exact hnot hi
      omega
    exact hreturns
  · exact absurd hfound (hnone 1)

end Manchester.Os
