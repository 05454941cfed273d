import Manchester.Os.Build

namespace Manchester.Os

open Compiler Framework

variable {ω : Type} {host : Host ω} {call : CName → List DataType → ω → Option (DataType × ω)}
  {n : Nat} {σ : Env DataType} {w : ω}

theorem functionBody_pow : functionBody os Fn.pow=some ([Var.n,Var.x],pow) := by rfl

/-- The variables of `pow` after `i` factors. -/
structure Raising (b x : DataType) (i : Nat) (σ : Env DataType) : Prop where
  base : σ Var.n=some b
  exponent : σ Var.x=some x
  result : σ Var.result=some (b^i)
  index : σ Var.i=some (BitVec.ofNat 64 i)

theorem powLoop_run {b x : DataType} {i : Nat} (h : Raising b x i σ) :
    ∃ τ,Stmt.runAll host call n powLoop (σ,w)=some (.next (τ,w)) ∧ Raising b x (i+1) τ := by
  simp (disch := decide) [powLoop,h.base,h.result,h.index,← BitVec.pow_succ]
  constructor <;> simp (disch := decide) [h.base,h.exponent]

variable (host call) in
theorem powLoop_loop {b : DataType} {x : Nat} (hx : x < 2^63) (hn : x < n)
    (h : Raising b (BitVec.ofNat 64 x) 0 σ) :
    ∃ τ,(Stmt.whileLoop (.binaryOperation Var.i .lessThan Var.x) powLoop).run host call n (σ,w)=
      some (.next (τ,w)) ∧ Raising b (BitVec.ofNat 64 x) x τ := by
  refine Stmt.run_whileLoop_counts (Raising b (BitVec.ofNat 64 x)) ?_ ?_ h (Nat.zero_le _) (by omega)
  · intro i τ hi hτ
    exact test_less hτ.index hτ.exponent (by omega) hx
  · intro i τ _ hτ
    exact powLoop_run hτ

theorem pow_call (b : DataType) {x : Nat} (hx : x < 2^63) (hn : x+2 ≤ n) :
    host.call os n Fn.pow [b,BitVec.ofNat 64 x] w=some (b^x,w) := by
  obtain ⟨m,rfl⟩ : ∃ m,n=m+1 := ⟨n-1,by omega⟩
  have hstart : Raising b (BitVec.ofNat 64 x) 0 (Function.update (Function.update
      (Function.update (Function.update (fun _ => none) Var.x (some (BitVec.ofNat 64 x))) Var.n
      (some b)) Var.result (some 1#64)) Var.i (some 0#64)) := by
    constructor <;> simp (disch := decide)
  obtain ⟨τ,hrun,hτ⟩ := powLoop_loop host (host.call os m) (n := m) (w := w) hx (by omega) hstart
  rw [Host.call,functionBody_pow]
  simp (disch := decide) [pow,hrun,hτ.result]

theorem functionBody_atoi : functionBody os Fn.atoi=some ([Var.str],atoi) := by rfl

/-- The sum over the last `j` of the first `len` bytes of a word. -/
def digitSum (s : DataType) (len : Nat) : Nat → DataType
  | 0 => 0
  | j+1 => digitSum s len j+(ofByte (byteAt s (len-1-j))-48#64)*10#64^j

/-- The variables of `atoi` when `m` bytes are left. -/
structure Summing (s : DataType) (m j : Nat) (v : DataType) (σ : Env DataType) : Prop where
  word : σ Var.str=some s
  value : σ Var.value=some v
  index : σ Var.i=some (BitVec.ofNat 64 m-1#64)
  power : σ Var.iter=some (BitVec.ofNat 64 j)

theorem ofNat_succ_sub_one (m : Nat) : BitVec.ofNat 64 (m+1)-1#64=BitVec.ofNat 64 m := by
  rw [← ofNat_add_one,BitVec.add_sub_cancel]

theorem atoiLoop_run {s c p v : DataType} {m j : Nat} (h : Summing s (m+1) j v σ)
    (hchar : call Fn.charAt [s,BitVec.ofNat 64 m] w=some (c,w))
    (hpow : call Fn.pow [10#64,BitVec.ofNat 64 j] w=some (p,w)) :
    ∃ τ,Stmt.runAll host call n atoiLoop (σ,w)=some (.next (τ,w)) ∧
      Summing s m (j+1) (v+(c-48#64)*p) τ := by
  have hindex := h.index
  rw [ofNat_succ_sub_one] at hindex
  simp (disch := decide) [atoiLoop,h.word,h.value,hindex,h.power,hchar,hpow]
  constructor <;> simp (disch := decide) [h.word]

/-- The test of a loop that counts down to 0. -/
theorem test_nonneg {m : Nat} (hindex : σ Var.i=some (BitVec.ofNat 64 m-1#64)) (hm : m < 2^63) :
    (Expr.binaryOperation Var.i .greaterThanOrEqual (number 0)).test host call (σ,w)=
      some (decide (0 < m),σ,w) := by
  cases m with
  | zero => simp [hindex]
  | succ m =>
    rw [ofNat_succ_sub_one] at hindex
    simp (disch := first | decide | omega) [hindex]

theorem atoi_round {s : DataType} {len : Nat} (hlen : len ≤ 8) (hn : 9 ≤ n) (k : Nat)
    (σ : Env DataType) (hinv : k ≤ len ∧ Summing s k (len-k) (digitSum s len (len-k)) σ) :
    LoopRound host (host.call os n) n w (.binaryOperation Var.i .greaterThanOrEqual (number 0))
      atoiLoop (fun k σ => k ≤ len ∧ Summing s k (len-k) (digitSum s len (len-k)) σ)
      (· Var.value=some (digitSum s len len)) k σ := by
  obtain ⟨hk,hσ⟩ := hinv
  have htest : (Expr.binaryOperation Var.i .greaterThanOrEqual (number 0)).test host
      (host.call os n) (σ,w)=some (decide (0 < k),σ,w) := test_nonneg hσ.index (by omega)
  cases k with
  | zero => exact Or.inl ⟨htest,hσ.value⟩
  | succ k =>
    right
    refine ⟨htest,?_⟩
    have hchar : host.call os n Fn.charAt [s,BitVec.ofNat 64 k] w=some (ofByte (byteAt s k),w) :=
      charAt_byte (by omega) s (by omega)
    obtain ⟨τ,hrun,hτ⟩ := atoiLoop_run (n := n) hσ hchar (pow_call _ (by omega) (by omega))
    refine ⟨τ,hrun,k,Nat.lt_succ_self k,Nat.le_of_succ_le hk,?_⟩
    have hnext : len-k=len-(k+1)+1 := by omega
    have hbyte : len-1-(len-(k+1))=k := by omega
    rw [hnext,digitSum,hbyte]
    exact hτ

variable (host) in
theorem atoiLoop_loop {s : DataType} {len : Nat} (hlen : len ≤ 8) (hn : 9 ≤ n)
    (h : Summing s len 0 0 σ) :
    ∃ τ,(Stmt.whileLoop (.binaryOperation Var.i .greaterThanOrEqual (number 0)) atoiLoop).run
      host (host.call os n) n (σ,w)=some (.next (τ,w)) ∧
      τ Var.value=some (digitSum s len len) :=
  Stmt.run_whileLoop_of (atoi_round hlen hn) ⟨le_rfl,by rw [Nat.sub_self]; exact h⟩ (by omega)

theorem atoi_word {s : DataType}
    (hoversized : strLength s=8 → ∃ c,hostCharAt host s 8#64=some c) (hn : 12 ≤ n) :
    host.call os n Fn.atoi [s] w=some (digitSum s (strLength s) (strLength s),w) := by
  obtain ⟨m,rfl⟩ : ∃ m,n=m+1 := ⟨n-1,by omega⟩
  have hlen := strLength_le s
  have hstrlen := strlen_call (n := m) (w := w) hoversized (by omega)
  have hstart : Summing s (strLength s) 0 0 (Function.update (Function.update (Function.update
      (Function.update (Function.update (fun _ => none) Var.str (some s)) Var.value (some 0#64))
      Var.len (some (BitVec.ofNat 64 (strLength s)))) Var.i
      (some (BitVec.ofNat 64 (strLength s)-1#64))) Var.iter (some 0#64)) := by
    constructor <;> simp (disch := decide)
  obtain ⟨τ,hrun,hτ⟩ := atoiLoop_loop host (n := m) (w := w) hlen (by omega) hstart
  rw [Host.call,functionBody_atoi]
  simp (disch := decide) [atoi,hstrlen,hrun,hτ]

/-- The bytes of an ASCII text. -/
def asciiBytes (text : Name) : List UInt8 := text.map fun c => UInt8.ofNat c.toNat

/-- A text of at most eight decimal digits. -/
def IsDecimal (text : Name) : Prop := text.length ≤ 8 ∧ ∀c∈text,c.isDigit=true

theorem digit_bounds {c : Char} (h : c.isDigit=true) : 48 ≤ c.toNat ∧ c.toNat ≤ 57 := by
  simpa [Char.isDigit,UInt32.le_iff_toNat_le] using h

theorem toNat_asciiByte {c : Char} (h : c.isDigit=true) : (UInt8.ofNat c.toNat).toNat=c.toNat := by
  have hbounds := digit_bounds h
  rw [UInt8.toNat_ofNat']
  omega

theorem isString_asciiBytes {text : Name} (h : IsDecimal text) : IsString (asciiBytes text) := by
  refine ⟨by rw [asciiBytes,List.length_map]; exact h.1,?_⟩
  intro hmem
  obtain ⟨c,hc,hzero⟩ := List.mem_map.mp hmem
  have hbounds := digit_bounds (h.2 c hc)
  have hvalue := toNat_asciiByte (h.2 c hc)
  rw [hzero] at hvalue
  simp at hvalue
  omega

theorem ofDigitChars_cons_zero (c : Char) (text : Name) :
    Nat.ofDigitChars 10 (c::text) 0=
      Nat.ofDigitChars 10 text 0+(c.toNat-48)*10^text.length := by
  rw [Nat.ofDigitChars_cons,Nat.ofDigitChars_eq_ofDigitChars_zero,Nat.mul_zero,Nat.zero_add,
    Nat.add_comm,Nat.mul_comm]
  rfl

theorem digit_word {c : Char} (h : c.isDigit=true) :
    ofByte (UInt8.ofNat c.toNat)-48#64=BitVec.ofNat 64 (c.toNat-48) := by
  have hbounds := digit_bounds h
  rw [ofByte,toNat_asciiByte h]
  apply BitVec.eq_of_toNat_eq
  rw [BitVec.toNat_sub,toNat_small (by omega),toNat_small (by omega)]
  simp
  omega

theorem pow_ten (j : Nat) : 10#64^j=BitVec.ofNat 64 (10^j) := by
  induction j with
  | zero => rfl
  | succ j ih => rw [BitVec.pow_succ,ih,pow_succ,BitVec.ofNat_mul]

/-- The last digits of a text make a number of their own. -/
theorem digitSum_asciiBytes {text : Name} (h : IsDecimal text) {j : Nat} (hj : j ≤ text.length) :
    digitSum (pack (asciiBytes text)) text.length j=
      BitVec.ofNat 64 (Nat.ofDigitChars 10 (text.drop (text.length-j)) 0) := by
  induction j with
  | zero =>
    rw [Nat.sub_zero,List.drop_length]
    rfl
  | succ j ih =>
    have hlt : text.length-1-j < text.length := by omega
    have hdigit := h.2 _ (List.getElem_mem hlt)
    have hbyte : byteAt (pack (asciiBytes text)) (text.length-1-j)=
        UInt8.ofNat (text[text.length-1-j]).toNat := by
      rw [byteAt_pack (isString_asciiBytes h).1,asciiBytes,List.getD_eq_getElem _ _ (by simpa),
        List.getElem_map]
    have hstart : text.length-(j+1)=text.length-1-j := by omega
    have hrest : text.length-1-j+1=text.length-j := by omega
    have hlength : (text.drop (text.length-j)).length=j := by
      rw [List.length_drop]
      omega
    rw [digitSum,ih (by omega),hbyte,digit_word hdigit,pow_ten,hstart,List.drop_eq_getElem_cons hlt,
      hrest,ofDigitChars_cons_zero,hlength,BitVec.ofNat_add,BitVec.ofNat_mul]

theorem atoi_text {text : Name} (h : IsDecimal text)
    (hoversized : text.length=8 → ∃ c,hostCharAt host (pack (asciiBytes text)) 8#64=some c)
    (hn : 12 ≤ n) :
    host.call os n Fn.atoi [pack (asciiBytes text)] w=
      some (BitVec.ofNat 64 (Nat.ofDigitChars 10 text 0),w) := by
  have hstring := isString_asciiBytes h
  have hlength : strLength (pack (asciiBytes text))=text.length := by
    rw [strLength_pack hstring.1 hstring.2,asciiBytes,List.length_map]
  have hcall := atoi_word (n := n) (w := w) (by rwa [hlength]) hn
  rwa [hlength,digitSum_asciiBytes h le_rfl,Nat.sub_self] at hcall

theorem isDecimal_decimal {k : Nat} (hk : k < 10^8) : IsDecimal (decimal k) :=
  ⟨(Nat.length_toDigits_le_iff (by decide) (by decide)).mpr hk,fun _ hc => decimal_isDigit hc⟩

/-- `atoi` reads a text of at most eight digits as a decimal number, and so gives back every
number below `10^8` from its digits. -/
theorem atoi_decimal (special : CName → List DataType → ω → Option (DataType × ω)) :
    (∀ (text : Name) (w : ω),text.length ≤ 8 → (∀c∈text,c.isDigit=true) →
      (Host.modular special).Returns os Fn.atoi [pack (asciiBytes text)] w
        (BitVec.ofNat 64 (Nat.ofDigitChars 10 text 0)) w) ∧
    ∀ (k : Nat) (w : ω),k < 10^8 →
      (Host.modular special).Returns os Fn.atoi [pack (asciiBytes (decimal k))] w
        (BitVec.ofNat 64 k) w := by
  have htext : ∀ (text : Name) (w : ω),IsDecimal text →
      (Host.modular special).Returns os Fn.atoi [pack (asciiBytes text)] w
        (BitVec.ofNat 64 (Nat.ofDigitChars 10 text 0)) w :=
    fun text w h => ⟨12,fun n hn => atoi_text h (fun _ => hostCharAt_modular special _ _) hn⟩
  refine ⟨fun text w hlen hdigits => htext text w ⟨hlen,hdigits⟩,?_⟩
  intro k w hk
  have hvalue : Nat.ofDigitChars 10 (decimal k) 0=k := Nat.ofDigitChars_ten_toDigits
  have hcall := htext (decimal k) w (isDecimal_decimal hk)
  rwa [hvalue] at hcall

/-- The text `2020`. -/
theorem atoi_year : (Host.modular fun _ _ (_ : Unit) => none).Returns os Fn.atoi
    [pack (asciiBytes [ '2','0','2','0'])] () 2020#64 () :=
  (atoi_decimal _).1 [ '2','0','2','0'] () (by decide) (List.all_eq_true.mp rfl)

end Manchester.Os
