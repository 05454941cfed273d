import Manchester.Compiler.Hosts
import Manchester.Os.Copy
import Manchester.Os.Number

namespace Manchester.Os

open Compiler Framework

/-- A shift by 64 or more has no outcome. -/
def Host.strict {ω : Type} (special : CName → List DataType → ω → Option (DataType × ω)) :
    Host ω := ⟨fun _ _ _ => none,special⟩

/-- A call returns although no shift by 64 or more is made. -/
def ShiftsDefined {ω : Type} (special : CName → List DataType → ω → Option (DataType × ω))
    (name : CName) (args : List DataType) (w : ω) : Prop :=
  ∃ r w',(Host.strict special).Returns os name args w r w'

/-- Every shift gives something. -/
def AllShifts {ω : Type} (host : Host ω) : Prop :=
  ∀ o a b,o=.SHL ∨ o=.SHR → ∃ c,host.compute o a b=some c

/-- A call that returns wherever every shift gives something makes none by 64 or more just under
this condition. -/
structure DefinedJustWhen {ω : Type}
    (special : CName → List DataType → ω → Option (DataType × ω)) (name : CName)
    (args : List DataType) (w : ω) (condition : Prop) : Prop where
  returns : ∀ host : Host ω,host.special=special → AllShifts host →
    ∃ r w',host.Returns os name args w r w'
  defined : ShiftsDefined special name args w ↔ condition

section Strict

variable {ω : Type} {special : CName → List DataType → ω → Option (DataType × ω)} {n : Nat}
  {σ : Env DataType} {w : ω}

theorem strict_extends (oversized : OpcodeType → DataType → DataType → Option DataType) :
    (Host.strict special).Extends ⟨oversized,special⟩ := by
  refine ⟨?_,rfl⟩
  intro o a b v hv
  rw [Host.compute] at hv ⊢
  split_ifs at hv ⊢ with hover
  · cases hv
  · exact hv

/-- Where all shifts are defined, it does not matter what the others would give. -/
theorem ShiftsDefined.returns {name : CName} {args : List DataType}
    (h : ShiftsDefined special name args w) :
    ∃ r w',∀ oversized,(⟨oversized,special⟩ : Host ω).Returns os name args w r w' := by
  obtain ⟨r,w',hreturns⟩ := h
  exact ⟨r,w',fun oversized => hreturns.extends (strict_extends oversized)⟩

theorem not_shiftsDefined {name : CName} {args : List DataType}
    (h : ∀ n,(Host.strict special).call os n name args w=none) :
    ¬ShiftsDefined special name args w := by
  rintro ⟨r,w',bound,hcall⟩
  have hsome := hcall bound le_rfl
  rw [h bound] at hsome
  cases hsome

theorem DefinedJustWhen.of_calls {name : CName} {args : List DataType} {condition : Prop}
    (hreturns : ∀ host : Host ω,host.special=special → (¬condition → AllShifts host) →
      ∃ n r w',host.call os n name args w=some (r,w'))
    (hfails : ¬condition → ∀ n,(Host.strict special).call os n name args w=none) :
    DefinedJustWhen special name args w condition := by
  constructor
  · intro host hspecial hshifts
    obtain ⟨n,r,w',hcall⟩ := hreturns host hspecial fun _ => hshifts
    exact ⟨r,w',Host.Returns.of_call hcall⟩
  · constructor
    · intro hdefined
      by_contra hnot
      exact not_shiftsDefined (hfails hnot) hdefined
    · intro hcondition
      obtain ⟨n,r,w',hcall⟩ := hreturns (Host.strict special) rfl (absurd hcondition)
      exact ⟨r,w',Host.Returns.of_call hcall⟩

theorem AllShifts.hostCharAt {host : Host ω} (h : AllShifts host) (s i : DataType) :
    ∃ c,hostCharAt host s i=some c := by
  obtain ⟨c,hc⟩ := h .SHR s (i*8#64) (Or.inr rfl)
  exact ⟨c&&&0xff#64,by rw [Os.hostCharAt,hc,Option.map_some]⟩

theorem strict_shift {o : OpcodeType} (ho : o=.SHL ∨ o=.SHR) (a : DataType) {count : DataType}
    (hcount : 64 ≤ count.toNat) : (Host.strict special).compute o a count=none :=
  if_pos ⟨ho,hcount⟩

theorem charAt_behind (n : Nat) (s : DataType) :
    (Host.strict special).call os n Fn.charAt [s,8#64] w=none := by
  cases n with
  | zero => rfl
  | succ n =>
    rw [charAt_call (Nat.succ_pos n),hostCharAt,strict_shift (Or.inr rfl) s (by decide)]
    rfl

theorem charAt_strict (n : Nat) (s : DataType) {i : Nat} (hi : i < 8) :
    (Host.strict special).call os n Fn.charAt [s,BitVec.ofNat 64 i] w=none ∨
      (Host.strict special).call os n Fn.charAt [s,BitVec.ofNat 64 i] w=
        some (ofByte (byteAt s i),w) := by
  cases n with
  | zero => exact Or.inl rfl
  | succ n => exact Or.inr (charAt_byte (Nat.succ_pos n) s hi)

theorem strlenLoop_fails {host : Host ω}
    {call : CName → List DataType → ω → Option (DataType × ω)} {s : DataType} {i : Nat}
    (h : Scan s i 0 σ) (hcall : call Fn.charAt [s,BitVec.ofNat 64 i] w=none) :
    Stmt.runAll host call n strlenLoop (σ,w)=none := by
  simp (disch := decide) [strlenLoop,h.word,h.index,hcall]

variable (special) in
theorem strlenLoop_undefined {s : DataType} (hfull : strLength s=8) (hscan : Scan s 0 0 σ) :
    (Stmt.whileLoop (.binaryOperation Var.done .equals (number 0)) strlenLoop).run
      (Host.strict special) ((Host.strict special).call os n) n (σ,w)=none := by
  refine Stmt.run_whileLoop_stuck (fun st => ∃ i ≤ 8,Scan s i 0 st.1) ?_ ?_
    ⟨0,Nat.zero_le 8,hscan⟩
  · rintro ⟨σ,u⟩ ⟨i,-,hscan⟩
    exact test_done hscan.flag (by decide)
  · rintro ⟨σ,u⟩ ⟨i,hi,hscan⟩
    rcases Nat.lt_or_eq_of_le hi with hlt | rfl
    · rcases charAt_strict n s hlt with hcall | hcall
      · exact Or.inl (strlenLoop_fails hscan hcall)
      · have hne : ¬(ofByte (byteAt s i)=0#64 ∨ i=8) := by
          rw [ofByte_eq_zero_iff,not_or]
          exact ⟨byteAt_ne_zero (by omega),hlt.ne⟩
        obtain ⟨τ,hrun,hτ⟩ := strlenLoop_next (n := n) hscan hcall hi hne
        exact Or.inr ⟨_,hrun,i+1,hlt,hτ⟩
    · exact Or.inl (strlenLoop_fails hscan (charAt_behind n s))

/-- A word of eight bytes that are not zero is read behind its end. -/
theorem strlen_undefined {s : DataType} (hfull : strLength s=8) (n : Nat) :
    (Host.strict special).call os n Fn.strlen [s] w=none := by
  cases n with
  | zero => rfl
  | succ n =>
    have hloop := strlenLoop_undefined special (n := n) (w := w) hfull (scan_start s)
    rw [Host.call,functionBody_strlen]
    simp (disch := decide) [strlen,hloop]

variable (special) in
theorem strcat_undefined {s1 s2 : DataType} (h : ¬(strLength s1 < 8 ∧ strLength s2 < 8))
    (n : Nat) : (Host.strict special).call os n Fn.strcat [s1,s2] w=none := by
  cases n with
  | zero => rfl
  | succ n =>
    have h1 := strLength_le s1
    have h2 := strLength_le s2
    rw [Host.call,functionBody_strcat]
    cases hlen : (Host.strict special).call os n Fn.strlen [s1] w with
    | none => simp (disch := decide) [strcat,hlen]
    | some r =>
      have hshort : strLength s1 ≠ 8 := by
        intro hfull
        rw [strlen_undefined hfull] at hlen
        cases hlen
      have hnone : ∀ u,(Host.strict special).call os n Fn.strlen [s2] u=none :=
        fun u => strlen_undefined (by omega) n
      simp (disch := decide) [strcat,hlen,hnone]

variable (special) in
theorem strstr_undefined {needle : DataType} (hfull : strLength needle=8) (h : DataType) (n : Nat) :
    (Host.strict special).call os n Fn.strstr [h,needle] w=none := by
  cases n with
  | zero => rfl
  | succ n =>
    rw [Host.call,functionBody_strstr]
    simp (disch := decide) [strstr,strlen_undefined hfull]

variable (special) in
theorem reverseString_undefined {s : DataType} (hfull : strLength s=8) (n : Nat) :
    (Host.strict special).call os n Fn.reverseString [s] w=none := by
  cases n with
  | zero => rfl
  | succ n =>
    rw [Host.call,functionBody_reverseString]
    simp (disch := decide) [reverseString,strlen_undefined hfull]

variable (special) in
theorem upcase_undefined {s : DataType} (hfull : strLength s=8) (n : Nat) :
    (Host.strict special).call os n Fn.upcase [s] w=none := by
  cases n with
  | zero => rfl
  | succ n =>
    rw [Host.call,functionBody_upcase]
    simp (disch := decide) [upcase,strlen_undefined hfull]

variable (special) in
theorem atoi_undefined {s : DataType} (hfull : strLength s=8) (n : Nat) :
    (Host.strict special).call os n Fn.atoi [s] w=none := by
  cases n with
  | zero => rfl
  | succ n =>
    rw [Host.call,functionBody_atoi]
    simp (disch := decide) [atoi,strlen_undefined hfull]

theorem strcmpLoop_fails {host : Host ω}
    {call : CName → List DataType → ω → Option (DataType × ω)} {s : DataType} {i : Nat}
    (h : Comparing s s 0 i 0 σ) (hcall : call Fn.charAt [s,BitVec.ofNat 64 i] w=none) :
    Stmt.runAll host call n strcmpLoop (σ,w)=none := by
  simp (disch := decide) [strcmpLoop,h.first,h.index,hcall]

variable (special) in
theorem strcmpLoop_undefined {s : DataType} (hstart : Comparing s s 0 0 0 σ) :
    (Stmt.whileLoop (.binaryOperation Var.done .equals (number 0)) strcmpLoop).run
      (Host.strict special) ((Host.strict special).call os n) n (σ,w)=none := by
  refine Stmt.run_whileLoop_stuck (fun st => ∃ i ≤ 8,Comparing s s 0 i 0 st.1) ?_ ?_
    ⟨0,Nat.zero_le 8,hstart⟩
  · rintro ⟨σ,u⟩ ⟨i,-,hat⟩
    exact test_done hat.flag (by decide)
  · rintro ⟨σ,u⟩ ⟨i,hi,hat⟩
    rcases Nat.lt_or_eq_of_le hi with hlt | rfl
    · rcases charAt_strict n s hlt with hcall | hcall
      · exact Or.inl (strcmpLoop_fails hat hcall)
      · obtain ⟨τ,hrun,hτ⟩ := strcmpLoop_same (n := n) hat hcall hcall (by omega)
        rw [if_neg (by omega)] at hτ
        exact Or.inr ⟨_,hrun,i+1,hlt,hτ⟩
    · exact Or.inl (strcmpLoop_fails hat (charAt_behind n s))

/-- A word is compared with itself to the byte behind its end. -/
theorem strcmp_undefined (s : DataType) (n : Nat) :
    (Host.strict special).call os n Fn.strcmp [s,s] w=none := by
  cases n with
  | zero => rfl
  | succ n =>
    have hloop := strcmpLoop_undefined special (n := n) (w := w) (comparing_start s s)
    rw [Host.call,functionBody_strcmp]
    simp (disch := decide) [strcmp,hloop]

section Round

variable {host : Host ω} {call : CName → List DataType → ω → Option (DataType × ω)}
  {w' : ω} {fd r a : DataType} {i : Nat}

theorem readLineLoop_unread (h : Reading fd r i 0 σ) (hcall : call Fn.READ [fd] w=none) :
    Stmt.runAll host call n readLineLoop (σ,w)=none := by
  simp (disch := decide) [readLineLoop,h.descriptor,hcall]

theorem readLineLoop_fails (h : Reading fd r i 0 σ) (hcall : call Fn.READ [fd] w=some (a,w'))
    (hend : (a == -1#64 || a == 10#64)=false)
    (hshift : host.compute .SHL a (8#64*BitVec.ofNat 64 i)=none) :
    Stmt.runAll host call n readLineLoop (σ,w)=none := by
  simp (disch := decide) [readLineLoop,h.descriptor,h.result,h.index,hcall,hend,hshift,
    -BitVec.reduceNeg]

end Round

end Strict

section Files

variable {n : Nat} {streams : BitVec 32 → Stream} {fd : DataType} {w : Files} {bytes : List UInt8}

theorem readLineLoop_undefined {st : Store Files} (hlength : bytes.length=9)
    (hline : IsLine (streams (fd.setWidth 32)) (w.position (fd.setWidth 32)) bytes)
    (hstart : AtByte fd w bytes 0 st) :
    (Stmt.whileLoop (.binaryOperation Var.done .equals (number 0)) readLineLoop).run
      (Host.strict (fileSpecial streams))
      ((Host.strict (fileSpecial streams)).call os n) n st=none := by
  have hstrict : (Host.strict (fileSpecial streams)).special=fileSpecial streams := rfl
  refine Stmt.run_whileLoop_stuck (fun st => ∃ i ≤ 8,AtByte fd w bytes i st) ?_ ?_
    ⟨0,Nat.zero_le 8,hstart⟩
  · rintro ⟨σ,u⟩ ⟨i,-,hat,-⟩
    exact test_done hat.flag (by decide)
  · rintro ⟨σ,u⟩ ⟨i,hi,hat⟩
    obtain rfl : u=w.advances (fd.setWidth 32) i := hat.2
    cases n with
    | zero => exact Or.inl (readLineLoop_unread hat.1 rfl)
    | succ n =>
      rcases Nat.lt_or_eq_of_le hi with hlt | rfl
      · obtain ⟨t,hrun,ht⟩ := readLineLoop_step (n := n+1) hstrict (Nat.succ_pos n) hline hat
          (by omega) hlt
        exact Or.inr ⟨t,hrun,i+1,hlt,ht⟩
      · obtain ⟨hbyte,hne⟩ := hline.get (i := 8) (by omega)
        have hcall : (Host.strict (fileSpecial streams)).call os (n+1) Fn.READ [fd]
            (w.advances (fd.setWidth 32) 8)=
            some (ofByte bytes[8],w.advances (fd.setWidth 32) 9) := by
          rw [read_at hstrict (Nat.succ_pos n),hbyte,readAnswer_some]
        have hend : (ofByte bytes[8] == -1#64 || ofByte bytes[8] == 10#64)=false := by
          rw [← readAnswer_some,readAnswer_ends]
          exact beq_eq_false_iff_ne.mpr hne
        exact Or.inl (readLineLoop_fails hat.1 hcall hend
          (strict_shift (Or.inl rfl) _ (by decide)))

/-- The ninth byte of a line is shifted by 64. -/
theorem readLine_undefined
    (h : 8 < (takeLine (streams (fd.setWidth 32)) (w.position (fd.setWidth 32)) 9).length)
    (n : Nat) : (Host.strict (fileSpecial streams)).call os n Fn.readLine [fd] w=none := by
  cases n with
  | zero => rfl
  | succ n =>
    have hline := isLine_takeLine (streams (fd.setWidth 32)) (w.position (fd.setWidth 32)) 9
    have hle := length_takeLine_le (streams (fd.setWidth 32)) (w.position (fd.setWidth 32)) 9
    have hloop := readLineLoop_undefined (n := n) (by omega) hline (readLine_start fd w _)
    rw [Host.call,functionBody_readLine]
    simp (disch := decide) [readLine,hloop]

end Files

section Returns

variable {ω : Type} {host : Host ω} {n : Nat} {σ : Env DataType} {w : ω}

theorem strcat_returns {s1 s2 : DataType}
    (h : ¬(strLength s1 < 8 ∧ strLength s2 < 8) → AllShifts host) (hn : 12 ≤ n) :
    ∃ r,host.call os n Fn.strcat [s1,s2] w=some (r,w) := by
  obtain ⟨m,rfl⟩ : ∃ m,n=m+1 := ⟨n-1,by omega⟩
  have hlen1 : host.call os m Fn.strlen [s1] w=some (BitVec.ofNat 64 (strLength s1),w) :=
    strlen_call (fun hfull => (h (by omega)).hostCharAt s1 _) (by omega)
  have hlen2 : host.call os m Fn.strlen [s2] w=some (BitVec.ofNat 64 (strLength s2),w) :=
    strlen_call (fun hfull => (h (by omega)).hostCharAt s2 _) (by omega)
  have hle := strLength_le s1
  obtain ⟨c,hc⟩ : ∃ c,host.compute .SHL s2 (BitVec.ofNat 64 (strLength s1)*8#64)=some c := by
    by_cases hfull : strLength s1=8
    · exact h (by omega) .SHL _ _ (Or.inl rfl)
    · have hcount := ofNat_mul_eight_toNat hle
      rw [Host.compute_of_lt (by omega)]
      exact ⟨_,rfl⟩
  exact ⟨_,strcat_word hle (strLength_le s2) hlen1 hlen2 fun _ => hc⟩

/-- What holds before each test of the second loop of `strstr`, whatever the needle is. -/
def SeekInv (h needle mask : DataType) (k : Nat) (σ : Env DataType) : Prop :=
  (∃ r,σ Var.toReturn=some r) ∧
    ((∃ i ≤ 8,Seeking (h >>> (8*i)) needle mask i σ ∧ σ Var.done=some 0#64 ∧ k=10-i) ∨
      σ Var.done=some 1#64 ∧ k=0)

variable {call : CName → List DataType → ω → Option (DataType × ω)}

theorem seek_round {h needle mask : DataType} (k : Nat) (σ : Env DataType)
    (hinv : SeekInv h needle mask k σ) :
    LoopRound host call n w (.binaryOperation Var.done .equals (number 0)) strstrLoop
      (SeekInv h needle mask) (fun σ => ∃ r,σ Var.toReturn=some r) k σ := by
  rcases hinv with ⟨⟨r,hresult⟩,⟨i,hi,hat,hdone,rfl⟩ | ⟨hdone,rfl⟩⟩
  · right
    refine ⟨test_done hdone (by decide),?_⟩
    cases hmatch : h >>> (8*i)&&&mask == needle with
    | true =>
      obtain ⟨τ,hrun,hfound,hend⟩ := strstrLoop_found (n := n) hat hmatch
      exact ⟨τ,hrun,0,by omega,⟨_,hfound⟩,Or.inr ⟨hend,rfl⟩⟩
    | false =>
      obtain ⟨τ,hrun,hτ,hkept,hend⟩ := strstrLoop_next (n := n) hat hmatch hresult hdone
      by_cases hzero : h >>> (8*i)=0#64
      · rw [beq_iff_eq.mpr hzero] at hend
        exact ⟨τ,hrun,0,by omega,⟨_,hkept⟩,Or.inr ⟨hend,rfl⟩⟩
      · have hlt := lt_of_shifted_ne_zero hi hzero
        rw [beq_eq_false_iff_ne.mpr hzero] at hend
        rw [← BitVec.shiftRight_add] at hτ
        exact ⟨τ,hrun,10-(i+1),by omega,⟨_,hkept⟩,Or.inl ⟨i+1,hlt,hτ,hend,rfl⟩⟩
  · exact Or.inl ⟨test_done hdone (by decide),r,hresult⟩

variable (host call) in
theorem seek_loop {h needle mask : DataType} (hn : 11 ≤ n) (hinv : SeekInv h needle mask 10 σ) :
    ∃ τ,(Stmt.whileLoop (.binaryOperation Var.done .equals (number 0)) strstrLoop).run
      host call n (σ,w)=some (.next (τ,w)) ∧ ∃ r,τ Var.toReturn=some r :=
  Stmt.run_whileLoop_of seek_round hinv (by omega)

theorem strstr_returns {needle : DataType} (h : DataType)
    (hoversized : strLength needle=8 → ∃ c,hostCharAt host needle 8#64=some c) (hn : 13 ≤ n) :
    ∃ r,host.call os n Fn.strstr [h,needle] w=some (r,w) := by
  obtain ⟨m,rfl⟩ : ∃ m,n=m+1 := ⟨n-1,by omega⟩
  have hle := strLength_le needle
  have hstrlen := strlen_call (n := m) (w := w) hoversized (by omega)
  obtain ⟨σ₁,hrun₁,hmask,-⟩ := strstrMaskLoop_loop host (host.call os m) (n := m) (w := w) hle
    (by omega) (mask_start h needle (strLength needle))
  have hsecond : SeekInv h needle (maskWord (strLength needle)) 10 (Function.update
      (Function.update (Function.update σ₁ Var.toReturn (some (-1#64))) Var.done (some 0#64)) Var.i
      (some 0#64)) := by
    refine ⟨⟨-1#64,by simp (disch := decide)⟩,Or.inl ⟨0,by decide,?_,by simp (disch := decide),rfl⟩⟩
    constructor <;> simp (disch := decide) [hmask.haystack,hmask.needle,hmask.mask]
  obtain ⟨σ₂,hrun₂,r,hresult⟩ := seek_loop host (host.call os m) (n := m) (w := w) (by omega)
    hsecond
  refine ⟨r,?_⟩
  rw [Host.call,functionBody_strstr]
  simp (disch := decide) [strstr,hstrlen,hrun₁,hrun₂,hresult,-BitVec.reduceNeg]

theorem readLine_returns {host : Host Files} {streams : BitVec 32 → Stream} {fd : DataType}
    {w : Files} (hfiles : host.special=fileSpecial streams)
    (h : ¬(takeLine (streams (fd.setWidth 32)) (w.position (fd.setWidth 32)) 9).length ≤ 8 →
      AllShifts host) (hn : 11 ≤ n) :
    ∃ r w',host.call os n Fn.readLine [fd] w=some (r,w') := by
  have hline := isLine_takeLine (streams (fd.setWidth 32)) (w.position (fd.setWidth 32)) 9
  by_cases hshort : (takeLine (streams (fd.setWidth 32)) (w.position (fd.setWidth 32)) 9).length ≤ 8
  · have hends := endsLine_takeLine (Nat.lt_succ_of_le hshort)
    exact ⟨_,_,readLine_short hfiles hline hends hshort hn⟩
  · obtain ⟨front,b,hconcat,hlength⟩ := takeLine_nine (Nat.lt_of_not_le hshort)
    rw [hconcat] at hline
    obtain ⟨c,hc⟩ := h hshort .SHL (ofByte b) 64#64 (Or.inl rfl)
    exact ⟨_,_,readLine_long hfiles hlength hline hc hn⟩

end Returns

/-- A host that answers a write, and whose answer may be anything. -/
def writeSpecial {ω : Type} (write : DataType → DataType → ω → DataType × ω) (name : CName)
    (args : List DataType) (w : ω) : Option (DataType × ω) :=
  if name=Fn.WRITE then
    match args with
    | [fd,byte] => some (write fd byte w)
    | _ => none
  else none

section Defined

variable {ω : Type} (special : CName → List DataType → ω → Option (DataType × ω))

variable {special} in
/-- Functions that shift by 64 only where a string of eight bytes is read behind its end. -/
theorem DefinedJustWhen.of_full {name : CName} {args : List DataType} {s : DataType} {w : ω}
    (hreturns : ∀ host : Host ω,(strLength s=8 → ∃ c,hostCharAt host s 8#64=some c) →
      ∃ n r w',host.call os n name args w=some (r,w'))
    (hfails : strLength s=8 → ∀ n,(Host.strict special).call os n name args w=none) :
    DefinedJustWhen special name args w (strLength s < 8) := by
  have hle := strLength_le s
  apply DefinedJustWhen.of_calls
  · intro host _ hshifts
    apply hreturns
    intro hfull
    exact (hshifts (by omega)).hostCharAt s _
  · intro hlong
    exact hfails (by omega)

theorem strlen_definedJustWhen (s : DataType) (w : ω) :
    DefinedJustWhen special Fn.strlen [s] w (strLength s < 8) := by
  apply DefinedJustWhen.of_full
  · intro host hoversized
    exact ⟨11,_,_,strlen_call hoversized le_rfl⟩
  · exact strlen_undefined

theorem strcat_definedJustWhen (s1 s2 : DataType) (w : ω) :
    DefinedJustWhen special Fn.strcat [s1,s2] w (strLength s1 < 8 ∧ strLength s2 < 8) := by
  apply DefinedJustWhen.of_calls
  · intro host _ hshifts
    obtain ⟨r,hcall⟩ := strcat_returns (w := w) hshifts le_rfl
    exact ⟨12,r,w,hcall⟩
  · intro hlong
    exact strcat_undefined special hlong

theorem strcmp_definedJustWhen (s1 s2 : DataType) (w : ω) :
    DefinedJustWhen special Fn.strcmp [s1,s2] w (s1 ≠ s2) := by
  apply DefinedJustWhen.of_calls
  · intro host _ hshifts
    exact ⟨12,_,_,strcmp_call (fun heq => (hshifts (not_not_intro heq)).hostCharAt s1) le_rfl⟩
  · intro hsame
    obtain rfl := not_not.mp hsame
    exact strcmp_undefined s1

theorem strstr_definedJustWhen (h needle : DataType) (w : ω) :
    DefinedJustWhen special Fn.strstr [h,needle] w (strLength needle < 8) := by
  apply DefinedJustWhen.of_full
  · intro host hoversized
    obtain ⟨r,hcall⟩ := strstr_returns (w := w) h hoversized le_rfl
    exact ⟨13,r,w,hcall⟩
  · intro hfull
    exact strstr_undefined special hfull h

theorem substring_definedJustWhen (s start stop : DataType) (w : ω) :
    DefinedJustWhen special Fn.substring [s,start,stop] w True := by
  apply DefinedJustWhen.of_calls
  · intro host _ _
    exact ⟨11,_,_,substring_call s start stop le_rfl⟩
  · intro hnot
    exact absurd trivial hnot

theorem reverseString_definedJustWhen (s : DataType) (w : ω) :
    DefinedJustWhen special Fn.reverseString [s] w (strLength s < 8) := by
  apply DefinedJustWhen.of_full
  · intro host hoversized
    exact ⟨12,_,_,reverseString_word hoversized le_rfl⟩
  · exact reverseString_undefined special

theorem upcase_definedJustWhen (s : DataType) (w : ω) :
    DefinedJustWhen special Fn.upcase [s] w (strLength s < 8) := by
  apply DefinedJustWhen.of_full
  · intro host hoversized
    exact ⟨12,_,_,upcase_word hoversized le_rfl⟩
  · exact upcase_undefined special

theorem atoi_definedJustWhen (s : DataType) (w : ω) :
    DefinedJustWhen special Fn.atoi [s] w (strLength s < 8) := by
  apply DefinedJustWhen.of_full
  · intro host hoversized
    exact ⟨12,_,_,atoi_word hoversized le_rfl⟩
  · exact atoi_undefined special

theorem readLine_definedJustWhen (streams : BitVec 32 → Stream) (fd : DataType) (w : Files) :
    DefinedJustWhen (fileSpecial streams) Fn.readLine [fd] w
      ((takeLine (streams (fd.setWidth 32)) (w.position (fd.setWidth 32)) 9).length ≤ 8) := by
  apply DefinedJustWhen.of_calls
  · intro host hfiles hshifts
    obtain ⟨r,w',hcall⟩ := readLine_returns hfiles hshifts le_rfl
    exact ⟨11,r,w',hcall⟩
  · intro hlong
    exact readLine_undefined (Nat.lt_of_not_le hlong)

theorem writeBytes_definedJustWhen (write : DataType → DataType → ω → DataType × ω)
    (fd s : DataType) {num : DataType} (h8 : num.toInt ≤ 8) (w : ω) :
    DefinedJustWhen (writeSpecial write) Fn.writeBytes [fd,s,num] w True := by
  apply DefinedJustWhen.of_calls
  · intro host hspecial _
    have hwrite : ∀ c w,host.special Fn.WRITE [fd,c] w=some (write fd c w) := by
      intro c w
      rw [hspecial]
      rfl
    exact ⟨10,_,_,writeBytes_call hwrite s h8 le_rfl⟩
  · intro hnot
    exact absurd trivial hnot

end Defined

/-- A string of eight bytes, two equal words and a line of more than eight bytes make the
functions shift by 64; nothing else does. -/
theorem shifts_defined_iff {ω : Type}
    (special : CName → List DataType → ω → Option (DataType × ω))
    (write : DataType → DataType → ω → DataType × ω) (streams : BitVec 32 → Stream) :
    (∀ s w,DefinedJustWhen special Fn.strlen [s] w (strLength s < 8)) ∧
    (∀ s1 s2 w,DefinedJustWhen special Fn.strcat [s1,s2] w
      (strLength s1 < 8 ∧ strLength s2 < 8)) ∧
    (∀ s1 s2 w,DefinedJustWhen special Fn.strcmp [s1,s2] w (s1 ≠ s2)) ∧
    (∀ h needle w,DefinedJustWhen special Fn.strstr [h,needle] w (strLength needle < 8)) ∧
    (∀ s start stop w,DefinedJustWhen special Fn.substring [s,start,stop] w True) ∧
    (∀ s w,DefinedJustWhen special Fn.reverseString [s] w (strLength s < 8)) ∧
    (∀ s w,DefinedJustWhen special Fn.upcase [s] w (strLength s < 8)) ∧
    (∀ s w,DefinedJustWhen special Fn.atoi [s] w (strLength s < 8)) ∧
    (∀ fd w,DefinedJustWhen (fileSpecial streams) Fn.readLine [fd] w
      ((takeLine (streams (fd.setWidth 32)) (w.position (fd.setWidth 32)) 9).length ≤ 8)) ∧
    ∀ fd s num w,num.toInt ≤ 8 →
      DefinedJustWhen (writeSpecial write) Fn.writeBytes [fd,s,num] w True :=
  ⟨strlen_definedJustWhen special,strcat_definedJustWhen special,strcmp_definedJustWhen special,
    strstr_definedJustWhen special,substring_definedJustWhen special,
    reverseString_definedJustWhen special,upcase_definedJustWhen special,
    atoi_definedJustWhen special,readLine_definedJustWhen streams,
    fun fd s _ w h8 => writeBytes_definedJustWhen write fd s h8 w⟩

theorem write_one_byte_defined :
    DefinedJustWhen (writeSpecial fun _ _ (_ : Unit) => (1,())) Fn.writeBytes [1,97,1] () True :=
  (shifts_defined_iff (fun _ _ _ => none) _ fun _ _ => none).2.2.2.2.2.2.2.2.2 1 97 1 () (by decide)

/-- Eight letters `a`. -/
theorem strlen_eight_letters :
    ¬ShiftsDefined (fun _ _ (_ : Unit) => none) Fn.strlen [0x6161616161616161#64] () :=
  not_shiftsDefined (strlen_undefined (by decide))

end Manchester.Os
