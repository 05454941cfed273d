import Manchester.Compiler.Names

namespace Manchester.Compiler

open Assembler

/-- Text that stands between blanks in a line. -/
structure IsWord (w : Name) : Prop where
  nonempty : w ≠ []
  spaceless : ∀ c∈w,isSpace c=false

theorem isWord_of_all {w : Name} (h : (!w.isEmpty && w.all fun c => !isSpace c)=true) :
    IsWord w := by
  obtain ⟨hne,hall⟩ := Bool.and_eq_true_iff.mp h
  refine ⟨fun hnil => by simp [hnil] at hne,fun c hc => ?_⟩
  simpa using List.all_eq_true.mp hall c hc

theorem isSpace_of_isCNameChar {c : Char} (h : isCNameChar c=true) : isSpace c=false := by
  unfold isCNameChar Char.isAlphanum Char.isDigit at h
  delta Char.isAlpha Char.isUpper Char.isLower at h
  simp only [Bool.or_eq_true,Bool.and_eq_true,decide_eq_true_eq,beq_iff_eq,UInt32.le_iff_toNat_le,
    ge_iff_le] at h
  have hbounds : 'A'.val.toNat=65 ∧ 'Z'.val.toNat=90 ∧ 'a'.val.toNat=97 ∧ 'z'.val.toNat=122 ∧
      '0'.val.toNat=48 ∧ '9'.val.toNat=57 := by decide
  have hval : c.val.toNat=c.toNat := rfl
  simp only [hval,hbounds] at h
  have hrange : 48 ≤ c.toNat ∧ c.toNat ≤ 122 := by
    obtain rfl | h := h
    · decide
    · omega
  simp only [isSpace,Bool.or_eq_false_iff,Bool.and_eq_false_iff,decide_eq_false_iff_not,
    beq_eq_false_iff_ne]
  omega

theorem isWord_of_chars {w : Name} (hne : w ≠ []) (h : w.all isCNameChar=true) : IsWord w :=
  ⟨hne,fun c hc => isSpace_of_isCNameChar (List.all_eq_true.mp h c hc)⟩

theorem chars_of_isCName {x : Name} (h : isCName x=true) : x.all isCNameChar=true :=
  CName.chars ⟨x,h⟩

theorem IsVariable.isWord {x : Name} (h : IsVariable x) : IsWord x :=
  isWord_of_chars (List.ne_nil_of_mem h.letter) (chars_of_isCName h.cname)

theorem split_unwords {ws : List Name} (hne : ws ≠ []) (h : ∀ w∈ws,IsWord w) :
    split (unwords ws)=ws := by
  induction ws with
  | nil => exact absurd rfl hne
  | cons w ws ih =>
    have hw := h w (by simp)
    have hfirst : ∀ c∈w,isSpace c=false := hw.spaceless
    cases ws with
    | nil =>
      rw [unwords,split,List.splitOnP_eq_singleton hfirst]
      simp [hw.nonempty]
    | cons w' ws =>
      have hrest := ih (by simp) fun v hv => h v (by simp [hv])
      rw [unwords,split,List.splitOnP_append_cons_of_forall_mem hfirst ' ' (by decide),
        List.filter_cons,← split,hrest]
      simp [hw.nonempty]
      simp

/-- The text of a line begins and ends with a word. -/
theorem unwords_ends {ws : List Name} (hne : ws ≠ []) (h : ∀ w∈ws,IsWord w) :
    (∃ c rest,unwords ws=c::rest ∧ isSpace c=false) ∧
      ∃ front c,unwords ws=front++[c] ∧ isSpace c=false := by
  induction ws with
  | nil => exact absurd rfl hne
  | cons w ws ih =>
    obtain ⟨hw,hspace⟩ := h w (by simp)
    obtain ⟨c,cs,rfl⟩ := List.exists_cons_of_ne_nil hw
    have hc : isSpace c=false := hspace c (by simp)
    cases ws with
    | nil =>
      refine ⟨⟨c,cs,rfl,hc⟩,(c::cs).dropLast,(c::cs).getLast hw,?_,?_⟩
      · exact (List.dropLast_append_getLast hw).symm
      · exact hspace _ (List.getLast_mem hw)
    | cons w' ws =>
      obtain ⟨-,front,d,hback,hd⟩ := ih (by simp) fun v hv => h v (by simp [hv])
      refine ⟨⟨c,cs++ ' '::unwords (w'::ws),rfl,hc⟩,(c::cs)++ ' '::front,d,?_,hd⟩
      rw [unwords,hback]
      · simp
      · simp

theorem strip_unwords {ws : List Name} (hne : ws ≠ []) (h : ∀ w∈ws,IsWord w) :
    strip (unwords ws)=unwords ws := by
  obtain ⟨⟨c,rest,hfront,hc⟩,front,d,hback,hd⟩ := unwords_ends hne h
  have hfirst : (unwords ws).dropWhile isSpace=unwords ws := by
    rw [hfront,List.dropWhile_cons,hc]
    simp
  have hlast : (unwords ws).reverse.dropWhile isSpace=(unwords ws).reverse := by
    rw [hback]
    simp [hd]
  rw [strip,stripChars,hfirst,hlast,List.reverse_reverse]

/-- A line of words, the first of which begins no comment. -/
theorem decodeLine_unwords {w : Name} {ws : List Name} (h : ∀ v∈w::ws,IsWord v)
    (hcomment : w.head? ≠ some '#') :
    decodeLine (unwords (w::ws))=decodeArgs (w::ws) := by
  have hhead : (unwords (w::ws)).head?=w.head? := by
    obtain ⟨c,cs,rfl⟩ := List.exists_cons_of_ne_nil (h w (by simp)).nonempty
    cases ws <;> rfl
  have hempty : (unwords (w::ws)).isEmpty=false := by
    obtain ⟨⟨c,rest,hfront,-⟩,-⟩ := unwords_ends (by simp) h
    rw [hfront]
    rfl
  unfold decodeLine
  rw [strip_unwords (by simp) h]
  show (if (unwords (w::ws)).isEmpty=true ∨ (unwords (w::ws)).head?=some '#' then _ else _)=_
  rw [hhead,hempty,if_neg (by simpa using hcomment),split_unwords (by simp) h]

theorem IsVariable.upper_ne {x : Name} (h : IsVariable x) {w : Name} (hw : '_'∉w) :
    upper x ≠ w := by
  rintro rfl
  exact hw (List.mem_flatMap.mpr ⟨'_',h.underscore,by decide⟩)

theorem IsVariable.head_ne {x : Name} (h : IsVariable x) {c : Char} (hc : isCNameChar c=false) :
    x.head? ≠ some c := by
  intro hhead
  have hmem : c∈x := List.mem_of_mem_head? hhead
  have hchar := List.all_eq_true.mp (chars_of_isCName h.cname) c hmem
  rw [hc] at hchar
  cases hchar

/-- A number has no letter t. -/
theorem digits_letter (base : Nat) (hbase : base ≤ 16) (gap : Bool) (acc : Nat) {x : Name}
    (h : 't'∈x) : digits base gap acc x=none := by
  induction x generalizing gap acc with
  | nil => cases h
  | cons c cs ih =>
    rw [digits]
    obtain rfl | htail := List.mem_cons.mp h
    · have hletter : digitValue base 't'=(some 29).filter fun d => d < base := rfl
      have hvalue : digitValue base 't'=none := by
        rw [hletter]
        simp
        omega
      rw [if_neg (by decide),hvalue]
    · split_ifs
      · rfl
      · exact ih _ _ htail
      · split
        · rfl
        · exact ih _ _ htail

theorem IsVariable.parseArg {x : Name} (h : IsVariable x) : parseArg x=.str x := by
  have hten : intBase10 x=none := by
    unfold intBase10
    split
    · exact absurd rfl (h.head_ne (c := '+') (by decide))
    · exact absurd rfl (h.head_ne (c := '-') (by decide))
    · rw [digits_letter 10 (by decide) true 0 h.letter]
      rfl
  have hhex : hasHexPrefix x=false := by
    have hname := h.cname
    unfold hasHexPrefix
    split
    · simp [isCName] at hname
    · simp [isCName] at hname
    · rfl
  rw [Assembler.parseArg,hten,hhex]
  rfl

theorem digitValue_of_isDigit {c : Char} (h : c.isDigit=true) :
    digitValue 10 c=some (c.toNat- '0'.toNat) := by
  have hbounds : '0'.toNat=48 ∧ '9'.val.toNat=57 := by decide
  have hval : c.val.toNat=c.toNat := rfl
  simp only [Char.isDigit,ge_iff_le,Bool.and_eq_true,decide_eq_true_eq,UInt32.le_iff_toNat_le,
    hval,hbounds] at h
  have hrange : 48 ≤ c.toNat ∧ c.toNat ≤ 57 := h
  have hfind : (decimalZeros.find? fun first => first ≤ c.toNat && c.toNat < first+10)=
      some 0x30 := by
    rw [decimalZeros,List.find?_cons_of_pos]
    simp only [Bool.and_eq_true,decide_eq_true_eq]
    omega
  unfold digitValue
  simp only [hfind,hbounds]
  rw [Option.filter_some,if_pos]
  simp only [decide_eq_true_eq]
  omega

theorem digits_of_isDigit {cs : Name} (h : ∀ c∈cs,c.isDigit=true) (gap : Bool) (acc : Nat)
    (hgap : gap=true → cs ≠ []) : digits 10 gap acc cs=some (Nat.ofDigitChars 10 cs acc) := by
  induction cs generalizing gap acc with
  | nil =>
    cases gap with
    | true => exact absurd rfl (hgap rfl)
    | false => rfl
  | cons c cs ih =>
    have hc := h c (by simp)
    have hunder : c ≠ '_' := by
      rintro rfl
      cases hc
    rw [digits,if_neg hunder,digitValue_of_isDigit hc]
    simp only
    rw [ih (fun d hd => h d (by simp [hd])) false _ (by simp),Nat.ofDigitChars_cons,
      Nat.mul_comm acc]

theorem parseArg_decimal (n : Nat) : parseArg (decimal n)=.int n := by
  have hdigits : ∀ c∈decimal n,c.isDigit=true := fun c hc => decimal_isDigit hc
  have hvalue : digits 10 true 0 (decimal n)=some n := by
    rw [digits_of_isDigit hdigits true 0 fun _ => decimal_ne_nil n]
    exact congrArg some Nat.ofDigitChars_ten_toDigits
  have hten : intBase10 (decimal n)=some (n : Int) := by
    cases hcs : decimal n with
    | nil => exact absurd hcs (decimal_ne_nil n)
    | cons c cs =>
      have hc := hdigits c (by simp [hcs])
      unfold intBase10
      split
      · rename_i heq
        obtain ⟨rfl,-⟩ := List.cons.inj heq
        cases hc
      · rename_i heq
        obtain ⟨rfl,-⟩ := List.cons.inj heq
        cases hc
      · rw [← hcs,hvalue]
        rfl
  rw [parseArg,hten]

theorem isWord_decimal (n : Nat) : IsWord (decimal n) :=
  isWord_of_chars (decimal_ne_nil n) (decimal_chars n)

/-- The text of an operation. -/
structure IsOperation (text : Name) (opcode : Opcode) : Prop where
  word : IsWord text
  opcode : opcodes (upper text)=some opcode

theorem isWord_equals : IsWord ['='] := isWord_of_all (by decide)

section Lines

variable {x y operation : Name} {o : OpcodeType} {a b : Name}

/-- A line that assigns: which statement it is. -/
theorem decodeLine_assign {args : List Name} (hx : IsVariable x)
    (hop : IsOperation operation (.op o)) (hargs : ∀ a∈args,IsWord a) :
    decodeLine (assignLine x operation args)=decodeAssign (x::['=']::operation::args) := by
  have hwords : ∀ v∈x::['=']::operation::args,IsWord v := by
    intro v hv
    simp only [List.mem_cons] at hv
    obtain rfl | rfl | rfl | hv := hv
    · exact hx.isWord
    · exact isWord_equals
    · exact hop.word
    · exact hargs v hv
  rw [assignLine,decodeLine_unwords hwords (hx.head_ne (by decide))]
  have hexport : upper x ≠ "EXPORT".toList := hx.upper_ne (by decide)
  have hextern : upper x ≠ "EXTERN".toList := hx.upper_ne (by decide)
  simp only [decodeArgs,if_neg hexport,if_neg hextern,if_true]

theorem decodeLine_one (hx : IsVariable x) (hop : IsOperation operation (.op o))
    (hinputs : (Opcode.op o).numInputs=1) (ha : IsWord a) :
    decodeLine (assignLine x operation [a])=.ok (.assign x (.op o) (parseArg a) none) := by
  rw [decodeLine_assign hx hop (by simpa using ha),decodeAssign]
  simp [hop.opcode,hinputs]

/-- The first operand is a variable. -/
theorem decodeLine_two (hx : IsVariable x) (hop : IsOperation operation (.op o))
    (hinputs : (Opcode.op o).numInputs=2) (ha : IsVariable a) (hb : IsWord b)
    (hmer : o=.MER → IsVariable b) :
    decodeLine (assignLine x operation [a,b])=
      .ok (.assign x (.op o) (.str a) (some (parseArg b))) := by
  have hwords : ∀ v∈[a,b],IsWord v := by
    intro v hv
    simp only [List.mem_cons,List.not_mem_nil,or_false] at hv
    obtain rfl | rfl := hv
    · exact ha.isWord
    · exact hb
  rw [decodeLine_assign hx hop hwords,decodeAssign]
  have hliteral : ¬(o=.MER ∧ (parseArg b).isInt=true) := by
    intro ⟨ho,hint⟩
    rw [(hmer ho).parseArg] at hint
    cases hint
  simp only [hop.opcode,hinputs,ha.parseArg,Arg.isInt]
  simp
  rintro rfl
  rw [(hmer rfl).parseArg]

theorem stripChars_comma (hx : isCName x=true) : stripChars (· == ',') x=x ∧
    stripChars (· == ',') (x++[','])=x := by
  have hcomma : ∀ c∈x,(c == ',')=false := by
    intro c hc
    have hchar := List.all_eq_true.mp (chars_of_isCName hx) c hc
    by_contra h
    obtain rfl : c= ',' := by simpa using h
    cases hchar
  obtain ⟨c,cs,rfl⟩ : ∃ c cs,x=c::cs := by
    cases x with
    | nil => cases hx
    | cons c cs => exact ⟨c,cs,rfl⟩
  have hfirst : ∀ rest,((c::cs)++rest).dropWhile (· == ',')=(c::cs)++rest := by
    intro rest
    rw [List.cons_append,List.dropWhile_cons,hcomma c (by simp)]
    simp
  have hlast : (c::cs).reverse.dropWhile (· == ',')=(c::cs).reverse := by
    cases hrev : (c::cs).reverse with
    | nil => simp at hrev
    | cons d ds =>
      have hd : d∈c::cs := by
        rw [← List.mem_reverse,hrev]
        simp
      rw [List.dropWhile_cons,hcomma d hd]
      simp
  constructor
  · have h := hfirst []
    rw [List.append_nil] at h
    rw [stripChars,h,hlast,List.reverse_reverse]
  · rw [stripChars,hfirst,List.reverse_append]
    simp only [List.reverse_singleton,List.singleton_append]
    rw [List.dropWhile_cons,if_pos (by decide),hlast,List.reverse_reverse]

theorem isWord_of_isCName (hx : isCName x=true) : IsWord x := by
  refine isWord_of_chars ?_ (chars_of_isCName hx)
  rintro rfl
  cases hx

theorem isWord_comma (hx : isCName x=true) : IsWord (x++[',']) := by
  refine ⟨by simp,?_⟩
  intro c hc
  obtain hc | hc := List.mem_append.mp hc
  · exact (isWord_of_isCName hx).spaceless c hc
  · obtain rfl := List.mem_singleton.mp hc
    decide

/-- A line with two targets; the second one may be the underscore. -/
theorem decodeLine_branch {args : List Name} (hx : IsVariable x) (hy : isCName y=true)
    (hop : operation="BRR".toList ∧ o=.BRR ∨ operation="NTG".toList ∧ o=.NTG)
    (hargs : ∀ a∈args,IsWord a) (hone : args=[a] ∨ args=[a,b]) :
    decodeLine (branchLine x y operation args)=
      .ok (.branch x y (.op o) (parseArg a) (args[1]?.map parseArg)) := by
  have hoperation : IsWord operation := by
    obtain ⟨rfl,-⟩ | ⟨rfl,-⟩ := hop <;> exact isWord_of_all (by decide)
  have hwords : ∀ v∈(x++[','])::y::['=']::operation::args,IsWord v := by
    intro v hv
    simp only [List.mem_cons] at hv
    obtain rfl | rfl | rfl | rfl | hv := hv
    · exact isWord_comma hx.cname
    · exact isWord_of_isCName hy
    · exact isWord_equals
    · exact hoperation
    · exact hargs v hv
  have hupper : ∀ w : Name,'_'∉w → upper (x++[',']) ≠ w := by
    intro w hw
    rintro rfl
    exact hw (List.mem_flatMap.mpr ⟨'_',by simp [hx.underscore],by decide⟩)
  have hcomment : (x++[',']).head? ≠ some '#' := by
    rw [List.head?_append_of_ne_nil _ hx.isWord.nonempty]
    exact hx.head_ne (by decide)
  have hequals : y ≠ ['='] := by
    rintro rfl
    cases hy
  rw [branchLine,decodeLine_unwords hwords hcomment]
  have hexport := hupper "EXPORT".toList (by decide)
  have hextern := hupper "EXTERN".toList (by decide)
  have houtd : upper (x++[',']) ≠ Opcode.OUTD.repr := hupper _ (by decide)
  have houts : upper (x++[',']) ≠ Opcode.OUTS.repr := hupper _ (by decide)
  simp only [decodeArgs,if_neg hexport,if_neg hextern,if_neg hequals,houtd,houts,or_self,if_false]
  have hfirst := (stripChars_comma hx.cname).2
  have hsecond := (stripChars_comma hy).1
  have hlookup : upper operation=(Opcode.op .BRR).repr ∨ upper operation=(Opcode.op .NTG).repr := by
    obtain ⟨rfl,-⟩ | ⟨rfl,-⟩ := hop
    · exact Or.inl (by decide)
    · exact Or.inr (by decide)
  have hopcode : opcodes operation=some (.op o) := by
    obtain ⟨rfl,rfl⟩ | ⟨rfl,rfl⟩ := hop <;> decide
  rw [if_pos hlookup]
  obtain rfl | rfl := hone <;> simp [decodeBranch,hopcode,hfirst,hsecond]

/-- A line that prints. -/
theorem decodeLine_output {o : Opcode} (ha : IsVariable a) (hop : o=.OUTD ∨ o=.OUTS) :
    decodeLine (unwords [o.repr,a])=.ok (.output o (.str a)) := by
  have hequals : a ≠ ['='] := by
    rintro rfl
    exact absurd ha.letter (by decide)
  have hword : IsWord o.repr := by
    obtain rfl | rfl := hop <;> exact isWord_of_all (by decide)
  have hwords : ∀ v∈[o.repr,a],IsWord v := by
    intro v hv
    simp only [List.mem_cons,List.not_mem_nil,or_false] at hv
    obtain rfl | rfl := hv
    · exact hword
    · exact ha.isWord
  have hcomment : o.repr.head? ≠ some '#' := by
    obtain rfl | rfl := hop <;> decide
  have hself : upper o.repr=o.repr := by
    obtain rfl | rfl := hop <;> decide
  have hexport : o.repr ≠ "EXPORT".toList := by
    obtain rfl | rfl := hop <;> decide
  have hextern : o.repr ≠ "EXTERN".toList := by
    obtain rfl | rfl := hop <;> decide
  have hopcode : opcodes o.repr=some o := by
    obtain rfl | rfl := hop <;> decide
  have hspecial : o.repr=Opcode.OUTD.repr ∨ o.repr=Opcode.OUTS.repr := by
    obtain rfl | rfl := hop
    · exact Or.inl rfl
    · exact Or.inr rfl
  rw [decodeLine_unwords hwords hcomment]
  simp only [decodeArgs,hself,if_neg hexport,if_neg hextern,if_neg hequals,if_pos hspecial,hopcode,
    ha.parseArg]
  rfl

end Lines

end Manchester.Compiler
