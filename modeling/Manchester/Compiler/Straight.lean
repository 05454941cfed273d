import Manchester.Compiler.Lazy
import Manchester.Compiler.Text
import Manchester.Compiler.Views

namespace Manchester.Compiler

open Assembler Framework Framework.Net

variable {τ α γ : Type} [DecidableEq τ] {dom : Domain τ α γ} {start v : View τ α}
  {t : τ} {live : Bool} {σ : Env α} {outs : List (Option α)} {x a b : Name}
  {o oa ob : Option α}

theorem isOperation_word (text : String) (opcode : Opcode)
    (h : (!text.toList.isEmpty && text.toList.all fun c => !isSpace c)=true ∧
      opcodes (upper text.toList)=some opcode) : IsOperation text.toList opcode :=
  ⟨isWord_of_all h.1,h.2⟩

/-- An assignment of variables and numbers. -/
theorem Fits.assign (h : Fits dom start t live σ outs v) (hx : Fresh v x) (op : OpcodeType)
    {line : Name} {input1 : Arg} {input2 : Option Arg} (hop : op ≠ .RTD)
    (hdecode : decodeLine line=.ok (.assign x (.op op) input1 input2))
    (hnamed : Arg.str ['_']∉input1::input2.toList)
    (hmerged : op=.MER → ∃ x,Arg.str x∈input1::input2.toList)
    (hpiece : ∀ lines,NoLabels lines →
      statementAt lines v.pass.toReturn.length=some (.assign x (.op op) input1 input2) →
        (net dom lines).Piece (lineRules dom lines v.pass.toReturn.length) v.known v.flow
          (one (.name x) t o)) :
    ∃ v',v'.pass=v.pass.emit line ∧ Gives dom start t live σ outs v v' x o := by
  have htargets : ∀ y,Statement.Targets v.pass.toReturn.length (.name y)
      (.assign x (.op op) input1 input2) ↔ y=x := by
    simp [Statement.Targets,targetWires,hx.isVariable.ne_underscore,hop]
  have hmakes : Makes dom v t _ line (one (.name x) t o) := Makes.one hx hdecode
    ⟨by simp [Statement.operands],hnamed,
      fun hmer => hmerged (by simpa [Statement.opcode] using hmer)⟩
    (fun y hy => (htargets y).mp hy) hpiece
  exact ⟨_,rfl,hmakes.gives h hx rfl htargets (one_self _ _ _)⟩

theorem Gives.trans {v' v'' : View τ α} {y : Name} (h : Gives dom start t live σ outs v v' y oa)
    (h' : Gives dom start t live σ outs v' v'' x o) (hy : ¬Fresh v y) :
    Gives dom start t live σ outs v v'' x o :=
  ⟨h.later.trans h'.later,h'.fits,h'.holds,
    fun z hz hne => h'.fresh z (h.fresh z hz fun heq => hy (heq ▸ hz)) hne,
    h'.vars.trans h.vars,h'.guard.trans h.guard⟩

variable [Nonempty γ]

theorem IsVariable.named (ha : IsVariable a) : Arg.str ['_'] ≠ .str a := by
  intro heq
  exact ha.ne_underscore (Arg.str.inj heq).symm

theorem Fits.copy (h : Fits dom start t live σ outs v) (hx : Fresh v x) (ha : IsVariable a)
    (hholds : v.Holds t a o) :
    ∃ v',v'.pass=v.pass.emit (assignLine x "DUP".toList [a]) ∧
      Gives dom start t live σ outs v v' x o := by
  refine h.assign hx .DUP (by decide) ?_ (by simpa using ha.named) (by simp)
    fun lines hlabels hs => piece_copy h.built.given hlabels hs hx.isVariable.ne_underscore
      hx.unknown hholds
  rw [decodeLine_one hx.isVariable (isOperation_word "DUP" (.op .DUP) (by decide)) rfl ha.isWord,
    ha.parseArg]

/-- A number where nothing else has to be waited for. -/
theorem Fits.literal (h : Fits dom start t live σ outs v) (hx : Fresh v x) {num : Name}
    {value : Int} (hword : IsWord num) (hnum : parseArg num=.int value)
    (hscope : v.pass.currentScopeTag=none) :
    ∃ v',v'.pass=v.pass.emit (assignLine x "DUP".toList [num]) ∧
      Gives dom start t live σ outs v v' x (some (dom.literal value)) := by
  have hscoped := h.inScope
  simp only [Scoped,hscope] at hscoped
  obtain ⟨-,hstart,u,hu⟩ := hscoped
  refine h.assign hx .DUP (by decide) ?_ (by simp) (by simp)
    fun lines hlabels hs => piece_literal h.built.given hs hx.isVariable.ne_underscore
      hx.unknown hstart hu
  rw [decodeLine_one hx.isVariable (isOperation_word "DUP" (.op .DUP) (by decide)) rfl hword,hnum]

theorem Fits.tagged (h : Fits dom start t live σ outs v) (hx : Fresh v x) {num : Name}
    {value : Int} {u : α} (hword : IsWord num) (hnum : parseArg num=.int value)
    (ha : IsVariable a) (hholds : v.Holds t a (some u)) (htag : dom.ofTag u=t) :
    ∃ v',v'.pass=v.pass.emit (assignLine x "CTG".toList [a,num]) ∧
      Gives dom start t live σ outs v v' x (some (dom.literal value)) := by
  refine h.assign hx .CTG (by decide) ?_ (by simpa using ha.named) (by simp)
    fun lines hlabels hs => piece_tagged h.built.given hlabels hs hx.isVariable.ne_underscore
      hx.unknown hholds htag
  rw [decodeLine_two hx.isVariable (isOperation_word "CTG" (.op .CTG) (by decide)) rfl ha hword
    (fun heq => by cases heq),hnum]

theorem Op.isOperation {op : Op} {opcode : OpcodeType} (h : op.opcode=some opcode) :
    IsOperation op.toAsm (.op opcode) ∧ (Opcode.op opcode).numInputs=2 := by
  cases op <;> cases h <;> exact ⟨isOperation_word _ _ (by decide),rfl⟩

theorem Op.plain {op : Op} {opcode : OpcodeType} (h : op.opcode=some opcode) :
    (opcode ≠ .BRR ∧ opcode ≠ .NTG ∧ opcode ≠ .RTD) ∧ opcode ≠ .MER := by
  cases op <;> cases h <;> decide

theorem Fits.operator (h : Fits dom start t live σ outs v) (hdom : Faithful dom)
    (hx : Fresh v x) {op : Op} {opcode : OpcodeType} (hop : op.opcode=some opcode)
    (ha : IsVariable a) (hb : IsVariable b) (hholds : v.Holds t a oa) (hholds' : v.Holds t b ob) :
    ∃ v',v'.pass=v.pass.emit (assignLine x op.toAsm [a,b]) ∧
      Gives dom start t live σ outs v v' x (oa.bind fun u => ob.bind (dom.compute opcode u)) := by
  obtain ⟨hplain,hmer⟩ := Op.plain hop
  refine h.assign hx opcode hplain.2.2 ?_ (by simp [ha.named,hb.named])
    (fun _ => ⟨a,by simp⟩)
    fun lines hlabels hs => piece_compute h.built.given hlabels hs (hdom.operator op opcode hop · t)
      hplain hmer hx.isVariable.ne_underscore hx.unknown hholds hholds'
  obtain ⟨hoperation,hinputs⟩ := Op.isOperation hop
  rw [decodeLine_two hx.isVariable hoperation hinputs ha hb.isWord (fun _ => hb),hb.parseArg]

/-- Two names that never both have a token become one. -/
theorem Fits.merge (h : Fits dom start t live σ outs v) (hx : Fresh v x) (ha : IsVariable a)
    (hb : IsVariable b) (hholds : v.Holds t a oa) (hholds' : v.Holds t b ob)
    (hapart : oa=none ∨ ob=none) :
    ∃ v',v'.pass=v.pass.emit (assignLine x "MER".toList [a,b]) ∧
      Gives dom start t live σ outs v v' x (oa.or ob) := by
  refine h.assign hx .MER (by decide) ?_ (by simp [ha.named,hb.named])
    (fun _ => ⟨a,by simp⟩)
    fun lines hlabels hs => piece_merge h.built.given hlabels hs hx.isVariable.ne_underscore
      hx.unknown hholds hholds' hapart
  rw [decodeLine_two hx.isVariable (isOperation_word "MER" (.op .MER) (by decide)) rfl ha hb.isWord
    (fun _ => hb),hb.parseArg]

theorem decode_branch {y : Name} (hx : IsVariable x) (hy : isCName y=true) (ha : IsVariable a)
    (hb : IsVariable b) : decodeLine (branchLine x y "BRR".toList [a,b])=
      .ok (.branch x y (.op .BRR) (.str a) (some (.str b))) := by
  rw [decodeLine_branch (a := a) (b := b) hx hy (Or.inl ⟨rfl,rfl⟩)
    (by simp [ha.isWord,hb.isWord]) (Or.inr rfl),ha.parseArg]
  simp [hb.parseArg]

theorem regular_branch {y : Name} (ha : IsVariable a) (hb : IsVariable b) :
    (Statement.branch x y (.op .BRR) (.str a) (some (.str b))).Regular :=
  ⟨by simp [Statement.operands],by simp [Statement.operands,ha.named,hb.named],
    by simp [Statement.opcode]⟩

/-- A token that is dropped if a branch is not live. -/
theorem Fits.guard (h : Fits dom start t live σ outs v) (hx : Fresh v x) (ha : IsVariable a)
    (hb : IsVariable b) (hholds : v.Holds t a oa) (hholds' : v.Holds t b ob) :
    ∃ v',v'.pass=v.pass.emit (branchLine x ['_'] "BRR".toList [a,b]) ∧
      Gives dom start t live σ outs v v' x (if ob.any dom.truth then oa else none) := by
  have htargets : ∀ y,Statement.Targets v.pass.toReturn.length (.name y)
      (.branch x ['_'] (.op .BRR) (.str a) (some (.str b))) ↔ y=x := by
    simp [Statement.Targets,targetWires,hx.isVariable.ne_underscore]
  have hpiece : ∀ lines,NoLabels lines → statementAt lines v.pass.toReturn.length=
      some (.branch x ['_'] (.op .BRR) (.str a) (some (.str b))) →
        (net dom lines).Piece (lineRules dom lines v.pass.toReturn.length) v.known v.flow
          (one (.name x) t (if ob.any dom.truth then oa else none)) := by
    intro lines hlabels hs
    have hpiece : (net dom lines).Piece (lineRules dom lines _) v.known v.flow _ :=
      piece_branch h.built.given hlabels hs hx.isVariable.ne_underscore hx.unknown
      (fun hne => absurd rfl hne) hholds hholds'
    rwa [if_pos rfl,Flow.or_empty] at hpiece
  have hmakes := Makes.one hx (decode_branch hx.isVariable rfl ha hb) (regular_branch ha hb)
    (fun y hy => (htargets y).mp hy) hpiece
  exact ⟨_,rfl,hmakes.gives h hx rfl htargets (one_self _ _ _)⟩

/-- The ETG of a scope that has been put off. -/
theorem Fits.firstCall (h : Fits dom start t live σ outs v) (hdom : Faithful dom) {tag line : Name}
    (hscope : v.pass.currentScopeTag=some tag)
    (hfirst : v.pass.firstCallToCurrentScopeTag=some line) :
    ∃ v',v'.pass={v.pass.emit line with firstCallToCurrentScopeTag := none} ∧
      View.Later v v' ∧ Fits dom start t live σ outs v' ∧ ∀ y,Fresh v y → Fresh v' y := by
  have hscoped := h.inScope
  simp only [Scoped,hscope,hfirst] at hscoped
  obtain ⟨hvariable,hunknown,hstamp,a,u,rfl,ha,hu⟩ := hscoped
  let v1 := v.withPass {v.pass with firstCallToCurrentScopeTag := none}
  have hbuilt : Built dom start t outs v1 := h.built.withPass rfl le_rfl
  have hfresh : Fresh v1 tag :=
    ⟨hvariable,hunknown,hstamp,by simp [v1,View.withPass,Pass.pendingTag]⟩
  have hholds : v1.Holds t a (some u) := Holds.later hu (v.later_num _ le_rfl)
  have hdecode : decodeLine (assignLine tag "ETG".toList [a])=
      .ok (.assign tag (.op .ETG) (.str a) none) := by
    rw [decodeLine_one hvariable (isOperation_word "ETG" (.op .ETG) (by decide)) rfl ha.isWord,
      ha.parseArg]
  have htargets : ∀ y,Statement.Targets v1.pass.toReturn.length (.name y)
      (.assign tag (.op .ETG) (.str a) none) → y=tag := by
    simp [Statement.Targets,targetWires,hvariable.ne_underscore]
  let P : Flow Wire τ α := one (.name tag) t ((some u).map fun _ => dom.tagOf t)
  have hmakes : Makes dom v1 t _ _ P := Makes.one hfresh hdecode
    ⟨by simp [Statement.operands],by simpa [Statement.operands] using ha.named,
      by simp [Statement.opcode]⟩ htargets fun lines hlabels hs =>
        piece_etg hbuilt.given hlabels hs hvariable.ne_underscore hunknown hholds
  let v2 := v1.add (.assign tag (.op .ETG) (.str a) none) (assignLine tag "ETG".toList [a]) P
  have hadd : Built dom start t (outs++[]) v2 := hbuilt.add hmakes [] (by simp [prints])
  rw [List.append_nil] at hadd
  have hlater : View.Later v v2 := (v.later_num v1.pass le_rfl).trans (hmakes.later hbuilt)
  have hnew : v2.Holds t tag (some (dom.tagOf t)) := by
    refine ⟨hvariable.ne_underscore,Or.inr ?_,?_⟩
    · simp [Statement.Targets,targetWires,hvariable.ne_underscore]
    · rw [flow_new hbuilt hunknown]
      exact one_self _ _ _
  have hscoped : Scoped dom t v2 := by
    have hfields : v2.pass.currentScopeTag=some tag ∧
        v2.pass.firstCallToCurrentScopeTag=none := ⟨hscope,rfl⟩
    simp only [Scoped,hfields]
    exact ⟨hvariable,_,hnew,hdom.tag t⟩
  refine ⟨v2,rfl,hlater,⟨hadd,hscoped,h.guarded.later hlater rfl,h.defines.later hlater⟩,?_⟩
  intro y hy
  have hne : y ≠ tag := by
    rintro rfl
    exact hy.notPending (by simp [Pass.pendingTag,hfirst,hscope])
  have hy1 : Fresh v1 y :=
    ⟨hy.isVariable,hy.unknown,hy.stamped,by simp [v1,View.withPass,Pass.pendingTag]⟩
  exact hy1.add fun htarget => hne (htargets y htarget)

/-- The number that a literal is when it is given as text. -/
structure IsNumber (num : Name) (value : Int) : Prop where
  word : IsWord num
  parse : parseArg num=.int value

theorem Fits.scopedLiteral (h : Fits dom start t live σ outs v) (hdom : Faithful dom)
    (hx : Fresh v x) {num : Name} {value : Int} (hnum : IsNumber num value) :
    ∃ v',v'.pass=v.pass.scopedLiteral num x ∧
      Gives dom start t live σ outs v v' x (some (dom.literal value)) := by
  unfold Pass.scopedLiteral
  cases hscope : v.pass.currentScopeTag with
  | none => exact h.literal hx hnum.word hnum.parse hscope
  | some tag =>
    have htag : ∀ {w : View τ α},Fits dom start t live σ outs w → w.pass.currentScopeTag=some tag →
        w.pass.firstCallToCurrentScopeTag=none → Fresh w x →
          ∃ v',v'.pass=w.pass.emit (assignLine x "CTG".toList [tag,num]) ∧
            Gives dom start t live σ outs w v' x (some (dom.literal value)) := by
      intro w hw hscope' hfirst' hx'
      have hscoped := hw.inScope
      simp only [Scoped,hscope',hfirst'] at hscoped
      obtain ⟨hvariable,u,hu,hof⟩ := hscoped
      exact hw.tagged hx' hnum.word hnum.parse hvariable hu hof
    cases hfirst : v.pass.firstCallToCurrentScopeTag with
    | none => exact htag h hscope hfirst hx
    | some line =>
      obtain ⟨v1,hv1,hlater,hfits,hfresh⟩ := h.firstCall hdom hscope hfirst
      obtain ⟨v2,hv2,hgives⟩ := htag hfits (by rw [hv1]; exact hscope) (by rw [hv1]) (hfresh x hx)
      refine ⟨v2,by rw [hv2,hv1],hlater.trans hgives.later,hgives.fits,hgives.holds,
        fun y hy hne => hgives.fresh y (hfresh y hy) hne,?_,?_⟩
      · rw [hgives.vars,hv1]
        rfl
      · rw [hgives.guard,hv1]
        rfl

/-- A number has a value where it is live. -/
theorem Fits.createNumLiteral (h : Fits dom start t live σ outs v) (hdom : Faithful dom)
    (hx : Fresh v x) {num : Name} {value : Int} (hnum : IsNumber num value) :
    ∃ v',v'.pass=v.pass.createNumLiteral num x ∧
      Gives dom start t live σ outs v v' x (if live then some (dom.literal value) else none) := by
  have hguarded := h.guarded
  unfold Guarded at hguarded
  unfold Pass.createNumLiteral
  cases hguard : v.pass.currentConditionalTrueVar with
  | none =>
    simp only [hguard] at hguarded
    obtain rfl := hguarded
    simpa using h.scopedLiteral hdom hx hnum
  | some guard =>
    simp only [hguard] at hguarded
    obtain ⟨hvariable,og,hholds,rfl⟩ := hguarded
    have hstamp : stamp (tmp (v.pass.num+1))=some (v.pass.num+1) := stamp_tmp [] _
    have hunguarded : IsVariable (tmp (v.pass.num+1)) :=
    isVariable_end (p := []) _ (Or.inl rfl)
    have hnew := h.fresh hunguarded hstamp
    obtain ⟨v1,hv1,h1⟩ := h.bump.scopedLiteral hdom hnew hnum
    have hne : x ≠ tmp (v.pass.num+1) := hx.ne_new hstamp
    obtain ⟨v2,hv2,h2⟩ := h1.fits.guard (h1.fresh x hx.bump hne) hunguarded hvariable h1.holds
      (Holds.later hholds (v.bump_later.trans h1.later))
    refine ⟨v2,by rw [hv2,hv1]; rfl,(v.bump_later.trans h1.later).trans h2.later,h2.fits,h2.holds,
      fun y hy hy' => h2.fresh y (h1.fresh y hy.bump (hy.ne_new hstamp)) hy',h2.vars.trans h1.vars,
      h2.guard.trans h1.guard⟩

theorem isNumber_decimal (n : Nat) : IsNumber (decimal n) n := ⟨isWord_decimal n,parseArg_decimal n⟩

theorem isSpace_of_isDigit {c : Char} (h : c.isDigit=true) : isSpace c=false :=
  isSpace_of_isCNameChar (by simp [isCNameChar,Char.isAlphanum,h])

theorem spaceless_isSignedInt {cs : Name} (h : isSignedInt cs=true) : ∀ c∈cs,isSpace c=false := by
  have hdigits : ∀ {ds : Name},ds.all Char.isDigit=true → ∀ c∈ds,isSpace c=false :=
    fun hds c hc => isSpace_of_isDigit (List.all_eq_true.mp hds c hc)
  unfold isSignedInt at h
  split at h
  · exact List.forall_mem_cons.mpr ⟨by decide,hdigits (Bool.and_eq_true_iff.mp h).2⟩
  · exact List.forall_mem_cons.mpr ⟨by decide,hdigits (Bool.and_eq_true_iff.mp h).2⟩
  · exact hdigits (Bool.and_eq_true_iff.mp h).2

theorem spaceless_isExponent {cs : Name} (h : isExponent cs=true) : ∀ c∈cs,isSpace c=false := by
  cases cs with
  | nil => simp
  | cons c cs =>
    obtain ⟨hc,hcs⟩ := Bool.and_eq_true_iff.mp h
    refine List.forall_mem_cons.mpr ⟨?_,spaceless_isSignedInt hcs⟩
    obtain hc | hc := Bool.or_eq_true_iff.mp hc <;> rw [eq_of_beq hc] <;> decide

theorem spaceless_takeWhile (cs : Name) : ∀ c∈cs.takeWhile Char.isDigit,isSpace c=false :=
  fun c hc => isSpace_of_isDigit (List.all_eq_true.mp List.all_takeWhile c hc)

theorem spaceless_isUnsigned {cs : Name} (h : isUnsigned cs=true) : ∀ c∈cs,isSpace c=false := by
  rw [← List.takeWhile_append_dropWhile (p := Char.isDigit) (l := cs)]
  refine List.forall_mem_append.mpr ⟨spaceless_takeWhile cs,?_⟩
  unfold isUnsigned at h
  simp only at h
  split at h
  · rename_i rest hrest
    rw [hrest,← List.takeWhile_append_dropWhile (p := Char.isDigit) (l := rest)]
    refine List.forall_mem_cons.mpr ⟨by decide,List.forall_mem_append.mpr
      ⟨spaceless_takeWhile rest,spaceless_isExponent (Bool.and_eq_true_iff.mp h).2⟩⟩
  · exact spaceless_isExponent (Bool.and_eq_true_iff.mp h).2

theorem Number.isWord (num : Number) : IsWord num.val := by
  obtain ⟨text,h⟩ := num
  refine ⟨fun hnil => ?_,?_⟩
  · rw [show text=[] from hnil] at h
    cases h
  · unfold isSignedNumber at h
    split at h
    · exact List.forall_mem_cons.mpr ⟨by decide,spaceless_isUnsigned h⟩
    · exact List.forall_mem_cons.mpr ⟨by decide,spaceless_isUnsigned h⟩
    · exact spaceless_isUnsigned h

theorem intOfHex_toNat {text : Name} {value : Int} (h : Pass.intOfHex text=some value) :
    (value.toNat : Int)=value := by
  have hofNat : ∀ {ds : Option Nat},ds.map Int.ofNat=some value → (value.toNat : Int)=value := by
    intro ds hds
    obtain ⟨n,-,rfl⟩ := Option.map_eq_some_iff.mp hds
    rfl
  unfold Pass.intOfHex at h
  split_ifs at h
  · unfold intBase16 at h
    split at h
    · exact hofNat h
    · exact hofNat h
    · cases h
  · exact hofNat h

theorem bind_eq_ok {ε β δ : Type} {x : Except ε β} {f : β → Except ε δ} {r : δ}
    (h : x >>= f=.ok r) : ∃ a,x=.ok a ∧ f a=.ok r := by
  cases x with
  | error e => cases h
  | ok a => exact ⟨a,rfl,h⟩

omit [Nonempty γ] in
theorem Fits.freshTmp (h : Fits dom start t live σ outs v) :
    Fresh v.bump (tmp (v.pass.num+1)) ∧ ∀ y,Fresh v y → y ≠ tmp (v.pass.num+1) := by
  have hstamp : stamp (tmp (v.pass.num+1))=some (v.pass.num+1) := stamp_tmp [] _
  have hvariable : IsVariable (tmp (v.pass.num+1)) :=
    isVariable_end (p := []) _ (Or.inl rfl)
  exact ⟨h.fresh hvariable hstamp,fun y hy => hy.ne_new hstamp⟩

/-- What an expression gives: a name with its value, and no name that was taken before. -/
structure Yields (dom : Domain τ α γ) (start : View τ α) (t : τ) (live : Bool) (σ : Env α)
    (outs : List (Option α)) (v v' : View τ α) (x : Name) (o : Option α) : Prop where
  isVariable : IsVariable x
  gives : Gives dom start t live σ outs v v' x o
  fresh : ∀ y,Fresh v y → Fresh v' y

theorem Fits.number (h : Fits dom start t live σ outs v) (hdom : Faithful dom) {num : Name}
    {value : Int} (hnum : IsNumber num value) :
    ∃ v',v'.pass=(v.pass.number num).2 ∧ Yields dom start t live σ outs v v' (v.pass.number num).1
      (if live then some (dom.literal value) else none) := by
  obtain ⟨hnew,hne⟩ := h.freshTmp
  obtain ⟨v1,hv1,h1⟩ := h.bump.createNumLiteral hdom hnew hnum
  exact ⟨v1,hv1,hnew.isVariable,⟨v.bump_later.trans h1.later,h1.fits,h1.holds,
    fun y hy hy' => h1.fresh y hy.bump hy',h1.vars,h1.guard⟩,
    fun y hy => h1.fresh y hy.bump (hne y hy)⟩

theorem Expr.visit_yields (functions : List Function) (hdom : Faithful dom) :
    ∀ (e : Expr) {v : View τ α} {x : Name} {s' : Pass},e.isPlain=true →
      e.visit functions v.pass=.ok (x,s') → Fits dom start t live σ outs v →
        ∃ v',v'.pass=s' ∧ Yields dom start t live σ outs v v' x (e.lazy dom live σ)
  | .varName name,v,x,s',_,hvisit,h => by
    rw [Expr.visit] at hvisit
    cases hlookup : v.pass.vars.lookup name with
    | none => simp [hlookup] at hvisit
    | some y =>
      simp only [hlookup,Except.ok.injEq,Prod.mk.injEq] at hvisit
      obtain ⟨rfl,rfl⟩ := hvisit
      obtain ⟨hvariable,hholds⟩ := (h.defines name).1 y hlookup
      exact ⟨v,rfl,hvariable,⟨View.Later.refl v,h,hholds,fun _ hy _ => hy,rfl,rfl⟩,fun _ hy => hy⟩
  | .binaryOperation left op right,v,x,s',hplain,hvisit,h => by
    simp only [isPlain,Bool.and_eq_true] at hplain
    obtain ⟨opcode,hop⟩ := Option.isSome_iff_exists.mp hplain.1.1
    rw [Expr.visit] at hvisit
    obtain ⟨⟨a,s1⟩,hleft,hvisit⟩ := bind_eq_ok hvisit
    obtain ⟨⟨b,s2⟩,hright,hvisit⟩ := bind_eq_ok hvisit
    obtain ⟨v1,rfl,h1⟩ := left.visit_yields functions hdom hplain.1.2 hleft h
    obtain ⟨v2,rfl,h2⟩ := right.visit_yields functions hdom hplain.2 hright h1.gives.fits
    have hfits := h2.gives.fits
    obtain ⟨hnew,hne⟩ := hfits.freshTmp
    have ha := Holds.later h1.gives.holds (h2.gives.later.trans v2.bump_later)
    have hb := Holds.later h2.gives.holds v2.bump_later
    obtain ⟨v3,hv3,h3⟩ := hfits.bump.operator hdom hnew hop h1.isVariable h2.isVariable ha hb
    have hvalue : (binaryOperation left op right).lazy dom live σ=
        (left.lazy dom live σ).bind fun u =>
          (right.lazy dom live σ).bind (dom.compute opcode u) := by
      simp only [lazy,hop]
      cases left.lazy dom live σ <;> cases right.lazy dom live σ <;> rfl
    cases hvisit
    have hlater := (h1.gives.later.trans h2.gives.later).trans (v2.bump_later.trans h3.later)
    have hfresh : ∀ y,Fresh v y → Fresh v3 y := fun y hy =>
      h3.fresh y (h2.fresh y (h1.fresh y hy)).bump (hne y (h2.fresh y (h1.fresh y hy)))
    rw [hvalue]
    exact ⟨v3,hv3,hnew.isVariable,⟨hlater,h3.fits,h3.holds,fun y hy _ => hfresh y hy,
      (h3.vars.trans h2.gives.vars).trans h1.gives.vars,
      (h3.guard.trans h2.gives.guard).trans h1.gives.guard⟩,hfresh⟩
  | .number num,v,x,s',hplain,hvisit,h => by
    cases hparse : parseArg num.val with
    | str y => simp [isPlain,literalValue,hparse] at hplain
    | int value =>
      cases hvisit
      have hlazy : (Expr.number num).lazy dom live σ=
          if live then some (dom.literal value) else none := by
        simp [lazy,literalValue,hparse]
      rw [hlazy]
      exact h.number hdom ⟨num.isWord,hparse⟩
  | .hexnumber num,v,x,s',hplain,hvisit,h => by
    cases hvalue : Pass.intOfHex num.val with
    | none => simp [isPlain,literalValue,hvalue] at hplain
    | some value =>
      have hnumber := isNumber_decimal value.toNat
      rw [intOfHex_toNat hvalue] at hnumber
      have hok : v.pass.number (decimal value.toNat)=(x,s') := by
        simpa [visit,Pass.hexnumber,hvalue] using hvisit
      obtain ⟨rfl,rfl⟩ := Prod.mk.inj hok
      have hlazy : (Expr.hexnumber num).lazy dom live σ=
          if live then some (dom.literal value) else none := by
        simp [lazy,literalValue,hvalue]
      rw [hlazy]
      exact h.number hdom hnumber
  | .string text,v,x,s',hplain,hvisit,h => by
    by_cases hlength : text.length ≤ 8
    · let value := Bytes.toNatLE (encode text)
      have hok : v.pass.number (decimal value)=(x,s') := by
        rw [visit,Pass.string,if_neg (Nat.not_lt.mpr hlength)] at hvisit
        exact Except.ok.inj hvisit
      obtain ⟨rfl,rfl⟩ := Prod.mk.inj hok
      have hlazy : (Expr.string text).lazy dom live σ=
          if live then some (dom.literal value) else none := by
        simp [lazy,literalValue,hlength,value]
      rw [hlazy]
      exact h.number hdom (isNumber_decimal value)
    · simp [isPlain,literalValue,hlength] at hplain

end Manchester.Compiler
