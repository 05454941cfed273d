import Manchester.Assembler.Direct
import Manchester.Compiler.Conditional

namespace Manchester.Compiler

open Assembler

/-- The names that lines define. -/
def definedNames (lines : List Name) : List Name :=
  ((statements lines).flatMap Statement.definitions).filter fun x => x ≠ ['_']

theorem definedNames_snoc (lines : List Name) {line : Name} {st : Statement}
    (h : decodeLine line=.ok st) :
    definedNames (lines++[line])=
      definedNames lines++st.definitions.filter fun x => x ≠ ['_'] := by
  have hone : statements [line]=[st] := by
    rw [statements,List.filterMap_cons,h]
    rfl
  rw [definedNames,definedNames,statements,List.filterMap_append]
  change ((statements lines++statements [line]).flatMap _).filter _=_
  rw [hone,List.flatMap_append,List.filter_append,List.flatMap_singleton]

/-- Every line is direct, no name has two definitions, and the first line is a number. -/
structure Tidy (s : Pass) : Prop where
  scope : s.currentScopeTag=none
  lines : ∀line∈s.toReturn,∃ st,decodeLine line=.ok st ∧ st.isDirect=true ∧ st.opcode ≠ some .OUTS
  nodup : (definedNames s.toReturn).Nodup
  stamped : ∀x∈definedNames s.toReturn,∃ k,stamp x=some k ∧ k ≤ s.num
  vars : ∀ u x,s.vars.lookup u=some x → IsVariable x
  guard : ∀ x,s.currentConditionalTrueVar=some x → IsVariable x
  first : ∀ line rest,s.toReturn=line::rest →
    ∃ x a,decodeLine line=.ok (.assign x (.op .DUP) (.int a) none)
  begun : s.toReturn=[] → (∀ u,s.vars.lookup u=none) ∧ s.currentConditionalTrueVar=none

/-- A name of the pass that no line defines. -/
structure Unused (s : Pass) (x : Name) : Prop where
  isVariable : IsVariable x
  absent : x∉definedNames s.toReturn
  stamped : ∃ k,stamp x=some k ∧ k ≤ s.num

section Lines

variable {s : Pass} {x y a b line : Name} {st : Statement}

theorem Tidy.empty : Tidy Pass.empty := by
  refine ⟨rfl,?_,List.nodup_nil,?_,?_,?_,?_,fun _ => ⟨fun _ => rfl,rfl⟩⟩
  · intro line hline
    cases hline
  · intro x hx
    cases hx
  · intro u x hx
    cases hx
  · intro x hx
    cases hx
  · intro line rest hlines
    cases hlines

theorem Tidy.newTemp (h : Tidy s) : Tidy s.newTempVariable.2 := by
  refine ⟨h.scope,h.lines,h.nodup,fun x hx => ?_,h.vars,h.guard,h.first,h.begun⟩
  obtain ⟨k,hk,hle⟩ := h.stamped x hx
  exact ⟨k,hk,hle.trans (Nat.le_succ _)⟩

theorem Unused.newTemp (h : Unused s x) : Unused s.newTempVariable.2 x := by
  obtain ⟨k,hk,hle⟩ := h.stamped
  exact ⟨h.isVariable,h.absent,k,hk,hle.trans (Nat.le_succ _)⟩

theorem Tidy.unused (h : Tidy s) (hx : IsVariable x) (hstamp : stamp x=some (s.num+1)) :
    Unused s.newTempVariable.2 x := by
  refine ⟨hx,fun hmem => ?_,_,hstamp,le_rfl⟩
  obtain ⟨k,hk,hle⟩ := h.stamped x hmem
  obtain rfl := Option.some.inj (hk.symm.trans hstamp)
  exact absurd hle (Nat.not_succ_le_self _)

/-- The next name has another number than the names so far. -/
theorem Unused.ne_new (h : Unused s y) (hstamp : stamp x=some (s.num+1)) : y ≠ x := by
  obtain ⟨k,hk,hle⟩ := h.stamped
  rintro rfl
  obtain rfl := Option.some.inj (hk.symm.trans hstamp)
  exact absurd hle (Nat.not_succ_le_self _)

/-- A line that defines unused names. -/
theorem Tidy.emit (h : Tidy s) (hdecode : decodeLine line=.ok st) (hdirect : st.isDirect=true)
    (houts : st.opcode ≠ some .OUTS) (hnew : ∀x∈st.definitions,x ≠ ['_'] → Unused s x)
    (hnodup : (st.definitions.filter fun x => x ≠ ['_']).Nodup)
    (hfirst : s.toReturn=[] → ∃ x a,st=.assign x (.op .DUP) (.int a) none) : Tidy (s.emit line) := by
  have hnames := definedNames_snoc s.toReturn hdecode
  have hfresh : ∀x∈st.definitions.filter (fun x => x ≠ ['_']),Unused s x := by
    intro x hx
    obtain ⟨hmem,hne⟩ := List.mem_filter.mp hx
    exact hnew x hmem (by simpa using hne)
  refine ⟨h.scope,fun l hl => ?_,?_,fun x hx => ?_,h.vars,h.guard,fun l rest hlines => ?_,
    fun hnil => ?_⟩
  · obtain hl | hl := List.mem_append.mp hl
    · exact h.lines l hl
    · obtain rfl := List.mem_singleton.mp hl
      exact ⟨st,hdecode,hdirect,houts⟩
  · change (definedNames (s.toReturn++[line])).Nodup
    rw [hnames]
    refine List.nodup_append.mpr ⟨h.nodup,hnodup,fun x hx y hy heq => ?_⟩
    rw [heq] at hx
    exact (hfresh y hy).absent hx
  · change x∈definedNames (s.toReturn++[line]) at hx
    rw [hnames,List.mem_append] at hx
    obtain hx | hx := hx
    · exact h.stamped x hx
    · exact (hfresh x hx).stamped
  · cases hreturn : s.toReturn with
    | nil =>
      obtain ⟨x,a,rfl⟩ := hfirst hreturn
      change s.toReturn++[line]=l::rest at hlines
      rw [hreturn] at hlines
      obtain ⟨rfl,-⟩ := List.cons.inj hlines
      exact ⟨x,a,hdecode⟩
    | cons l' rest' =>
      change s.toReturn++[line]=l::rest at hlines
      rw [hreturn] at hlines
      obtain ⟨rfl,-⟩ := List.cons.inj hlines
      exact h.first l' rest' hreturn
  · exact absurd hnil (List.append_ne_nil_of_right_ne_nil _ (List.cons_ne_nil _ _))

theorem emit_ne_nil (s : Pass) (line : Name) : (s.emit line).toReturn ≠ [] :=
  List.append_ne_nil_of_right_ne_nil _ (List.cons_ne_nil _ _)

/-- Names that the line does not define stay unused. -/
theorem Unused.emit (hy : Unused s y) (hdecode : decodeLine line=.ok st)
    (hne : y∉st.definitions) : Unused (s.emit line) y := by
  refine ⟨hy.isVariable,?_,hy.stamped⟩
  change y∉definedNames (s.toReturn++[line])
  rw [definedNames_snoc _ hdecode,List.mem_append,not_or]
  exact ⟨hy.absent,fun hmem => hne (List.mem_of_mem_filter hmem)⟩

/-- A line that defines one unused name. -/
theorem Tidy.assign (h : Tidy s) (hx : Unused s x) {o : OpcodeType} {input1 : Arg}
    {input2 : Option Arg} (hdecode : decodeLine line=.ok (.assign x (.op o) input1 input2))
    (hinternal : (!o.isExternal && !o.choosesOutput)=true)
    (hdirect : directOperands (.op o) (input1::input2.toList)=true)
    (hfirst : s.toReturn=[] → o=.DUP ∧ ∃ a,input1=.int a ∧ input2=none) : Tidy (s.emit line) := by
  refine h.emit hdecode (Bool.and_eq_true_iff.mpr ⟨hinternal,hdirect⟩) (by simp [Statement.opcode])
    (fun y hy _ => ?_) ?_ fun hnil => ?_
  · obtain rfl := List.mem_singleton.mp hy
    exact hx
  · exact (List.nodup_singleton x).filter _
  · obtain ⟨rfl,a,rfl,rfl⟩ := hfirst hnil
    exact ⟨x,a,rfl⟩

theorem Tidy.branch (h : Tidy s) (hne : s.toReturn ≠ []) (hx : Unused s x)
    (hy : y=['_'] ∨ Unused s y) (hxy : x ≠ y) (ha : IsVariable a) (hb : IsVariable b) :
    Tidy (s.emit (branchLine x y "BRR".toList [a,b])) := by
  have hcname : isCName y=true := by
    obtain rfl | hy := hy
    · rfl
    · exact hy.isVariable.cname
  refine h.emit (decode_branch hx.isVariable hcname ha hb) ?_ (by simp [Statement.opcode])
    (fun z hz hz' => ?_) ?_ fun hnil => absurd hnil hne
  · simp [Statement.isDirect,directOperands,ha.ne_underscore,hb.ne_underscore]
    rfl
  · obtain rfl | rfl : z=x ∨ z=y := by simpa [Statement.definitions] using hz
    · exact hx
    · exact hy.resolve_left hz'
  · exact List.Nodup.filter _ (by simpa [Statement.definitions] using hxy)

/-- Names of other variables and guards, once there is a line. -/
theorem Tidy.rename (h : Tidy s) (hne : s.toReturn ≠ []) {vars : Variables} {guard : Option Name}
    (hvars : ∀ u x,vars.lookup u=some x → IsVariable x) (hguard : ∀ x,guard=some x → IsVariable x) :
    Tidy {s with vars := vars, currentConditionalTrueVar := guard} :=
  ⟨h.scope,h.lines,h.nodup,h.stamped,hvars,hguard,h.first,fun hnil => absurd hnil hne⟩

theorem insert_variable {vars : Variables} (hvars : ∀ u x,vars.lookup u=some x → IsVariable x)
    (var : CName) (hx : IsVariable x) :
    ∀ u y,(vars.insert var x).lookup u=some y → IsVariable y := by
  intro u y hy
  by_cases hu : u=var
  · subst hu
    rw [AList.lookup_insert] at hy
    obtain rfl := Option.some.inj hy
    exact hx
  · rw [AList.lookup_insert_ne hu] at hy
    exact hvars u y hy

theorem Tidy.setVariable (h : Tidy s) (hne : s.toReturn ≠ []) (var : CName) (hx : IsVariable x) :
    Tidy (s.setVariable var x) := h.rename hne (insert_variable h.vars var hx) h.guard

theorem Tidy.iterate (h : Tidy s) (order : SetOrder) {α : Type} (elements : List α) :
    Tidy (s.iterate order elements).2 :=
  ⟨h.scope,h.lines,h.nodup,h.stamped,h.vars,h.guard,h.first,h.begun⟩

end Lines

section Visits

variable {s : Pass} {x a b num : Name} {value : Int}

theorem Tidy.scopedLiteral (h : Tidy s) (hx : Unused s x) (hnum : IsNumber num value) :
    Tidy (s.scopedLiteral num x) ∧ (s.scopedLiteral num x).toReturn ≠ [] ∧
      ∀ y,Unused s y → y ≠ x → Unused (s.scopedLiteral num x) y := by
  have hdecode : decodeLine (assignLine x "DUP".toList [num])=
      .ok (.assign x (.op .DUP) (.int value) none) := by
    rw [decodeLine_one hx.isVariable (isOperation_word "DUP" (.op .DUP) (by decide)) rfl hnum.word,
      hnum.parse]
  rw [Pass.scopedLiteral,h.scope]
  refine ⟨h.assign hx hdecode rfl rfl fun _ => ⟨rfl,value,rfl,rfl⟩,emit_ne_nil _ _,
    fun y hy hne => hy.emit hdecode ?_⟩
  simpa [Statement.definitions] using hne

theorem Tidy.createNumLiteral (h : Tidy s) (hx : Unused s x) (hnum : IsNumber num value) :
    Tidy (s.createNumLiteral num x) ∧ (s.createNumLiteral num x).toReturn ≠ [] := by
  unfold Pass.createNumLiteral
  cases hguard : s.currentConditionalTrueVar with
  | none =>
    obtain ⟨htidy,hne,-⟩ := h.scopedLiteral hx hnum
    exact ⟨htidy,hne⟩
  | some guard =>
    have hstamp : stamp (tmp (s.num+1))=some (s.num+1) := stamp_tmp [] _
    have hvariable : IsVariable (tmp (s.num+1)) := isVariable_end (p := []) _ (Or.inl rfl)
    obtain ⟨htidy,hne,hkept⟩ := h.newTemp.scopedLiteral (h.unused hvariable hstamp) hnum
    have hx' := hkept x hx.newTemp (hx.ne_new hstamp)
    exact ⟨htidy.branch hne hx' (Or.inl rfl) hx.isVariable.ne_underscore hvariable
      (h.guard guard hguard),emit_ne_nil _ _⟩

theorem Tidy.number (h : Tidy s) (hnum : IsNumber num value) :
    Tidy (s.number num).2 ∧ IsVariable (s.number num).1 ∧ (s.number num).2.toReturn ≠ [] := by
  have hstamp : stamp (tmp (s.num+1))=some (s.num+1) := stamp_tmp [] _
  have hvariable : IsVariable (tmp (s.num+1)) := isVariable_end (p := []) _ (Or.inl rfl)
  obtain ⟨htidy,hne⟩ := h.newTemp.createNumLiteral (h.unused hvariable hstamp) hnum
  exact ⟨htidy,hvariable,hne⟩

theorem Expr.visit_tidy (functions : List Function) :
    ∀ (e : Expr) {s : Pass} {x : Name} {s' : Pass},
    e.isPlain=true → e.visit functions s=.ok (x,s') → Tidy s →
      Tidy s' ∧ IsVariable x ∧ s'.toReturn ≠ []
  | .varName name,s,x,s',_,hvisit,h => by
    rw [Expr.visit] at hvisit
    cases hlookup : s.vars.lookup name with
    | none => simp [hlookup] at hvisit
    | some y =>
      simp only [hlookup,Except.ok.injEq,Prod.mk.injEq] at hvisit
      obtain ⟨rfl,rfl⟩ := hvisit
      refine ⟨h,h.vars name y hlookup,fun hnil => ?_⟩
      cases hlookup.symm.trans ((h.begun hnil).1 name)
  | .binaryOperation left op right,s,x,s',hplain,hvisit,h => by
    simp only [isPlain,Bool.and_eq_true] at hplain
    obtain ⟨opcode,hop⟩ := Option.isSome_iff_exists.mp hplain.1.1
    rw [Expr.visit] at hvisit
    obtain ⟨⟨a,s1⟩,hleft,hvisit⟩ := bind_eq_ok hvisit
    obtain ⟨⟨b,s2⟩,hright,hvisit⟩ := bind_eq_ok hvisit
    obtain ⟨h1,ha,-⟩ := left.visit_tidy functions hplain.1.2 hleft h
    obtain ⟨h2,hb,hne⟩ := right.visit_tidy functions hplain.2 hright h1
    cases hvisit
    have hstamp : stamp (tmp (s2.num+1))=some (s2.num+1) := stamp_tmp [] _
    have hvariable : IsVariable (tmp (s2.num+1)) := isVariable_end (p := []) _ (Or.inl rfl)
    obtain ⟨hoperation,hinputs⟩ := Op.isOperation hop
    refine ⟨h2.newTemp.assign (h2.unused hvariable hstamp) (decodeLine_two hvariable hoperation
      hinputs ha hb.isWord fun _ => hb) ?_ ?_ fun hnil => absurd hnil hne,hvariable,
      emit_ne_nil _ _⟩
    · cases op <;> cases hop <;> rfl
    · rw [hb.parseArg]
      simp [directOperands,ha.ne_underscore,hb.ne_underscore,hinputs]
  | .number num,s,x,s',hplain,hvisit,h => by
    cases hparse : parseArg num.val with
    | str y => simp [isPlain,literalValue,hparse] at hplain
    | int value =>
      cases hvisit
      exact h.number ⟨num.isWord,hparse⟩
  | .hexnumber num,s,x,s',hplain,hvisit,h => by
    cases hvalue : Pass.intOfHex num.val with
    | none => simp [isPlain,literalValue,hvalue] at hplain
    | some value =>
      have hok : s.number (decimal value.toNat)=(x,s') := by
        simpa [visit,Pass.hexnumber,hvalue] using hvisit
      obtain ⟨rfl,rfl⟩ := Prod.mk.inj hok
      exact h.number (isNumber_decimal value.toNat)
  | .string text,s,x,s',hplain,hvisit,h => by
    by_cases hlength : text.length ≤ 8
    · have hok : s.number (decimal (Bytes.toNatLE (encode text)))=(x,s') := by
        rw [visit,Pass.string,if_neg (Nat.not_lt.mpr hlength)] at hvisit
        exact Except.ok.inj hvisit
      obtain ⟨rfl,rfl⟩ := Prod.mk.inj hok
      exact h.number (isNumber_decimal _)
    · simp [isPlain,literalValue,hlength] at hplain

/-- The names of the variables in the other branch. -/
abbrev FalseNames (branches : List (CName × Name × Name)) : Prop :=
  ∀ past : Variables,(∀ u x,past.lookup u=some x → IsVariable x) →
    ∀ u x,(Pass.falseVariables branches past).lookup u=some x → IsVariable x

theorem Tidy.branchVariables {c : Name} (hc : IsVariable c) :
    ∀ (l : List CName) {s : Pass},Tidy s → s.toReturn ≠ [] → (∀u∈l,u∈s.vars) →
      Tidy (Pass.branchVariables c l s).2 ∧ (Pass.branchVariables c l s).2.toReturn ≠ [] ∧
        FalseNames (Pass.branchVariables c l s).1
  | [],s,h,hne,_ => ⟨h,hne,fun _ hpast => hpast⟩
  | u::l,s,h,hne,hmem => by
    obtain ⟨current,hcurrent⟩ :=
      Option.isSome_iff_exists.mp (AList.lookup_isSome.mpr (hmem u List.mem_cons_self))
    let trueVar : Name := '_'::u.val++tmp (s.num+1)++"_true".toList
    let falseVar : Name := '_'::u.val++tmp (s.num+2)++"_false".toList
    have htrue : Unused s.newTempVariable.2 trueVar :=
      h.unused (isVariable_branch u _ (by decide)) (stamp_true _ _)
    have hstamp : stamp falseVar=some (s.newTempVariable.2.num+1) := stamp_false _ _
    have hfalse : Unused s.newTempVariable.2.newTempVariable.2 falseVar :=
      h.newTemp.unused (isVariable_branch u _ (by decide)) hstamp
    have hname : IsVariable (s.nameOf u) := by
      rw [Pass.nameOf,hcurrent]
      exact h.vars u current hcurrent
    let s1 : Pass := s.newTempVariable.2.newTempVariable.2.setVariable u trueVar
    have h1 : Tidy s1 := h.newTemp.newTemp.setVariable hne u htrue.isVariable
    have htrue1 : Unused s1 trueVar := ⟨htrue.isVariable,htrue.absent,htrue.newTemp.stamped⟩
    have hfalse1 : Unused s1 falseVar := ⟨hfalse.isVariable,hfalse.absent,hfalse.stamped⟩
    have h2 := h1.branch hne htrue1 (Or.inr hfalse1) (htrue.ne_new hstamp) hname hc
    have hmem2 : ∀w∈l,w∈(s1.emit (branchLine trueVar falseVar "BRR".toList
        [s.nameOf u,c])).vars := by
      intro w hw
      exact (AList.mem_insert _).mpr (Or.inr (hmem w (List.mem_cons_of_mem u hw)))
    obtain ⟨h3,hne3,hnames⟩ := Tidy.branchVariables hc l h2 (emit_ne_nil _ _) hmem2
    exact ⟨h3,hne3,fun past hpast =>
      hnames _ (insert_variable hpast u hfalse.isVariable)⟩

theorem Tidy.openBranches {c : Name} (hc : IsVariable c) {l : List CName} (h : Tidy s)
    (hne : s.toReturn ≠ []) (hmem : ∀u∈l,u∈s.vars) :
    let r := Pass.openBranches c l s
    Tidy r.pass ∧ r.pass.toReturn ≠ [] ∧ FalseNames r.branches ∧ IsVariable r.trueVar ∧
      IsVariable r.falseVar ∧ ∀ x,r.prior=some x → IsVariable x := by
  intro r
  obtain ⟨h1,-,hnames⟩ := Tidy.branchVariables hc l h hne hmem
  set s1 := (Pass.branchVariables c l s).2 with hs1
  let trueValue : Name := tmp (s1.num+1)++"_1".toList
  have hvalue : Unused s1.newTempVariable.2 trueValue :=
    h1.unused (isVariable_tmp (p := []) _ (Or.inl rfl) (by decide)) (stamp_one _)
  have hnum : IsNumber ['1'] 1 := ⟨isWord_of_all (by decide),by decide⟩
  obtain ⟨h2,hne2⟩ := h1.newTemp.createNumLiteral hvalue hnum
  set s2 := s1.newTempVariable.2.createNumLiteral ['1'] trueValue with hs2
  let trueVar : Name := tmp (s2.num+1)++"_true".toList
  let falseVar : Name := tmp (s2.num+2)++"_false".toList
  have htrue : Unused s2.newTempVariable.2 trueVar :=
    h2.unused (isVariable_tmp (p := []) _ (Or.inl rfl) (by decide)) (stamp_true [] _)
  have hstamp : stamp falseVar=some (s2.newTempVariable.2.num+1) := stamp_false [] _
  have hfalse : Unused s2.newTempVariable.2.newTempVariable.2 falseVar :=
    h2.newTemp.unused (isVariable_tmp (p := []) _ (Or.inl rfl) (by decide)) hstamp
  have h3 := h2.newTemp.newTemp.branch hne2 htrue.newTemp (Or.inr hfalse) (htrue.ne_new hstamp)
    hvalue.isVariable hc
  exact ⟨h3,emit_ne_nil _ _,hnames,htrue.isVariable,hfalse.isVariable,h1.guard⟩

theorem Tidy.mergeVariables {afterTrue afterFalse : Variables}
    (htrue : ∀ u x,afterTrue.lookup u=some x → IsVariable x)
    (hfalse : ∀ u x,afterFalse.lookup u=some x → IsVariable x) :
    ∀ (l : List CName) {s : Pass},Tidy s → s.toReturn ≠ [] →
      Tidy (Pass.mergeVariables afterTrue afterFalse l s) ∧
        (Pass.mergeVariables afterTrue afterFalse l s).toReturn ≠ []
  | [],s,h,hne => ⟨h,hne⟩
  | u::l,s,h,hne => by
    rw [Pass.mergeVariables]
    cases hx : afterTrue.lookup u with
    | none =>
      cases hy : afterFalse.lookup u with
      | none => exact Tidy.mergeVariables htrue hfalse l h hne
      | some y =>
        exact Tidy.mergeVariables htrue hfalse l (h.setVariable hne u (hfalse u y hy)) hne
    | some x =>
      cases hy : afterFalse.lookup u with
      | none =>
        exact Tidy.mergeVariables htrue hfalse l (h.setVariable hne u (htrue u x hx)) hne
      | some y =>
        simp only
        split_ifs with hxy
        · exact Tidy.mergeVariables htrue hfalse l h hne
        · let newName : Name := '_'::u.val++"_phi".toList++tmp (s.num+1)
          have hcname : isCName ('_'::u.val++"_phi".toList)=true :=
            isCName_underscore u (by decide)
          have hnew : Unused s.newTempVariable.2 newName :=
            h.unused (isVariable_end _ (Or.inr hcname)) (stamp_tmp _ _)
          have ha := htrue u x hx
          have hb := hfalse u y hy
          have hdecode : decodeLine (assignLine newName "MER".toList [x,y])=
              .ok (.assign newName (.op .MER) (.str x) (some (.str y))) := by
            rw [decodeLine_two hnew.isVariable (isOperation_word "MER" (.op .MER) (by decide)) rfl
              ha hb.isWord (fun _ => hb),hb.parseArg]
          have h1 := h.newTemp.assign hnew hdecode rfl
            (by simp [directOperands,ha.ne_underscore,hb.ne_underscore]; rfl)
            fun hnil => absurd hnil hne
          have hne1 := emit_ne_nil s.newTempVariable.2 (assignLine newName "MER".toList [x,y])
          exact Tidy.mergeVariables htrue hfalse l (h1.setVariable hne1 u hnew.isVariable) hne1

theorem Tidy.output (h : Tidy s) (hne : s.toReturn ≠ []) (ha : IsVariable a) :
    Tidy (s.emit (unwords [Opcode.OUTD.repr,a])) := by
  refine h.emit (decodeLine_output ha (Or.inl rfl)) ?_ (by simp [Statement.opcode])
    (fun x hx => absurd hx List.not_mem_nil) List.nodup_nil fun hnil => absurd hnil hne
  simp only [Statement.isDirect,directOperands,Bool.and_eq_true,bne_iff_ne]
  exact ⟨rfl,ha.ne_underscore,rfl⟩

set_option linter.unusedSectionVars false in
mutual

theorem Stmt.visit_tidy (fs : List Function) (order : SetOrder) :
    ∀ (st : Stmt) {s s' : Pass},st.isPlain=true →
      st.visit (fs++specialFunctions.map Prod.fst) order s=.ok s' → Tidy s →
        Tidy s' ∧ s'.toReturn ≠ []
  | .assignment lhs e,s,s',hplain,hvisit,h => by
    rw [Stmt.visit] at hvisit
    obtain ⟨⟨a,s1⟩,he,hvisit⟩ := bind_eq_ok hvisit
    cases hvisit
    obtain ⟨h1,ha,hne⟩ := e.visit_tidy _ hplain he h
    have hstamp : stamp (lhs.val++tmp (s1.num+1))=some (s1.num+1) := stamp_tmp _ _
    have hvariable : IsVariable (lhs.val++tmp (s1.num+1)) := isVariable_end _ (Or.inr lhs.2)
    have hdecode : decodeLine (assignLine (lhs.val++tmp (s1.num+1)) "DUP".toList [a])=
        .ok (.assign (lhs.val++tmp (s1.num+1)) (.op .DUP) (.str a) none) := by
      rw [decodeLine_one hvariable (isOperation_word "DUP" (.op .DUP) (by decide)) rfl ha.isWord,
        ha.parseArg]
    have h2 := h1.newTemp.assign (h1.unused hvariable hstamp) hdecode rfl
      (by simp [directOperands,ha.ne_underscore]; rfl) fun hnil => absurd hnil hne
    exact ⟨h2.setVariable (emit_ne_nil _ _) lhs hvariable,emit_ne_nil _ _⟩
  | .expression e,s,s',hplain,hvisit,h => by
    rw [Stmt.visit] at hvisit
    obtain ⟨⟨x,s1⟩,he,hvisit⟩ := bind_eq_ok hvisit
    cases hvisit
    simp only [Stmt.isPlain] at hplain
    cases hprinted : e.printed with
    | none =>
      rw [hprinted] at hplain
      obtain ⟨h1,-,hne⟩ := e.visit_tidy _ hplain he h
      exact ⟨h1,hne⟩
    | some arg =>
      rw [hprinted] at hplain
      unfold Expr.printed at hprinted
      split at hprinted
      · rename_i name arg'
        split_ifs at hprinted with hname
        obtain rfl := Option.some.inj hprinted
        rw [Expr.visit] at he
        obtain ⟨⟨args,s2⟩,hargs,hcall⟩ := bind_eq_ok he
        rw [Expr.visitArgs] at hargs
        obtain ⟨⟨a,s3⟩,harg,hargs⟩ := bind_eq_ok hargs
        cases hargs
        change s2.functionCall _ name [a]=_ at hcall
        rw [functionCall_output fs hname] at hcall
        cases hcall
        obtain ⟨h2,ha,hne⟩ := arg'.visit_tidy _ hplain harg h
        exact ⟨h2.output hne ha,emit_ne_nil _ _⟩
      · cases hprinted
  | .conditional condition body elseBody,s,s',hplain,hvisit,h => by
    simp only [Stmt.isPlain,Bool.and_eq_true] at hplain
    obtain ⟨inBody,hinBody⟩ : ∃ used,Stmt.usedInAll true body=some used := by
      obtain ⟨used,hused,-⟩ :=
        Stmt.lazyAll_lawful (machineDomain [] fun _ => 0) body hplain.1.2
      exact ⟨used,hused⟩
    obtain ⟨inElse,hinElse⟩ : ∃ used,Stmt.usedInAll true elseBody=some used := by
      obtain ⟨used,hused,-⟩ :=
        Stmt.lazyAll_lawful (machineDomain [] fun _ => 0) elseBody hplain.2
      exact ⟨used,hused⟩
    obtain ⟨c,s0,s1,s2,hc,hbody,helse,rfl⟩ := Stmt.visit_conditional hinBody hinElse hvisit
    obtain ⟨h0,hcondition,hne0⟩ := condition.visit_tidy _ hplain.1.1 hc h
    have hmem : ∀u∈(s0.iterate order (usedDefined s0 (inBody++inElse))).1,u∈s0.vars := by
      intro u hu
      have hperm : (s0.iterate order (usedDefined s0 (inBody++inElse))).1.Perm _ :=
        order.perm _ _ _
      have hkeys : u∈s0.vars.keys := by simpa using (List.mem_filter.mp (hperm.mem_iff.mp hu)).2
      exact hkeys
    obtain ⟨hr,hner,hnames,htrue,hfalse,hprior⟩ :=
      (h0.iterate order (usedDefined s0 (inBody++inElse))).openBranches hcondition hne0 hmem
    have hb := hr.rename hner hr.vars fun x hx => Option.some.inj hx ▸ htrue
    obtain ⟨h1,hne1⟩ := Stmt.visitAll_tidy fs order body hplain.1.2 hbody hb
    have hne1 := hne1 hner
    have he := h1.rename hne1 (hnames s0.vars h0.vars) fun x hx => Option.some.inj hx ▸ hfalse
    obtain ⟨h2,hne2⟩ := Stmt.visitAll_tidy fs order elseBody hplain.2 helse he
    have hne2 := hne2 hne1
    exact Tidy.mergeVariables h1.vars h2.vars _ ((h2.rename hne2 h2.vars hprior).iterate order _)
      hne2

theorem Stmt.visitAll_tidy (fs : List Function) (order : SetOrder) :
    ∀ (l : List Stmt) {s s' : Pass},Stmt.allPlain l=true →
      Stmt.visitAll (fs++specialFunctions.map Prod.fst) order l s=.ok s' → Tidy s →
        Tidy s' ∧ (s.toReturn ≠ [] → s'.toReturn ≠ [])
  | [],s,s',_,hvisit,h => by
    rw [Stmt.visitAll] at hvisit
    cases hvisit
    exact ⟨h,fun hne => hne⟩
  | st::rest,s,s',hplain,hvisit,h => by
    simp only [Stmt.allPlain,Bool.and_eq_true] at hplain
    rw [Stmt.visitAll] at hvisit
    obtain ⟨s1,hst,hvisit⟩ := bind_eq_ok hvisit
    obtain ⟨h1,hne1⟩ := Stmt.visit_tidy fs order st hplain.1 hst h
    obtain ⟨h2,hne2⟩ := Stmt.visitAll_tidy fs order rest hplain.2 hvisit h1
    exact ⟨h2,fun _ => hne2 hne1⟩

end

end Visits

end Manchester.Compiler
