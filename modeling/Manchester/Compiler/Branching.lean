import Manchester.Compiler.Straight

namespace Manchester.Compiler

open Assembler Framework Framework.Net

variable {τ α γ : Type} [DecidableEq τ] {dom : Domain τ α γ} {start v : View τ α}
  {t : τ} {live : Bool} {σ : Env α} {outs : List (Option α)} {x a b : Name}
  {o oa ob : Option α}

/-- What statements do: the variables and the outputs, and no other variable is touched. -/
structure Runs (dom : Domain τ α γ) (start : View τ α) (t : τ) (live : Bool)
    (outs : List (Option α)) (used : List CName) (v v' : View τ α)
    (result : Env α × List (Option α)) : Prop where
  later : View.Later v v'
  fits : Fits dom start t live result.1 (outs++result.2) v'
  vars : ∀ u,u∉used → v'.pass.vars.lookup u=v.pass.vars.lookup u
  guard : v'.pass.currentConditionalTrueVar=v.pass.currentConditionalTrueVar

theorem Yields.runs {v' : View τ α} (h : Yields dom start t live σ outs v v' x o)
    (used : List CName) : Runs dom start t live outs used v v' (Sem.skip live σ) := by
  refine ⟨h.gives.later,?_,fun u _ => by rw [h.gives.vars],h.gives.guard⟩
  rw [Sem.skip,List.append_nil]
  exact h.gives.fits

variable [Nonempty γ]

theorem functionNamed_special (fs : List Function) {name : CName}
    (hname : name.val="OUTD".toList) :
    functionNamed (fs++specialFunctions.map Prod.fst) name=
      some ⟨name,["output".toList],true,false,false⟩ := by
  obtain rfl : name=⟨"OUTD".toList,by decide⟩ := Subtype.ext hname
  rw [functionNamed,List.reverse_append,List.find?_append]
  have hfind : ((specialFunctions.map Prod.fst).reverse.find? fun f =>
      f.name=(⟨"OUTD".toList,by decide⟩ : CName))=
        some ⟨⟨"OUTD".toList,by decide⟩,["output".toList],true,false,false⟩ := rfl
  rw [hfind]
  rfl

theorem functionCall_output (fs : List Function) {name : CName} (hname : name.val="OUTD".toList)
    (s : Pass) (x : Name) :
    s.functionCall (fs++specialFunctions.map Prod.fst) name [x]=
      .ok (Pass.noneText,s.emit (unwords [Opcode.OUTD.repr,x])) := by
  have hoperation : specialOperation name=Opcode.OUTD.repr := by
    obtain rfl : name=⟨"OUTD".toList,by decide⟩ := Subtype.ext hname
    rfl
  simp [Pass.functionCall,functionNamed_special fs hname,hoperation]

theorem Fits.output (h : Fits dom start t live σ outs v) (ha : IsVariable a)
    (hholds : v.Holds t a o) :
    ∃ v',v'.pass=v.pass.emit (unwords [Opcode.OUTD.repr,a]) ∧ View.Later v v' ∧
      Fits dom start t live σ (outs++[o]) v' := by
  let n := v.pass.toReturn.length
  have hunknown : ¬v.known (.printed n) := fun hknown =>
    absurd (h.built.printed n hknown) (lt_irrefl n)
  have hmakes : Makes dom v t (.output .OUTD (.str a)) (unwords [Opcode.OUTD.repr,a])
      (one (.printed n) t o) := by
    refine ⟨decodeLine_output ha (Or.inl rfl),⟨by simp [Statement.operands],
      by simpa [Statement.operands] using ha.named,by simp [Statement.opcode]⟩,
      fun lines hlabels hs => ?_,fun _ _ _ hy => (one_eq_some hy).2.1,fun y hy => ?_⟩
    · exact piece_output h.built.given hlabels hs (by decide) hunknown hholds
    · cases hy
  exact ⟨_,rfl,hmakes.later h.built,h.add h.built hmakes [o] (by simp [prints,n])⟩

theorem Fits.assignment (h : Fits dom start t live σ outs v) (lhs : CName) (ha : IsVariable a)
    (hholds : v.Holds t a o) :
    ∃ v',v'.pass=(v.pass.newTempVariable.2.emit (assignLine (lhs.val++v.pass.newTempVariable.1)
        "DUP".toList [a])).setVariable lhs (lhs.val++v.pass.newTempVariable.1) ∧
      View.Later v v' ∧ Fits dom start t live (Function.update σ lhs o) outs v' := by
  have hstamp : stamp (lhs.val++tmp (v.pass.num+1))=some (v.pass.num+1) := stamp_tmp _ _
  have hvariable : IsVariable (lhs.val++tmp (v.pass.num+1)) := isVariable_end _ (Or.inr lhs.2)
  obtain ⟨v1,hv1,h1⟩ := h.bump.copy (h.fresh hvariable hstamp) ha (Holds.later hholds v.bump_later)
  have hset := h1.fits.setVariable lhs hvariable h1.holds
  rw [hv1] at hset
  refine ⟨_,rfl,(v.bump_later.trans h1.later).trans (v1.later_num _ ?_),hset⟩
  rw [hv1]
  exact le_rfl

/-- A token goes to the one or the other name. -/
theorem Fits.branch (h : Fits dom start t live σ outs v) {y : Name} (hx : Fresh v x)
    (hy : Fresh v y) (hne : x ≠ y) (ha : IsVariable a) (hb : IsVariable b)
    (hholds : v.Holds t a oa) (hholds' : v.Holds t b ob) :
    ∃ v',v'.pass=v.pass.emit (branchLine x y "BRR".toList [a,b]) ∧ View.Later v v' ∧
      Fits dom start t live σ outs v' ∧
      v'.Holds t x (if ob.any dom.truth then oa else none) ∧
      v'.Holds t y (if ob.any (fun c => !dom.truth c) then oa else none) := by
  let s : Statement := .branch x y (.op .BRR) (.str a) (some (.str b))
  let P : Flow Wire τ α := (one (.name x) t (if ob.any dom.truth then oa else none)).or
    (one (.name y) t (if ob.any (fun c => !dom.truth c) then oa else none))
  have hxwire := hx.isVariable.ne_underscore
  have hywire := hy.isVariable.ne_underscore
  have htargets : ∀ z,s.Targets v.pass.toReturn.length (.name z) ↔ z=x ∨ z=y := by
    simp [s,Statement.Targets,targetWires,hxwire,hywire]
  have hmakes : Makes dom v t s (branchLine x y "BRR".toList [a,b]) P := by
    refine ⟨decode_branch hx.isVariable hy.isVariable.cname ha hb,regular_branch ha hb,
      fun lines hlabels hs => ?_,fun z t' u hz => ?_,fun z hz => ?_⟩
    · have hpiece : (net dom lines).Piece (lineRules dom lines _) v.known v.flow _ :=
        piece_branch h.built.given hlabels hs hxwire hx.unknown (fun _ => hy.unknown) hholds hholds'
      rwa [if_neg hywire] at hpiece
    · obtain hz | hz := Option.or_eq_some_iff.mp hz
      · exact (one_eq_some hz).2.1
      · exact (one_eq_some hz.2).2.1
    · obtain rfl | rfl := (htargets z).mp hz
      · exact hx
      · exact hy
  have hadd := h.add h.built hmakes [] (by simp [prints,s])
  rw [List.append_nil] at hadd
  have hwires : Wire.name x ≠ Wire.name y := by simpa using hne
  refine ⟨_,rfl,hmakes.later h.built,hadd,⟨hxwire,Or.inr ((htargets x).mpr (Or.inl rfl)),?_⟩,
    hywire,Or.inr ((htargets y).mpr (Or.inr rfl)),?_⟩
  · rw [flow_new h.built hx.unknown]
    funext t'
    simp [P,Flow.or,one_of_ne hwires]
  · rw [flow_new h.built hy.unknown]
    funext t'
    simp [P,Flow.or,one_of_ne hwires.symm]

theorem guarded_cons {u : CName} {l : List CName} (hu : u∉l) (taken : Bool) (σ : Env α) :
    Sem.guarded l taken (Function.update σ u (if taken then σ u else none))=
      Sem.guarded (u::l) taken σ := by
  funext w
  by_cases hw : w=u
  · subst hw
    cases taken <;> simp [Sem.guarded,hu]
  · cases taken <;> simp [Sem.guarded,hw]

/-- The names of a variable in the branches. -/
theorem isVariable_branch (u : CName) (k : Nat) {q : Name} (hq : q.all isCNameChar=true) :
    IsVariable ('_'::u.val++tmp k++q) := by
  have hcname : isCName ('_'::u.val)=true := by simpa using isCName_underscore u (q := []) rfl
  exact isVariable_tmp k (Or.inr hcname) hq

/-- One variable of those that a conditional uses. -/
theorem Fits.branchVariable {c : Name} {oc : Option α} (hc : IsVariable c) {u : CName}
    (l : List CName) (hu : u∈v.pass.vars) (h : Fits dom start t live σ outs v)
    (hholds : v.Holds t c oc) :
    ∃ (v' : View τ α) (trueVar falseVar : Name),
      Pass.branchVariables c (u::l) v.pass=
        ((u,trueVar,falseVar)::(Pass.branchVariables c l v'.pass).1,
          (Pass.branchVariables c l v'.pass).2) ∧
      View.Later v v' ∧
      Fits dom start t live (Function.update σ u (if oc.any dom.truth then σ u else none)) outs v' ∧
      v'.pass.currentConditionalTrueVar=v.pass.currentConditionalTrueVar ∧
      (∀ w,v'.pass.vars.lookup w=(v.pass.vars.insert u trueVar).lookup w) ∧
      IsVariable falseVar ∧
      v'.Holds t falseVar (if oc.any (fun w => !dom.truth w) then σ u else none) := by
  obtain ⟨current,hcurrent⟩ := Option.isSome_iff_exists.mp (AList.lookup_isSome.mpr hu)
  obtain ⟨hvariable,hcarries⟩ := (h.defines u).1 current hcurrent
  let trueVar : Name := '_'::u.val++tmp (v.pass.num+1)++"_true".toList
  let falseVar : Name := '_'::u.val++tmp (v.pass.num+2)++"_false".toList
  have htrue : Fresh v.bump trueVar :=
    h.fresh (isVariable_branch u _ (by decide)) (stamp_true _ _)
  have hstamp : stamp falseVar=some (v.bump.pass.num+1) := stamp_false _ _
  have hfalse : Fresh v.bump.bump falseVar :=
    h.bump.fresh (isVariable_branch u _ (by decide)) hstamp
  have hlater := v.bump_later.trans v.bump.bump_later
  obtain ⟨v1,hv1,hlater1,h1,hholdsTrue,hholdsFalse⟩ := h.bump.bump.branch htrue.bump hfalse
    (htrue.ne_new hstamp) hvariable hc (Holds.later hcarries hlater) (Holds.later hholds hlater)
  let v2 : View τ α := v1.withPass (v1.pass.setVariable u trueVar)
  have hlater2 : View.Later v1 v2 := v1.later_num _ le_rfl
  have hname : v.pass.nameOf u=current := by rw [Pass.nameOf,hcurrent]; rfl
  have hv2 : v2.pass=(v.bump.bump.pass.setVariable u trueVar).emit
      (branchLine trueVar falseVar "BRR".toList [v.pass.nameOf u,c]) := by
    show v1.pass.setVariable u trueVar=_
    rw [hv1,hname]
    rfl
  refine ⟨v2,trueVar,falseVar,?_,(hlater.trans hlater1).trans hlater2,
    h1.setVariable u htrue.isVariable hholdsTrue,?_,?_,hfalse.isVariable,
    Holds.later hholdsFalse hlater2⟩
  · rw [hv2]
    rfl
  · rw [hv2]
    rfl
  · intro w
    rw [hv2]
    rfl

theorem Fits.branchVariables {c : Name} {oc : Option α} (hc : IsVariable c) :
    ∀ (l : List CName) {v : View τ α} {σ : Env α},l.Nodup → (∀ u∈l,u∈v.pass.vars) →
      Fits dom start t live σ outs v → v.Holds t c oc →
        ∃ v',v'.pass=(Pass.branchVariables c l v.pass).2 ∧ View.Later v v' ∧
          Fits dom start t live (Sem.guarded l (oc.any dom.truth) σ) outs v' ∧
          v'.pass.currentConditionalTrueVar=v.pass.currentConditionalTrueVar ∧
          (∀ u∉l,v'.pass.vars.lookup u=v.pass.vars.lookup u) ∧
          ∀ past : Variables,
            let vars := Pass.falseVariables (Pass.branchVariables c l v.pass).1 past
            (∀ u∉l,vars.lookup u=past.lookup u) ∧ ∀ u∈l,∃ x,vars.lookup u=some x ∧ IsVariable x ∧
              v'.Holds t x (Sem.guarded l (oc.any fun w => !dom.truth w) σ u)
  | [],v,σ,_,_,h,_ => by
    have hσ : ∀ taken,Sem.guarded [] taken σ=σ := fun taken => funext fun u => by simp [Sem.guarded]
    rw [hσ]
    exact ⟨v,rfl,View.Later.refl v,h,rfl,fun _ _ => rfl,fun past => ⟨fun _ _ => rfl,by simp⟩⟩
  | u::l,v,σ,hnodup,hmem,h,hholds => by
    obtain ⟨hu,hl⟩ := List.nodup_cons.mp hnodup
    obtain ⟨v2,trueVar,falseVar,hstep,hlater2,h2,hguard2,hvars2,hfalse,hholdsFalse⟩ :=
      h.branchVariable hc l (hmem u (by simp)) hholds
    have hmem2 : ∀ w∈l,w∈v2.pass.vars := by
      intro w hw
      rw [← AList.lookup_isSome,hvars2,AList.lookup_isSome]
      exact (AList.mem_insert _).mpr (Or.inr (hmem w (List.mem_cons_of_mem u hw)))
    obtain ⟨v3,hv3,hlater3,h3,hguard3,hvars3,hfalse3⟩ := Fits.branchVariables hc l hl hmem2 h2
      (Holds.later hholds hlater2)
    rw [guarded_cons hu] at h3
    refine ⟨v3,by rw [hv3,hstep],hlater2.trans hlater3,h3,hguard3.trans hguard2,?_,?_⟩
    · intro w hw
      obtain ⟨hne,hw⟩ := not_or.mp (fun hmem => hw (List.mem_cons.mpr hmem))
      rw [hvars3 w hw,hvars2,AList.lookup_insert_ne hne]
    · intro past
      rw [hstep]
      obtain ⟨hold,hnew⟩ := hfalse3 (past.insert u falseVar)
      refine ⟨fun w hw => ?_,fun w hw => ?_⟩
      · obtain ⟨hne,hw⟩ := not_or.mp (fun hmem => hw (List.mem_cons.mpr hmem))
        exact (hold w hw).trans (AList.lookup_insert_ne hne)
      · obtain rfl | hw := List.mem_cons.mp hw
        · refine ⟨falseVar,(hold w hu).trans (AList.lookup_insert _),hfalse,?_⟩
          have hkept := Holds.later hholdsFalse hlater3
          convert hkept using 1
          cases oc.any fun w => !dom.truth w <;> simp [Sem.guarded]
        · have hne : w ≠ u := fun heq => hu (heq ▸ hw)
          obtain ⟨x,hx,hisVariable,hkept⟩ := hnew w hw
          refine ⟨x,hx,hisVariable,?_⟩
          convert hkept using 1
          simp [Sem.guarded,hw,hne]

/-- What is made between the condition and the branches. -/
structure OpenBranches where
  branches : List (CName × Name × Name)
  prior : Option Name
  trueVar : Name
  falseVar : Name
  pass : Pass

def Pass.openBranches (conditionVar : Name) (used : List CName) (s : Pass) : OpenBranches :=
  let (branches,s) := Pass.branchVariables conditionVar used s
  let priorConditionalTrueVar := s.currentConditionalTrueVar
  let (tmp,s) := s.newTempVariable
  let trueValue := tmp++"_1".toList
  let s := s.createNumLiteral ['1'] trueValue
  let (tmp,s) := s.newTempVariable
  let conditionalTrueVar := tmp++"_true".toList
  let (tmp,s) := s.newTempVariable
  let conditionalFalseVar := tmp++"_false".toList
  ⟨branches,priorConditionalTrueVar,conditionalTrueVar,conditionalFalseVar,
    s.emit (branchLine conditionalTrueVar conditionalFalseVar "BRR".toList
      [trueValue,conditionVar])⟩

/-- A guard: there is a true token under its name where a branch is live. -/
def View.Guards (dom : Domain τ α γ) (t : τ) (v : View τ α) (guard : Name) (live : Bool) : Prop :=
  IsVariable guard ∧ ∃ o,v.Holds t guard o ∧ o.any dom.truth=live

theorem Fits.openBranches (h : Fits dom start t live σ outs v) (hdom : Faithful dom) {c : Name}
    {oc : Option α} (hc : IsVariable c) (hholds : v.Holds t c oc) {l : List CName}
    (hnodup : l.Nodup) (hmem : ∀ u∈l,u∈v.pass.vars) :
    ∃ v',v'.pass=(Pass.openBranches c l v.pass).pass ∧ View.Later v v' ∧
      Fits dom start t live (Sem.guarded l (oc.any dom.truth) σ) outs v' ∧
      (Pass.openBranches c l v.pass).prior=v.pass.currentConditionalTrueVar ∧
      (∀ u∉l,v'.pass.vars.lookup u=v.pass.vars.lookup u) ∧
      v'.Guards dom t (Pass.openBranches c l v.pass).trueVar (live && oc.any dom.truth) ∧
      v'.Guards dom t (Pass.openBranches c l v.pass).falseVar
        (live && oc.any fun w => !dom.truth w) ∧
      ∀ past : Variables,
        let vars := Pass.falseVariables (Pass.openBranches c l v.pass).branches past
        (∀ u∉l,vars.lookup u=past.lookup u) ∧ ∀ u∈l,∃ x,vars.lookup u=some x ∧ IsVariable x ∧
          v'.Holds t x (Sem.guarded l (oc.any fun w => !dom.truth w) σ u) := by
  obtain ⟨v1,hv1,hlater1,h1,hguard1,hvars1,hfalse1⟩ :=
    Fits.branchVariables hc l hnodup hmem h hholds
  let trueValue : Name := tmp (v1.pass.num+1)++"_1".toList
  have hnew : Fresh v1.bump trueValue :=
    h1.fresh (isVariable_tmp (p := []) _ (Or.inl rfl) (by decide)) (stamp_one _)
  have hnum : IsNumber ['1'] 1 := ⟨isWord_of_all (by decide),by decide⟩
  obtain ⟨v2,hv2,h2⟩ := h1.bump.createNumLiteral hdom hnew hnum
  let trueVar : Name := tmp (v2.pass.num+1)++"_true".toList
  let falseVar : Name := tmp (v2.pass.num+2)++"_false".toList
  have htrue : Fresh v2.bump trueVar :=
    h2.fits.fresh (isVariable_tmp (p := []) _ (Or.inl rfl) (by decide)) (stamp_true [] _)
  have hstamp : stamp falseVar=some (v2.bump.pass.num+1) := stamp_false [] _
  have hfalse : Fresh v2.bump.bump falseVar :=
    h2.fits.bump.fresh (isVariable_tmp (p := []) _ (Or.inl rfl) (by decide)) hstamp
  have hlater2 : View.Later v1 v2.bump.bump :=
    ((v1.bump_later.trans h2.later).trans v2.bump_later).trans v2.bump.bump_later
  obtain ⟨v3,hv3,hlater3,h3,htrueHolds,hfalseHolds⟩ := h2.fits.bump.bump.branch htrue.bump hfalse
    (htrue.ne_new hstamp) hnew.isVariable hc
    (Holds.later h2.holds (v2.bump_later.trans v2.bump.bump_later))
    (Holds.later hholds (hlater1.trans hlater2))
  have hlater := (hlater1.trans hlater2).trans hlater3
  have hopen : Pass.openBranches c l v.pass=
      ⟨(Pass.branchVariables c l v.pass).1,v1.pass.currentConditionalTrueVar,trueVar,falseVar,
        v3.pass⟩ := by
    have hbump : v1.bump.pass=(Pass.branchVariables c l v.pass).2.newTempVariable.2 := by
      rw [← hv1]
      rfl
    have hliteral : v2.pass=(Pass.branchVariables c l v.pass).2.newTempVariable.2.createNumLiteral
        ['1'] ((Pass.branchVariables c l v.pass).2.newTempVariable.1++"_1".toList) := by
      rw [hv2,hbump,← hv1]
      rfl
    have hvalue : trueValue=
        (Pass.branchVariables c l v.pass).2.newTempVariable.1++"_1".toList := by
      rw [← hv1]
      rfl
    simp only [trueVar,falseVar]
    rw [hv3,hv1,hvalue]
    show _=OpenBranches.mk _ _ _ _ ((v2.pass.newTempVariable.2.newTempVariable.2).emit
      (branchLine (tmp (v2.pass.num+1)++"_true".toList) (tmp (v2.pass.num+2)++"_false".toList) _ _))
    rw [hliteral]
    rfl
  rw [hopen]
  have hvars3 : v3.pass.vars=v1.pass.vars := by
    rw [hv3]
    exact h2.vars
  have htrueGuard : (if oc.any dom.truth then
      (if live then some (dom.literal 1) else none) else none).any dom.truth=
        (live && oc.any dom.truth) := by
    cases oc.any dom.truth <;> cases live <;> simp [hdom.one]
  have hfalseGuard : (if oc.any (fun w => !dom.truth w) then
      (if live then some (dom.literal 1) else none) else none).any dom.truth=
        (live && oc.any fun w => !dom.truth w) := by
    cases oc.any (fun w => !dom.truth w) <;> cases live <;> simp [hdom.one]
  refine ⟨v3,rfl,hlater,h3,hguard1,fun u hu => by rw [hvars3,hvars1 u hu],
    ⟨htrue.isVariable,_,htrueHolds,htrueGuard⟩,⟨hfalse.isVariable,_,hfalseHolds,hfalseGuard⟩,
    fun past => ?_⟩
  obtain ⟨hold,hnew⟩ := hfalse1 past
  refine ⟨hold,fun u hu => ?_⟩
  obtain ⟨x,hx,hisVariable,hkept⟩ := hnew u hu
  exact ⟨x,hx,hisVariable,Holds.later hkept (hlater2.trans hlater3)⟩

section Merge

variable {afterTrue afterFalse : Variables} {σ1 σ2 : Env α}

/-- The round of the loop for one variable. -/
def Pass.mergeVariable (afterTrue afterFalse : Variables) (var : CName) (s : Pass) : Pass :=
  match afterTrue.lookup var,afterFalse.lookup var with
  | some trueName,some falseName =>
    if trueName=falseName then s
    else
      let (tmp,s) := s.newTempVariable
      let newName := '_'::var.val++"_phi".toList++tmp
      (s.emit (assignLine newName "MER".toList [trueName,falseName])).setVariable var newName
  | some name,none => s.setVariable var name
  | none,some name => s.setVariable var name
  | none,none => s

theorem Fits.mergeVariable (h : Fits dom start t live σ outs v) {u : CName}
    (htrue : Defines t afterTrue σ1 v) (hfalse : Defines t afterFalse σ2 v)
    (hapart : ∀ x y,afterTrue.lookup u=some x → afterFalse.lookup u=some y → x ≠ y →
      σ1 u=none ∨ σ2 u=none)
    (hvars : v.pass.vars.lookup u=afterFalse.lookup u) :
    ∃ v',v'.pass=Pass.mergeVariable afterTrue afterFalse u v.pass ∧ View.Later v v' ∧
      v'.pass.currentConditionalTrueVar=v.pass.currentConditionalTrueVar ∧
      Fits dom start t live (Function.update σ u ((σ1 u).or (σ2 u))) outs v' ∧
      (∀ w ≠ u,v'.pass.vars.lookup w=v.pass.vars.lookup w) ∧
      (afterTrue.lookup u=afterFalse.lookup u → v'.pass.vars.lookup u=v.pass.vars.lookup u) := by
  obtain ⟨htrue,htrueNone⟩ := htrue u
  obtain ⟨hfalse,hfalseNone⟩ := hfalse u
  obtain ⟨hold,holdNone⟩ := h.defines u
  rw [hvars] at hold holdNone
  unfold Pass.mergeVariable
  cases hx : afterTrue.lookup u with
  | none =>
    cases hy : afterFalse.lookup u with
    | none =>
      have hsame : (σ1 u).or (σ2 u)=σ u := by
        rw [htrueNone hx,hfalseNone hy,holdNone hy]
        rfl
      rw [hsame,Function.update_eq_self]
      exact ⟨v,rfl,View.Later.refl v,rfl,h,fun _ _ => rfl,fun _ => rfl⟩
    | some y =>
      obtain ⟨hvariable,hholds⟩ := hfalse y hy
      rw [htrueNone hx,Option.none_or]
      exact ⟨v.withPass (v.pass.setVariable u y),rfl,v.later_num _ le_rfl,rfl,
        h.setVariable u hvariable hholds,fun w hw => AList.lookup_insert_ne hw,
        fun heq => by cases heq⟩
  | some x =>
    obtain ⟨hvariable,hholds⟩ := htrue x hx
    cases hy : afterFalse.lookup u with
    | none =>
      rw [hfalseNone hy,Option.or_none]
      exact ⟨v.withPass (v.pass.setVariable u x),rfl,v.later_num _ le_rfl,rfl,
        h.setVariable u hvariable hholds,fun w hw => AList.lookup_insert_ne hw,
        fun heq => by cases heq⟩
    | some y =>
      obtain ⟨hvariable',hholds'⟩ := hfalse y hy
      by_cases hxy : x=y
      · subst hxy
        have hsame : (σ1 u).or (σ2 u)=σ u := by
          rw [Holds.unique hholds hholds',Option.or_self,Holds.unique hholds' (hold x hy).2]
        rw [hsame,Function.update_eq_self]
        exact ⟨v,(if_pos rfl).symm,View.Later.refl v,rfl,h,fun _ _ => rfl,fun _ => rfl⟩
      · let newName : Name := '_'::u.val++"_phi".toList++tmp (v.pass.num+1)
        have hcname : isCName ('_'::u.val++"_phi".toList)=true :=
          isCName_underscore u (by decide)
        have hnew : Fresh v.bump newName :=
          h.fresh (isVariable_end _ (Or.inr hcname)) (stamp_tmp _ _)
        obtain ⟨v1,hv1,h1⟩ := h.bump.merge hnew hvariable hvariable'
          (Holds.later hholds v.bump_later) (Holds.later hholds' v.bump_later)
          (hapart x y hx hy hxy)
        let v2 : View τ α := v1.withPass (v1.pass.setVariable u newName)
        have hv2 : v2.pass=(v.bump.pass.emit
            (assignLine newName "MER".toList [x,y])).setVariable u newName := by
          show v1.pass.setVariable u newName=_
          rw [hv1]
        have hlater := (v.bump_later.trans h1.later).trans (v1.later_num v2.pass le_rfl)
        refine ⟨v2,?_,hlater,by rw [hv2]; rfl,h1.fits.setVariable u hnew.isVariable h1.holds,
          fun w hw => ?_,fun heq => absurd (Option.some.inj heq) hxy⟩
        · rw [hv2]
          exact (if_neg hxy).symm
        · rw [hv2]
          exact AList.lookup_insert_ne hw

theorem Fits.mergeVariables
    (hapart : ∀ u x y,afterTrue.lookup u=some x → afterFalse.lookup u=some y → x ≠ y →
      σ1 u=none ∨ σ2 u=none) :
    ∀ (l : List CName) {v : View τ α} {σ : Env α},l.Nodup → Fits dom start t live σ outs v →
      Defines t afterTrue σ1 v → Defines t afterFalse σ2 v →
      (∀ u∈l,v.pass.vars.lookup u=afterFalse.lookup u) →
        ∃ v',v'.pass=Pass.mergeVariables afterTrue afterFalse l v.pass ∧ View.Later v v' ∧
          v'.pass.currentConditionalTrueVar=v.pass.currentConditionalTrueVar ∧
          Fits dom start t live (fun u => if u∈l then (σ1 u).or (σ2 u) else σ u) outs v' ∧
          ∀ u,afterTrue.lookup u=afterFalse.lookup u →
            v'.pass.vars.lookup u=v.pass.vars.lookup u
  | [],v,σ,_,h,_,_,_ => ⟨v,rfl,View.Later.refl v,rfl,by simpa using h,fun _ _ => rfl⟩
  | u::l,v,σ,hnodup,h,htrue,hfalse,hvars => by
    obtain ⟨hu,hl⟩ := List.nodup_cons.mp hnodup
    obtain ⟨v1,hv1,hlater1,hguard1,h1,hother1,hsame1⟩ := h.mergeVariable htrue hfalse (hapart u)
      (hvars u (by simp))
    have hvars1 : ∀ w∈l,v1.pass.vars.lookup w=afterFalse.lookup w := by
      intro w hw
      rw [hother1 w fun heq => hu (heq ▸ hw)]
      exact hvars w (List.mem_cons_of_mem u hw)
    obtain ⟨v2,hv2,hlater2,hguard2,h2,hsame2⟩ := Fits.mergeVariables hapart l hl h1
      (htrue.later hlater1) (hfalse.later hlater1) hvars1
    have hσ : (fun w => if w∈l then (σ1 w).or (σ2 w)
        else Function.update σ u ((σ1 u).or (σ2 u)) w)=
          fun w => if w∈u::l then (σ1 w).or (σ2 w) else σ w := by
      funext w
      by_cases hw : w=u
      · subst hw
        simp
      · simp [hw]
    rw [hσ] at h2
    refine ⟨v2,?_,hlater1.trans hlater2,hguard2.trans hguard1,h2,fun w heq => ?_⟩
    · rw [hv2,hv1]
      rfl
    · rw [hsame2 w heq]
      by_cases hw : w=u
      · subst hw
        exact hsame1 heq
      · exact hother1 w hw

end Merge

end Manchester.Compiler
