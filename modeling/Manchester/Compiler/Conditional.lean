import Manchester.Compiler.Branching

namespace Manchester.Compiler

open Assembler Framework Framework.Net

theorem Stmt.visit_conditional {functions : List Function} {order : SetOrder} {condition : Expr}
    {body elseBody : List Stmt} {s s' : Pass} {used used' : List CName}
    (hused : Stmt.usedInAll true body=some used) (hused' : Stmt.usedInAll true elseBody=some used')
    (h : (Stmt.conditional condition body elseBody).visit functions order s=.ok s') :
    ∃ c s0 s1 s2,condition.visit functions s=.ok (c,s0) ∧
      let l := (s0.iterate order (usedDefined s0 (used++used'))).1
      let r := Pass.openBranches c l (s0.iterate order (usedDefined s0 (used++used'))).2
      Stmt.visitAll functions order body
        {r.pass with currentConditionalTrueVar := some r.trueVar}=.ok s1 ∧
      Stmt.visitAll functions order elseBody
        {s1 with
          currentConditionalTrueVar := some r.falseVar
          vars := Pass.falseVariables r.branches s0.vars}=.ok s2 ∧
      let s3 : Pass := {s2 with currentConditionalTrueVar := r.prior}
      let keys := (s2.vars.keys++s1.vars.keys).dedup
      s'=Pass.mergeVariables s1.vars s2.vars (s3.iterate order keys).1
        (s3.iterate order keys).2 := by
  rw [Stmt.visit] at h
  obtain ⟨⟨c,s0⟩,hcondition,h⟩ := bind_eq_ok h
  simp only [hused,hused'] at h
  obtain ⟨l,hl,h⟩ := bind_eq_ok h
  cases hl
  obtain ⟨s1,hbody,h⟩ := bind_eq_ok h
  obtain ⟨s2,helse,h⟩ := bind_eq_ok h
  cases h
  exact ⟨c,s0,s1,s2,hcondition,hbody,helse,rfl⟩

section Visits

variable {τ α γ : Type} [DecidableEq τ] {dom : Domain τ α γ} {start v v' v'' : View τ α}
  {t : τ} {live : Bool} {σ : Env α} {outs : List (Option α)} {used used' : List CName}

theorem Runs.seq {sem sem' : Sem α} (h : Runs dom start t live outs used v v' (sem live σ))
    (h' : Runs dom start t live (outs++(sem live σ).2) used' v' v'' (sem' live (sem live σ).1)) :
    Runs dom start t live outs (used++used') v v'' (Sem.seq sem sem' live σ) := by
  refine ⟨h.later.trans h'.later,?_,fun u hu => ?_,h'.guard.trans h.guard⟩
  · have hfits := h'.fits
    rw [List.append_assoc] at hfits
    exact hfits
  · rw [h'.vars u fun hmem => hu (List.mem_append_right _ hmem),
      h.vars u fun hmem => hu (List.mem_append_left _ hmem)]

theorem guarded_defined {l : List CName} (hsub : ∀ u∈l,u∈used) (hnone : ∀ u∈used,u∉l → σ u=none)
    (taken : Bool) : Sem.guarded l taken σ=Sem.guarded used taken σ := by
  funext u
  by_cases hl : u∈l
  · simp [Sem.guarded,hl,hsub u hl]
  · by_cases hu : u∈used
    · simp [Sem.guarded,hl,hu,hnone u hu hl]
    · simp [Sem.guarded,hl,hu]

/-- The elements of a set are visited once each. -/
theorem iterate_nodup (order : SetOrder) (s : Pass) {l : List CName} (h : l.Nodup) :
    (s.iterate order l).1.Nodup ∧ ∀ u,u∈(s.iterate order l).1 ↔ u∈l := by
  have hperm : (s.iterate order l).1.Perm l := order.perm _ _ _
  exact ⟨hperm.nodup_iff.mpr h,fun u => hperm.mem_iff⟩

/-- A conditional visits the used variables that are defined. -/
theorem Fits.visited (h : Fits dom start t live σ outs v) (order : SetOrder) (used : List CName) :
    let l := (v.pass.iterate order (usedDefined v.pass used)).1
    l.Nodup ∧ (∀ u,u∈l ↔ u∈used ∧ u∈v.pass.vars) ∧
      ∀ taken,Sem.guarded l taken σ=Sem.guarded used taken σ := by
  intro l
  obtain ⟨hnodup,hmem⟩ := iterate_nodup order v.pass (l := usedDefined v.pass used)
    ((List.nodup_dedup used).filter _)
  have hl : ∀ u,u∈l ↔ u∈used ∧ u∈v.pass.vars := by
    intro u
    rw [hmem u,usedDefined,List.mem_filter,List.mem_dedup,decide_eq_true_iff]
    rfl
  refine ⟨hnodup,hl,guarded_defined (fun u hu => ((hl u).mp hu).1) ?_⟩
  intro u hu hnot
  apply (h.defines u).2
  apply AList.lookup_eq_none.mpr
  intro hvars
  exact hnot ((hl u).mpr ⟨hu,hvars⟩)

/-- Some of the variables have new names, and the others what they had. -/
theorem Defines.renamed {vars past : Variables} {σ' : Env α} {l : List CName}
    (h : Defines t past σ v) (hold : ∀ u∉l,vars.lookup u=past.lookup u)
    (hsame : ∀ u∉l,σ' u=σ u)
    (hnew : ∀ u∈l,∃ x,vars.lookup u=some x ∧ IsVariable x ∧ v.Holds t x (σ' u)) :
    Defines t vars σ' v := by
  intro u
  by_cases hu : u∈l
  · obtain ⟨x,hx,hvariable,hholds⟩ := hnew u hu
    constructor
    · intro y hy
      obtain rfl := Option.some.inj (hx.symm.trans hy)
      exact ⟨hvariable,hholds⟩
    · intro hnone
      cases hx.symm.trans hnone
  · rw [hold u hu,hsame u hu]
    exact h u

/-- The branches do not both define a variable. -/
theorem branches_apart {sem sem' : Sem α} {n n' : Nat} (h : sem.Lawful used n)
    (h' : sem'.Lawful used n') (truth : α → Bool) (oc : Option α) (live : Bool) (σ : Env α)
    {u : CName} (hu : u∈used) :
    (sem (live && oc.any truth) (Sem.guarded used (oc.any truth) σ)).1 u=none ∨
      (sem' (live && oc.any fun w => !truth w)
        (Sem.guarded used (oc.any fun w => !truth w) σ)).1 u=none := by
  by_cases htaken : oc.any truth=true
  · have hnot : (oc.any fun w => !truth w)=false := by
      cases hoc : oc with
      | none => rfl
      | some w => simpa [hoc] using htaken
    right
    rw [hnot,Bool.and_false]
    exact (h'.guarded_dead σ).1 u hu
  · left
    rw [Bool.eq_false_iff.mpr htaken,Bool.and_false]
    exact (h.guarded_dead σ).1 u hu

/-- Outside the keys the first branch defines nothing. -/
theorem merged_keys {keys : List CName} {σ1 σ2 : Env α} (h : ∀ u∉keys,σ1 u=none) :
    (fun u => if u∈keys then (σ1 u).or (σ2 u) else σ2 u)=fun u => (σ1 u).or (σ2 u) := by
  funext u
  split_ifs with hu
  · rfl
  · rw [h u hu,Option.none_or]

/-- The other branch starts with the names of the false branch for the variables of a list. -/
theorem Fits.openElse {v1 v2 : View τ α} {σ' : Env α} {live' taken : Bool} {l : List CName}
    {vars past : Variables} {falseVar : Name} (h : Fits dom start t live' σ' outs v2)
    (hlater : View.Later v1 v2) (hguard : v1.Guards dom t falseVar live)
    (hpast : Defines t past σ v2) (hold : ∀ u∉l,vars.lookup u=past.lookup u)
    (hnew : ∀ u∈l,∃ x,vars.lookup u=some x ∧ IsVariable x ∧
      v1.Holds t x (Sem.guarded l taken σ u)) :
    Fits dom start t live (Sem.guarded l taken σ) outs
      (v2.withPass {v2.pass with currentConditionalTrueVar := some falseVar, vars := vars}) := by
  have hdefines : Defines t vars (Sem.guarded l taken σ) v2 := by
    apply hpast.renamed hold
    · exact fun u hu => Sem.guarded_of_not_mem hu
    · intro u hu
      obtain ⟨x,hx,hvariable,hkept⟩ := hnew u hu
      exact ⟨x,hx,hvariable,Holds.later hkept hlater⟩
  obtain ⟨hvariable,o,hholds,hlive⟩ := hguard
  exact h.withPass rfl rfl rfl le_rfl
    ⟨hvariable,o,Holds.later hholds (hlater.trans (v2.later_num _ le_rfl)),hlive⟩ hdefines

variable [Nonempty γ]

/-- The variables meet again after the branches, of which v2 ends the first and v3 the second. -/
theorem Fits.meet (order : SetOrder) {v2 v3 : View τ α} {first second : Env α} {live' : Bool}
    {prior : Option Name} (hlater : View.Later v2 v3) (hfirst : Defines t v2.pass.vars first v2)
    (hsecond : Fits dom start t live' second outs v3)
    (hguard : Guarded dom t live (v3.withPass {v3.pass with currentConditionalTrueVar := prior}))
    (hapart : ∀ u x y,v2.pass.vars.lookup u=some x → v3.pass.vars.lookup u=some y → x ≠ y →
      first u=none ∨ second u=none) :
    let s3 : Pass := {v3.pass with currentConditionalTrueVar := prior}
    let keys := (v3.pass.vars.keys++v2.pass.vars.keys).dedup
    ∃ v',v'.pass=Pass.mergeVariables v2.pass.vars v3.pass.vars (s3.iterate order keys).1
        (s3.iterate order keys).2 ∧ View.Later v3 v' ∧
      v'.pass.currentConditionalTrueVar=prior ∧
      Fits dom start t live (fun u => (first u).or (second u)) outs v' ∧
      ∀ u,v2.pass.vars.lookup u=v3.pass.vars.lookup u →
        v'.pass.vars.lookup u=v3.pass.vars.lookup u := by
  intro s3 keys
  let v4 := v3.withPass (s3.iterate order keys).2
  have hlater4 : View.Later v3 v4 := v3.later_num v4.pass le_rfl
  have h4 : Fits dom start t live second outs v4 :=
    hsecond.withPass rfl rfl rfl le_rfl
      (hguard.later (View.later_num _ v4.pass le_rfl) rfl) hsecond.defines
  obtain ⟨hnodup,hmem⟩ := iterate_nodup order s3
    (List.nodup_dedup (v3.pass.vars.keys++v2.pass.vars.keys))
  obtain ⟨v5,hv5,hlater5,hguard5,h5,hsame⟩ := Fits.mergeVariables hapart _ hnodup h4
    (hfirst.later (hlater.trans hlater4)) (hsecond.defines.later hlater4) fun _ _ => rfl
  have hundefined : ∀ u∉(s3.iterate order keys).1,first u=none := by
    intro u hu
    rw [hmem,List.mem_dedup,List.mem_append,not_or] at hu
    exact (hfirst u).2 (AList.lookup_eq_none.mpr hu.2)
  rw [merged_keys hundefined] at h5
  exact ⟨v5,hv5,hlater4.trans hlater5,hguard5,h5,hsame⟩

/-- The first branch runs under its guard, and what it leaves is where the other one starts. -/
theorem Fits.firstBranch (functions : List Function) (order : SetOrder) (hdom : Faithful dom)
    {body : List Stmt} {s1 : Pass} {c : Name} {oc : Option α} {U : List CName} {l : List CName}
    {r : OpenBranches} (hsub : used⊆U)
    (hbody : ∀ {v : View τ α} {s' : Pass} {live : Bool} {σ : Env α} {outs : List (Option α)},
      Stmt.visitAll functions order body v.pass=.ok s' → Fits dom start t live σ outs v →
        ∃ v',v'.pass=s' ∧ Runs dom start t live outs used v v' (Stmt.lazyAll dom body live σ))
    (hl : l=(v.pass.iterate order (usedDefined v.pass U)).1)
    (hr : r=Pass.openBranches c l (v.pass.iterate order (usedDefined v.pass U)).2)
    (hvisit : Stmt.visitAll functions order body
      {r.pass with currentConditionalTrueVar := some r.trueVar}=.ok s1)
    (h : Fits dom start t live σ outs v) (hc : IsVariable c) (hholds : v.Holds t c oc) :
    let first := Stmt.lazyAll dom body (live && oc.any dom.truth)
      (Sem.guarded U (oc.any dom.truth) σ)
    let vars := Pass.falseVariables r.branches v.pass.vars
    r.prior=v.pass.currentConditionalTrueVar ∧
      ∃ v2,v2.pass=s1 ∧ View.Later v v2 ∧
        Fits dom start t (live && oc.any dom.truth) first.1 (outs++first.2) v2 ∧
        Fits dom start t (live && oc.any fun w => !dom.truth w)
          (Sem.guarded U (oc.any fun w => !dom.truth w) σ) (outs++first.2)
          (v2.withPass
            {v2.pass with currentConditionalTrueVar := some r.falseVar, vars := vars}) ∧
        ∀ u∉U,v2.pass.vars.lookup u=v.pass.vars.lookup u ∧
          vars.lookup u=v.pass.vars.lookup u := by
  intro first vars
  -- the visited variables are the used ones that are defined
  obtain ⟨hnodup,hmem,hguarded⟩ := h.visited order U
  rw [← hl] at hnodup hmem hguarded
  let vi := v.withPass (v.pass.iterate order (usedDefined v.pass U)).2
  have hlateri : View.Later v vi := v.later_num _ le_rfl
  have hi : Fits dom start t live σ outs vi :=
    h.withPass rfl rfl rfl le_rfl (h.guarded.later hlateri rfl) h.defines
  obtain ⟨v1,hv1,hlater1,h1,hprior,hvars1,htrueGuard,hfalseGuard,hfalse1⟩ :=
    hi.openBranches hdom hc (Holds.later hholds hlateri) hnodup fun u hu => ((hmem u).mp hu).2
  change v1.pass=(Pass.openBranches c l (v.pass.iterate order (usedDefined v.pass U)).2).pass at hv1
  rw [← hr] at hv1
  rw [show Pass.openBranches c l vi.pass=r from hr.symm] at hprior htrueGuard hfalseGuard hfalse1
  rw [hguarded] at h1
  -- the body
  let vb := v1.withPass {v1.pass with currentConditionalTrueVar := some r.trueVar}
  have hb : Fits dom start t (live && oc.any dom.truth) (Sem.guarded U (oc.any dom.truth) σ) outs
      vb := h1.withPass rfl rfl rfl le_rfl htrueGuard h1.defines
  have hvb : vb.pass={r.pass with currentConditionalTrueVar := some r.trueVar} := by
    show {v1.pass with currentConditionalTrueVar := some r.trueVar}=_
    rw [hv1]
  obtain ⟨v2,hv2,h2⟩ := hbody (by rw [hvb]; exact hvisit) hb
  have hlater2 : View.Later v1 v2 := (v1.later_num vb.pass le_rfl).trans h2.later
  have hlater := (hlateri.trans hlater1).trans hlater2
  -- the other one starts with the variables of the false branch
  obtain ⟨hold,hnew⟩ := hfalse1 v.pass.vars
  have he := h2.fits.openElse hlater2 hfalseGuard (h.defines.later hlater) hold hnew
  rw [hguarded] at he
  refine ⟨hprior,v2,hv2,hlater,h2.fits,he,fun u hu => ?_⟩
  have hnot : u∉l := fun hmemU => hu ((hmem u).mp hmemU).1
  refine ⟨?_,hold u hnot⟩
  rw [h2.vars u fun hmemUsed => hu (hsub hmemUsed)]
  exact hvars1 u hnot

/-- Both branches are there, and one of them at most is live. -/
theorem Fits.conditional (functions : List Function) (order : SetOrder) (hdom : Faithful dom)
    {condition : Expr} {body elseBody : List Stmt} {s' : Pass}
    (hcondition : condition.isPlain=true) (hused : Stmt.usedInAll true body=some used)
    (hused' : Stmt.usedInAll true elseBody=some used')
    (hlawful : (Stmt.lazyAll dom body).Lawful (used++used') (Stmt.outputsOfAll body))
    (hlawful' : (Stmt.lazyAll dom elseBody).Lawful (used++used') (Stmt.outputsOfAll elseBody))
    (hbody : ∀ {v : View τ α} {s' : Pass} {live : Bool} {σ : Env α} {outs : List (Option α)},
      Stmt.visitAll functions order body v.pass=.ok s' → Fits dom start t live σ outs v →
        ∃ v',v'.pass=s' ∧ Runs dom start t live outs used v v' (Stmt.lazyAll dom body live σ))
    (helse : ∀ {v : View τ α} {s' : Pass} {live : Bool} {σ : Env α} {outs : List (Option α)},
      Stmt.visitAll functions order elseBody v.pass=.ok s' → Fits dom start t live σ outs v →
        ∃ v',v'.pass=s' ∧
          Runs dom start t live outs used' v v' (Stmt.lazyAll dom elseBody live σ))
    (hvisit : (Stmt.conditional condition body elseBody).visit functions order v.pass=.ok s')
    (h : Fits dom start t live σ outs v) :
    ∃ v',v'.pass=s' ∧ Runs dom start t live outs (condition.usedVariables++used++used') v v'
      ((Stmt.conditional condition body elseBody).lazy dom live σ) := by
  obtain ⟨c,s0,s1,s2,hc,hbodyVisit,helseVisit,rfl⟩ := Stmt.visit_conditional hused hused' hvisit
  obtain ⟨v0,rfl,h0⟩ := condition.visit_yields functions hdom hcondition hc h
  set oc := condition.lazy dom live σ with hoc
  let U := used++used'
  let r := Pass.openBranches c (v0.pass.iterate order (usedDefined v0.pass U)).1
    (v0.pass.iterate order (usedDefined v0.pass U)).2
  obtain ⟨hprior,v2,rfl,hlater2,h2,he,hvars⟩ := h0.gives.fits.firstBranch functions order hdom
    (List.subset_append_left used used') hbody rfl rfl hbodyVisit h0.isVariable h0.gives.holds
  obtain ⟨v3,rfl,h3⟩ := helse helseVisit he
  have hlater3 : View.Later v2 v3 := by
    refine View.Later.trans (View.later_num v2 _ ?_) h3.later
    exact le_rfl
  have hthrough : View.Later v v3 := (h0.gives.later.trans hlater2).trans hlater3
  set first := Stmt.lazyAll dom body (live && oc.any dom.truth)
    (Sem.guarded U (oc.any dom.truth) σ) with hfirst
  set second := Stmt.lazyAll dom elseBody (live && oc.any fun w => !dom.truth w)
    (Sem.guarded U (oc.any fun w => !dom.truth w) σ) with hsecond
  have hlookup : ∀ u∉U,v2.pass.vars.lookup u=v.pass.vars.lookup u ∧
      v3.pass.vars.lookup u=v.pass.vars.lookup u := by
    intro u hu
    obtain ⟨htrue,hfalse⟩ := hvars u hu
    rw [h3.vars u fun hmem => hu (List.mem_append_right _ hmem),← h0.gives.vars]
    exact ⟨htrue,hfalse⟩
  have hapart : ∀ u x y,v2.pass.vars.lookup u=some x → v3.pass.vars.lookup u=some y → x ≠ y →
      first.1 u=none ∨ second.1 u=none := by
    intro u x y hx hy hne
    have hu : u∈U := by
      by_contra hu
      rw [(hlookup u hu).1] at hx
      rw [(hlookup u hu).2] at hy
      exact hne (Option.some.inj (hx.symm.trans hy))
    exact branches_apart hlawful hlawful' dom.truth oc live σ hu
  -- the variables meet again
  have hguard3 : Guarded dom t live
      (v3.withPass {v3.pass with currentConditionalTrueVar := r.prior}) :=
    h.guarded.later (hthrough.trans (v3.later_num _ le_rfl)) (hprior.trans h0.gives.guard)
  obtain ⟨v4,hv4,hlater4,hguard4,h4,hsame4⟩ :=
    Fits.meet order hlater3 h2.defines h3.fits hguard3 hapart
  have hlazy : (Stmt.conditional condition body elseBody).lazy dom live σ=
      (fun u => (first.1 u).or (second.1 u),first.2++second.2) := by
    simp only [Stmt.lazy,hused,hused',Option.getD_some]
    rfl
  rw [hlazy]
  refine ⟨v4,hv4,hthrough.trans hlater4,?_,fun u hu => ?_,
    hguard4.trans (hprior.trans h0.gives.guard)⟩
  · rw [← List.append_assoc]
    exact h4
  · have hu : u∉U := by
      intro hmem
      apply hu
      rw [List.append_assoc]
      exact List.mem_append_right _ hmem
    obtain ⟨htrue,hfalse⟩ := hlookup u hu
    rw [hsame4 u (htrue.trans hfalse.symm)]
    exact hfalse

/-- An OUTD statement prints the value of its argument. -/
theorem Expr.visit_output (fs : List Function) (hdom : Faithful dom) {e arg : Expr}
    {x : Name} {s' : Pass} (hprinted : e.printed=some arg) (hplain : arg.isPlain=true)
    (hvisit : e.visit (fs++specialFunctions.map Prod.fst) v.pass=.ok (x,s'))
    (h : Fits dom start t live σ outs v) (used : List CName) :
    ∃ v',v'.pass=s' ∧
      Runs dom start t live outs used v v' (Sem.print (arg.lazy dom) live σ) := by
  unfold Expr.printed at hprinted
  split at hprinted
  · rename_i name arg'
    split_ifs at hprinted with hname
    obtain rfl := Option.some.inj hprinted
    rw [Expr.visit] at hvisit
    obtain ⟨⟨args,s1⟩,hargs,hcall⟩ := bind_eq_ok hvisit
    rw [Expr.visitArgs] at hargs
    obtain ⟨⟨a,s2⟩,harg,hargs⟩ := bind_eq_ok hargs
    cases hargs
    change s1.functionCall _ name [a]=_ at hcall
    rw [functionCall_output fs hname] at hcall
    cases hcall
    obtain ⟨v1,rfl,h1⟩ := arg'.visit_yields _ hdom hplain harg h
    obtain ⟨v2,hv2,hlater2,h2⟩ := h1.gives.fits.output h1.isVariable h1.gives.holds
    refine ⟨v2,hv2,h1.gives.later.trans hlater2,h2,fun u _ => ?_,?_⟩
    · rw [hv2]
      exact congrArg (AList.lookup u) h1.gives.vars
    · rw [hv2]
      exact h1.gives.guard
  · cases hprinted

set_option linter.unusedSectionVars false in
mutual

theorem Stmt.visit_runs (fs : List Function) (order : SetOrder) (hdom : Faithful dom) :
    ∀ (s : Stmt) {v : View τ α} {s' : Pass} {live : Bool} {σ : Env α} {outs : List (Option α)}
      {used : List CName},s.isPlain=true → s.usedVariables true=some used →
        s.visit (fs++specialFunctions.map Prod.fst) order v.pass=.ok s' →
          Fits dom start t live σ outs v →
            ∃ v',v'.pass=s' ∧ Runs dom start t live outs used v v' (s.lazy dom live σ)
  | .assignment lhs e,v,s',live,σ,outs,used,hplain,hused,hvisit,h => by
    obtain rfl := Option.some.inj hused
    rw [Stmt.visit] at hvisit
    obtain ⟨⟨a,s1⟩,he,hvisit⟩ := bind_eq_ok hvisit
    cases hvisit
    obtain ⟨v1,rfl,h1⟩ := e.visit_yields _ hdom hplain he h
    obtain ⟨v2,hv2,hlater2,h2⟩ := h1.gives.fits.assignment lhs h1.isVariable h1.gives.holds
    refine ⟨v2,hv2,h1.gives.later.trans hlater2,?_,fun u hu => ?_,?_⟩
    · simp only [Stmt.lazy,Sem.assign,List.append_nil]
      exact h2
    · have hne : u ≠ lhs := fun heq => hu (by simp [heq])
      rw [hv2]
      exact (AList.lookup_insert_ne hne).trans (congrArg (AList.lookup u) h1.gives.vars)
    · rw [hv2]
      exact h1.gives.guard
  | .expression e,v,s',live,σ,outs,used,hplain,hused,hvisit,h => by
    rw [Stmt.visit] at hvisit
    obtain ⟨⟨x,s1⟩,he,hvisit⟩ := bind_eq_ok hvisit
    cases hvisit
    simp only [Stmt.isPlain] at hplain
    simp only [Stmt.lazy]
    cases hprinted : e.printed with
    | none =>
      rw [hprinted] at hplain
      obtain ⟨v1,hv1,h1⟩ := e.visit_yields _ hdom hplain he h
      exact ⟨v1,hv1,h1.runs used⟩
    | some arg =>
      rw [hprinted] at hplain
      exact Expr.visit_output fs hdom hprinted hplain he h used
  | .conditional condition body elseBody,v,s',live,σ,outs,used,hplain,hused,hvisit,h => by
    simp only [Stmt.isPlain,Bool.and_eq_true] at hplain
    obtain ⟨inBody,hinBody,hlawful⟩ := Stmt.lazyAll_lawful dom body hplain.1.2
    obtain ⟨inElse,hinElse,hlawful'⟩ := Stmt.lazyAll_lawful dom elseBody hplain.2
    simp only [Stmt.usedVariables,hinBody,hinElse,Option.some.injEq] at hused
    obtain rfl := hused
    exact Fits.conditional _ order hdom hplain.1.1 hinBody hinElse
      (hlawful.mono (List.subset_append_left _ _)) (hlawful'.mono (List.subset_append_right _ _))
      (fun hvisit h => Stmt.visitAll_runs fs order hdom body hplain.1.2 hinBody hvisit h)
      (fun hvisit h => Stmt.visitAll_runs fs order hdom elseBody hplain.2 hinElse hvisit h) hvisit h

theorem Stmt.visitAll_runs (fs : List Function) (order : SetOrder) (hdom : Faithful dom) :
    ∀ (l : List Stmt) {v : View τ α} {s' : Pass} {live : Bool} {σ : Env α}
      {outs : List (Option α)} {used : List CName},Stmt.allPlain l=true →
        Stmt.usedInAll true l=some used →
          Stmt.visitAll (fs++specialFunctions.map Prod.fst) order l v.pass=.ok s' →
            Fits dom start t live σ outs v →
              ∃ v',v'.pass=s' ∧ Runs dom start t live outs used v v' (Stmt.lazyAll dom l live σ)
  | [],v,s',live,σ,outs,used,_,_,hvisit,h => by
    rw [Stmt.visitAll] at hvisit
    cases hvisit
    refine ⟨v,rfl,View.Later.refl v,?_,fun _ _ => rfl,rfl⟩
    simpa [Stmt.lazyAll,Sem.skip] using h
  | s::rest,v,s',live,σ,outs,used,hplain,hused,hvisit,h => by
    simp only [Stmt.allPlain,Bool.and_eq_true] at hplain
    obtain ⟨usedFirst,hfirst,-⟩ := Stmt.lazy_lawful dom s hplain.1
    obtain ⟨usedRest,hrest,-⟩ := Stmt.lazyAll_lawful dom rest hplain.2
    simp only [Stmt.usedInAll,hfirst,hrest,Option.some.injEq] at hused
    obtain rfl := hused
    rw [Stmt.visitAll] at hvisit
    obtain ⟨s1,hs,hvisit⟩ := bind_eq_ok hvisit
    obtain ⟨v1,rfl,h1⟩ := Stmt.visit_runs fs order hdom s hplain.1 hfirst hs h
    obtain ⟨v2,hv2,h2⟩ := Stmt.visitAll_runs fs order hdom rest hplain.2 hrest hvisit h1.fits
    exact ⟨v2,hv2,h1.seq h2⟩

end

end Visits

end Manchester.Compiler
