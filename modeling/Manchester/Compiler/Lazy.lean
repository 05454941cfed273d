import Manchester.Compiler.Sequential

namespace Manchester.Compiler

open Assembler (Domain machineDomain)

-- Both branches of a conditional are there; in the one that is not taken the variables that it uses
-- have no value, and it is not live: its numbers have no value either.

/-- The effect of statements on the variables, and what each OUTD statement of the text prints. -/
abbrev Sem (α : Type) := Bool → Env α → Env α × List (Option α)

namespace Sem

variable {α : Type}

def skip : Sem α := fun _ σ => (σ,[])

def assign (lhs : CName) (value : Bool → Env α → Option α) : Sem α := fun live σ =>
  (Function.update σ lhs (value live σ),[])

def print (value : Bool → Env α → Option α) : Sem α := fun live σ => (σ,[value live σ])

def seq (first second : Sem α) : Sem α := fun live σ =>
  let (σ1,outs) := first live σ
  let (σ2,more) := second live σ1
  (σ2,outs++more)

/-- The variables of a branch. -/
def guarded (used : List CName) (taken : Bool) (σ : Env α) : Env α := fun v =>
  if v∈used ∧ taken=false then none else σ v

def conditional (truth : α → Bool) (condition : Bool → Env α → Option α) (used : List CName)
    (body elseBody : Sem α) : Sem α := fun live σ =>
  let c := condition live σ
  let ifTrue := c.any truth
  let ifFalse := c.any fun v => !truth v
  let (σ1,outs1) := body (live && ifTrue) (guarded used ifTrue σ)
  let (σ2,outs2) := elseBody (live && ifFalse) (guarded used ifFalse σ)
  (fun v => (σ1 v).or (σ2 v),outs1++outs2)

/-- Statements touch the variables that they use only. Where none of these has a value and nothing
is live, none gets a value and nothing is printed. -/
structure Lawful (used : List CName) (outputs : Nat) (sem : Sem α) : Prop where
  frame : ∀ live σ v,v∉used → (sem live σ).1 v=σ v
  dead : ∀ σ,(∀ v∈used,σ v=none) → (∀ v∈used,(sem false σ).1 v=none) ∧
    (sem false σ).2=List.replicate outputs none

/-- The same of an expression. -/
def LawfulValue (used : List CName) (value : Bool → Env α → Option α) : Prop :=
  ∀ σ,(∀ v∈used,σ v=none) → value false σ=none

variable {used used' : List CName} {outputs outputs' : Nat} {sem sem' : Sem α}
  {value : Bool → Env α → Option α}

theorem Lawful.mono (h : sem.Lawful used outputs) (hsub : used⊆used') :
    sem.Lawful used' outputs := by
  refine ⟨fun live σ v hv => h.frame live σ v fun hmem => hv (hsub hmem),fun σ hσ => ?_⟩
  obtain ⟨hnone,houts⟩ := h.dead σ fun v hv => hσ v (hsub hv)
  refine ⟨fun v hv => ?_,houts⟩
  by_cases hmem : v∈used
  · exact hnone v hmem
  · rw [h.frame false σ v hmem]
    exact hσ v hv

theorem lawful_skip : (skip : Sem α).Lawful [] 0 :=
  ⟨fun _ _ _ _ => rfl,fun _ hσ => ⟨hσ,rfl⟩⟩

theorem lawful_assign (lhs : CName) (h : LawfulValue used value) :
    (assign lhs value).Lawful (lhs::used) 0 := by
  constructor
  · intro live σ v hv
    have hne : v ≠ lhs := fun heq => hv (by simp [heq])
    simp [assign,Function.update_of_ne hne]
  · intro σ hσ
    have hvalue := h σ fun v hv => hσ v (by simp [hv])
    refine ⟨fun v hv => ?_,rfl⟩
    by_cases hne : v=lhs
    · simp [assign,hne,hvalue]
    · simp only [assign,Function.update_of_ne hne]
      exact hσ v hv

theorem lawful_print (h : LawfulValue used value) : (print value).Lawful used 1 := by
  refine ⟨fun _ _ _ _ => rfl,fun σ hσ => ⟨hσ,?_⟩⟩
  simp [print,h σ hσ]

theorem lawful_seq (h : sem.Lawful used outputs) (h' : sem'.Lawful used' outputs') :
    (seq sem sem').Lawful (used++used') (outputs+outputs') := by
  have h := h.mono (List.subset_append_left used used')
  have h' := h'.mono (List.subset_append_right used used')
  constructor
  · intro live σ v hv
    change (sem' live (sem live σ).1).1 v=σ v
    rw [h'.frame _ _ v hv,h.frame _ _ v hv]
  · intro σ hσ
    obtain ⟨hnone,houts⟩ := h.dead σ hσ
    obtain ⟨hnone',houts'⟩ := h'.dead (sem false σ).1 hnone
    refine ⟨hnone',?_⟩
    change (sem false σ).2++(sem' false (sem false σ).1).2=_
    rw [houts,houts',List.replicate_append_replicate]

theorem guarded_of_mem {taken : Bool} {σ : Env α} {v : CName} (hv : v∈used)
    (htaken : taken=false) : guarded used taken σ v=none := if_pos ⟨hv,htaken⟩

theorem guarded_of_not_mem {taken : Bool} {σ : Env α} {v : CName} (hv : v∉used) :
    guarded used taken σ v=σ v := if_neg fun h => hv h.1

theorem guarded_true {σ : Env α} : guarded used true σ=σ := by
  funext v
  simp [guarded]

/-- A branch that is not taken leaves its variables without a value. -/
theorem Lawful.guarded_dead (h : sem.Lawful used outputs) (σ : Env α) :
    (∀ v∈used,(sem false (guarded used false σ)).1 v=none) ∧
      (sem false (guarded used false σ)).2=List.replicate outputs none :=
  h.dead _ fun _ hv => guarded_of_mem hv rfl

theorem lawful_conditional (truth : α → Bool) {condition : Bool → Env α → Option α}
    {usedInCondition : List CName} (hcondition : LawfulValue usedInCondition condition)
    (h : sem.Lawful used outputs) (h' : sem'.Lawful used outputs') :
    (conditional truth condition used sem sem').Lawful (usedInCondition++used)
      (outputs+outputs') := by
  constructor
  · intro live σ v hv
    have hnot : v∉used := fun hmem => hv (List.mem_append_right _ hmem)
    simp only [conditional]
    rw [h.frame _ _ v hnot,h'.frame _ _ v hnot,guarded_of_not_mem hnot,guarded_of_not_mem hnot,
      Option.or_self]
  · intro σ hσ
    have hc := hcondition σ fun v hv => hσ v (List.mem_append_left _ hv)
    obtain ⟨hnone,houts⟩ := h.guarded_dead σ
    obtain ⟨hnone',houts'⟩ := h'.guarded_dead σ
    simp only [conditional,hc,Option.any_none,Bool.and_false]
    refine ⟨fun v hv => ?_,?_⟩
    · by_cases hmem : v∈used
      · rw [hnone v hmem,hnone' v hmem]
        rfl
      · rw [h.frame _ _ v hmem,h'.frame _ _ v hmem,guarded_of_not_mem hmem,Option.or_self]
        exact hσ v hv
    · rw [houts,houts',List.replicate_append_replicate]

/-- The branch that is taken decides. -/
theorem conditional_taken {truth : α → Bool} {condition : Bool → Env α → Option α} {σ : Env α}
    {v : α} (hc : condition true σ=some v) (h : sem.Lawful used outputs)
    (h' : sem'.Lawful used outputs') (htruth : truth v=true) :
    conditional truth condition used sem sem' true σ=
      ((sem true σ).1,(sem true σ).2++List.replicate outputs' none) := by
  obtain ⟨hnone,houts⟩ := h'.guarded_dead σ
  simp only [conditional,hc,Option.any_some,htruth,Bool.not_true,Bool.and_false,Bool.and_true,
    guarded_true,houts,Prod.mk.injEq,and_true]
  funext v
  by_cases hv : v∈used
  · rw [hnone v hv,Option.or_none]
  · rw [h.frame _ _ v hv,h'.frame _ _ v hv,guarded_of_not_mem hv,Option.or_self]

theorem conditional_not_taken {truth : α → Bool} {condition : Bool → Env α → Option α}
    {σ : Env α} {v : α} (hc : condition true σ=some v) (h : sem.Lawful used outputs)
    (h' : sem'.Lawful used outputs') (htruth : truth v=false) :
    conditional truth condition used sem sem' true σ=
      ((sem' true σ).1,List.replicate outputs none++(sem' true σ).2) := by
  obtain ⟨hnone,houts⟩ := h.guarded_dead σ
  simp only [conditional,hc,Option.any_some,htruth,Bool.not_false,Bool.and_false,Bool.and_true,
    guarded_true,houts,Prod.mk.injEq,and_true]
  funext v
  by_cases hv : v∈used
  · rw [hnone v hv,Option.none_or]
  · rw [h.frame _ _ v hv,h'.frame _ _ v hv,guarded_of_not_mem hv,Option.or_self]

end Sem

section Trees

variable {τ α γ : Type} (dom : Domain τ α γ)

def Expr.lazy : Expr → Bool → Env α → Option α
  | .varName name,_,σ => σ name
  | .binaryOperation left op right,live,σ =>
    match left.lazy live σ,right.lazy live σ,op.opcode with
    | some a,some b,some o => dom.compute o a b
    | _,_,_ => none
  | e,live,_ => if live then e.literalValue.map dom.literal else none

mutual

def Stmt.lazy : Stmt → Sem α
  | .assignment lhs e => Sem.assign lhs (e.lazy dom)
  | .expression e =>
    match e.printed with
    | some arg => Sem.print (arg.lazy dom)
    | none => Sem.skip
  | .conditional condition body elseBody =>
    Sem.conditional dom.truth (condition.lazy dom)
      ((Stmt.usedInAll true body).getD []++(Stmt.usedInAll true elseBody).getD [])
      (Stmt.lazyAll body) (Stmt.lazyAll elseBody)
  | _ => Sem.skip

def Stmt.lazyAll : List Stmt → Sem α
  | [] => Sem.skip
  | s::rest => Sem.seq s.lazy (Stmt.lazyAll rest)

end

theorem Expr.lazy_lawful : ∀ e : Expr,Sem.LawfulValue e.usedVariables (e.lazy dom)
  | .varName name => fun _ hσ => hσ name (by simp [usedVariables])
  | .binaryOperation left op right => by
    intro σ hσ
    have hright := right.lazy_lawful σ fun v hv => hσ v (by simp [usedVariables,hv])
    simp only [lazy,hright]
    cases left.lazy dom false σ <;> rfl
  | .functionCall _ _ | .outsLiteral _ | .string _ | .number _ | .hexnumber _ => fun _ _ => rfl

/-- An OUTD statement uses what its argument uses. -/
theorem Expr.printed_used {e arg : Expr} (h : e.printed=some arg) :
    e.usedVariables=arg.usedVariables := by
  unfold printed at h
  split at h
  · split_ifs at h
    cases h
    simp [usedVariables,usedArgs]
  · cases h

mutual

theorem Stmt.lazy_lawful : ∀ s : Stmt,s.isPlain=true →
    ∃ used,s.usedVariables true=some used ∧ (s.lazy dom).Lawful used s.outputs
  | .assignment lhs e,_ => ⟨lhs::e.usedVariables,rfl,Sem.lawful_assign lhs (e.lazy_lawful dom)⟩
  | .expression e,_ => by
    refine ⟨e.usedVariables,rfl,?_⟩
    simp only [lazy,outputs]
    cases he : e.printed with
    | none => exact Sem.lawful_skip.mono (List.nil_subset _)
    | some arg =>
      rw [Expr.printed_used he]
      exact Sem.lawful_print (arg.lazy_lawful dom)
  | .conditional condition body elseBody,h => by
    simp only [isPlain,Bool.and_eq_true] at h
    obtain ⟨used,hused,hlawful⟩ := Stmt.lazyAll_lawful body h.1.2
    obtain ⟨used',hused',hlawful'⟩ := Stmt.lazyAll_lawful elseBody h.2
    refine ⟨condition.usedVariables++(used++used'),by simp [usedVariables,hused,hused'],?_⟩
    simp only [lazy,hused,hused',Option.getD_some]
    exact Sem.lawful_conditional dom.truth (condition.lazy_lawful dom)
      (hlawful.mono (List.subset_append_left _ _)) (hlawful'.mono (List.subset_append_right _ _))

theorem Stmt.lazyAll_lawful : ∀ l : List Stmt,Stmt.allPlain l=true →
    ∃ used,Stmt.usedInAll true l=some used ∧
      (Stmt.lazyAll dom l).Lawful used (Stmt.outputsOfAll l)
  | [],_ => ⟨[],rfl,Sem.lawful_skip⟩
  | s::rest,h => by
    simp only [allPlain,Bool.and_eq_true] at h
    obtain ⟨used,hused,hlawful⟩ := Stmt.lazy_lawful s h.1
    obtain ⟨used',hused',hlawful'⟩ := Stmt.lazyAll_lawful rest h.2
    exact ⟨used++used',by simp [usedInAll,hused,hused'],Sem.lawful_seq hlawful hlawful'⟩

end

end Trees

section Agreement

variable (labels : List Name) (address : Name → DataType)

theorem Expr.lazy_of_eval : ∀ (e : Expr) {σ : Env DataType} {v : DataType},e.eval σ=some v →
    e.lazy (machineDomain labels address) true σ=some v
  | .varName _,_,_,h => h
  | .binaryOperation left op right,σ,v,h => by
    cases ha : left.eval σ with
    | none => simp [eval,ha] at h
    | some a =>
      cases hb : right.eval σ with
      | none => simp [eval,hb] at h
      | some b =>
        simp only [eval,ha,hb] at h
        simp only [lazy,left.lazy_of_eval ha,right.lazy_of_eval hb]
        cases ho : op.opcode with
        | none => simp [ho] at h
        | some o =>
          rw [ho] at h
          exact h
  | .functionCall _ _,_,_,h | .outsLiteral _,_,_,h | .string _,_,_,h | .number _,_,_,h
  | .hexnumber _,_,_,h => h

mutual

theorem Stmt.lazy_of_exec : ∀ (s : Stmt) {σ σ' : Env DataType} {outs : List (Option DataType)},
    s.isPlain=true → s.exec σ=some (σ',outs) →
      s.lazy (machineDomain labels address) true σ=(σ',outs)
  | .assignment lhs e,σ,σ',outs,_,h => by
    obtain ⟨v,hv,heq⟩ := Option.map_eq_some_iff.mp h
    obtain ⟨rfl,rfl⟩ := Prod.mk.inj heq
    simp [lazy,Sem.assign,e.lazy_of_eval labels address hv]
  | .expression e,σ,σ',outs,_,h => by
    simp only [exec] at h
    simp only [lazy]
    cases he : e.printed with
    | none =>
      rw [he] at h
      obtain ⟨v,-,heq⟩ := Option.map_eq_some_iff.mp h
      exact heq
    | some arg =>
      rw [he] at h
      obtain ⟨v,hv,heq⟩ := Option.map_eq_some_iff.mp h
      simp only [Sem.print,arg.lazy_of_eval labels address hv]
      exact heq
  | .conditional condition body elseBody,σ,σ',outs,hplain,h => by
    simp only [isPlain,Bool.and_eq_true] at hplain
    let dom := machineDomain labels address
    obtain ⟨used,hused,hlawful⟩ := Stmt.lazyAll_lawful dom body hplain.1.2
    obtain ⟨used',hused',hlawful'⟩ := Stmt.lazyAll_lawful dom elseBody hplain.2
    have hbody := hlawful.mono (List.subset_append_left used used')
    have helse := hlawful'.mono (List.subset_append_right used used')
    cases hv : condition.eval σ with
    | none => simp [exec,hv] at h
    | some v =>
      have hc := condition.lazy_of_eval labels address hv
      simp only [exec,hv] at h
      simp only [lazy,hused,hused',Option.getD_some]
      split_ifs at h with hzero
      · obtain ⟨⟨σ1,outs1⟩,hexec,heq⟩ := Option.map_eq_some_iff.mp h
        have htruth : dom.truth v=true := by simpa [dom,machineDomain] using hzero
        rw [Sem.conditional_taken hc hbody helse htruth,
          Stmt.lazyAll_of_exec body hplain.1.2 hexec]
        exact heq
      · obtain ⟨⟨σ1,outs1⟩,hexec,heq⟩ := Option.map_eq_some_iff.mp h
        have htruth : dom.truth v=false := by simpa [dom,machineDomain] using hzero
        rw [Sem.conditional_not_taken hc hbody helse htruth,
          Stmt.lazyAll_of_exec elseBody hplain.2 hexec]
        exact heq

theorem Stmt.lazyAll_of_exec : ∀ (l : List Stmt) {σ σ' : Env DataType}
    {outs : List (Option DataType)},Stmt.allPlain l=true → Stmt.execAll l σ=some (σ',outs) →
      Stmt.lazyAll (machineDomain labels address) l true σ=(σ',outs)
  | [],_,_,_,_,h => Option.some.inj h
  | s::rest,σ,σ',outs,hplain,h => by
    simp only [allPlain,Bool.and_eq_true] at hplain
    simp only [execAll] at h
    cases hs : s.exec σ with
    | none => simp [hs] at h
    | some r =>
      obtain ⟨σ1,outs1⟩ := r
      rw [hs] at h
      obtain ⟨⟨σ2,outs2⟩,hrest,heq⟩ := Option.map_eq_some_iff.mp h
      simp only [lazyAll,Sem.seq,Stmt.lazy_of_exec s hplain.1 hs,
        Stmt.lazyAll_of_exec rest hplain.2 hrest]
      exact heq

end

end Agreement

end Manchester.Compiler
