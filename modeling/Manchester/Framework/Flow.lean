import Manchester.Framework.Net

namespace Framework

/-- The value of the token that a wire carries under a tag, if there is one. -/
abbrev Flow (ν τ α : Type) := ν → τ → Option α

namespace Flow

variable {ν τ α : Type}

def empty : Flow ν τ α := fun _ _ => none

/-- Both flows together. Where both have a token the first one counts. -/
def or (K P : Flow ν τ α) : Flow ν τ α := fun x t => (K x t).or (P x t)

def Has (K : Flow ν τ α) (k : Token ν τ α) : Prop := K k.wire k.tag=some k.value

theorem has_or_left {K : Flow ν τ α} {k : Token ν τ α} (P : Flow ν τ α) (h : K.Has k) :
    (K.or P).Has k := by
  simp only [Has,or] at *
  rw [h]
  rfl

theorem or_of_left_none {K P : Flow ν τ α} {x : ν} {t : τ} (h : K x t=none) :
    K.or P x t=P x t := by
  simp [or,h]

theorem or_of_right_none {K P : Flow ν τ α} {x : ν} {t : τ} (h : P x t=none) :
    K.or P x t=K x t := by
  simp [or,h]

theorem or_cases {K P : Flow ν τ α} {k : Token ν τ α} (h : (K.or P).Has k) :
    K.Has k ∨ P.Has k := by
  simp only [Has,or,Option.or_eq_some_iff] at *
  exact h.imp id And.right

@[simp] theorem empty_or (K : Flow ν τ α) : empty.or K=K := by
  funext x t
  simp [or,empty]

@[simp] theorem or_empty (K : Flow ν τ α) : K.or empty=K := by
  funext x t
  simp [or,empty]

theorem or_assoc (K P Q : Flow ν τ α) : (K.or P).or Q=K.or (P.or Q) := by
  funext x t
  simp [or,Option.or_assoc]

end Flow

namespace Net

variable {ν ρ τ α γ : Type} {N : Net ν ρ τ α γ} {rules : List ρ}

/-- The rule has its operands of that tag in the flow. -/
def Live (N : Net ν ρ τ α γ) (D : Flow ν τ α) (r : ρ) (t : τ) (vs : List α) : Prop :=
  (N.reads r).map (fun x => D x t)=vs.map some

theorem Live.unique {D : Flow ν τ α} {r : ρ} {t : τ} {vs vs' : List α} (h : N.Live D r t vs)
    (h' : N.Live D r t vs') : vs=vs' :=
  List.map_injective_iff.mpr (Option.some_injective α) (h.symm.trans h')

theorem Live.length {D : Flow ν τ α} {r : ρ} {t : τ} {vs : List α} (h : N.Live D r t vs) :
    vs.length=(N.reads r).length := by
  have hlen := congrArg List.length h
  simpa using hlen.symm

theorem Live.get {D : Flow ν τ α} {r : ρ} {t : τ} {vs : List α} (h : N.Live D r t vs) {i : Nat}
    {x : ν} (hx : (N.reads r)[i]?=some x) : ∃ v,vs[i]?=some v ∧ D x t=some v := by
  have hget := congrArg (fun l => l[i]?) h
  simp only [List.getElem?_map,hx,Option.map_some] at hget
  cases hv : vs[i]? with
  | none => simp [hv] at hget
  | some v => exact ⟨v,rfl,by simpa [hv] using hget⟩

theorem live_of_get {D : Flow ν τ α} {r : ρ} {t : τ} {vs : List α}
    (hlen : vs.length=(N.reads r).length)
    (h : ∀ (i : Nat) x v,(N.reads r)[i]?=some x → vs[i]?=some v → D x t=some v) :
    N.Live D r t vs := by
  apply List.ext_getElem?
  intro i
  rw [List.getElem?_map,List.getElem?_map]
  cases hx : (N.reads r)[i]? with
  | none =>
    rw [List.getElem?_eq_none_iff] at hx
    rw [List.getElem?_eq_none (by omega)]
    rfl
  | some x =>
    have hi := (List.getElem?_eq_some_iff.mp hx).1
    have hv : vs[i]?=some vs[i] := List.getElem?_eq_getElem (by omega)
    rw [hv,Option.map_some,Option.map_some,h i x _ hx hv]

theorem Live.congr {D D' : Flow ν τ α} {r : ρ} {t : τ} {vs : List α} (h : N.Live D r t vs)
    (hD : ∀ x∈N.reads r,D x t=D' x t) : N.Live D' r t vs := by
  rw [Live,← h]
  exact List.map_congr_left fun x hx => (hD x hx).symm

/-- A token that the rules make of the tokens of a flow, whatever is chosen from outside. -/
inductive Derived (N : Net ν ρ τ α γ) (rules : List ρ) (K : Flow ν τ α) : Token ν τ α → Prop where
  | given (k : Token ν τ α) (h : K.Has k) : Derived N rules K k
  | fired (k : Token ν τ α) (r : ρ) (t : τ) (vs : List α) (hr : r∈rules)
      (hlen : vs.length=(N.reads r).length)
      (hargs : ∀ (i : Nat) x v,(N.reads r)[i]?=some x → vs[i]?=some v →
        Derived N rules K ⟨x,t,v⟩)
      (hk : ∀ c,k∈N.emits r c t vs) : Derived N rules K k

/-- A wire that one of the rules may emit on. -/
def Target (N : Net ν ρ τ α γ) (rules : List ρ) (x : ν) : Prop := ∃ r∈rules,N.targets r x

/-- What the rules make of the flow K on the known wires: exactly the flow P on their targets, each
token of it once. -/
structure Piece (N : Net ν ρ τ α γ) (rules : List ρ) (known : ν → Prop) (K P : Flow ν τ α) :
    Prop where
  wired : ∀ r∈rules,N.reads r ≠ [] ∧ ∀ x∈N.reads r,known x ∨ N.Target rules x
  fresh : ∀ x,N.Target rules x → ¬known x
  given : ∀ x t v,K x t=some v → known x
  support : ∀ x t v,P x t=some v → N.Target rules x
  closed : ∀ r∈rules,∀ c t vs,N.Live (K.or P) r t vs → ∀ k∈N.emits r c t vs,P.Has k
  single : ∀ r∈rules,∀ c t vs,N.Live (K.or P) r t vs → (N.emits r c t vs).Nodup
  once : ∀ r∈rules,∀ r'∈rules,∀ c c' t t' vs vs',N.Live (K.or P) r t vs →
    N.Live (K.or P) r' t' vs' → ∀ k∈N.emits r c t vs,k∈N.emits r' c' t' vs' → r=r' ∧ t=t'
  derived : ∀ k,P.Has k → N.Derived rules K k

section Runs

variable {known : ν → Prop} {K P : Flow ν τ α} {init : List (Token ν τ α)}

/-- The tokens that a run begins with are those of the flow K. -/
structure Carries (init : List (Token ν τ α)) (K : Flow ν τ α) : Prop where
  nodup : init.Nodup
  mem : ∀ k,k∈init ↔ K.Has k

variable [DecidableEq ν]

/-- The rules that have fired so far, each at most once for a tag and with operands of the flow:
they account for all tokens that have been made and for all operands that are gone. -/
structure Fired (N : Net ν ρ τ α γ) (rules : List ρ) (D : Flow ν τ α)
    (init : List (Token ν τ α)) (s : State ν ρ τ α) (fired : List (Firing ρ τ α γ)) : Prop where
  rule : ∀ f∈fired,f.rule∈rules
  live : ∀ f∈fired,N.Live D f.rule f.tag f.values
  distinct : (fired.map fun f => (f.rule,f.tag)).Nodup
  made : s.made=↑(init++fired.flatMap N.results)
  held : s.held+↑(fired.flatMap operands)=N.spawn rules s.made

theorem fired_start : Fired N rules (K.or P) init (N.start rules init) [] := by
  refine ⟨by simp,by simp,by simp,by simp [start],?_⟩
  simp [start]

theorem Fired.made_nodup {s : State ν ρ τ α} {fired : List (Firing ρ τ α γ)}
    (h : Fired N rules (K.or P) init s fired) (hpiece : N.Piece rules known K P)
    (hinit : Carries init K) : s.made.Nodup := by
  have hresult : ∀ f∈fired,∀ k∈N.results f,P.Has k := fun f hf k hk =>
    hpiece.closed f.rule (h.rule f hf) f.choice f.tag f.values (h.live f hf) k hk
  rw [h.made,Multiset.coe_nodup,List.nodup_append']
  refine ⟨hinit.nodup,List.nodup_flatMap.mpr ⟨?_,?_⟩,?_⟩
  · intro f hf
    exact hpiece.single f.rule (h.rule f hf) f.choice f.tag f.values (h.live f hf)
  · have hpair := List.pairwise_map.mp h.distinct
    refine List.Pairwise.imp_of_mem ?_ hpair
    intro f g hf hg hne k hkf hkg
    obtain ⟨hrule,htag⟩ := hpiece.once f.rule (h.rule f hf) g.rule (h.rule g hg) f.choice g.choice
      f.tag g.tag f.values g.values (h.live f hf) (h.live g hg) k hkf hkg
    exact hne (by rw [hrule,htag])
  · intro k hk hk'
    obtain ⟨f,hf,hkf⟩ := List.mem_flatMap.mp hk'
    exact hpiece.fresh k.wire (hpiece.support _ _ _ (hresult f hf k hkf))
      (hpiece.given _ _ _ ((hinit.mem k).mp hk))

theorem Fired.made_has {s : State ν ρ τ α} {fired : List (Firing ρ τ α γ)}
    (h : Fired N rules (K.or P) init s fired) (hpiece : N.Piece rules known K P)
    (hinit : Carries init K) : ∀ k∈s.made,(K.or P).Has k := by
  intro k hk
  rw [h.made,Multiset.mem_coe,List.mem_append] at hk
  obtain hk | hk := hk
  · exact Flow.has_or_left P ((hinit.mem k).mp hk)
  · obtain ⟨f,hf,hkf⟩ := List.mem_flatMap.mp hk
    have hP := hpiece.closed f.rule (h.rule f hf) f.choice f.tag f.values (h.live f hf) k hkf
    have hnone : K k.wire k.tag=none := by
      cases hK : K k.wire k.tag with
      | none => rfl
      | some v =>
        exact absurd (hpiece.given _ _ _ hK) (hpiece.fresh _ (hpiece.support _ _ _ hP))
    exact (Flow.or_of_left_none hnone).trans hP

/-- One firing more. -/
theorem Fired.step {s s' : State ν ρ τ α} {fired : List (Firing ρ τ α γ)}
    (h : Fired N rules (K.or P) init s fired) (hpiece : N.Piece rules known K P)
    (hinit : Carries init K) (hrules : rules.Nodup) (hstep : N.Step rules s s') :
    ∃ f,Fired N rules (K.or P) init s' (f::fired) := by
  obtain ⟨f,rest,made,hrule,hlen⟩ := hstep
  refine ⟨f,?_⟩
  have hhas := h.made_has hpiece hinit
  have hspawned : ∀ a∈operands f,a∈N.spawn rules made := by
    intro a ha
    have hheld : (↑(operands f)+rest)+↑(fired.flatMap operands)=N.spawn rules made := h.held
    rw [← hheld]
    simp [ha]
  have hlive : N.Live (K.or P) f.rule f.tag f.values := by
    apply live_of_get hlen
    intro i x v hx hv
    obtain ⟨-,y,hy,hmade⟩ := mem_spawn.mp (hspawned _ (mem_operands.mpr ⟨rfl,rfl,hv⟩))
    obtain rfl : x=y := Option.some.inj (hx.symm.trans hy)
    exact hhas _ hmade
  have hnew : (f.rule,f.tag)∉fired.map fun f => (f.rule,f.tag) := by
    intro hmem
    obtain ⟨g,hg,heq⟩ := List.mem_map.mp hmem
    obtain ⟨hgr,hgt⟩ := Prod.mk.inj heq
    have hglive := h.live g hg
    rw [hgr,hgt] at hglive
    have hvalues := hglive.unique hlive
    obtain ⟨x,hx⟩ : ∃ x,(N.reads f.rule)[0]?=some x := by
      have hpos := List.length_pos_iff.mpr (hpiece.wired f.rule hrule).1
      exact ⟨_,List.getElem?_eq_getElem hpos⟩
    obtain ⟨v,hv,-⟩ := hlive.get hx
    have hf : (⟨f.rule,0,f.tag,v⟩ : Arrival ρ τ α)∈operands f := mem_operands.mpr ⟨rfl,rfl,hv⟩
    have hgmem : (⟨f.rule,0,f.tag,v⟩ : Arrival ρ τ α)∈fired.flatMap operands :=
      List.mem_flatMap.mpr ⟨g,hg,mem_operands.mpr ⟨hgr.symm,hgt.symm,by rw [hvalues]; exact hv⟩⟩
    have hnodup := nodup_spawn (N := N) hrules (h.made_nodup hpiece hinit)
    rw [← h.held] at hnodup
    exact Multiset.disjoint_left.mp (Multiset.nodup_add.mp hnodup).2.2 (by simp [hf])
      (Multiset.mem_coe.mpr hgmem)
  constructor
  · intro g hg
    obtain rfl | hg := List.mem_cons.mp hg
    · exact hrule
    · exact h.rule g hg
  · intro g hg
    obtain rfl | hg := List.mem_cons.mp hg
    · exact hlive
    · exact h.live g hg
  · exact List.nodup_cons.mpr ⟨hnew,h.distinct⟩
  · have hmade : made=↑(init++fired.flatMap N.results) := h.made
    change made+↑(N.results f)=_
    rw [hmade,List.flatMap_cons,← Multiset.coe_add,← Multiset.coe_add,← Multiset.coe_add]
    abel
  · have hheld : (↑(operands f)+rest)+↑(fired.flatMap operands)=N.spawn rules made := h.held
    change (N.spawn rules ↑(N.results f)+rest)+↑((f::fired).flatMap operands)=
      N.spawn rules (made+↑(N.results f))
    rw [spawn,spawn,Multiset.add_bind]
    change _=N.spawn rules made+_
    rw [← hheld,List.flatMap_cons,← Multiset.coe_add]
    abel

theorem exists_fired {s : State ν ρ τ α} (hs : N.Reachable rules init s)
    (hpiece : N.Piece rules known K P) (hinit : Carries init K) (hrules : rules.Nodup) :
    ∃ fired,Fired N rules (K.or P) init s fired := by
  apply hs.invariant
  · intro s hstart
    obtain rfl := hstart
    exact ⟨[],fired_start⟩
  · intro s t hinv hstep
    obtain ⟨fired,h⟩ := hinv
    obtain ⟨f,h⟩ := h.step hpiece hinit hrules hstep
    exact ⟨f::fired,h⟩

/-- No two tokens that wait at one port have the same tag. -/
theorem Piece.held_distinct (hpiece : N.Piece rules known K P) (hinit : Carries init K)
    (hrules : rules.Nodup) {s : State ν ρ τ α} (hs : N.Reachable rules init s)
    {a b : Arrival ρ τ α} (hle : a::ₘ{b} ≤ s.held) (hrule : a.rule=b.rule) (hport : a.port=b.port) :
    a.tag ≠ b.tag := by
  obtain ⟨fired,h⟩ := exists_fired hs hpiece hinit hrules
  obtain ⟨r,i,t,v⟩ := a
  obtain ⟨r',i',t',v'⟩ := b
  intro htag
  obtain rfl : r=r' := hrule
  obtain rfl : i=i' := hport
  obtain rfl : t=t' := htag
  have hspawn : (⟨r,i,t,v⟩ : Arrival ρ τ α)::ₘ{⟨r,i,t,v'⟩} ≤ N.spawn rules s.made := by
    rw [← h.held]
    exact hle.trans (Multiset.le_add_right _ _)
  have hmem : ∀ u,(⟨r,i,t,u⟩ : Arrival ρ τ α)∈N.spawn rules s.made →
      ∃ x,(N.reads r)[i]?=some x ∧ (K.or P) x t=some u := by
    intro u hu
    obtain ⟨-,x,hx,hmade⟩ := mem_spawn.mp hu
    exact ⟨x,hx,h.made_has hpiece hinit _ hmade⟩
  obtain ⟨x,hx,hv⟩ := hmem v (Multiset.mem_of_le hspawn (by simp))
  obtain ⟨y,hy,hv'⟩ := hmem v' (Multiset.mem_of_le hspawn (by simp))
  obtain rfl : x=y := Option.some.inj (hx.symm.trans hy)
  obtain rfl : v=v' := Option.some.inj (hv.symm.trans hv')
  have hnodup := nodup_spawn (N := N) hrules (h.made_nodup hpiece hinit)
  have hpair := Multiset.nodup_of_le hspawn hnodup
  simp at hpair

/-- All tokens of the flow are there in the end. -/
theorem Fired.complete {s : State ν ρ τ α} {fired : List (Firing ρ τ α γ)} [Nonempty γ]
    (h : Fired N rules (K.or P) init s fired) (hpiece : N.Piece rules known K P)
    (hinit : Carries init K) (hstuck : N.Stuck rules s) {k : Token ν τ α}
    (hk : N.Derived rules K k) : k∈s.made := by
  induction hk with
  | given k hk =>
    rw [h.made]
    simp [(hinit.mem k).mpr hk]
  | fired k r t vs hr hlen hargs hk ih =>
    have hlive : N.Live (K.or P) r t vs :=
      live_of_get hlen fun i x v hx hv => h.made_has hpiece hinit _ (ih i x v hx hv)
    by_cases hdone : ∃ f∈fired,f.rule=r ∧ f.tag=t
    · obtain ⟨f,hf,rfl,rfl⟩ := hdone
      have hvalues := hlive.unique (h.live f hf)
      have hresult : k∈fired.flatMap N.results := by
        refine List.mem_flatMap.mpr ⟨f,hf,?_⟩
        have hkf := hk f.choice
        rw [hvalues] at hkf
        exact hkf
      rw [h.made]
      simp [hresult]
    · exfalso
      apply hstuck
      let f : Firing ρ τ α γ := ⟨r,Classical.arbitrary γ,t,vs⟩
      have hheld : (↑(operands f) : Multiset (Arrival ρ τ α)) ≤ s.held := by
        rw [Multiset.le_iff_subset (Multiset.coe_nodup.mpr (nodup_operands f))]
        intro ⟨r',i,t',v⟩ ha
        obtain ⟨hrule,htag,hv⟩ := mem_operands.mp (Multiset.mem_coe.mp ha)
        have hi : i < (N.reads r).length := hlen ▸ (List.getElem?_eq_some_iff.mp hv).1
        have hx : (N.reads r)[i]?=some (N.reads r)[i] := List.getElem?_eq_getElem hi
        have hspawn := mem_spawn.mpr ⟨hr,_,hx,ih i _ v hx hv⟩
        rw [← h.held,Multiset.mem_add] at hspawn
        rw [hrule,htag]
        refine hspawn.resolve_right fun hmem => ?_
        obtain ⟨g,hg,hag⟩ := List.mem_flatMap.mp (Multiset.mem_coe.mp hmem)
        obtain ⟨hgr,hgt,-⟩ := mem_operands.mp hag
        exact hdone ⟨g,hg,hgr.symm,hgt.symm⟩
      obtain ⟨rest,hrest⟩ := Multiset.le_iff_exists_add.mp hheld
      have hs : s=⟨↑(operands f)+rest,s.made⟩ := by rw [← hrest]
      rw [hs]
      exact ⟨_,.fire f rest s.made hr hlen⟩

/-- In any order of firings: when nothing more can fire, the tokens of the flow have been made,
each exactly once, and no others. -/
theorem Piece.settled [Nonempty γ] (hpiece : N.Piece rules known K P) (hinit : Carries init K)
    (hrules : rules.Nodup) {s : State ν ρ τ α} (hs : N.Reachable rules init s)
    (hstuck : N.Stuck rules s) : s.made.Nodup ∧ ∀ k,k∈s.made ↔ (K.or P).Has k := by
  obtain ⟨fired,h⟩ := exists_fired hs hpiece hinit hrules
  refine ⟨h.made_nodup hpiece hinit,fun k => ⟨h.made_has hpiece hinit k,fun hk => ?_⟩⟩
  apply h.complete hpiece hinit hstuck
  obtain hk | hk := Flow.or_cases hk
  · exact .given k hk
  · exact hpiece.derived k hk

theorem Fired.length_le {s : State ν ρ τ α} {fired : List (Firing ρ τ α γ)}
    (h : Fired N rules (K.or P) init s fired) (hpiece : N.Piece rules known K P) {tags : List τ}
    (htags : ∀ k,(K.or P).Has k → k.tag∈tags) : fired.length ≤ rules.length*tags.length := by
  have hsub : (fired.map fun f => (f.rule,f.tag))⊆rules ×ˢ tags := by
    intro p hp
    obtain ⟨f,hf,rfl⟩ := List.mem_map.mp hp
    refine List.mem_product.mpr ⟨h.rule f hf,?_⟩
    have hpos := List.length_pos_iff.mpr (hpiece.wired f.rule (h.rule f hf)).1
    obtain ⟨v,-,hv⟩ := (h.live f hf).get (List.getElem?_eq_getElem hpos)
    exact htags ⟨_,f.tag,v⟩ hv
  have hlen := (h.distinct.subperm hsub).length_le
  rwa [List.length_map,List.length_product] at hlen

/-- A flow of finitely many tags: no run goes on for ever. -/
theorem Piece.run_ends (hpiece : N.Piece rules known K P) (hinit : Carries init K)
    (hrules : rules.Nodup) {tags : List τ} (htags : ∀ k,(K.or P).Has k → k.tag∈tags)
    (run : Nat → State ν ρ τ α) (hzero : run 0=N.start rules init) :
    ¬∀ n,N.Step rules (run n) (run (n+1)) := by
  intro hrun
  have hfired : ∀ n,∃ fired,Fired N rules (K.or P) init (run n) fired ∧ fired.length=n := by
    intro n
    induction n with
    | zero =>
      rw [hzero]
      exact ⟨[],fired_start,rfl⟩
    | succ n ih =>
      obtain ⟨fired,h,hlen⟩ := ih
      obtain ⟨f,h⟩ := h.step hpiece hinit hrules (hrun n)
      exact ⟨f::fired,h,by rw [List.length_cons,hlen]⟩
  obtain ⟨fired,h,hlen⟩ := hfired (rules.length*tags.length+1)
  have hle := h.length_le hpiece htags
  omega

end Runs

end Net

end Framework
