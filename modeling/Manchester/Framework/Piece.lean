import Manchester.Framework.Flow

namespace Framework.Net

variable {ν ρ τ α γ : Type} {N : Net ν ρ τ α γ} {rules rules' : List ρ} {known : ν → Prop}
  {K P : Flow ν τ α}

theorem target_append {x : ν} :
    N.Target (rules++rules') x ↔ N.Target rules x ∨ N.Target rules' x := by
  simp only [Target,List.mem_append]
  constructor
  · rintro ⟨r,hr | hr,hx⟩
    · exact Or.inl ⟨r,hr,hx⟩
    · exact Or.inr ⟨r,hr,hx⟩
  · rintro (⟨r,hr,hx⟩ | ⟨r,hr,hx⟩)
    · exact ⟨r,Or.inl hr,hx⟩
    · exact ⟨r,Or.inr hr,hx⟩

theorem Derived.trans {K' : Flow ν τ α} {k : Token ν τ α} (h : N.Derived rules' K' k)
    (hrules : rules'⊆rules) (hK : ∀ k,K'.Has k → N.Derived rules K k) : N.Derived rules K k := by
  induction h with
  | given k hk => exact hK k hk
  | fired k r t vs hr hlen _ hk ih => exact .fired k r t vs (hrules hr) hlen ih hk

theorem Piece.nil (hgiven : ∀ x t v,K x t=some v → known x) :
    N.Piece [] known K Flow.empty := by
  have hnone : ∀ x,¬N.Target [] x := by
    intro x ⟨r,hr,_⟩
    cases hr
  constructor
  · intro r hr
    cases hr
  · intro x hx
    exact absurd hx (hnone x)
  · exact hgiven
  · intro x t v hv
    cases hv
  · intro r hr
    cases hr
  · intro r hr
    cases hr
  · intro r hr
    cases hr
  · intro k hk
    cases hk

theorem Piece.mono_known {known' : ν → Prop} (h : N.Piece rules known K P)
    (hknown : ∀ x,known x ↔ known' x) : N.Piece rules known' K P := by
  obtain rfl : known=known' := funext fun x => propext (hknown x)
  exact h

theorem Piece.absent_later {P' : Flow ν τ α}
    (h' : N.Piece rules' (fun x => known x ∨ N.Target rules x) (K.or P) P') {x : ν}
    (hx : known x ∨ N.Target rules x) (t : τ) : P' x t=none := by
  cases hv : P' x t with
  | none => rfl
  | some v => exact absurd hx (h'.fresh x (h'.support x t v hv))

theorem Piece.append {P' : Flow ν τ α} (h : N.Piece rules known K P)
    (h' : N.Piece rules' (fun x => known x ∨ N.Target rules x) (K.or P) P') :
    N.Piece (rules++rules') known K (P.or P') := by
  have hlive : ∀ r∈rules,∀ t vs,N.Live (K.or (P.or P')) r t vs → N.Live (K.or P) r t vs := by
    intro r hr t vs hl
    refine hl.congr fun x hx => ?_
    rw [← Flow.or_assoc]
    exact Flow.or_of_right_none (h'.absent_later ((h.wired r hr).2 x hx) t)
  have hlive' : ∀ r t vs,N.Live (K.or (P.or P')) r t vs → N.Live ((K.or P).or P') r t vs := by
    intro r t vs hl
    rw [Flow.or_assoc]
    exact hl
  have hearly : ∀ {k},P.Has k → (P.or P').Has k := fun hk => Flow.has_or_left P' hk
  have hlate : ∀ {k},P'.Has k → (P.or P').Has k := by
    intro k hk
    have hnone : P k.wire k.tag=none := by
      cases hv : P k.wire k.tag with
      | none => rfl
      | some v =>
        exact absurd (Or.inr (h.support _ _ _ hv)) (h'.fresh _ (h'.support _ _ _ hk))
    exact (Flow.or_of_left_none hnone).trans hk
  have hapart : ∀ {k},P.Has k → ¬P'.Has k := fun hk hk' =>
    h'.fresh _ (h'.support _ _ _ hk') (Or.inr (h.support _ _ _ hk))
  constructor
  · intro r hr
    obtain hr | hr := List.mem_append.mp hr
    · refine ⟨(h.wired r hr).1,fun x hx => ?_⟩
      rw [target_append]
      exact ((h.wired r hr).2 x hx).imp_right Or.inl
    · refine ⟨(h'.wired r hr).1,fun x hx => ?_⟩
      rw [target_append]
      exact or_assoc.mp ((h'.wired r hr).2 x hx)
  · intro x hx
    obtain hx | hx := target_append.mp hx
    · exact h.fresh x hx
    · exact fun hknown => h'.fresh x hx (Or.inl hknown)
  · exact h.given
  · intro x t v hv
    rw [target_append]
    obtain hv | hv := Flow.or_cases (k := ⟨x,t,v⟩) hv
    · exact Or.inl (h.support x t v hv)
    · exact Or.inr (h'.support x t v hv)
  · intro r hr c t vs hl k hk
    obtain hr | hr := List.mem_append.mp hr
    · exact hearly (h.closed r hr c t vs (hlive r hr t vs hl) k hk)
    · exact hlate (h'.closed r hr c t vs (hlive' r t vs hl) k hk)
  · intro r hr c t vs hl
    obtain hr | hr := List.mem_append.mp hr
    · exact h.single r hr c t vs (hlive r hr t vs hl)
    · exact h'.single r hr c t vs (hlive' r t vs hl)
  · intro r hr r' hr' c c' t t' vs vs' hl hl' k hk hk'
    obtain hr | hr := List.mem_append.mp hr <;> obtain hr' | hr' := List.mem_append.mp hr'
    · exact h.once r hr r' hr' c c' t t' vs vs' (hlive r hr t vs hl) (hlive r' hr' t' vs' hl') k
        hk hk'
    · exact absurd (h'.closed r' hr' c' t' vs' (hlive' r' t' vs' hl') k hk')
        (hapart (h.closed r hr c t vs (hlive r hr t vs hl) k hk))
    · exact absurd (h'.closed r hr c t vs (hlive' r t vs hl) k hk)
        (hapart (h.closed r' hr' c' t' vs' (hlive r' hr' t' vs' hl') k hk'))
    · exact h'.once r hr r' hr' c c' t t' vs vs' (hlive' r t vs hl) (hlive' r' t' vs' hl') k hk hk'
  · intro k hk
    have hfirst : ∀ {k},P.Has k → N.Derived (rules++rules') K k := fun hk =>
      (h.derived _ hk).trans (List.subset_append_left _ _) fun k hk => .given k hk
    obtain hk | hk := Flow.or_cases hk
    · exact hfirst hk
    · refine (h'.derived k hk).trans (List.subset_append_right _ _) fun k hk => ?_
      obtain hk | hk := Flow.or_cases hk
      · exact .given k hk
      · exact hfirst hk

/-- The values of the wires under a tag, where all of them have one. -/
def gather (K : Flow ν τ α) (t : τ) : List ν → Option (List α)
  | [] => some []
  | x::xs =>
    match K x t,gather K t xs with
    | some v,some vs => some (v::vs)
    | _,_ => none

theorem gather_eq_some {K : Flow ν τ α} {t : τ} {xs : List ν} {vs : List α} :
    gather K t xs=some vs ↔ xs.map (fun x => K x t)=vs.map some := by
  induction xs generalizing vs with
  | nil =>
    cases vs <;> simp [gather]
  | cons x xs ih =>
    cases vs with
    | nil =>
      simp only [gather]
      split <;> simp
    | cons v vs =>
      simp only [gather,List.map_cons,List.cons.injEq,← ih]
      cases hx : K x t <;> cases hxs : gather K t xs <;> simp

/-- What a rule makes of the tokens of one tag. -/
def fires (N : Net ν ρ τ α γ) (K : Flow ν τ α) (t : τ) (c : γ) (r : ρ) : List (Token ν τ α) :=
  match gather K t (N.reads r) with
  | some vs => N.emits r c t vs
  | none => []

theorem mem_fires {t : τ} {c : γ} {r : ρ} {k : Token ν τ α} :
    k∈N.fires K t c r ↔ ∃ vs,N.Live K r t vs ∧ k∈N.emits r c t vs := by
  unfold fires
  split
  · rename_i vs hvs
    rw [gather_eq_some] at hvs
    constructor
    · exact fun hk => ⟨vs,hvs,hk⟩
    · intro ⟨vs',hl,hk⟩
      rwa [Live.unique (N := N) hvs hl]
  · rename_i hnone
    simp only [List.not_mem_nil,false_iff,not_exists,not_and]
    intro vs hl
    rw [Live,← gather_eq_some,hnone] at hl
    cases hl

theorem fires_of_live {t : τ} {c : γ} {r : ρ} {vs : List α} (h : N.Live K r t vs) :
    N.fires K t c r=N.emits r c t vs := by
  rw [Live,← gather_eq_some] at h
  rw [fires,h]

variable [DecidableEq ν] [DecidableEq τ]

def flowOf (ks : List (Token ν τ α)) : Flow ν τ α := fun x t =>
  (ks.find? fun k => k.wire=x ∧ k.tag=t).map Token.value

theorem mem_of_flowOf {ks : List (Token ν τ α)} {k : Token ν τ α} (h : (flowOf ks).Has k) :
    k∈ks := by
  obtain ⟨k',hk',hvalue⟩ := Option.map_eq_some_iff.mp h
  have hkey := List.find?_some hk'
  simp only [decide_eq_true_eq] at hkey
  obtain ⟨x,t,v⟩ := k
  obtain ⟨x',t',v'⟩ := k'
  obtain ⟨rfl,rfl⟩ := hkey
  obtain rfl := hvalue
  exact List.mem_of_find?_eq_some hk'

theorem flowOf_of_mem {ks : List (Token ν τ α)} {k : Token ν τ α}
    (hkeys : (ks.map fun k => (k.wire,k.tag)).Nodup) (h : k∈ks) : (flowOf ks).Has k := by
  cases hfind : ks.find? fun k' => k'.wire=k.wire ∧ k'.tag=k.tag with
  | none => exact absurd (List.find?_eq_none.mp hfind k h) (by simp)
  | some k' =>
    have hkey := List.find?_some hfind
    simp only [decide_eq_true_eq] at hkey
    have heq : k'=k := List.inj_on_of_nodup_map hkeys (List.mem_of_find?_eq_some hfind) h
      (Prod.ext hkey.1 hkey.2)
    rw [Flow.Has,flowOf,hfind,heq]
    rfl

/-- One token at most, of tag t. -/
def single (t : τ) (o : Option α) : τ → Option α := fun t' => if t'=t then o else none

/-- One token at most, on wire x. -/
def one (x : ν) (t : τ) (o : Option α) : Flow ν τ α := fun y =>
  if y=x then single t o else fun _ => none

@[simp] theorem single_self (t : τ) (o : Option α) : single t o t=o := if_pos rfl

theorem single_eq_some {t t' : τ} {o : Option α} {v : α} (h : single t o t'=some v) :
    t'=t ∧ o=some v := by
  unfold single at h
  split_ifs at h with ht
  exact ⟨ht,h⟩

theorem single_injective {t : τ} {o o' : Option α} (h : single t o=single t o') : o=o' := by
  simpa using congrFun h t

@[simp] theorem one_self (x : ν) (t : τ) (o : Option α) : one x t o x=single t o := if_pos rfl

theorem one_of_ne {x y : ν} (h : y ≠ x) (t : τ) (o : Option α) : one x t o y=fun _ => none :=
  if_neg h

theorem one_eq_some {x y : ν} {t t' : τ} {o : Option α} {v : α} (h : one x t o y t'=some v) :
    y=x ∧ t'=t ∧ o=some v := by
  unfold one at h
  split_ifs at h with hy
  exact ⟨hy,single_eq_some h⟩

@[simp] theorem one_none (x : ν) (t : τ) : (one x t none : Flow ν τ α)=Flow.empty := by
  funext y t'
  by_cases hy : y=x <;> simp [one,single,Flow.empty,hy]

theorem flowOf_one (x : ν) (t : τ) (o : Option α) :
    flowOf (o.toList.map fun v => (⟨x,t,v⟩ : Token ν τ α))=one x t o := by
  funext y t'
  cases o with
  | none =>
    rw [one_none]
    rfl
  | some v =>
    by_cases hy : y=x <;> by_cases ht : t'=t <;>
      simp [flowOf,one,single,hy,ht,eq_comm]

/-- Rules that read known wires only, which carry tokens of one tag. -/
theorem Piece.straight (rules : List ρ) {t : τ} {c : γ} (hgiven : ∀ x t v,K x t=some v → known x)
    (hreads : ∀ r∈rules,N.reads r ≠ [] ∧ ∀ x∈N.reads r,known x ∧ ∀ t' v,K x t'=some v → t'=t)
    (hfresh : ∀ x,N.Target rules x → ¬known x)
    (hchoice : ∀ r∈rules,∀ c' vs,N.Live K r t vs → N.emits r c' t vs=N.emits r c t vs)
    (hkeys : ((rules.flatMap (N.fires K t c)).map fun k => (k.wire,k.tag)).Nodup) :
    N.Piece rules known K (flowOf (rules.flatMap (N.fires K t c))) := by
  let P := flowOf (rules.flatMap (N.fires K t c))
  have hnodup : (rules.flatMap (N.fires K t c)).Nodup := hkeys.of_map
  have hmem : ∀ {k},P.Has k → ∃ r∈rules,k∈N.fires K t c r := fun hk =>
    List.mem_flatMap.mp (mem_of_flowOf hk)
  have htarget : ∀ {k},P.Has k → N.Target rules k.wire := by
    intro k hk
    obtain ⟨r,hr,hk⟩ := hmem hk
    obtain ⟨vs,-,hk⟩ := mem_fires.mp hk
    exact ⟨r,hr,N.emits_targets r c t vs k hk⟩
  have hlive : ∀ r∈rules,∀ t' vs,N.Live (K.or P) r t' vs → t'=t ∧ N.Live K r t' vs := by
    intro r hr t' vs hl
    have hK : N.Live K r t' vs := by
      refine hl.congr fun x hx => ?_
      refine Flow.or_of_right_none ?_
      cases hv : P x t' with
      | none => rfl
      | some v => exact absurd ((hreads r hr).2 x hx).1 (hfresh x (htarget (k := ⟨x,t',v⟩) hv))
    have hpos := List.length_pos_iff.mpr (hreads r hr).1
    obtain ⟨v,-,hv⟩ := hK.get (List.getElem?_eq_getElem hpos)
    exact ⟨((hreads r hr).2 _ (List.getElem_mem hpos)).2 t' v hv,hK⟩
  constructor
  · intro r hr
    exact ⟨(hreads r hr).1,fun x hx => Or.inl ((hreads r hr).2 x hx).1⟩
  · exact hfresh
  · exact hgiven
  · intro x t' v hv
    exact htarget (k := ⟨x,t',v⟩) hv
  · intro r hr c' t' vs hl k hk
    obtain ⟨rfl,hK⟩ := hlive r hr t' vs hl
    rw [hchoice r hr c' vs hK] at hk
    exact flowOf_of_mem hkeys (List.mem_flatMap.mpr ⟨r,hr,mem_fires.mpr ⟨vs,hK,hk⟩⟩)
  · intro r hr c' t' vs hl
    obtain ⟨rfl,hK⟩ := hlive r hr t' vs hl
    rw [hchoice r hr c' vs hK,← fires_of_live hK]
    exact (List.nodup_flatMap.mp hnodup).1 r hr
  · intro r hr r' hr' c1 c2 t1 t2 vs vs' hl hl' k hk hk'
    obtain ⟨rfl,hK⟩ := hlive r hr t1 vs hl
    obtain ⟨rfl,hK'⟩ := hlive r' hr' t2 vs' hl'
    refine ⟨?_,rfl⟩
    by_contra hne
    rw [hchoice r hr c1 vs hK] at hk
    rw [hchoice r' hr' c2 vs' hK'] at hk'
    have hpair := (List.nodup_flatMap.mp hnodup).2
    have hsymm : Std.Symm (Function.onFun List.Disjoint (N.fires K t2 c)) :=
      ⟨fun _ _ h => List.Disjoint.symm h⟩
    have hapart := hpair.forall hr hr' hne
    exact hapart (mem_fires.mpr ⟨vs,hK,hk⟩) (mem_fires.mpr ⟨vs',hK',hk'⟩)
  · intro k hk
    obtain ⟨r,hr,hk⟩ := hmem hk
    obtain ⟨vs,hl,hk⟩ := mem_fires.mp hk
    refine .fired k r t vs hr hl.length (fun i x v hx hv => .given _ ?_) fun c' => ?_
    · obtain ⟨w,hw,hK⟩ := hl.get hx
      obtain rfl : w=v := Option.some.inj (hw.symm.trans hv)
      exact hK
    · rw [hchoice r hr c' vs hl]
      exact hk

end Framework.Net
