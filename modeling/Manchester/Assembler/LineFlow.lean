import Manchester.Assembler.Firing
import Manchester.Framework.Piece

namespace Manchester.Assembler

open Framework Framework.Net

variable {τ α γ : Type} {dom : Domain τ α γ} {lines : List Name} {s : Statement}

def NoLabels (lines : List Name) : Prop := ∀ x,isLabel lines x=false

theorem operandWire_str (h : NoLabels lines) {x : Name} (hx : x ≠ ['_']) (k : Nat) :
    operandWire lines k (.str x)=some (.name x) := by
  rw [operandWire,if_neg hx,h x]
  rfl

@[simp] theorem operandWire_int (lines : List Name) (k : Nat) (value : Int) :
    operandWire lines k (.int value)=none := rfl

@[simp] theorem constant_int (dom : Domain τ α γ) (lines : List Name) (value : Int) :
    constant dom lines (.int value)=some (dom.literal value) := rfl

theorem outputs_of_result {op : OpcodeType} (h : op ≠ .BRR ∧ op ≠ .NTG ∧ op ≠ .RTD) (k : Nat)
    (c : γ) (t : τ) (first : List Wire) (u v : α) :
    dom.outputs k c t op first [] [u,v]=
      ((dom.result c t u v op).toList.flatMap fun r => first.map fun x => ⟨x,r.1,r.2⟩) := by
  obtain ⟨hbrr,hntg,hrtd⟩ := h
  cases hr : dom.result c t u v op <;> cases op <;>
    first | contradiction | simp [Domain.outputs,hr]

theorem constant_str (h : NoLabels lines) (x : Name) : constant dom lines (.str x)=none := by
  rw [constant,h x]
  simp

/-- A statement of names and numbers. -/
structure Statement.Regular (s : Statement) : Prop where
  operands : s.operands ≠ []
  named : Arg.str ['_']∉s.operands
  merged : s.opcode=some (.op .MER) → ∃ x,Arg.str x∈s.operands

theorem operands_length (h : NoLabels lines) (k : Nat) {args : List Arg}
    (hnamed : Arg.str ['_']∉args) :
    args.length=(args.filterMap (operandWire lines k)).length+
      (args.filterMap (constant dom lines)).length := by
  induction args with
  | nil => rfl
  | cons arg args ih =>
    obtain ⟨hfirst,hrest⟩ := not_or.mp (fun hmem => hnamed (List.mem_cons.mpr hmem))
    have ih := ih hrest
    cases arg with
    | int value =>
      simp only [List.length_cons,List.filterMap_cons,operandWire_int,constant_int]
      omega
    | str x =>
      have hx : x ≠ ['_'] := fun heq => hfirst (by rw [heq])
      simp only [List.length_cons,List.filterMap_cons,operandWire_str h hx,constant_str h]
      omega

theorem Statement.Regular.ways_ne_nil (hs : s.Regular) (h : NoLabels lines) (k : Nat) :
    s.ways dom lines k ≠ [] := by
  unfold Statement.ways
  simp only
  split_ifs with hmer hlength hwires hoperands
  · obtain ⟨x,hx⟩ := hs.merged hmer
    have hne : x ≠ ['_'] := fun heq => hs.named (by rwa [← heq])
    have hmem : Wire.name x∈s.operands.filterMap (operandWire lines k) :=
      List.mem_filterMap.mpr ⟨_,hx,operandWire_str h hne k⟩
    exact fun hnil => List.ne_nil_of_mem hmem (List.map_eq_nil_iff.mp hnil)
  · simp
  · simp
  · exact absurd (not_not.mp hoperands) hs.operands
  · exact absurd (operands_length h k hs.named) hlength

theorem net_reads {k w : Nat} {s : Statement} {wires : List Wire}
    (hs : statementAt lines k=some s) (hw : (s.ways dom lines k)[w]?=some wires) :
    (net dom lines).reads (k,w)=wires := by
  simp [net,hs,hw]

theorem net_emits {k w : Nat} {s : Statement} (hs : statementAt lines k=some s) (c : γ) (t : τ)
    (vs : List α) :
    (net dom lines).emits (k,w) c t vs=s.emits dom k c t (s.values dom lines k vs) := by
  simp [net,hs]

theorem target_lineRules {k : Nat} {s : Statement} (hs : statementAt lines k=some s)
    (hways : s.ways dom lines k ≠ []) (x : Wire) :
    (net dom lines).Target (lineRules dom lines k) x ↔ s.Targets k x := by
  have hmem : ∀ r,r∈lineRules dom lines k → r.1=k := by
    intro r hr
    simp only [lineRules,hs,List.mem_map] at hr
    obtain ⟨w,-,rfl⟩ := hr
    rfl
  constructor
  · rintro ⟨r,hr,s',hs',htarget⟩
    rw [hmem r hr] at hs' htarget
    obtain rfl := Option.some.inj (hs.symm.trans hs')
    exact htarget
  · intro htarget
    refine ⟨(k,0),?_,s,hs,htarget⟩
    simp only [lineRules,hs,List.mem_map,List.mem_range]
    exact ⟨0,List.length_pos_iff.mpr hways,rfl⟩

variable [DecidableEq τ] {known : Wire → Prop} {K : Flow Wire τ α} {k : Nat} {t : τ}

/-- A line that takes its operands in one way and makes at most one token, whatever is chosen. -/
theorem piece_line (wires : List Wire) (value : List α → Option (Wire × τ × α)) [Nonempty γ]
    (hs : statementAt lines k=some s) (hways : s.ways dom lines k=[wires]) (hne : wires ≠ [])
    (hgiven : ∀ x t v,K x t=some v → known x)
    (hreads : ∀ x∈wires,known x ∧ ∃ o,K x=single t o) (hfresh : ∀ x,s.Targets k x → ¬known x)
    (hemits : ∀ c vs,gather K t wires=some vs → s.emits dom k c t (s.values dom lines k vs)=
      (value vs).toList.map fun p => ⟨p.1,p.2.1,p.2.2⟩) :
    (net dom lines).Piece (lineRules dom lines k) known K
      (flowOf ((((gather K t wires).bind value).toList).map fun p => ⟨p.1,p.2.1,p.2.2⟩)) := by
  let c : γ := Classical.arbitrary γ
  have hrules : lineRules dom lines k=[(k,0)] := by
    simp [lineRules,hs,hways]
  have hread : (net dom lines).reads (k,0)=wires := net_reads hs (by rw [hways]; rfl)
  have hfires : ([(k,0)].flatMap fun r => (net dom lines).fires K t c r)=
      (((gather K t wires).bind value).toList).map fun p => ⟨p.1,p.2.1,p.2.2⟩ := by
    rw [List.flatMap_singleton,fires,hread]
    cases hvs : gather K t wires with
    | none => rfl
    | some vs =>
      simp only [net_emits hs,hemits c vs hvs]
      rfl
  have hpiece := Piece.straight (N := net dom lines) [(k,0)] (c := c) (t := t) hgiven
    (fun r hr => ?_) (fun x hx => ?_) (fun r hr c' vs hl => ?_) ?_
  · rw [hrules,← hfires]
    exact hpiece
  · obtain rfl := List.mem_singleton.mp hr
    rw [hread]
    refine ⟨hne,fun x hx => ?_⟩
    obtain ⟨hknown,o,ho⟩ := hreads x hx
    refine ⟨hknown,fun t' v hv => ?_⟩
    rw [ho] at hv
    exact (single_eq_some hv).1
  · apply hfresh
    rw [← hrules] at hx
    exact (target_lineRules hs (by simp [hways]) x).mp hx
  · obtain rfl := List.mem_singleton.mp hr
    rw [Live,← gather_eq_some,hread] at hl
    rw [net_emits hs,net_emits hs,hemits c' vs hl,hemits c vs hl]
  · rw [hfires]
    cases (gather K t wires).bind value <;> simp

/-- A name that carries at most one token, of tag t. -/
structure Carries (known : Wire → Prop) (K : Flow Wire τ α) (t : τ) (x : Name) (o : Option α) :
    Prop where
  ne : x ≠ ['_']
  known : known (.name x)
  flow : K (.name x)=single t o

theorem gather_one {x : Wire} {o : Option α} (h : K x=single t o) :
    gather K t [x]=o.map fun v => [v] := by
  have hx : K x t=o := by rw [h,single_self]
  cases o <;> simp [gather,hx]

theorem gather_two {x y : Wire} {o o' : Option α} (h : K x=single t o) (h' : K y=single t o') :
    gather K t [x,y]=o.bind fun v => o'.map fun v' => [v,v'] := by
  have hx : K x t=o := by rw [h,single_self]
  have hy : K y t=o' := by rw [h',single_self]
  cases o <;> cases o' <;> simp [gather,hx,hy]

theorem targetWires_of_ne {x : Name} (hx : x ≠ ['_']) : targetWires x=[.name x] := if_neg hx

/-- A line with one wire to make a token for. -/
theorem piece_one (wires : List Wire) (w : Wire) (value : List α → Option α) [Nonempty γ]
    (hgiven : ∀ x t v,K x t=some v → known x) (hs : statementAt lines k=some s)
    (hways : s.ways dom lines k=[wires]) (hne : wires ≠ [])
    (hreads : ∀ x∈wires,known x ∧ ∃ o,K x=single t o) (hfresh : ∀ x,s.Targets k x → ¬known x)
    (hemits : ∀ c vs,gather K t wires=some vs → s.emits dom k c t (s.values dom lines k vs)=
      (value vs).toList.map fun v => ⟨w,t,v⟩) :
    (net dom lines).Piece (lineRules dom lines k) known K
      (one w t ((gather K t wires).bind value)) := by
  have hpiece : (net dom lines).Piece _ _ _ _ :=
    piece_line wires (fun vs => (value vs).map fun v => (w,t,v)) hs
    hways hne hgiven hreads hfresh fun c vs hvs => by rw [hemits c vs hvs]; cases value vs <;> rfl
  rw [← flowOf_one]
  convert hpiece using 2
  cases gather K t wires with
  | none => rfl
  | some vs =>
    simp only [Option.bind_some]
    cases value vs <;> rfl

section Lines

variable {x y a b : Name} {o oa ob : Option α} [Nonempty γ]
  (hgiven : ∀ x t v,K x t=some v → known x)

include hgiven

theorem piece_literal {value : Int} {u : α}
    (hs : statementAt lines k=some (.assign x (.op .DUP) (.int value) none)) (hx : x ≠ ['_'])
    (hfresh : ¬known (.name x)) (hstart : known .start) (hflow : K .start=single t (some u)) :
    (net dom lines).Piece (lineRules dom lines k) known K
      (one (.name x) t (some (dom.literal value))) := by
  have hpiece : (net dom lines).Piece _ _ _ (one (.name x) t _) := piece_one [.start] (.name x)
    (fun _ => some (dom.literal value)) hgiven hs
    (by simp [Statement.ways,Statement.operands,Statement.opcode,operandWire,constant]) (by simp)
    (by simpa using ⟨hstart,_,hflow⟩) (by simpa [Statement.Targets,targetWires_of_ne hx])
    (by simp [Statement.emits,Statement.values,Statement.operands,operandWire,constant,
      Domain.outputs,Domain.result,targetWires_of_ne hx])
  rwa [gather_one hflow] at hpiece

variable (hlabels : NoLabels lines)

include hlabels

/-- A statement with one operand, a name. -/
theorem piece_single (w : Wire) (value : α → Option α) (hs : statementAt lines k=some s)
    (hoperands : s.operands=[.str a]) (hmer : s.opcode ≠ some (.op .MER))
    (hfresh : ∀ x,s.Targets k x → ¬known x) (ha : Carries known K t a o)
    (hemits : ∀ c u,s.emits dom k c t [u]=(value u).toList.map fun v => ⟨w,t,v⟩) :
    (net dom lines).Piece (lineRules dom lines k) known K (one w t (o.bind value)) := by
  have hwire := operandWire_str hlabels ha.ne k
  have hconstant : constant dom lines (.str a)=none := constant_str hlabels a
  have hgather := gather_one ha.flow
  have hpiece : (net dom lines).Piece _ _ _ (one w t _) := piece_one [.name a] w
    (fun vs => vs.head?.bind value) hgiven hs
    (by simp [Statement.ways,hoperands,hmer,hwire,hconstant]) (by simp)
    (by simpa using ⟨ha.known,_,ha.flow⟩) hfresh (fun c vs hvs => ?_)
  · rw [hgather] at hpiece
    convert hpiece
    cases o <;> rfl
  · rw [hgather] at hvs
    obtain ⟨u,-,rfl⟩ := Option.map_eq_some_iff.mp hvs
    simpa [Statement.values,hoperands,hwire,hconstant] using hemits c u

/-- A statement with two operands, names. -/
theorem piece_pair {w : Wire} {value : α → α → Option α} (hs : statementAt lines k=some s)
    (hoperands : s.operands=[.str a,.str b]) (hmer : s.opcode ≠ some (.op .MER))
    (hfresh : ∀ x,s.Targets k x → ¬known x) (ha : Carries known K t a oa)
    (hb : Carries known K t b ob)
    (hemits : ∀ c u v,s.emits dom k c t [u,v]=(value u v).toList.map fun r => ⟨w,t,r⟩) :
    (net dom lines).Piece (lineRules dom lines k) known K
      (one w t (oa.bind fun u => ob.bind (value u))) := by
  have hwire := operandWire_str hlabels ha.ne k
  have hwire' := operandWire_str hlabels hb.ne k
  have hconstant : ∀ x,constant dom lines (.str x)=none := constant_str hlabels
  have hgather := gather_two ha.flow hb.flow
  have hpiece : (net dom lines).Piece _ _ _ (one w t _) := piece_one [.name a,.name b] w
    (fun vs => vs.head?.bind fun u => vs.tail.head?.bind (value u)) hgiven hs
    (by simp [Statement.ways,hoperands,hmer,hwire,hwire',hconstant]) (by simp)
    (by simpa using ⟨⟨ha.known,_,ha.flow⟩,hb.known,_,hb.flow⟩) hfresh (fun c vs hvs => ?_)
  · rw [hgather] at hpiece
    convert hpiece
    cases oa <;> cases ob <;> rfl
  · rw [hgather] at hvs
    obtain ⟨u,-,hvs⟩ := Option.bind_eq_some_iff.mp hvs
    obtain ⟨v,-,rfl⟩ := Option.map_eq_some_iff.mp hvs
    simpa [Statement.values,hoperands,hwire,hwire',hconstant] using hemits c u v

theorem piece_copy (hs : statementAt lines k=some (.assign x (.op .DUP) (.str a) none))
    (hx : x ≠ ['_']) (hfresh : ¬known (.name x)) (ha : Carries known K t a o) :
    (net dom lines).Piece (lineRules dom lines k) known K (one (.name x) t o) := by
  have hpiece : (net dom lines).Piece _ _ _ (one (.name x) t _) :=
    piece_single hgiven hlabels (.name x) some hs rfl
    (by simp [Statement.opcode]) (by simpa [Statement.Targets,targetWires_of_ne hx]) ha
    (by simp [Statement.emits,Domain.outputs,Domain.result,targetWires_of_ne hx])
  rwa [Option.bind_fun_some] at hpiece

theorem piece_compute {op : OpcodeType}
    (hs : statementAt lines k=some (.assign x (.op op) (.str a) (some (.str b))))
    (hresult : ∀ c u v,dom.result c t u v op=(dom.compute op u v).map fun r => (t,r))
    (hplain : op ≠ .BRR ∧ op ≠ .NTG ∧ op ≠ .RTD) (hmer : op ≠ .MER) (hx : x ≠ ['_'])
    (hfresh : ¬known (.name x)) (ha : Carries known K t a oa) (hb : Carries known K t b ob) :
    (net dom lines).Piece (lineRules dom lines k) known K
      (one (.name x) t (oa.bind fun u => ob.bind (dom.compute op u))) := by
  refine piece_pair hgiven hlabels hs rfl (by simpa [Statement.opcode]) ?_ ha hb ?_
  · simpa [Statement.Targets,targetWires_of_ne hx,hplain.2.2]
  · intro c u v
    rw [Statement.emits,targetWires_of_ne hx,outputs_of_result hplain,hresult]
    cases dom.compute op u v <;> rfl

/-- The tag of a token as a value. -/
theorem piece_etg (hs : statementAt lines k=some (.assign x (.op .ETG) (.str a) none))
    (hx : x ≠ ['_']) (hfresh : ¬known (.name x)) (ha : Carries known K t a o) :
    (net dom lines).Piece (lineRules dom lines k) known K
      (one (.name x) t (o.map fun _ => dom.tagOf t)) := by
  have hpiece : (net dom lines).Piece _ _ _ (one (.name x) t _) :=
    piece_single hgiven hlabels (.name x) (fun _ => some (dom.tagOf t)) hs rfl
    (by simp [Statement.opcode]) (by simpa [Statement.Targets,targetWires_of_ne hx]) ha
    (by simp [Statement.emits,Domain.outputs,Domain.result,targetWires_of_ne hx])
  convert hpiece
  cases o <;> rfl

theorem piece_output {op : Opcode} (hs : statementAt lines k=some (.output op (.str a)))
    (hop : op ≠ .op .MER) (hfresh : ¬known (.printed k)) (ha : Carries known K t a o) :
    (net dom lines).Piece (lineRules dom lines k) known K (one (.printed k) t o) := by
  have hpiece : (net dom lines).Piece _ _ _ (one (.printed k) t _) :=
    piece_single hgiven hlabels (.printed k) some hs rfl
    (by simpa [Statement.opcode]) (by simpa [Statement.Targets]) ha
    (by simp [Statement.emits])
  rwa [Option.bind_fun_some] at hpiece

/-- A number gets the tag that a token has as its value. -/
theorem piece_tagged {value : Int} {u : α}
    (hs : statementAt lines k=some (.assign x (.op .CTG) (.str a) (some (.int value))))
    (hx : x ≠ ['_']) (hfresh : ¬known (.name x)) (ha : Carries known K t a (some u))
    (htag : dom.ofTag u=t) :
    (net dom lines).Piece (lineRules dom lines k) known K
      (one (.name x) t (some (dom.literal value))) := by
  have hwire := operandWire_str hlabels ha.ne k
  have hconstant : constant dom lines (.str a)=none := constant_str hlabels a
  have hgather := gather_one ha.flow
  have hpiece : (net dom lines).Piece _ _ _ (one (.name x) t _) := piece_one [.name a] (.name x)
    (fun _ => some (dom.literal value)) hgiven hs
    (by simp [Statement.ways,Statement.operands,Statement.opcode,hwire,hconstant]) (by simp)
    (by simpa using ⟨ha.known,_,ha.flow⟩)
    (by simpa [Statement.Targets,targetWires_of_ne hx]) (fun c vs hvs => ?_)
  · rwa [hgather] at hpiece
  · rw [hgather] at hvs
    obtain rfl := Option.some.inj hvs
    simp [Statement.emits,Statement.values,Statement.operands,hwire,hconstant,Domain.outputs,
      Domain.result,targetWires_of_ne hx,htag]

/-- A token goes to one of two names, or is dropped. -/
theorem piece_branch
    (hs : statementAt lines k=some (.branch x y (.op .BRR) (.str a) (some (.str b))))
    (hx : x ≠ ['_']) (hfresh : ¬known (.name x))
    (hfresh' : y ≠ ['_'] → ¬known (.name y)) (ha : Carries known K t a oa)
    (hb : Carries known K t b ob) :
    (net dom lines).Piece (lineRules dom lines k) known K
      ((one (.name x) t (if ob.any dom.truth then oa else none)).or
        (if y=['_'] then Flow.empty
          else one (.name y) t (if ob.any (fun c => !dom.truth c) then oa else none))) := by
  have hwire := operandWire_str hlabels ha.ne k
  have hwire' := operandWire_str hlabels hb.ne k
  have hconstant : ∀ x,constant dom lines (.str x)=none := constant_str hlabels
  have hgather := gather_two ha.flow hb.flow
  have hpiece : (net dom lines).Piece _ _ _ _ := piece_line (t := t) [.name a,.name b]
    (fun vs => vs.head?.bind fun u => vs.tail.head?.bind fun v =>
      ((targetWires (if dom.truth v then x else y)).head?.map fun w => (w,t,u))) hs
    (by simp [Statement.ways,Statement.operands,Statement.opcode,hwire,hwire',hconstant]) (by simp)
    hgiven (by simpa using ⟨⟨ha.known,_,ha.flow⟩,hb.known,_,hb.flow⟩) (fun w hw => ?_)
    (fun c vs hvs => ?_)
  · rw [hgather] at hpiece
    convert hpiece using 1
    have hnil : flowOf ([] : List (Token Wire τ α))=Flow.empty := rfl
    have hsome : ∀ w u,flowOf [(⟨w,t,u⟩ : Token Wire τ α)]=one w t (some u) :=
      fun w u => flowOf_one w t (some u)
    cases oa with
    | none => simp [hnil]
    | some u =>
      cases ob with
      | none => simp [hnil]
      | some v =>
        cases hv : dom.truth v <;> by_cases hy : y=['_'] <;>
          simp [hv,hy,targetWires,hx,hnil,hsome]
  · have hw : w∈targetWires x ∨ w∈targetWires y := by simpa [Statement.Targets] using hw
    obtain hw | hw := hw
    · rw [targetWires_of_ne hx] at hw
      rwa [List.mem_singleton.mp hw]
    · by_cases hy : y=['_']
      · simp [targetWires,hy] at hw
      · rw [targetWires_of_ne hy] at hw
        rw [List.mem_singleton.mp hw]
        exact hfresh' hy
  · rw [hgather] at hvs
    obtain ⟨u,-,hvs⟩ := Option.bind_eq_some_iff.mp hvs
    obtain ⟨v,-,rfl⟩ := Option.map_eq_some_iff.mp hvs
    have hwires : ∀ z : Name,(targetWires z).map (fun w => (⟨w,t,u⟩ : Token Wire τ α))=
        ((targetWires z).head?.map fun w => (w,t,u)).toList.map fun p => ⟨p.1,p.2.1,p.2.2⟩ := by
      intro z
      unfold targetWires
      split_ifs <;> rfl
    have hvalues : Statement.values dom lines k (.branch x y (.op .BRR) (.str a) (some (.str b)))
        [u,v]=[u,v] := by
      simp [Statement.values,Statement.operands,hwire,hwire',hconstant]
    rw [hvalues]
    show (if dom.truth v then targetWires x else targetWires y).map _=_
    rw [← apply_ite targetWires]
    exact hwires (if dom.truth v then x else y)

/-- Two tokens that are never there together are merged. -/
theorem piece_merge
    (hs : statementAt lines k=some (.assign x (.op .MER) (.str a) (some (.str b))))
    (hx : x ≠ ['_']) (hfresh : ¬known (.name x)) (ha : Carries known K t a oa)
    (hb : Carries known K t b ob) (hapart : oa=none ∨ ob=none) :
    (net dom lines).Piece (lineRules dom lines k) known K (one (.name x) t (oa.or ob)) := by
  let c : γ := Classical.arbitrary γ
  have hways : Statement.ways dom lines k (.assign x (.op .MER) (.str a) (some (.str b)))=
      [[.name a],[.name b]] := by
    simp [Statement.ways,Statement.operands,Statement.opcode,operandWire_str hlabels ha.ne,
      operandWire_str hlabels hb.ne]
  have hrules : lineRules dom lines k=[(k,0),(k,1)] := by
    simp [lineRules,hs,hways,List.range_succ]
  have hread : (net dom lines).reads (k,0)=[.name a] := net_reads hs (by rw [hways]; rfl)
  have hread' : (net dom lines).reads (k,1)=[.name b] := net_reads hs (by rw [hways]; rfl)
  have hemits : ∀ c w u,(net dom lines).emits (k,w) c t [u]=[⟨.name x,t,u⟩] := by
    intro c w u
    rw [net_emits hs]
    simp [Statement.values,Statement.operands,operandWire_str hlabels ha.ne,
      operandWire_str hlabels hb.ne,constant_str hlabels,Statement.emits,Domain.outputs,
      Domain.result,targetWires_of_ne hx]
  have hfires : ([(k,0),(k,1)].flatMap fun r => (net dom lines).fires K t c r)=
      (oa.or ob).toList.map fun v => ⟨.name x,t,v⟩ := by
    rw [List.flatMap_cons,List.flatMap_singleton,fires,fires,hread,hread',gather_one ha.flow,
      gather_one hb.flow]
    cases oa <;> cases ob <;> simp [hemits] at hapart ⊢
  have hpiece := Piece.straight (N := net dom lines) [(k,0),(k,1)] (K := K) (c := c)
    (t := t) hgiven (fun r hr => ?_) (fun w hw => ?_) (fun r hr c' vs hl => ?_) ?_
  · rw [hrules,← flowOf_one,← hfires]
    exact hpiece
  · have hsingle : ∀ {z : Name} {oz : Option α},Carries known K t z oz →
        [Wire.name z] ≠ [] ∧ ∀ w∈[Wire.name z],known w ∧ ∀ t' v,K w t'=some v → t'=t := by
      intro z oz hz
      refine ⟨by simp,fun w hw => ?_⟩
      obtain rfl := List.mem_singleton.mp hw
      refine ⟨hz.known,fun t' v hv => ?_⟩
      rw [hz.flow] at hv
      exact (single_eq_some hv).1
    simp only [List.mem_cons,List.not_mem_nil,or_false] at hr
    obtain rfl | rfl := hr
    · rw [hread]
      exact hsingle ha
    · rw [hread']
      exact hsingle hb
  · rw [← hrules,target_lineRules hs (by simp [hways])] at hw
    have hw : w=.name x := by simpa [Statement.Targets,targetWires_of_ne hx] using hw
    rwa [hw]
  · simp only [List.mem_cons,List.not_mem_nil,or_false] at hr
    obtain rfl | rfl := hr <;> rw [net_emits hs,net_emits hs] <;> rfl
  · rw [hfires]
    cases oa.or ob <;> simp

end Lines

end Manchester.Assembler
