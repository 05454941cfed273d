import Manchester.Assembler.Hooking
import Manchester.Assembler.Shape

namespace Manchester.Assembler

open Fanout

theorem keeps_modify (n0 : Nat) (s : IrState) (owner : Nat → Nat) (n : Nat) (f : Node → Node)
    (hf : ∀ node,(f node).destination1=node.destination1 ∧
      (f node).destination2=node.destination2) :
    Keeps n0 s {s with heap := s.heap.modify n f} owner owner [] := by
  refine ⟨by simp,rfl,fun _ _ => rfl,?_⟩
  intro q _ _
  simp only [cells,List.getElem?_modify]
  cases s.heap[q]? with
  | none => rfl
  | some node =>
    by_cases h : n=q
    · simp [h,hf node]
    · simp [h]

theorem moveLiteral_destinations (node : Node) :
    (moveLiteral node).destination1=node.destination1 ∧
      (moveLiteral node).destination2=node.destination2 := by
  unfold moveLiteral
  split_ifs <;> exact ⟨rfl,rfl⟩

theorem clearInput_destinations (input : Input) (node : Node) :
    (node.clearInput input).destination1=node.destination1 ∧
      (node.clearInput input).destination2=node.destination2 := by
  cases input <;> exact ⟨rfl,rfl⟩

/-- The state of the loop when it has been through the uses `done` of each variable. -/
structure FixedTo (parsed s : IrState) (owner : Nat → Nat) (done : Name → List Destination) :
    Prop where
  size : parsed.heap.length ≤ s.heap.length
  labels : s.labels=parsed.labels
  hooked : ∀ v,IsVariable parsed.labels v → Hooked parsed.heap.length s owner
    (parsed.variableMap v) (s.variableMap v) (done v)

theorem FixedTo.keeps {parsed s s' : IrState} {owner : Nat → Nat}
    {done : Name → List Destination} (h : FixedTo parsed s owner done)
    (hk : Keeps parsed.heap.length s s' owner owner [])
    (hmap : s'.variableMap=s.variableMap) : FixedTo parsed s' owner done where
  size := Nat.le_trans h.size hk.size
  labels := by rw [hk.labels,h.labels]
  hooked := fun v hv => by
    rw [hmap]
    exact (h.hooked v hv).keeps hk fun _ _ => List.not_mem_nil

/-- The uses of a variable at one operand position. -/
def useAt (heap : List Node) (d : Destination) (v : Name) : List Destination :=
  if inputOf heap d=some (.str v) then [d] else []

theorem usesOf_eq (heap : List Node) (v : Name) (n : Nat) :
    usesOf heap v n=useAt heap ⟨n,.INPUT_ONE⟩ v++useAt heap ⟨n,.INPUT_TWO⟩ v := by
  simp only [usesOf,useAt,inputOf,List.filter_cons,List.filter_nil,beq_iff_eq]
  split_ifs <;> rfl

theorem FixedTo.mono {parsed s : IrState} {owner : Nat → Nat}
    {done done' : Name → List Destination} (h : FixedTo parsed s owner done)
    (hdone : ∀ v,IsVariable parsed.labels v → done' v=done v) : FixedTo parsed s owner done' :=
  ⟨h.size,h.labels,fun v hv => by rw [hdone v hv]; exact h.hooked v hv⟩

theorem useAt_other {heap : List Node} {d : Destination} {name v : Name}
    (h : inputOf heap d=some (.str name)) (hv : v ≠ name) : useAt heap d v=[] := by
  rw [useAt,h,if_neg (by simp [Ne.symm hv])]

theorem fixInput_fixedTo {parsed s : IrState} {owner : Nat → Nat}
    {done : Name → List Destination} (hparsed : WellRead parsed) (d : Destination)
    (hd : d.node < parsed.heap.length) (h : FixedTo parsed s owner done)
    (hinput : inputOf s.heap d=inputOf parsed.heap d) :
    ∃ owner',FixedTo parsed (fixInput s d.node d.input) owner'
      fun v => done v++useAt parsed.heap d v := by
  have hclear : FixedTo parsed (clearInput s d.node d.input) owner done :=
    h.keeps (keeps_modify _ s owner d.node _ (clearInput_destinations d.input)) rfl
  unfold fixInput
  split
  · rename_i name hname
    have hname' : inputOf parsed.heap d=some (.str name) := hinput ▸ hname
    by_cases hvar : IsVariable parsed.labels name
    · -- a use of a variable: the other variables keep their chains, since no node is theirs
      rw [if_neg hvar.1,if_neg (by rw [h.labels,hvar.2]; simp)]
      obtain ⟨owner',hkeep,hhooked⟩ := hookUp_hooked name d hd hclear.size
        (hparsed.nodup name) (hclear.hooked name hvar)
      refine ⟨owner',Nat.le_trans hclear.size hkeep.size,by rw [hkeep.labels,hclear.labels],?_⟩
      intro v hv
      by_cases hvn : v=name
      · subst hvn
        rwa [useAt,if_pos hname']
      · rw [useAt_other hname' hvn,List.append_nil,hookUp_other name v hvn]
        refine (hclear.hooked v hv).keeps hkeep fun p hp hp' => hvn ?_
        exact hparsed.single v name p hp hp'
    · have hsame : ∀ v,IsVariable parsed.labels v → done v++useAt parsed.heap d v=done v := by
        intro v hv
        rw [useAt_other hname' (fun he => hvar (he ▸ hv)),List.append_nil]
      refine ⟨owner,?_⟩
      split_ifs with hunder hlabel
      · exact hclear.mono hsame
      · exact h.mono hsame
      · refine absurd ⟨hunder,?_⟩ hvar
        rw [h.labels] at hlabel
        simpa using hlabel
  · rename_i hname
    refine ⟨owner,h.mono fun v _ => ?_⟩
    rw [useAt,if_neg,List.append_nil]
    intro huse
    exact hname v (by rw [← huse,← hinput]; rfl)

theorem fixNode_fixedTo {parsed s : IrState} {owner : Nat → Nat}
    {done : Name → List Destination} (hparsed : WellRead parsed) (n : Nat)
    (hn : n < parsed.heap.length) (h : FixedTo parsed s owner done)
    (hinput : ∀ d,n ≤ d.node → inputOf s.heap d=inputOf parsed.heap d) :
    (∃ owner',FixedTo parsed (fixNode s n) owner' fun v => done v++usesOf parsed.heap v n) ∧
      ∀ d,n+1 ≤ d.node → inputOf (fixNode s n).heap d=inputOf parsed.heap d := by
  constructor
  · obtain ⟨owner1,h1⟩ := fixInput_fixedTo hparsed ⟨n,.INPUT_ONE⟩ hn h (hinput _ (Nat.le_refl n))
    have hinput2 : inputOf (fixInput s n .INPUT_ONE).heap ⟨n,.INPUT_TWO⟩=
        inputOf parsed.heap ⟨n,.INPUT_TWO⟩ := by
      rw [fixInput_inputOf s ⟨n,.INPUT_ONE⟩ ⟨n,.INPUT_TWO⟩ (by simp),hinput _ (Nat.le_refl n)]
    obtain ⟨owner2,h2⟩ := fixInput_fixedTo hparsed ⟨n,.INPUT_TWO⟩ hn h1 hinput2
    refine ⟨owner2,(h2.keeps (keeps_modify _ _ owner2 n moveLiteral moveLiteral_destinations)
      rfl).mono ?_⟩
    intro v _
    rw [usesOf_eq,List.append_assoc]
  · intro d hd
    have hne : n ≠ d.node := by omega
    rw [fixNode,inputOf_modify_ne _ _ _ _ hne,
      fixInput_inputOf _ ⟨n,.INPUT_TWO⟩ d (by rintro rfl; exact hne rfl),
      fixInput_inputOf _ ⟨n,.INPUT_ONE⟩ d (by rintro rfl; exact hne rfl)]
    exact hinput d (by omega)

/-- The loop has connected the uses of the first k nodes after k rounds. -/
theorem fixNodes_fixedTo {parsed : IrState} (hparsed : WellRead parsed) (k : Nat)
    (hk : k ≤ parsed.heap.length) :
    (∃ owner,FixedTo parsed ((List.range k).foldl fixNode parsed) owner
      fun v => (List.range k).flatMap (usesOf parsed.heap v)) ∧
      ∀ d,k ≤ d.node →
        inputOf ((List.range k).foldl fixNode parsed).heap d=inputOf parsed.heap d := by
  induction k with
  | zero =>
    refine ⟨⟨id,Nat.le_refl _,rfl,?_⟩,fun _ _ => rfl⟩
    intro v _
    refine ⟨fun _ => ⟨rfl,?_⟩,fun hlen => by simp at hlen,id⟩
    intro p hp
    obtain ⟨node,hnode,h1,h2⟩ := hparsed.defined v p hp
    apply Chain.empty ⟨hparsed.lt v p hp,rfl⟩
    rw [List.range_zero,List.foldl_nil,cells_some hnode,h1,h2]
    rfl
  | succ k ih =>
    obtain ⟨⟨owner,h⟩,hinput⟩ := ih (by omega)
    obtain ⟨⟨owner',h'⟩,hinput'⟩ := fixNode_fixedTo hparsed k (by omega) h hinput
    rw [List.range_succ,List.foldl_append,List.foldl_cons,List.foldl_nil]
    refine ⟨⟨owner',h'.mono ?_⟩,hinput'⟩
    intro v _
    rw [List.flatMap_append,List.flatMap_singleton]

theorem fixUp_fixedTo {parsed : IrState} (hparsed : WellRead parsed) :
    ∃ owner,FixedTo parsed (fixUp parsed) owner fun v => uses parsed.heap v :=
  (fixNodes_fixedTo hparsed _ (Nat.le_refl _)).1

/-- Every definition of v has one path to each use of v, and paths to nothing else. The definitions
are the nodes that the lines define v by, where each output of a branch line has its own DUP; a
path runs through the DUP nodes inserted behind the nodes that were read. -/
def EdgeComplete (parsed : IrState) (g : Graph) (v : Name) : Prop :=
  ∀p∈parsed.variableMap v,
    (∀d∈uses parsed.heap v,∃! bs,Path (cells parsed.heap.length g.heap) p bs d) ∧
      ∀ bs d,Path (cells parsed.heap.length g.heap) p bs d → d∈uses parsed.heap v

/-- The graph has the edges of v exactly when all of them fit the definitions directly, or one
definition takes them all: from the fourth use on only the last definition is connected. -/
theorem edgeComplete_iff {parsed s : IrState} {owner : Nat → Nat} (g : Graph) (v : Name)
    (hg : g.heap=s.heap) (h : Hooked parsed.heap.length s owner (parsed.variableMap v)
      (s.variableMap v) (uses parsed.heap v)) :
    EdgeComplete parsed g v ↔
      (parsed.variableMap v).length ≤ 1 ∨ (uses parsed.heap v).length ≤ 3 := by
  have hchain : ∀ p tail,Delivers parsed.heap.length s owner p (uses parsed.heap v) tail →
      (∀d∈uses parsed.heap v,∃! bs,Path (cells parsed.heap.length g.heap) p bs d) ∧
        ∀ bs d,Path (cells parsed.heap.length g.heap) p bs d → d∈uses parsed.heap v := by
    intro p tail hdel
    rw [hg]
    exact ⟨Chain.path_unique hdel (nodup_uses _ _),fun bs d => Chain.path_mem hdel bs d⟩
  by_cases hlen : (uses parsed.heap v).length ≤ 2
  · refine iff_of_true ?_ (Or.inr (by omega))
    intro p hp
    exact hchain p p ((h.short hlen).2 p hp)
  · obtain hnil | ⟨init,last,hsplit⟩ := List.eq_nil_or_concat' (parsed.variableMap v)
    · refine iff_of_true ?_ (Or.inl (by simp [hnil]))
      intro p hp
      simp [hnil] at hp
    · obtain ⟨⟨tail,-,hlast⟩,hinit⟩ := h.long (by omega) init last hsplit
      constructor
      · -- a definition before the last one has no path to the fourth use
        intro hedges
        by_contra hmany
        rw [not_or] at hmany
        obtain ⟨p,init',rfl⟩ : ∃ p init',init=p::init' := by
          cases init with
          | nil => simp [hsplit] at hmany
          | cons p init' => exact ⟨p,init',rfl⟩
        have hlt : 3 < (uses parsed.heap v).length := by omega
        obtain ⟨t,ht⟩ := hinit p (by simp)
        obtain ⟨bs,hpath,-⟩ := (hedges p (by simp [hsplit])).1 _ (List.getElem_mem hlt)
        rw [hg] at hpath
        obtain ⟨i,hi,hget⟩ := List.mem_take_iff_getElem.mp (ht.path_mem bs _ hpath)
        have heq := (nodup_uses parsed.heap v).getElem_inj_iff.mp hget
        omega
      · intro hcond p hp
        rw [hsplit,List.mem_append,List.mem_singleton] at hp
        obtain hp | rfl := hp
        · have hlen3 : (uses parsed.heap v).length=3 := by
            obtain hone | hthree := hcond
            · rw [hsplit,List.length_append,List.length_singleton] at hone
              have hpos := List.length_pos_of_mem hp
              omega
            · omega
          obtain ⟨t,ht⟩ := hinit p hp
          rw [List.take_of_length_le (by omega)] at ht
          exact hchain p t ht
        · exact hchain _ tail hlast

theorem parse_edgeComplete_iff (input : List Name) (parsed : IrState) (g : Graph)
    (hread : readLines .empty input=.ok parsed) (hg : parseCreateIrGraph input=.ok g) (v : Name)
    (hv : IsVariable g.labels v) :
    EdgeComplete parsed g v ↔ definitionCount input v ≤ 1 ∨ useCount input v ≤ 3 := by
  obtain ⟨parsed',hread',-,hgraph⟩ := parse_cases input g hg
  obtain rfl : parsed'=parsed := Except.ok.inj (hread'.symm.trans hread)
  have hwell := readLines_wellRead _ _ input WellRead.empty hread
  obtain ⟨owner,hfixed⟩ := fixUp_fixedTo hwell
  have hlabels : g.labels=parsed'.labels := by rw [hgraph]; exact hfixed.labels
  obtain ⟨hdefs,huses⟩ := readLines_counts _ _ input hread v
  have hempty : (IrState.empty.variableMap v).length=0 ∧ (uses IrState.empty.heap v).length=0 :=
    ⟨rfl,rfl⟩
  rw [edgeComplete_iff g v (by rw [hgraph]) (hfixed.hooked v (hlabels ▸ hv)),hdefs,
    huses,hempty.1,hempty.2,Nat.zero_add,Nat.zero_add]

/-- The nodes behind those that were read are DUP nodes of the assembler. With paths through them,
the graph of a program has all edges of a variable, and no others from its definitions, exactly
when the variable has one definition at most or three uses at most. -/
theorem edge_completeness (input : List Name) (parsed : IrState) (g : Graph)
    (hread : readLines .empty input=.ok parsed) (hg : parseCreateIrGraph input=.ok g) :
    (∀ (id : Nat) (node : Node),parsed.heap.length ≤ id → g.heap[id]?=some node →
      node.opcode=.op .DUP ∧ node.optimizable=true) ∧
      ∀ v,IsVariable g.labels v →
        (EdgeComplete parsed g v ↔ definitionCount input v ≤ 1 ∨ useCount input v ≤ 3) :=
  ⟨parse_inserted input parsed g hread hg,
    fun v hv => parse_edgeComplete_iff input parsed g hread hg v hv⟩

/-- What an accepted program is read as, with a variable of it. -/
theorem accepted_variable (input : List Name) (v : Name) (hv : v ≠ ['_'])
    (h : (parseCreateIrGraph input).toOption.map (fun g => g.labels v)=some none) :
    ∃ parsed g,readLines .empty input=.ok parsed ∧ parseCreateIrGraph input=.ok g ∧
      IsVariable g.labels v := by
  cases hg : parseCreateIrGraph input with
  | error e => simp [hg,Except.toOption] at h
  | ok g =>
    obtain ⟨parsed,hread,-⟩ := parse_cases input g hg
    rw [hg] at h
    exact ⟨parsed,g,hread,rfl,hv,Option.some.inj h⟩

private def twoDefinitions (n : Nat) : List Name :=
  ["x = ADD 1 2".toList,"x = ADD 3 4".toList]++List.replicate n "OUTD x".toList

/-- Two definitions and three uses. -/
theorem edge_completeness_three_uses :
    ∃ parsed g,parseCreateIrGraph (twoDefinitions 3)=.ok g ∧ IsVariable g.labels ['x'] ∧
      EdgeComplete parsed g ['x'] := by
  obtain ⟨parsed,g,hread,hg,hv⟩ := accepted_variable (twoDefinitions 3) ['x'] (by decide)
    (by decide +kernel)
  exact ⟨parsed,g,hg,hv,((edge_completeness _ parsed g hread hg).2 ['x'] hv).mpr
    (Or.inr (by decide +kernel))⟩

/-- With a fourth use the first definition of x does not reach it. -/
theorem edge_missing_fourth_use :
    ¬∀ parsed g,readLines .empty (twoDefinitions 4)=.ok parsed →
      parseCreateIrGraph (twoDefinitions 4)=.ok g →
        ∀ v,IsVariable g.labels v → EdgeComplete parsed g v := by
  intro h
  obtain ⟨parsed,g,hread,hg,hv⟩ := accepted_variable (twoDefinitions 4) ['x'] (by decide)
    (by decide +kernel)
  have hcond := (parse_edgeComplete_iff _ parsed g hread hg ['x'] hv).mp (h parsed g hread hg _ hv)
  revert hcond
  decide +kernel

end Manchester.Assembler
