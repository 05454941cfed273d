import Manchester.Assembler.Graph
import Mathlib.Data.List.Nodup

namespace Manchester.Assembler

def Statement.definitions : Statement → List Name
  | .assign target _ _ _ => [target]
  | .branch trueOutput falseOutput _ _ _ => [trueOutput,falseOutput]
  | _ => []

def Statement.operands : Statement → List Arg
  | .assign _ _ input1 input2 => input1::input2.toList
  | .output _ input => [input]
  | .branch _ _ _ input test => input::test.toList
  | _ => []

def statements (input : List Name) : List Statement :=
  input.filterMap fun line => (decodeLine line).toOption

def definitionCount (input : List Name) (v : Name) : Nat :=
  ((statements input).flatMap Statement.definitions).count v

def useCount (input : List Name) (v : Name) : Nat :=
  ((statements input).flatMap Statement.operands).count (.str v)

/-- The operand positions of node n that name v. -/
def usesOf (heap : List Node) (v : Name) (n : Nat) : List Destination :=
  ([Input.INPUT_ONE,.INPUT_TWO].filter fun i =>
    (heap[n]?.bind fun node => node.input i)==some (.str v)).map fun i => ⟨n,i⟩

def uses (heap : List Node) (v : Name) : List Destination :=
  (List.range heap.length).flatMap (usesOf heap v)

theorem nodup_usesOf (heap : List Node) (v : Name) (n : Nat) : (usesOf heap v n).Nodup := by
  refine List.Nodup.map ?_ (List.Nodup.filter _ (by decide))
  intro i j h
  exact (Destination.mk.injEq _ _ _ _ ▸ h).2

theorem nodup_uses (heap : List Node) (v : Name) : (uses heap v).Nodup := by
  refine List.nodup_flatMap.mpr ⟨fun n _ => nodup_usesOf heap v n,?_⟩
  refine List.Pairwise.imp ?_ List.nodup_range
  intro n m hne d hn hm
  simp only [usesOf,List.mem_map] at hn hm
  obtain ⟨i,-,rfl⟩ := hn
  obtain ⟨j,-,h⟩ := hm
  exact hne (congrArg Destination.node h).symm

theorem uses_append (heap : List Node) (node : Node) (v : Name) :
    uses (heap++[node]) v=uses heap v++usesOf (heap++[node]) v heap.length := by
  have hold : ∀ n∈List.range heap.length,usesOf (heap++[node]) v n=usesOf heap v n := by
    intro n hn
    simp only [usesOf,List.getElem?_append_left (List.mem_range.mp hn)]
  rw [uses,List.length_append,List.length_singleton,List.range_succ,List.flatMap_append,
    List.flatMap_singleton,uses]
  congr 1
  exact List.flatMap_congr hold

/-- The operands of a node, in the order of its inputs. -/
def Node.operands (node : Node) : List Arg := node.input1.toList++node.input2.toList

theorem length_uses_append (heap : List Node) (node : Node) (v : Name) :
    (uses (heap++[node]) v).length=(uses heap v).length+node.operands.count (.str v) := by
  rw [uses_append,List.length_append,Nat.add_left_cancel_iff]
  obtain ⟨_,input1,input2,_,_,_⟩ := node
  cases input1 <;> cases input2 <;>
    simp [usesOf,Node.input,Node.operands,List.filter_cons,List.count_cons] <;>
    split_ifs <;> rfl

/-- Destinations, labels and definitions refer to nodes of the graph; a node defines one variable
at most, and once; its destinations are open. -/
structure WellRead (s : IrState) : Prop where
  targets : ∀ node∈s.heap,∀ d,node.destination1=some d ∨ node.destination2=some d →
    d.node < s.heap.length
  first : ∀ node∈s.heap,node.destination1=none → node.destination2=none
  labels : ∀ l id,s.labels l=some id → id < s.heap.length
  exports : ∀ e∈s.exports,(s.labels e).isSome
  defined : ∀ v,∀ p∈s.variableMap v,
    ∃ node,s.heap[p]?=some node ∧ node.destination1=none ∧ node.destination2=none
  nodup : ∀ v,(s.variableMap v).Nodup
  single : ∀ v w p,p∈s.variableMap v → p∈s.variableMap w → v=w

theorem WellRead.empty : WellRead .empty := by
  constructor <;> simp [IrState.empty]

theorem WellRead.lt {s : IrState} (h : WellRead s) (v : Name) (p : Nat)
    (hp : p∈s.variableMap v) : p < s.heap.length := by
  obtain ⟨node,hnode,-⟩ := h.defined v p hp
  exact (List.getElem?_eq_some_iff.mp hnode).1

theorem WellRead.addNode {s : IrState} (h : WellRead s) (node : Node)
    (hd : ∀ d,node.destination1=some d ∨ node.destination2=some d → d.node < s.heap.length)
    (hfirst : node.destination1=none → node.destination2=none) :
    WellRead (s.addNode node) where
  targets := by
    intro other hother d hdest
    have hlen : (s.addNode node).heap.length=s.heap.length+1 := by simp [IrState.addNode]
    rw [hlen]
    obtain hold | hnew := List.mem_append.mp hother
    · exact Nat.lt_succ_of_lt (h.targets other hold d hdest)
    · obtain rfl := List.mem_singleton.mp hnew
      exact Nat.lt_succ_of_lt (hd d hdest)
  first := by
    intro other hother
    obtain hold | hnew := List.mem_append.mp hother
    · exact h.first other hold
    · obtain rfl := List.mem_singleton.mp hnew
      exact hfirst
  labels := by
    intro l id hl
    have hlt := h.labels l id hl
    simp [IrState.addNode]
    omega
  exports := h.exports
  defined := by
    intro v p hp
    obtain ⟨other,hother,hopen⟩ := h.defined v p hp
    exact ⟨other,by rw [IrState.addNode,List.getElem?_append_left (h.lt v p hp),hother],hopen⟩
  nodup := h.nodup
  single := h.single

/-- The last node defines a variable if it does not define one yet. -/
theorem WellRead.defineLast {s : IrState} (h : WellRead s) (name : Name) (node : Node)
    (hlast : s.heap.getLast?=some node) (hopen : node.destination1=none ∧ node.destination2=none)
    (hnew : ∀ v,s.heap.length-1∉s.variableMap v) : WellRead (s.defineLast name) := by
  have hmem : ∀ v p,p∈(s.defineLast name).variableMap v →
      p∈s.variableMap v ∨ (v=name ∧ p=s.heap.length-1) := by
    intro v p hp
    by_cases hv : v=name
    · subst hv
      simpa [IrState.defineLast] using hp
    · simp only [IrState.defineLast,Function.update_of_ne hv] at hp
      exact Or.inl hp
  constructor
  · exact h.targets
  · exact h.first
  · exact h.labels
  · exact h.exports
  · intro v p hp
    obtain hold | ⟨-,rfl⟩ := hmem v p hp
    · exact h.defined v p hold
    · exact ⟨node,by rw [← hlast,List.getLast?_eq_getElem?]; rfl,hopen⟩
  · intro v
    by_cases hv : v=name
    · subst hv
      simp only [IrState.defineLast,Function.update_self]
      exact List.nodup_append'.mpr ⟨h.nodup v,by simp,by simpa using hnew v⟩
    · simp only [IrState.defineLast,Function.update_of_ne hv]
      exact h.nodup v
  · intro v w p hv hw
    obtain hv | ⟨hv,hpv⟩ := hmem v p hv
    · obtain hw | ⟨-,hpw⟩ := hmem w p hw
      · exact h.single v w p hv hw
      · exact absurd (hpw ▸ hv) (hnew v)
    · obtain hw | ⟨hw,-⟩ := hmem w p hw
      · exact absurd (hpv ▸ hw) (hnew w)
      · rw [hv,hw]

theorem WellRead.labelLast {s : IrState} (h : WellRead s) (hne : s.heap ≠ []) :
    WellRead s.labelLast := by
  have hpos : 0 < s.heap.length := List.length_pos_iff.mpr hne
  unfold IrState.labelLast
  split_ifs with hl
  · exact h
  · refine ⟨h.targets,h.first,?_,?_,h.defined,h.nodup,h.single⟩
    · intro l id hid
      by_cases heq : l=s.label
      · subst heq
        simp only [Function.update_self,Option.some.injEq] at hid
        change id < s.heap.length
        omega
      · simp only [Function.update_of_ne heq] at hid
        exact h.labels l id hid
    · intro e he
      by_cases heq : e=s.label
      · subst heq
        simp
      · simp only [Function.update_of_ne heq]
        exact h.exports e he

/-- A new node without destinations that defines a variable. -/
theorem WellRead.addDefinition {s : IrState} (h : WellRead s) (name : Name) (node : Node)
    (hopen : node.destination1=none ∧ node.destination2=none) :
    WellRead ((s.addNode node).defineLast name) := by
  refine (h.addNode node (by simp [hopen]) fun _ => hopen.2).defineLast name node
    (by simp [IrState.addNode]) hopen ?_
  intro v hv
  have hlt := h.lt v _ hv
  simp [IrState.addNode] at hlt

theorem readStatement_wellRead (s s' : IrState) (statement : Statement) (hs : WellRead s)
    (h : readStatement s statement=.ok s') : WellRead s' := by
  cases statement with
  | blank =>
    cases h
    exact hs
  | label name =>
    simp only [readStatement] at h
    split_ifs at h
    cases h
    exact ⟨hs.targets,hs.first,hs.labels,hs.exports,hs.defined,hs.nodup,hs.single⟩
  | exportSymbol name =>
    simp only [readStatement] at h
    split_ifs at h with hnone hmem
    · cases h
      exact hs
    · cases h
      refine ⟨hs.targets,hs.first,hs.labels,?_,hs.defined,hs.nodup,hs.single⟩
      intro e he
      obtain hold | hnew := List.mem_append.mp he
      · exact hs.exports e hold
      · obtain rfl := List.mem_singleton.mp hnew
        exact Option.isSome_iff_ne_none.mpr (by simpa using hnone)
  | externSymbol name =>
    cases h
    exact ⟨hs.targets,hs.first,hs.labels,hs.exports,hs.defined,hs.nodup,hs.single⟩
  | assign target opcode input1 input2 =>
    cases h
    apply (hs.addDefinition target _ ⟨rfl,rfl⟩).labelLast
    simp [IrState.defineLast,IrState.addNode]
  | output opcode input =>
    cases h
    exact (hs.addNode _ (by simp) fun _ => rfl).labelLast (by simp [IrState.addNode])
  | branch trueOutput falseOutput opcode input test =>
    cases h
    refine (WellRead.addNode ((hs.addDefinition trueOutput _ ⟨rfl,rfl⟩).addDefinition falseOutput _
      ⟨rfl,rfl⟩) _ ?_ (by simp)).labelLast (by simp [IrState.addNode])
    intro d hd
    simp only [Option.some.injEq] at hd
    obtain rfl | rfl := hd <;> simp [IrState.defineLast,IrState.addNode]
  | unprocessed =>
    cases h
    exact hs

theorem readLines_wellRead (s s' : IrState) (lines : List Name) (hs : WellRead s)
    (h : readLines s lines=.ok s') : WellRead s' := by
  induction lines generalizing s with
  | nil =>
    cases h
    exact hs
  | cons line lines ih =>
    simp only [readLines] at h
    split at h
    · cases h
    · split at h
      · cases h
      · rename_i mid hmid
        exact ih mid (readStatement_wellRead _ _ _ hs hmid) h

theorem readStatement_counts (s s' : IrState) (statement : Statement)
    (h : readStatement s statement=.ok s') (v : Name) :
    (s'.variableMap v).length=(s.variableMap v).length+statement.definitions.count v ∧
      (uses s'.heap v).length=(uses s.heap v).length+statement.operands.count (.str v) := by
  have hlabel : ∀ t : IrState,t.labelLast.variableMap=t.variableMap ∧ t.labelLast.heap=t.heap := by
    intro t
    unfold IrState.labelLast
    split_ifs <;> exact ⟨rfl,rfl⟩
  have hdefine : ∀ (t : IrState) (name : Name),((t.defineLast name).variableMap v).length=
      (t.variableMap v).length+[name].count v := by
    intro t name
    by_cases hv : v=name
    · subst hv
      simp [IrState.defineLast]
    · simp [IrState.defineLast,Function.update_of_ne hv,Ne.symm hv]
  have hadd : ∀ (t : IrState) (node : Node),(uses (t.addNode node).heap v).length=
      (uses t.heap v).length+node.operands.count (.str v) := fun t node =>
    length_uses_append t.heap node v
  cases statement with
  | assign target opcode input1 input2 =>
    cases h
    rw [(hlabel _).1,(hlabel _).2,hdefine]
    exact ⟨rfl,hadd s _⟩
  | output opcode input =>
    cases h
    rw [(hlabel _).1,(hlabel _).2]
    exact ⟨rfl,hadd s _⟩
  | branch trueOutput falseOutput opcode input test =>
    cases h
    rw [(hlabel _).1,(hlabel _).2]
    constructor
    · change ((IrState.defineLast _ falseOutput).variableMap v).length=_
      rw [hdefine]
      change ((IrState.defineLast _ trueOutput).variableMap v).length+_=_
      rw [hdefine]
      simp only [Statement.definitions,List.count_cons,List.count_nil]
      change (s.variableMap v).length+_+_=_
      omega
    · rw [hadd]
      change (uses (IrState.addNode _ _).heap v).length+_=_
      rw [hadd]
      change (uses (IrState.addNode _ _).heap v).length+_+_=_
      rw [hadd]
      rfl
  | blank | unprocessed | externSymbol name =>
    cases h
    exact ⟨rfl,rfl⟩
  | label name | exportSymbol name =>
    simp only [readStatement] at h
    split_ifs at h
    all_goals
      cases h
      exact ⟨rfl,rfl⟩

theorem readLines_counts (s s' : IrState) (lines : List Name) (h : readLines s lines=.ok s')
    (v : Name) :
    (s'.variableMap v).length=(s.variableMap v).length+definitionCount lines v ∧
      (uses s'.heap v).length=(uses s.heap v).length+useCount lines v := by
  induction lines generalizing s with
  | nil =>
    cases h
    exact ⟨rfl,rfl⟩
  | cons line lines ih =>
    simp only [readLines] at h
    split at h
    · cases h
    · rename_i statement hline
      split at h
      · cases h
      · rename_i mid hmid
        have hstatements : statements (line::lines)=statement::statements lines := by
          rw [statements,List.filterMap_cons,hline]
          rfl
        obtain ⟨hdef,huse⟩ := readStatement_counts _ _ _ hmid v
        obtain ⟨hdefs,huses⟩ := ih mid h
        simp only [definitionCount,useCount,hstatements,List.flatMap_cons,List.count_append] at *
        omega

end Manchester.Assembler
