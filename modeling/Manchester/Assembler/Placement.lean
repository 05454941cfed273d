import Manchester.Assembler.Receivers
import Manchester.Assembler.RoundTrip

namespace Manchester.Assembler

section Values

variable {input : List Name} {parsed : IrState} {g : Graph}

theorem Parsed.not_branch (h : Parsed input parsed g) {id : Nat} {node : Node}
    (hnode : g.heap[id]?=some node) (hop : node.opcode.choosesOutput=false) :
    ¬IsBranch parsed.heap id := by
  intro ⟨old,hold,hne⟩
  obtain ⟨d,hd⟩ := Option.ne_none_iff_exists'.mp hne
  obtain ⟨t,f,i,test,hmem⟩ := h.branches.lines id old .destination1 d hold hd
  obtain ⟨new,hnew,hsame,-⟩ := h.linked.kept id old hold
  rw [h.graph] at hnode
  obtain rfl : node=new := Option.some.inj (hnode.symm.trans hnew)
  rw [hsame,statements_branch input t f old.opcode i test hmem] at hop
  cases hop

/-- The pass leaves the edges of such a node alone, and fills them from the first. -/
theorem Parsed.value_node (h : Parsed input parsed g) {id : Nat} {node : Node}
    (hnode : g.optimized.heap[id]?=some node) (hop : node.opcode.choosesOutput=false) :
    g.heap[id]?=some node ∧ (node.destination1=none → node.destination2=none) := by
  rw [optimized_heap] at hnode
  obtain ⟨old,hold,rfl⟩ := Option.map_eq_some_iff.mp hnode
  have hnot := h.not_branch hold hop
  have hskip : ∀ slot,g.skip g.nodes.reverse (old.slot slot)=old.slot slot := by
    intro slot
    apply skip_keeps
    intro d hd
    right
    by_contra hrem
    have hout := h.removable_output d.node (by simpa using hrem)
    rw [h.graph] at hold
    obtain hused | hlink := h.linked.edges id old slot d hnot hold hd
    · exact hused.not_output hout
    · have hlt := (List.getElem?_eq_some_iff.mp hout).1
      have hge := hlink.2
      omega
  have hsame : g.skipNode g.nodes.reverse old=old := by
    have h1 := hskip .destination1
    have h2 := hskip .destination2
    simp only [Node.slot] at h1 h2
    simp only [Graph.skipNode,h1,h2]
  rw [hsame]
  refine ⟨hold,?_⟩
  rw [h.graph] at hold
  exact h.shape.first old (List.mem_of_getElem? hold)

end Values

def Graph.isInstruction (g : Graph) (id : Nat) : Bool :=
  (g.heap[id]?).any fun node => !node.opcode.isSpecial

/-- The nodes that become instructions, in their order. -/
def Graph.instructionNodes (g : Graph) : List Nat := g.nodes.filter g.isInstruction

section Order

variable {g : Graph} {s s' : EmitState}

theorem initialState_order (ids : List Nat) (s : EmitState) :
    (initialState g ids s).order=s.order++ids.filter g.isInstruction ∧
      (initialState g ids s).toVisit=s.toVisit++ids.filter g.isInstruction := by
  induction ids generalizing s with
  | nil => simp [initialState]
  | cons id ids ih =>
    cases hnode : g.heap[id]? with
    | none =>
      have hoff : g.isInstruction id=false := by simp [Graph.isInstruction,hnode]
      simp only [initialState,hnode,List.filter_cons,hoff]
      exact ih s
    | some node =>
      cases hop : node.opcode.isSpecial with
      | true =>
        have hoff : g.isInstruction id=false := by simp [Graph.isInstruction,hnode,hop]
        simp only [initialState,hnode,hop,List.filter_cons,hoff]
        exact ih s
      | false =>
        have hon : g.isInstruction id=true := by simp [Graph.isInstruction,hnode,hop]
        simp only [initialState,hnode,hop,List.filter_cons,hon]
        obtain ⟨horder,hvisit⟩ := ih (s.add id node)
        simp only [Bool.false_eq_true,if_false,if_true,horder,hvisit]
        simp [EmitState.add]

/-- The nodes that have been numbered are those with instructions. -/
def Numbered (g : Graph) (s : EmitState) : Prop :=
  s.order=g.instructionNodes ∧ s.toVisit⊆g.instructionNodes

theorem visitLabel_numbered {k : Nat} {node : Node} (h : Numbered g s)
    (hs : visitLabel g s k node=.ok s') : Numbered g s' := by
  unfold visitLabel at hs
  split_ifs at hs
  split at hs
  · cases hs
    exact h
  · split at hs
    · cases hs
    · cases hs
      exact h

theorem visitSlot_numbered {k id : Nat} {node : Node} {dest : DestSlot} (h : Numbered g s)
    (hdangling : NoDangling g) (hid : id∈g.nodes) (hnode : g.heap[id]?=some node)
    (hs : visitSlot g s k node dest=.ok s') : Numbered g s' := by
  unfold visitSlot at hs
  split at hs
  · cases hs
    exact h
  · rename_i d hd
    split at hs
    · cases hs
    · rename_i receiver hreceiver
      split_ifs at hs with houtd houts
      · cases hs
        exact h
      · cases hs
        exact h
      · -- the receiver has its number already
        have hmem : d.node∈s.order := by
          rw [h.1,Graph.instructionNodes,List.mem_filter]
          refine ⟨hdangling id hid node dest d hnode hd,?_⟩
          simp [Graph.isInstruction,hreceiver,Opcode.isSpecial,houtd,houts]
        have hensure : s.ensure d.node receiver=s := by
          unfold EmitState.ensure
          rw [if_pos (by simpa using hmem)]
        rw [hensure] at hs
        unfold setAddress at hs
        split at hs
        · cases hs
          exact h
        · cases hs
        · cases hs

theorem visit_numbered {id : Nat} (h : Numbered g s) (hdangling : NoDangling g)
    (hid : id∈g.nodes) (hs : visit g s id=.ok s') : Numbered g s' := by
  unfold visit at hs
  split at hs
  · rename_i node k hnode hk
    split_ifs at hs
    split at hs
    · cases hs
    · rename_i s1 hs1
      split at hs
      · cases hs
      · rename_i s2 hs2
        split at hs
        · cases hs
        · rename_i s3 hs3
          cases hs
          have h1 := visitLabel_numbered h hs1
          have h2 := visitSlot_numbered h1 hdangling hid hnode hs2
          have h3 := visitSlot_numbered h2 hdangling hid hnode hs3
          unfold visitExtern
          split
          · exact h3
          · exact h3
  · cases hs

theorem visitAll_numbered (fuel : Nat) (s : EmitState) (h : Numbered g s)
    (hdangling : NoDangling g) (hs : visitAll g fuel s=some (.ok s')) :
    s'.order=g.instructionNodes := by
  induction fuel generalizing s with
  | zero =>
    unfold visitAll at hs
    split at hs
    · cases hs
      exact h.1
    · cases hs
  | succ fuel ih =>
    unfold visitAll at hs
    split at hs
    · cases hs
      exact h.1
    · rename_i id rest hvisit
      simp only at hs
      split at hs
      · cases hs
      · rename_i mid hmid
        have hsub : id::rest⊆g.instructionNodes := hvisit ▸ h.2
        have hid : id∈g.nodes := List.mem_of_mem_filter (hsub (by simp))
        have hrest : Numbered g {s with toVisit := rest} :=
          ⟨h.1,fun x hx => hsub (by simp [hx])⟩
        exact ih mid (visit_numbered hrest hdangling hid hmid) hs

/-- Without an edge to a node that is gone, the instructions stand in the order of the nodes. -/
theorem graphToInstructions_order (exportOrder : List Name) (e : Emitted)
    (hdangling : NoDangling g) (h : graphToInstructions g exportOrder=some (.ok e)) :
    e.order=g.instructionNodes := by
  obtain ⟨horder,hvisit⟩ := initialState_order (g := g) g.nodes .empty
  have hstart : Numbered g (initialState g g.nodes .empty) := by
    constructor
    · rw [horder]
      rfl
    · rw [hvisit]
      exact fun x hx => hx
  unfold graphToInstructions at h
  split at h
  · cases h
  · cases h
  · rename_i s hs
    split at h
    · cases h
    · cases h
      exact visitAll_numbered _ _ hstart hdangling hs

/-- What the steps of the assembler know of each other: the graph that the emitter gets is the
one that was read, less what the pass takes out. -/
theorem parse_emitted {input : List Name} {parsed : Graph} {exportOrder : List Name} {e : Emitted}
    (hparse : parseCreateIrGraph input=.ok parsed) (hoptimize : optimizeGraph parsed=.ok g)
    (hemit : graphToInstructions g exportOrder=some (.ok e)) :
    ∃ read,readLines .empty input=.ok read ∧ Parsed input read parsed ∧ parsed.optimized=g ∧
      EmittedGraph g exportOrder e ∧ e.order=g.instructionNodes ∧ WellFormed g := by
  obtain ⟨read,hread,hparsed⟩ := parse_read input parsed hparse
  have hwell := parse_wellFormed input parsed hparse
  have hg : parsed.optimized=g :=
    Except.ok.inj ((optimizeGraph_without hparsed.linear).symm.trans hoptimize)
  have hwell' := optimizeGraph_wellFormed parsed g hwell hoptimize
  have hdangling : NoDangling g := hg ▸ hparsed.linear.noDangling hwell.targets
  exact ⟨read,hread,hparsed,hg,graphToInstructions_emitted exportOrder e hwell' hemit,
    graphToInstructions_order exportOrder e hdangling hemit,hwell'⟩

end Order

end Manchester.Assembler
