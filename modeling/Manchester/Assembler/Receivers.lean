import Manchester.Assembler.Optimize
import Mathlib.Data.Set.Basic

namespace Manchester.Assembler

/-- What a result reaches in the end: an operand position, or an external symbol. -/
inductive Receiver where
  | operand (d : Destination)
  | symbol (name : Name)
  deriving DecidableEq, Repr

/-- A DUP node that may be optimized away hands on what it gets; it may be bound to symbols. -/
inductive Receives (g : Graph) : Destination → Receiver → Prop where
  | operand (d : Destination) (node : Node) (hnode : g.heap[d.node]?=some node)
    (hstop : node.forwards=false) : Receives g d (.operand d)
  | symbol (d : Destination) (node : Node) (e : Name) (ids : List Nat)
    (hnode : g.heap[d.node]?=some node) (hforwards : node.forwards=true)
    (he : (e,ids)∈g.externalReferences) (hid : d.node∈ids) : Receives g d (.symbol e)
  | forward (d : Destination) (node : Node) (slot : DestSlot) (next : Destination) (r : Receiver)
    (hnode : g.heap[d.node]?=some node) (hforwards : node.forwards=true)
    (hslot : node.slot slot=some next) (hr : Receives g next r) : Receives g d r

/-- The final receivers of an output slot. The loader writes a symbol that a node is bound to into
its first destination. -/
def slotReceivers (g : Graph) (id : Nat) (slot : DestSlot) : Set Receiver :=
  {r | (∃ (node : Node) (d : Destination),g.heap[id]?=some node ∧ node.slot slot=some d ∧
      Receives g d r) ∨
    (slot=.destination1 ∧ ∃ e ids,(e,ids)∈g.externalReferences ∧ id∈ids ∧ r=.symbol e)}

/-- No node that is left points at a node that is gone. -/
def NoDangling (g : Graph) : Prop :=
  ∀id∈g.nodes,∀ (node : Node) (slot : DestSlot) (d : Destination),g.heap[id]?=some node →
    node.slot slot=some d → d.node∈g.nodes

section Pass

variable {g : Graph}

def Graph.optimized (g : Graph) : Graph := g.without g.nodes.reverse

theorem Linear.gone (h : Linear g) (id : Nat) (hrem : g.removable id=true) :
    id∈g.nodes.reverse := by
  obtain ⟨node,hnode,-⟩ := (removable_iff g id).mp hrem
  rw [List.mem_reverse,h.nodes]
  exact (List.getElem?_eq_some_iff.mp hnode).1

theorem Linear.mem_optimized (h : Linear g) (id : Nat) :
    id∈g.optimized.nodes ↔ id < g.heap.length ∧ g.removable id=false := by
  change id∈g.nodes.filter _ ↔ _
  rw [List.mem_filter,h.nodes]
  simp only [Bool.not_eq_true',Bool.and_eq_false_iff,decide_eq_false_iff_not]
  constructor
  · intro ⟨hlt,hrem⟩
    obtain hrem | hrem := hrem
    · exact absurd (List.mem_reverse.mpr ((h.nodes id).mpr hlt)) hrem
    · exact ⟨hlt,hrem⟩
  · exact fun ⟨hlt,hrem⟩ => ⟨hlt,Or.inr hrem⟩

theorem optimized_heap (g : Graph) (id : Nat) :
    g.optimized.heap[id]?=g.heap[id]?.map (g.skipNode g.nodes.reverse) :=
  without_heap g _ id

theorem optimized_node {id : Nat} {node : Node} (hnode : g.heap[id]?=some node) :
    g.optimized.heap[id]?=some (g.skipNode g.nodes.reverse node) := by
  rw [optimized_heap,hnode]
  rfl

theorem Linear.skip_removable (h : Linear g) (d : Destination) (node : Node)
    (hrem : g.removable d.node=true) (hnode : g.heap[d.node]?=some node) :
    g.skip g.nodes.reverse (some d)=node.destination1 := by
  rw [skip_some,if_pos ⟨h.gone d.node hrem,hrem⟩,hnode]
  rfl

theorem skip_stays (d : Destination) (hstays : g.removable d.node=false) :
    g.skip g.nodes.reverse (some d)=some d := by
  rw [skip_some,if_neg fun hboth => by simp [hstays] at hboth]

theorem Linear.noDangling (h : Linear g)
    (htargets : ∀ node∈g.heap,∀ d,node.destination1=some d ∨ node.destination2=some d →
      d.node < g.heap.length) : NoDangling g.optimized := by
  have htarget : ∀ (id : Nat) (node : Node) (slot : DestSlot) (d : Destination),
      g.heap[id]?=some node → node.slot slot=some d → d.node < g.heap.length := by
    intro id node slot d hnode hd
    refine htargets node (List.mem_of_getElem? hnode) d ?_
    cases slot with
    | destination1 => exact Or.inl hd
    | destination2 => exact Or.inr hd
  intro id _ new slot d hnew hd
  rw [optimized_heap] at hnew
  obtain ⟨node,hnode,rfl⟩ := Option.map_eq_some_iff.mp hnew
  rw [slot_skipNode] at hd
  rw [h.mem_optimized]
  obtain ⟨hold,hgone⟩ | ⟨mid,other,-,hrem,-,hother,hd1⟩ := skip_cases g _ _ d hd
  · refine ⟨htarget id node slot d hnode hold,?_⟩
    by_contra hrem
    have hrem : g.removable d.node=true := by simpa using hrem
    exact hgone ⟨h.gone d.node hrem,hrem⟩
  · obtain ⟨other',hother',hforwards,-⟩ := (removable_iff g mid.node).mp hrem
    obtain rfl : other=other' := Option.some.inj (hother.symm.trans hother')
    exact ⟨htarget mid.node other .destination1 d hother hd1,
      h.next mid.node other .destination1 d hother hforwards hd1⟩

/-- What is received after the pass was received before it. -/
theorem receives_before {d : Destination} {r : Receiver}
    (hr : Receives g.optimized d r) : Receives g d r := by
  have hback : ∀ {id : Nat} {new : Node},g.optimized.heap[id]?=some new →
      ∃ node : Node,g.heap[id]?=some node ∧ new=g.skipNode g.nodes.reverse node := by
    intro id new hnew
    rw [optimized_heap] at hnew
    obtain ⟨node,hnode,heq⟩ := Option.map_eq_some_iff.mp hnew
    exact ⟨node,hnode,heq.symm⟩
  induction hr with
  | operand d new hnew hstop =>
    obtain ⟨node,hnode,rfl⟩ := hback hnew
    exact .operand d node hnode hstop
  | symbol d new e ids hnew hforwards he hid =>
    obtain ⟨node,hnode,rfl⟩ := hback hnew
    exact .symbol d node e ids hnode hforwards he hid
  | forward d new slot next r hnew hforwards hslot _ ih =>
    obtain ⟨node,hnode,rfl⟩ := hback hnew
    rw [slot_skipNode] at hslot
    obtain ⟨hold,-⟩ | ⟨mid,other,hmid,hrem,-,hother,hd1⟩ := skip_cases g _ _ next hslot
    · exact .forward d node slot next r hnode hforwards hold ih
    · obtain ⟨other',hother',hforwards',-⟩ := (removable_iff g mid.node).mp hrem
      obtain rfl : other=other' := Option.some.inj (hother.symm.trans hother')
      exact .forward d node slot mid r hnode hforwards hmid
        (.forward mid other .destination1 next r hother hforwards' hd1 ih)

/-- No symbol is bound to a node that goes. -/
def Unbound (g : Graph) : Prop :=
  ∀ e ids,(e,ids)∈g.externalReferences → ∀id∈ids,g.removable id=false

/-- What was received before the pass is received after it, where the pass has put the
destination of a node that is gone in the node's place. -/
theorem Linear.receives_after (h : Linear g) (hbound : Unbound g) {d : Destination}
    {r : Receiver} (hr : Receives g d r) :
    ∃ next,g.skip g.nodes.reverse (some d)=some next ∧ Receives g.optimized next r := by
  have hstay : ∀ {x : Destination} {r : Receiver},g.removable x.node=false →
      Receives g.optimized x r → ∃ next,g.skip g.nodes.reverse (some x)=some next ∧
        Receives g.optimized next r :=
    fun hstays hr => ⟨_,skip_stays _ hstays,hr⟩
  induction hr with
  | operand d node hnode hstop =>
    refine hstay ?_ (.operand d _ (optimized_node hnode) hstop)
    by_contra hrem
    obtain ⟨other,hother,hforwards,-⟩ := (removable_iff g d.node).mp (by simpa using hrem)
    obtain rfl : node=other := Option.some.inj (hnode.symm.trans hother)
    rw [hstop] at hforwards
    cases hforwards
  | symbol d node e ids hnode hforwards he hid =>
    exact hstay (hbound e ids he d.node hid)
      (.symbol d _ e ids (optimized_node hnode) hforwards he hid)
  | forward d node slot next r hnode hforwards hslot _ ih =>
    obtain ⟨final,hfinal,hr⟩ := ih
    have hnext := h.next d.node node slot next hnode hforwards hslot
    rw [skip_stays next hnext] at hfinal
    obtain rfl := Option.some.inj hfinal
    by_cases hrem : g.removable d.node=true
    · obtain ⟨other,hother,-,h2⟩ := (removable_iff g d.node).mp hrem
      obtain rfl : node=other := Option.some.inj (hnode.symm.trans hother)
      refine ⟨next,?_,hr⟩
      rw [h.skip_removable d node hrem hnode]
      cases slot with
      | destination1 => exact hslot
      | destination2 => simp [Node.slot,h2] at hslot
    · refine hstay (by simpa using hrem)
        (.forward d _ slot next r (optimized_node hnode) hforwards ?_ hr)
      rw [slot_skipNode,hslot,skip_stays next hnext]

/-- The receivers of every slot stay the same when no symbol is bound to a node that goes. -/
theorem Linear.slotReceivers_optimized (h : Linear g) (hbound : Unbound g) (id : Nat)
    (slot : DestSlot) : slotReceivers g id slot=slotReceivers g.optimized id slot := by
  ext r
  simp only [slotReceivers,Set.mem_ofPred_eq]
  apply or_congr_left
  constructor
  · intro ⟨node,d,hnode,hd,hr⟩
    obtain ⟨next,hnext,hr⟩ := h.receives_after hbound hr
    refine ⟨_,next,optimized_node hnode,?_,hr⟩
    rw [slot_skipNode,hd,hnext]
  · intro ⟨new,d,hnew,hd,hr⟩
    rw [optimized_heap] at hnew
    obtain ⟨node,hnode,rfl⟩ := Option.map_eq_some_iff.mp hnew
    rw [slot_skipNode] at hd
    have hr := receives_before hr
    obtain ⟨hold,-⟩ | ⟨mid,other,hmid,hrem,-,hother,hd1⟩ := skip_cases g _ _ d hd
    · exact ⟨node,d,hnode,hold,hr⟩
    · obtain ⟨other',hother',hforwards,-⟩ := (removable_iff g mid.node).mp hrem
      obtain rfl : other=other' := Option.some.inj (hother.symm.trans hother')
      exact ⟨node,mid,hnode,hmid,.forward mid other .destination1 d r hother hforwards hd1 hr⟩

end Pass

/-- No symbol that is declared external is an output of a branch line. -/
def ExternsApart (input : List Name) : Prop :=
  ∀ e t f opcode i test,Statement.externSymbol e∈statements input →
    Statement.branch t f opcode i test∈statements input → e ≠ t ∧ e ≠ f

section Bound

variable {input : List Name} {parsed : IrState} {g : Graph}

/-- The check on external symbols passes only if the loop gave their definitions no receiver. -/
theorem Parsed.bound (h : Parsed input parsed g) (e : Name) (ids : List Nat) :
    (e,ids)∈g.externalReferences ↔
      Statement.externSymbol e∈statements input ∧ ids=parsed.variableMap e := by
  have hmap : ∀e∈parsed.externalReferences,
      (fixUp parsed).variableMap e=parsed.variableMap e := by
    intro e he
    rw [← h.shape.externalReferences] at he
    obtain hsame | ⟨p,hp,node,hnode,hd⟩ := h.linked.maps e
    · exact hsame
    · have hall := List.all_eq_true.mp (List.all_eq_true.mp h.free e he) p hp
      rw [hnode] at hall
      exact absurd (eq_of_beq hall) hd
  rw [h.graph,← h.branches.externs e]
  simp only [List.mem_map,Prod.mk.injEq,h.shape.externalReferences]
  constructor
  · intro ⟨symbol,hsymbol,heq,hids⟩
    subst heq
    exact ⟨hsymbol,by rw [← hids,hmap symbol hsymbol]⟩
  · intro ⟨he,hids⟩
    exact ⟨e,he,rfl,by rw [hids,hmap e he]⟩

theorem Parsed.unbound_iff (h : Parsed input parsed g) (hg : WellFormed g) :
    Unbound g ↔ ExternsApart input := by
  constructor
  · intro hun e t f opcode i test he hbranch
    have hbound := (h.bound e _).mpr ⟨he,rfl⟩
    have hnot : ¬(e=t ∨ e=f) := by
      intro heq
      obtain ⟨id,hid,hout⟩ := h.branches.branches t f opcode i test hbranch e heq
      obtain ⟨node,hnode,hop,hopt,-⟩ := h.linked.kept id outputNode hout
      have hnode' : g.heap[id]?=some node := by rw [h.graph]; exact hnode
      have hrem : g.removable id=true := by
        rw [removable_iff]
        refine ⟨node,hnode',?_,(hg.bound e _ hbound id hid node hnode').2⟩
        simp [Node.forwards,hop,hopt,outputNode,dupNode]
      rw [hun e _ hbound id hid] at hrem
      cases hrem
    exact not_or.mp hnot
  · intro hapart e ids hmem id hid
    by_contra hrem
    obtain ⟨he,rfl⟩ := (h.bound e ids).mp hmem
    obtain ⟨t,f,opcode,i,test,hbranch,heq⟩ :=
      h.branches.defined e id hid (h.removable_output id (by simpa using hrem))
    obtain ⟨ht,hf⟩ := hapart e t f opcode i test he hbranch
    obtain heq | heq := heq
    · exact ht heq
    · exact hf heq

/-- A symbol that is bound to a node that goes is lost to the branch node before it. -/
theorem Parsed.bound_lost (h : Parsed input parsed g) (hg : WellFormed g) (hbound : ¬Unbound g) :
    ∃id∈g.optimized.nodes,∃ slot,slotReceivers g id slot ≠ slotReceivers g.optimized id slot := by
  obtain ⟨e,ids,hmem,id,hid,hrem⟩ : ∃ e ids,(e,ids)∈g.externalReferences ∧
      ∃id∈ids,g.removable id=true := by
    by_contra hnone
    apply hbound
    intro e ids hmem id hid
    by_contra hrem
    exact hnone ⟨e,ids,hmem,id,hid,by simpa using hrem⟩
  obtain ⟨node,hnode,hforwards,-⟩ := (removable_iff g id).mp hrem
  obtain ⟨p,parent,slot,hisbranch,hparent,hflag,hd,-⟩ :=
    h.linked.parent h.branches h.read id (h.removable_output id hrem)
  have hparent' : g.heap[p]?=some parent := by rw [h.graph]; exact hparent
  have hstays : g.removable p=false := by
    by_contra hp
    obtain ⟨other,hother,hforwards',-⟩ := (removable_iff g p).mp (by simpa using hp)
    obtain rfl : parent=other := Option.some.inj (hparent'.symm.trans hother)
    simp [Node.forwards,hflag] at hforwards'
  have hlt := (List.getElem?_eq_some_iff.mp hparent').1
  refine ⟨p,h.linear.mem_optimized p |>.mpr ⟨hlt,hstays⟩,slot,?_⟩
  intro hsame
  have hbefore : Receiver.symbol e∈slotReceivers g p slot :=
    Or.inl ⟨parent,_,hparent',hd,.symbol _ node e ids hnode hforwards hmem hid⟩
  rw [hsame] at hbefore
  obtain ⟨new,d,hnew,hslot,-⟩ | ⟨-,e',ids',hmem',hp,-⟩ := hbefore
  · rw [optimized_node hparent'] at hnew
    obtain rfl := Option.some.inj hnew
    rw [slot_skipNode,hd,h.linear.skip_removable ⟨id,.INPUT_ONE⟩ node hrem hnode,
      (hg.bound e ids hmem id hid node hnode).1] at hslot
    cases hslot
  · -- the branch node defines no variable
    obtain ⟨-,rfl⟩ := (h.bound e' ids').mp hmem'
    obtain ⟨old,hold,hopen,-⟩ := h.read.defined e' p hp
    obtain ⟨other,hother,hne⟩ := hisbranch
    obtain rfl : old=other := Option.some.inj (hold.symm.trans hother)
    exact hne hopen

end Bound

/-- The pass succeeds, leaves no edge to a node it takes out, and keeps the final receivers of
every slot exactly when no external symbol is an output of a branch line. -/
theorem optimize_graph_preserves (input : List Name) (g : Graph)
    (h : parseCreateIrGraph input=.ok g) :
    ∃ g',optimizeGraph g=.ok g' ∧ NoDangling g' ∧
      ((∀id∈g'.nodes,∀ slot,slotReceivers g id slot=slotReceivers g' id slot) ↔
        ExternsApart input) := by
  obtain ⟨parsed,hparsed⟩ := parse_parsed input g h
  have hwell := parse_wellFormed input g h
  refine ⟨g.optimized,optimizeGraph_without hparsed.linear,
    hparsed.linear.noDangling hwell.targets,?_⟩
  rw [← hparsed.unbound_iff hwell]
  constructor
  · intro hsame
    by_contra hbound
    obtain ⟨id,hid,slot,hne⟩ := hparsed.bound_lost hwell hbound
    exact hne (hsame id hid slot)
  · exact fun hbound id _ slot => hparsed.linear.slotReceivers_optimized hbound id slot

private def branchProgram (declared used : String) : List Name :=
  [("extern "++declared).toList,"a = ADD 1 2".toList,"t, f = BRR a a".toList,
    ("e = DUP "++used).toList,"OUTD t".toList]

/-- The output t goes to one receiver, so its node is taken out. -/
theorem optimize_graph_preserves_branch :
    ∃ g g',parseCreateIrGraph (branchProgram "e" "f")=.ok g ∧ optimizeGraph g=.ok g' ∧
      NoDangling g' ∧ ∀id∈g'.nodes,∀ slot,slotReceivers g id slot=slotReceivers g' id slot := by
  have hparse : (parseCreateIrGraph (branchProgram "e" "f")).toOption.isSome=true := by decide +kernel
  have hapart : ExternsApart (branchProgram "e" "f") := by
    intro e t f opcode i test he hbranch
    have hstatements : statements (branchProgram "e" "f")=
        [.externSymbol ['e'],.assign ['a'] (.op .ADD) (.int 1) (some (.int 2)),
          .branch ['t'] ['f'] (.op .BRR) (.str ['a']) (some (.str ['a'])),
          .assign ['e'] (.op .DUP) (.str ['f']) none,.output .OUTD (.str ['t'])] := by
      decide +kernel
    rw [hstatements] at he hbranch
    simp only [List.mem_cons,reduceCtorEq,Statement.externSymbol.injEq,Statement.branch.injEq,
      List.not_mem_nil,or_false,false_or] at he hbranch
    obtain ⟨rfl,rfl,-⟩ := hbranch
    subst he
    decide
  cases hg : parseCreateIrGraph (branchProgram "e" "f") with
  | error e => simp [hg,Except.toOption] at hparse
  | ok g =>
    obtain ⟨g',hg',hdangling,hiff⟩ := optimize_graph_preserves _ g hg
    exact ⟨g,g',rfl,hg',hdangling,hiff.mpr hapart⟩

/-- The output f is declared external: its node goes, and the symbol with it. -/
theorem optimize_graph_lost_symbol :
    ∃ g g',parseCreateIrGraph (branchProgram "f" "t")=.ok g ∧ optimizeGraph g=.ok g' ∧
      ∃id∈g'.nodes,∃ slot,slotReceivers g id slot ≠ slotReceivers g' id slot := by
  have hparse : (parseCreateIrGraph (branchProgram "f" "t")).toOption.isSome=true := by
    decide +kernel
  have hbound : ¬ExternsApart (branchProgram "f" "t") := by
    intro hapart
    refine (hapart ['f'] ['t'] ['f'] (.op .BRR) (.str ['a']) (some (.str ['a'])) ?_ ?_).2 rfl <;>
      decide +kernel
  cases hg : parseCreateIrGraph (branchProgram "f" "t") with
  | error e => simp [hg,Except.toOption] at hparse
  | ok g =>
    obtain ⟨parsed,hparsed⟩ := parse_parsed _ g hg
    have hwell := parse_wellFormed _ g hg
    exact ⟨g,g.optimized,rfl,optimizeGraph_without hparsed.linear,
      hparsed.bound_lost hwell fun hun => hbound ((hparsed.unbound_iff hwell).mp hun)⟩

end Manchester.Assembler
