import Manchester.Assembler.Emit
import Manchester.Assembler.Shape

namespace Manchester.Assembler

/-- The value of a destination once node j of `order` has index j. -/
def SlotValue (g : Graph) (order : List Nat) (slot : Option Destination) (value : Option Nat) :
    Prop :=
  match slot with
  | none => value=none
  | some d => ∃ node,g.heap[d.node]?=some node ∧
      if node.opcode=.OUTD then value=some outputdDestination
      else if node.opcode=.OUTS then value=some outputsDestination
      else ∃ j m,order[j]?=some d.node ∧ matchingFunction node=.ok m ∧
        value=some (createDestination j d.input.value m)

/-- The value of the first literal: a label stands for the destination of its node. -/
def LiteralValue (g : Graph) (order : List Nat) (input literal : Option Arg) : Prop :=
  match g.labelTarget input with
  | none => literal=input
  | some target => ∃ j,order[j]?=some target ∧
      literal=some (.int (createDestination j Input.INPUT_ONE.value matchingOne))

theorem getElem?_of_isPrefix {α : Type} {xs ys : List α} (h : xs <+: ys) {i : Nat} {x : α}
    (hx : xs[i]?=some x) : ys[i]?=some x := by
  obtain ⟨rest,rfl⟩ := h
  rw [List.getElem?_append_left (List.getElem?_eq_some_iff.mp hx).1,hx]

theorem SlotValue.mono {g : Graph} {order order' : List Nat} {slot : Option Destination}
    {value : Option Nat} (h : SlotValue g order slot value) (hpre : order <+: order') :
    SlotValue g order' slot value := by
  cases slot with
  | none => exact h
  | some d =>
    obtain ⟨node,hnode,hvalue⟩ := h
    refine ⟨node,hnode,?_⟩
    split_ifs at hvalue ⊢
    · exact hvalue
    · exact hvalue
    · obtain ⟨j,m,hj,hrest⟩ := hvalue
      exact ⟨j,m,getElem?_of_isPrefix hpre hj,hrest⟩

theorem LiteralValue.mono {g : Graph} {order order' : List Nat} {input literal : Option Arg}
    (h : LiteralValue g order input literal) (hpre : order <+: order') :
    LiteralValue g order' input literal := by
  unfold LiteralValue at h ⊢
  cases hl : g.labelTarget input with
  | none => simpa [hl] using h
  | some target =>
    rw [hl] at h
    obtain ⟨j,hj,hlit⟩ := h
    exact ⟨j,getElem?_of_isPrefix hpre hj,hlit⟩

structure EmittedAs (g : Graph) (order : List Nat) (node : Node) (inst : AsmInstruction) :
    Prop where
  opcode : inst.opcode=node.opcode
  slot1 : SlotValue g order node.destination1 inst.destination1
  slot2 : SlotValue g order node.destination2 inst.destination2
  literal1 : LiteralValue g order node.input1 inst.literal1
  literal2 : inst.literal2=node.input2

theorem EmittedAs.mono {g : Graph} {order order' : List Nat} {node : Node}
    {inst : AsmInstruction} (h : EmittedAs g order node inst) (hpre : order <+: order') :
    EmittedAs g order' node inst :=
  ⟨h.opcode,h.slot1.mono hpre,h.slot2.mono hpre,h.literal1.mono hpre,h.literal2⟩

/-- A table with the entries of each node, in the order of the instructions. -/
def perNode {α : Type} (g : Graph) (f : Nat → Nat → Node → List α) (order : List Nat) : List α :=
  order.zipIdx.flatMap fun p => match g.heap[p.1]? with
    | none => []
    | some node => f p.2 p.1 node

theorem perNode_append {α : Type} (g : Graph) (f : Nat → Nat → Node → List α) (order : List Nat)
    (id : Nat) (node : Node) (hnode : g.heap[id]?=some node) :
    perNode g f (order++[id])=perNode g f order++f order.length id node := by
  simp [perNode,List.zipIdx_append,hnode]

theorem mem_perNode {α : Type} (g : Graph) (f : Nat → Nat → Node → List α) (order : List Nat)
    (x : α) : x∈perNode g f order ↔
      ∃ k id node,order[k]?=some id ∧ g.heap[id]?=some node ∧ x∈f k id node := by
  simp only [perNode,List.mem_flatMap]
  constructor
  · intro ⟨⟨id,k⟩,hmem,hx⟩
    have hk := List.mem_zipIdx_iff_getElem?.mp hmem
    cases hnode : g.heap[id]? with
    | none => simp [hnode] at hx
    | some node => exact ⟨k,id,node,hk,hnode,by simpa [hnode] using hx⟩
  · intro ⟨k,id,node,hk,hnode,hx⟩
    exact ⟨(id,k),List.mem_zipIdx_iff_getElem?.mpr hk,by simpa [hnode] using hx⟩

def slotConstants (g : Graph) (k : Nat) (node : Node) (dest : DestSlot) : List UpdateEntry :=
  match node.slot dest with
  | none => []
  | some d => match g.heap[d.node]? with
    | none => []
    | some receiver => if receiver.opcode.isSpecial then [constantEntry k dest] else []

def constantsOf (g : Graph) (k _id : Nat) (node : Node) : List UpdateEntry :=
  slotConstants g k node .destination1++slotConstants g k node .destination2

def labelsOf (g : Graph) (k _id : Nat) (node : Node) : List UpdateEntry :=
  match g.labelTarget node.input1 with
  | none => []
  | some _ => [⟨k,false,false,true,false⟩]

def externsOf (g : Graph) (k id : Nat) (_node : Node) : List ExternalSymbol :=
  match g.nodesToExtern id with
  | none => []
  | some symbol => [⟨⟨k,true,false,false,false⟩,encode symbol⟩]

/-- The nodes `done` have been visited, and their instructions are final; the others in `order`
wait with an instruction that has no destinations yet. -/
structure Visited (g : Graph) (done : List Nat) (s : EmitState) : Prop where
  order : s.order=done++s.toVisit
  nodup : s.order.Nodup
  nodes : ∀id∈s.order,∃ node,g.heap[id]?=some node ∧ node.opcode.isSpecial=false
  length : s.instructions.length=s.order.length
  waiting : ∀ k id node,done.length ≤ k → s.order[k]?=some id → g.heap[id]?=some node →
    s.instructions[k]?=some (nodeToInstruction node)
  finished : ∀ k id node,k < done.length → s.order[k]?=some id → g.heap[id]?=some node →
    ∃ inst,s.instructions[k]?=some inst ∧ EmittedAs g s.order node inst
  constants : s.constants=perNode g (constantsOf g) done
  labels : s.labels=perNode g (labelsOf g) done
  externs : s.externalReferences=perNode g (externsOf g) done

/-- In the middle of a visit: the node `id` has been taken from the front, its instruction is
`inst`, and `c`, `l` and `e` have been added to the tables for it. -/
structure Visiting (g : Graph) (done : List Nat) (id : Nat) (inst : AsmInstruction)
    (c l : List UpdateEntry) (e : List ExternalSymbol) (s : EmitState) : Prop where
  order : s.order=done++id::s.toVisit
  nodup : s.order.Nodup
  nodes : ∀id∈s.order,∃ node,g.heap[id]?=some node ∧ node.opcode.isSpecial=false
  length : s.instructions.length=s.order.length
  waiting : ∀ k id node,done.length < k → s.order[k]?=some id → g.heap[id]?=some node →
    s.instructions[k]?=some (nodeToInstruction node)
  current : s.instructions[done.length]?=some inst
  finished : ∀ k id node,k < done.length → s.order[k]?=some id → g.heap[id]?=some node →
    ∃ inst,s.instructions[k]?=some inst ∧ EmittedAs g s.order node inst
  constants : s.constants=perNode g (constantsOf g) done++c
  labels : s.labels=perNode g (labelsOf g) done++l
  externs : s.externalReferences=perNode g (externsOf g) done++e

variable {g : Graph} {done : List Nat} {id : Nat} {inst : AsmInstruction}
  {c l : List UpdateEntry} {e : List ExternalSymbol} {s s' : EmitState}

theorem nodeToIdx_sound {s : EmitState} {id j : Nat} (h : s.nodeToIdx id=some j) :
    s.order[j]?=some id := by
  obtain ⟨hlt,hget,-⟩ := List.idxOf?_eq_some_iff.mp h
  rw [List.getElem?_eq_getElem hlt,hget]

theorem Visited.start {rest : List Nat} {node : Node} (h : Visited g done s)
    (hvisit : s.toVisit=id::rest) (hnode : g.heap[id]?=some node) :
    Visiting g done id (nodeToInstruction node) [] [] [] {s with toVisit := rest} := by
  have horder : s.order=done++id::rest := hvisit ▸ h.order
  refine ⟨horder,h.nodup,h.nodes,h.length,?_,?_,h.finished,by simp [h.constants],
    by simp [h.labels],by simp [h.externs]⟩
  · exact fun k id node hk => h.waiting k id node (Nat.le_of_lt hk)
  · exact h.waiting done.length id node (Nat.le_refl _) (by simp [horder]) hnode

/-- A new instruction for the current node. -/
theorem Visiting.modify (h : Visiting g done id inst c l e s)
    (f : AsmInstruction → AsmInstruction) (c' l' : List UpdateEntry) :
    Visiting g done id (f inst) (c++c') (l++l') e
      {s with
        instructions := s.instructions.modify done.length f
        constants := s.constants++c'
        labels := s.labels++l'} := by
  have hother : ∀ k,k ≠ done.length →
      (s.instructions.modify done.length f)[k]?=s.instructions[k]? :=
    fun k hk => List.getElem?_modify_ne f _ (Ne.symm hk)
  refine ⟨h.order,h.nodup,h.nodes,by rw [List.length_modify]; exact h.length,?_,?_,?_,
    by rw [h.constants,List.append_assoc],by rw [h.labels,List.append_assoc],h.externs⟩
  · intro k id node hk hid hnode
    rw [hother k (Nat.ne_of_gt hk)]
    exact h.waiting k id node hk hid hnode
  · rw [List.getElem?_modify,h.current]
    simp
  · intro k id node hk hid hnode
    rw [hother k (Nat.ne_of_lt hk)]
    exact h.finished k id node hk hid hnode

/-- The instructions from number n on are those of their nodes, without destinations. -/
def Waiting (g : Graph) (n : Nat) (s : EmitState) : Prop :=
  ∀ (k id : Nat) (node : Node),n ≤ k → s.order[k]?=some id → g.heap[id]?=some node →
    s.instructions[k]?=some (nodeToInstruction node)

theorem Waiting.add {n : Nat} (h : Waiting g n s) (hlen : s.instructions.length=s.order.length)
    (new : Nat) (node : Node) (hnode : g.heap[new]?=some node) :
    Waiting g n (s.add new node) := by
  intro k id other hk hid hother
  simp only [EmitState.add] at hid ⊢
  by_cases hkl : k < s.order.length
  · rw [List.getElem?_append_left hkl] at hid
    rw [List.getElem?_append_left (by omega)]
    exact h k id other hk hid hother
  · rw [List.getElem?_append_right (by omega)] at hid
    rw [List.getElem?_append_right (by omega),hlen]
    obtain ⟨hk0,rfl⟩ : k-s.order.length=0 ∧ new=id := by
      simpa [List.getElem?_singleton] using hid
    obtain rfl : node=other := Option.some.inj (hnode.symm.trans hother)
    rw [hk0]
    rfl

/-- A node that is seen for the first time is put behind the others. -/
theorem Visiting.add (h : Visiting g done id inst c l e s) (new : Nat) (node : Node)
    (hnew : new∉s.order) (hnode : g.heap[new]?=some node) (hop : node.opcode.isSpecial=false) :
    Visiting g done id inst c l e (s.add new node) := by
  have hlt : done.length < s.order.length := by rw [h.order]; simp
  have hold : ∀ k < s.order.length,(s.add new node).order[k]?=s.order[k]? ∧
      (s.add new node).instructions[k]?=s.instructions[k]? := by
    intro k hk
    exact ⟨List.getElem?_append_left hk,List.getElem?_append_left (by rw [h.length]; exact hk)⟩
  refine ⟨by simp [EmitState.add,h.order],?_,?_,by simp [EmitState.add,h.length],
    Waiting.add h.waiting h.length new node hnode,?_,?_,h.constants,h.labels,h.externs⟩
  · exact List.nodup_append'.mpr ⟨h.nodup,by simp,by simpa using hnew⟩
  · intro id hid
    obtain hid | hid := List.mem_append.mp hid
    · exact h.nodes id hid
    · obtain rfl := List.mem_singleton.mp hid
      exact ⟨node,hnode,hop⟩
  · rw [(hold _ hlt).2]
    exact h.current
  · intro k id other hk hid hother
    rw [(hold k (by omega)).1] at hid
    obtain ⟨i,hi,hemit⟩ := h.finished k id other hk hid hother
    exact ⟨i,by rw [(hold k (by omega)).2,hi],hemit.mono (List.prefix_append _ _)⟩

theorem visitLabel_visiting (h : Visiting g done id inst c l e s) (node : Node)
    (hliteral : inst.literal1=node.input1) (hs : visitLabel g s done.length node=.ok s') :
    ∃ literal,Visiting g done id {inst with literal1 := literal} c
      (l++labelsOf g done.length id node) e s' ∧
        LiteralValue g s'.order node.input1 literal ∧ s'.order=s.order := by
  unfold visitLabel at hs
  split_ifs at hs
  split at hs
  · rename_i hnone
    cases hs
    refine ⟨inst.literal1,?_,by simp [LiteralValue,hnone,hliteral],rfl⟩
    simpa [labelsOf,hnone] using h
  · rename_i target htarget
    split at hs
    · cases hs
    · rename_i t ht
      cases hs
      let addr : Arg := .int (Assembler.createDestination t Input.INPUT_ONE.value
        Assembler.matchingOne)
      refine ⟨some addr,?_,?_,rfl⟩
      · have hm := h.modify (fun inst => {inst with literal1 := some addr}) []
          [⟨done.length,false,false,true,false⟩]
        simpa [labelsOf,htarget] using hm
      · simp only [LiteralValue,htarget]
        exact ⟨t,nodeToIdx_sound ht,rfl⟩

/-- The instruction once a destination has its value. -/
def AsmInstruction.withSlot (inst : AsmInstruction) (dest : DestSlot) (value : Option Nat) :
    AsmInstruction :=
  match dest with
  | .destination1 => {inst with destination1 := value}
  | .destination2 => {inst with destination2 := value}

def AsmInstruction.slot (inst : AsmInstruction) : DestSlot → Option Nat
  | .destination1 => inst.destination1
  | .destination2 => inst.destination2

theorem setSlot_eq (inst : AsmInstruction) (dest : DestSlot) (value : Nat) :
    inst.setSlot value dest=inst.withSlot dest (some value) := by
  cases dest <;> rfl

theorem withSlot_self (inst : AsmInstruction) (dest : DestSlot) :
    inst.withSlot dest (inst.slot dest)=inst := by
  cases dest <;> rfl

theorem Visiting.setSlot (h : Visiting g done id inst c l e s) (dest : DestSlot) (value : Nat)
    (c' : List UpdateEntry) :
    Visiting g done id (inst.withSlot dest (some value)) (c++c') l e
      {s.setSlot done.length dest value with constants := s.constants++c'} := by
  have hm := h.modify (fun inst => inst.setSlot value dest) c' []
  simp only [setSlot_eq,List.append_nil] at hm
  simpa only [EmitState.setSlot,setSlot_eq] using hm

theorem Visiting.ensure (h : Visiting g done id inst c l e s) (new : Nat) (node : Node)
    (hnode : g.heap[new]?=some node) (hop : node.opcode.isSpecial=false) :
    Visiting g done id inst c l e (s.ensure new node) ∧ s.order <+: (s.ensure new node).order := by
  unfold EmitState.ensure
  split_ifs with hin
  · exact ⟨h,List.prefix_rfl⟩
  · exact ⟨h.add new node (by simpa using hin) hnode hop,List.prefix_append _ _⟩

theorem setAddress_visiting (h : Visiting g done id inst c l e s) (d : Destination)
    (dest : DestSlot) {receiver : Node} (hreceiver : g.heap[d.node]?=some receiver)
    (houtd : receiver.opcode ≠ .OUTD) (houts : receiver.opcode ≠ .OUTS)
    (hs : setAddress s done.length dest d receiver=.ok s') :
    ∃ value,Visiting g done id (inst.withSlot dest value) c l e s' ∧
      SlotValue g s'.order (some d) value ∧ s'.order=s.order := by
  unfold setAddress at hs
  split at hs
  · rename_i j m hj hm
    cases hs
    refine ⟨some (Assembler.createDestination j d.input.value m),?_,?_,rfl⟩
    · have hset := h.setSlot dest (Assembler.createDestination j d.input.value m) []
      rw [List.append_nil,List.append_nil] at hset
      exact hset
    · refine ⟨receiver,hreceiver,?_⟩
      rw [if_neg houtd,if_neg houts]
      exact ⟨j,m,nodeToIdx_sound hj,hm,rfl⟩
  · cases hs
  · cases hs

theorem visitSlot_visiting (h : Visiting g done id inst c l e s) (node : Node) (dest : DestSlot)
    (hslot : inst.slot dest=none) (hs : visitSlot g s done.length node dest=.ok s') :
    ∃ value,Visiting g done id (inst.withSlot dest value)
      (c++slotConstants g done.length node dest) l e s' ∧
        SlotValue g s'.order (node.slot dest) value ∧ s.order <+: s'.order := by
  unfold visitSlot at hs
  split at hs
  · rename_i hnone
    cases hs
    refine ⟨none,?_,by simp [hnone,SlotValue],List.prefix_rfl⟩
    rw [← hslot,withSlot_self]
    simpa [slotConstants,hnone] using h
  · rename_i d hd
    split at hs
    · cases hs
    · rename_i receiver hreceiver
      split_ifs at hs with houtd houts
      · cases hs
        refine ⟨some outputdDestination,?_,?_,List.prefix_rfl⟩
        · have hset := h.setSlot dest outputdDestination [constantEntry done.length dest]
          simpa [slotConstants,hd,hreceiver,houtd,Opcode.isSpecial] using hset
        · rw [hd]
          exact ⟨receiver,hreceiver,by rw [if_pos houtd]⟩
      · cases hs
        refine ⟨some outputsDestination,?_,?_,List.prefix_rfl⟩
        · have hset := h.setSlot dest outputsDestination [constantEntry done.length dest]
          simpa [slotConstants,hd,hreceiver,houts,Opcode.isSpecial] using hset
        · rw [hd]
          exact ⟨receiver,hreceiver,by rw [if_neg houtd,if_pos houts]⟩
      · -- an instruction, that may be new
        have hspecial : receiver.opcode.isSpecial=false := by
          simp [Opcode.isSpecial,houtd,houts]
        obtain ⟨hensure,hpre⟩ := h.ensure d.node receiver hreceiver hspecial
        obtain ⟨value,hset,hvalue,horder⟩ := setAddress_visiting hensure d dest hreceiver houtd
          houts hs
        refine ⟨value,?_,by rw [hd]; exact hvalue,horder ▸ hpre⟩
        simpa [slotConstants,hd,hreceiver,hspecial] using hset

theorem visitExtern_visiting (h : Visiting g done id inst c l [] s) (node : Node) :
    Visiting g done id inst c l (externsOf g done.length id node) (visitExtern g s done.length id) ∧
      (visitExtern g s done.length id).order=s.order := by
  unfold visitExtern externsOf
  cases g.nodesToExtern id with
  | none => exact ⟨h,rfl⟩
  | some symbol =>
    refine ⟨⟨h.order,h.nodup,h.nodes,h.length,h.waiting,h.current,h.finished,h.constants,h.labels,
      ?_⟩,rfl⟩
    simp only
    rw [h.externs,List.append_nil]

/-- The node that was visited joins those that are done. -/
theorem Visiting.finish {node : Node}
    (h : Visiting g done id inst (constantsOf g done.length id node)
      (labelsOf g done.length id node) (externsOf g done.length id node) s)
    (hnode : g.heap[id]?=some node) (hemit : EmittedAs g s.order node inst) :
    Visited g (done++[id]) s := by
  refine ⟨by simp [h.order],h.nodup,h.nodes,h.length,?_,?_,?_,?_,?_⟩
  · intro k other n hk
    rw [List.length_append,List.length_singleton] at hk
    exact h.waiting k other n (by omega)
  · intro k other n hk hother hn
    rw [List.length_append,List.length_singleton] at hk
    by_cases hlt : k < done.length
    · exact h.finished k other n hlt hother hn
    · obtain rfl : k=done.length := by omega
      have hid : id=other := by simpa [h.order] using hother
      subst hid
      obtain rfl : node=n := Option.some.inj (hnode.symm.trans hn)
      exact ⟨inst,h.current,hemit⟩
  · rw [perNode_append _ _ _ _ _ hnode,h.constants]
  · rw [perNode_append _ _ _ _ _ hnode,h.labels]
  · rw [perNode_append _ _ _ _ _ hnode,h.externs]

theorem visit_visited {rest : List Nat} (h : Visited g done s) (hvisit : s.toVisit=id::rest)
    (hs : visit g {s with toVisit := rest} id=.ok s') :
    Visited g (done++[id]) s' ∧ s.order <+: s'.order := by
  unfold visit at hs
  split at hs
  · rename_i node k hnode hk
    have hstart := h.start hvisit hnode
    have hidx : k=done.length := by
      have hget := nodeToIdx_sound hk
      have hlt := (List.getElem?_eq_some_iff.mp hget).1
      have hat : s.order[done.length]?=some id := by simp [h.order,hvisit]
      exact (List.getElem?_inj hlt h.nodup).mp (hget.trans hat.symm)
    subst hidx
    split_ifs at hs
    split at hs
    · cases hs
    · rename_i s1 hs1
      split at hs
      · cases hs
      · rename_i s2 hs2
        split at hs
        · cases hs
        · rename_i s3 hs3
          cases hs
          obtain ⟨literal,h1,hliteral,horder1⟩ := visitLabel_visiting hstart node rfl hs1
          obtain ⟨value1,h2,hvalue1,hpre2⟩ := visitSlot_visiting h1 node .destination1 rfl hs2
          obtain ⟨value2,h3,hvalue2,hpre3⟩ := visitSlot_visiting h2 node .destination2 rfl hs3
          obtain ⟨h4,horder⟩ := visitExtern_visiting h3 node
          have hpre : s.order <+: s3.order := horder1 ▸ hpre2.trans hpre3
          refine ⟨h4.finish hnode ⟨rfl,?_,?_,?_,rfl⟩,horder ▸ hpre⟩
          · exact horder ▸ hvalue1.mono hpre3
          · exact horder ▸ hvalue2
          · exact horder ▸ hliteral.mono (hpre2.trans hpre3)
  · cases hs

theorem visitAll_visited (fuel : Nat) (done : List Nat) (s s' : EmitState) (h : Visited g done s)
    (hs : visitAll g fuel s=some (.ok s')) :
    Visited g s'.order s' ∧ s.order <+: s'.order := by
  induction fuel generalizing done s with
  | zero =>
    unfold visitAll at hs
    split at hs
    · rename_i hnil
      cases hs
      have horder := h.order
      rw [hnil,List.append_nil] at horder
      exact ⟨by rwa [horder],List.prefix_rfl⟩
    · cases hs
  | succ fuel ih =>
    unfold visitAll at hs
    split at hs
    · rename_i hnil
      cases hs
      have horder := h.order
      rw [hnil,List.append_nil] at horder
      exact ⟨by rwa [horder],List.prefix_rfl⟩
    · rename_i id rest hvisit
      simp only at hs
      split at hs
      · cases hs
      · rename_i mid hmid
        obtain ⟨hvisited,hpre⟩ := visit_visited h hvisit hmid
        obtain ⟨hall,hpre'⟩ := ih _ mid hvisited hs
        exact ⟨hall,hpre.trans hpre'⟩

/-- A node is visited once, so there are no more rounds than nodes. -/
theorem visitAll_total (fuel : Nat) (done : List Nat) (s : EmitState) (h : Visited g done s)
    (hfuel : g.heap.length ≤ fuel+done.length) : (visitAll g fuel s).isSome := by
  induction fuel generalizing done s with
  | zero =>
    unfold visitAll
    split
    · rfl
    · rename_i id rest hvisit
      have hbound : s.order.length ≤ g.heap.length := by
        have hsub : s.order⊆List.range g.heap.length := by
          intro id hid
          obtain ⟨node,hnode,-⟩ := h.nodes id hid
          exact List.mem_range.mpr (List.getElem?_eq_some_iff.mp hnode).1
        simpa using h.nodup.length_le_of_subset hsub
      have hlen : s.order.length=done.length+(rest.length+1) := by simp [h.order,hvisit]
      omega
  | succ fuel ih =>
    unfold visitAll
    split
    · rfl
    · rename_i id rest hvisit
      simp only
      split
      · rfl
      · rename_i mid hmid
        refine ih _ mid (visit_visited h hvisit hmid).1 ?_
        rw [List.length_append,List.length_singleton]
        omega

/-- The tables of a graph: an instruction for every node that is not an output, final in all its
parts, and the entries that go with it. -/
structure EmittedGraph (g : Graph) (exportOrder : List Name) (e : Emitted) : Prop where
  nodup : e.order.Nodup
  covers : ∀id∈g.nodes,∀ node,g.heap[id]?=some node → node.opcode.isSpecial=false → id∈e.order
  nodes : ∀id∈e.order,∃ node,g.heap[id]?=some node ∧ node.opcode.isSpecial=false
  length : e.instructions.length=e.order.length
  instruction : ∀ (k id : Nat) (node : Node),e.order[k]?=some id → g.heap[id]?=some node →
    ∃ inst,e.instructions[k]?=some inst ∧ EmittedAs g e.order node inst
  constants : e.constants=perNode g (constantsOf g) e.order
  labels : e.labels=perNode g (labelsOf g) e.order
  externs : e.externalReferences=perNode g (externsOf g) e.order
  exports : ∀symbol∈exportOrder,∃ t target,g.labels symbol=some target ∧
    e.order[t]?=some target ∧
      ⟨createDestination t Input.INPUT_ONE.value matchingOne,encode symbol⟩∈e.exports

/-- Before the loop no node is done. -/
theorem Visited.addFirst {node : Node} (h : Visited g [] s) (hnew : id∉s.order)
    (hnode : g.heap[id]?=some node) (hop : node.opcode.isSpecial=false) :
    Visited g [] (s.add id node) := by
  refine ⟨by simp [EmitState.add,h.order],?_,?_,by simp [EmitState.add,h.length],
    Waiting.add h.waiting h.length id node hnode,by simp,h.constants,h.labels,h.externs⟩
  · exact List.nodup_append'.mpr ⟨h.nodup,by simp,by simpa using hnew⟩
  · intro x hx
    obtain hx | hx := List.mem_append.mp hx
    · exact h.nodes x hx
    · obtain rfl := List.mem_singleton.mp hx
      exact ⟨node,hnode,hop⟩

theorem initialState_visited (ids : List Nat) (s : EmitState) (h : Visited g [] s)
    (hnodup : ids.Nodup) (hnew : ∀id∈ids,id∉s.order) :
    Visited g [] (initialState g ids s) ∧ s.order <+: (initialState g ids s).order ∧
      ∀id∈ids,∀ node,g.heap[id]?=some node → node.opcode.isSpecial=false →
        id∈(initialState g ids s).order := by
  induction ids generalizing s with
  | nil => exact ⟨h,List.prefix_rfl,by simp⟩
  | cons id ids ih =>
    obtain ⟨hid,hnodup⟩ := List.nodup_cons.mp hnodup
    have hrest : ∀x∈ids,x∉s.order := fun x hx => hnew x (by simp [hx])
    cases hnode : g.heap[id]? with
    | none =>
      simp only [initialState,hnode]
      obtain ⟨hvis,hpre,hall⟩ := ih s h hnodup hrest
      refine ⟨hvis,hpre,?_⟩
      intro x hx node hget hop
      obtain rfl | hx := List.mem_cons.mp hx
      · simp [hnode] at hget
      · exact hall x hx node hget hop
    | some node =>
      simp only [initialState,hnode]
      split_ifs with hop
      · obtain ⟨hvis,hpre,hall⟩ := ih s h hnodup hrest
        refine ⟨hvis,hpre,?_⟩
        intro x hx other hget hother
        obtain rfl | hx := List.mem_cons.mp hx
        · obtain rfl : node=other := Option.some.inj (hnode.symm.trans hget)
          simp [hop] at hother
        · exact hall x hx other hget hother
      · have hadd := h.addFirst (hnew id (by simp)) hnode (by simpa using hop)
        have hnew' : ∀x∈ids,x∉(s.add id node).order := by
          intro x hx hmem
          obtain hmem | hmem := List.mem_append.mp hmem
          · exact hrest x hx hmem
          · exact hid (List.mem_singleton.mp hmem ▸ hx)
        obtain ⟨hvis,hpre,hall⟩ := ih _ hadd hnodup hnew'
        refine ⟨hvis,(List.prefix_append _ _).trans hpre,?_⟩
        intro x hx other hget hother
        obtain rfl | hx := List.mem_cons.mp hx
        · exact hpre.subset (by simp [EmitState.add])
        · exact hall x hx other hget hother

theorem emitExports_ok (symbols : List Name) (exports : List ExportedSymbol)
    (h : emitExports g s symbols=.ok exports) : ∀symbol∈symbols,∃ t target,
      g.labels symbol=some target ∧ s.order[t]?=some target ∧
        ⟨createDestination t Input.INPUT_ONE.value matchingOne,encode symbol⟩∈exports := by
  induction symbols generalizing exports with
  | nil => simp
  | cons symbol symbols ih =>
    simp only [emitExports] at h
    split at h
    · rename_i t rest ht hrest
      cases h
      obtain ⟨target,htarget,hidx⟩ := Option.bind_eq_some_iff.mp ht
      intro x hx
      obtain rfl | hx := List.mem_cons.mp hx
      · exact ⟨t,target,htarget,nodeToIdx_sound hidx,by simp⟩
      · obtain ⟨t',target',h1,h2,h3⟩ := ih rest hrest x hx
        exact ⟨t',target',h1,h2,by simp [h3]⟩
    · cases h
    · cases h

theorem Visited.empty (g : Graph) : Visited g [] .empty := by
  constructor <;> simp [EmitState.empty,perNode]

theorem graphToInstructions_emitted (exportOrder : List Name) (e : Emitted) (hg : WellFormed g)
    (h : graphToInstructions g exportOrder=some (.ok e)) : EmittedGraph g exportOrder e := by
  obtain ⟨hfirst,-,hcovers⟩ := initialState_visited g.nodes _ (Visited.empty g) hg.nodup
    (by simp [EmitState.empty])
  unfold graphToInstructions at h
  split at h
  · cases h
  · cases h
  · rename_i s hs
    split at h
    · cases h
    · rename_i exports hexports
      cases h
      obtain ⟨hvisited,hpre⟩ := visitAll_visited _ _ _ _ hfirst hs
      refine ⟨hvisited.nodup,?_,hvisited.nodes,hvisited.length,?_,hvisited.constants,
        hvisited.labels,hvisited.externs,emitExports_ok _ _ hexports⟩
      · intro id hid node hnode hop
        exact hpre.subset (hcovers id hid node hnode hop)
      · intro k id node hk
        exact hvisited.finished k id node (List.getElem?_eq_some_iff.mp hk).1 hk

/-- The loop of `graph_to_instructions` comes to an end. -/
theorem graphToInstructions_total (exportOrder : List Name) (hg : WellFormed g) :
    (graphToInstructions g exportOrder).isSome := by
  obtain ⟨hfirst,-,-⟩ := initialState_visited g.nodes _ (Visited.empty g) hg.nodup
    (by simp [EmitState.empty])
  have htotal := visitAll_total g.heap.length [] _ hfirst (by simp)
  unfold graphToInstructions
  obtain ⟨r,hr⟩ := Option.isSome_iff_exists.mp htotal
  rw [hr]
  cases r with
  | error e => rfl
  | ok s => cases hx : emitExports g s exportOrder <;> simp [hx]

end Manchester.Assembler
