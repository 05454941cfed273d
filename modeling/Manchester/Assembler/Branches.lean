import Manchester.Assembler.Shape
import Manchester.Assembler.Emit

namespace Manchester.Assembler

/-- The node that is made for each output of a branch line. -/
def outputNode : Node := dupNode none none

def IsOutput (heap : List Node) (id : Nat) : Prop := heap[id]?=some outputNode

/-- A node with a destination is that of a branch line: its outputs are the two nodes before it. -/
structure BranchRead (s : IrState) (done : List Statement) : Prop where
  outputs : ∀ (id : Nat) (node : Node),s.heap[id]?=some node → node.optimizable=true →
    node=outputNode
  edges : ∀ (p : Nat) (node : Node) (slot : DestSlot) (d : Destination),
    s.heap[p]?=some node → node.slot slot=some d →
      node.optimizable=false ∧ d.input=.INPUT_ONE ∧ IsOutput s.heap d.node ∧
      (slot=.destination1 → p=d.node+2 ∧ IsOutput s.heap (d.node+1)) ∧
      (slot=.destination2 → p=d.node+1)
  lines : ∀ (p : Nat) (node : Node) (slot : DestSlot) (d : Destination),
    s.heap[p]?=some node → node.slot slot=some d →
      ∃ t f input test,Statement.branch t f node.opcode input test∈done
  parent : ∀ id,IsOutput s.heap id →
    ∃ (p : Nat) (node : Node) (slot : DestSlot),s.heap[p]?=some node ∧
      node.slot slot=some ⟨id,.INPUT_ONE⟩
  defined : ∀ v,∀id∈s.variableMap v,IsOutput s.heap id →
    ∃ t f opcode input test,Statement.branch t f opcode input test∈done ∧ (v=t ∨ v=f)
  branches : ∀ t f opcode input test,Statement.branch t f opcode input test∈done → ∀ v,
    v=t ∨ v=f → ∃id∈s.variableMap v,IsOutput s.heap id
  externs : ∀ e,e∈s.externalReferences ↔ Statement.externSymbol e∈done
  labels : ∀ l id,s.labels l=some id →
    ∃ node : Node,s.heap[id]?=some node ∧ node.optimizable=false

theorem getElem?_append_cases {α : Type} {l m : List α} {i : Nat} {x : α}
    (h : (l++m)[i]?=some x) : l[i]?=some x ∨ ∃ k,i=l.length+k ∧ m[k]?=some x := by
  by_cases hi : i < l.length
  · exact Or.inl (by rwa [List.getElem?_append_left hi] at h)
  · rw [List.getElem?_append_right (by omega)] at h
    exact Or.inr ⟨i-l.length,by omega,h⟩

theorem IsOutput.append {heap : List Node} {id : Nat} (h : IsOutput heap id) (more : List Node) :
    IsOutput (heap++more) id := by
  have hlt := (List.getElem?_eq_some_iff.mp h).1
  rw [IsOutput,List.getElem?_append_left hlt]
  exact h

theorem BranchRead.empty : BranchRead .empty [] := by
  constructor <;> simp [IrState.empty,IsOutput]

theorem slot_outputNode (slot : DestSlot) : outputNode.slot slot=none := by
  cases slot <;> rfl

/-- A step that adds nodes which are no outputs and have no destinations. -/
theorem BranchRead.addPlain {s : IrState} {done : List Statement} (h : BranchRead s done)
    (node : Node) (hflag : node.optimizable=false)
    (hopen : ∀ slot,node.slot slot=none) : BranchRead (s.addNode node) done := by
  have hcases : ∀ (id : Nat) (other : Node),(s.addNode node).heap[id]?=some other →
      s.heap[id]?=some other ∨ other=node := by
    intro id other hother
    obtain hold | ⟨k,-,hk⟩ := getElem?_append_cases hother
    · exact Or.inl hold
    · exact Or.inr (List.mem_singleton.mp (List.mem_of_getElem? hk))
  have hkeep : ∀ id,IsOutput (s.addNode node).heap id ↔ IsOutput s.heap id := by
    intro id
    constructor
    · intro hid
      obtain hold | heq := hcases id _ hid
      · exact hold
      · rw [← heq] at hflag
        cases hflag
    · exact fun hid => hid.append [node]
  constructor
  · intro id other hother hopt
    obtain hold | rfl := hcases id other hother
    · exact h.outputs id other hold hopt
    · rw [hflag] at hopt
      cases hopt
  · intro p other slot d hother hd
    obtain hold | rfl := hcases p other hother
    · simp only [hkeep]
      exact h.edges p other slot d hold hd
    · rw [hopen slot] at hd
      cases hd
  · intro p other slot d hother hd
    obtain hold | rfl := hcases p other hother
    · exact h.lines p other slot d hold hd
    · rw [hopen slot] at hd
      cases hd
  · intro id hid
    obtain ⟨p,other,slot,hother,hd⟩ := h.parent id ((hkeep id).mp hid)
    have hlt := (List.getElem?_eq_some_iff.mp hother).1
    exact ⟨p,other,slot,by rw [IrState.addNode,List.getElem?_append_left hlt,hother],hd⟩
  · intro v id hid hout
    exact h.defined v id hid ((hkeep id).mp hout)
  · intro t f opcode input test hmem v hv
    obtain ⟨id,hid,hout⟩ := h.branches t f opcode input test hmem v hv
    exact ⟨id,hid,(hkeep id).mpr hout⟩
  · exact h.externs
  · intro l id hl
    obtain ⟨other,hother,hoff⟩ := h.labels l id hl
    have hlt := (List.getElem?_eq_some_iff.mp hother).1
    exact ⟨other,by rw [IrState.addNode,List.getElem?_append_left hlt,hother],hoff⟩

/-- The last node, no output, defines a variable. -/
theorem BranchRead.definePlain {s : IrState} {done : List Statement} (h : BranchRead s done)
    (name : Name) (hlast : ¬IsOutput s.heap (s.heap.length-1)) :
    BranchRead (s.defineLast name) done := by
  refine ⟨h.outputs,h.edges,h.lines,h.parent,?_,?_,h.externs,h.labels⟩
  · intro v id hid hout
    by_cases hv : v=name
    · subst hv
      simp only [IrState.defineLast,Function.update_self,List.mem_append,List.mem_singleton]
        at hid
      obtain hid | rfl := hid
      · exact h.defined v id hid hout
      · exact absurd hout hlast
    · simp only [IrState.defineLast,Function.update_of_ne hv] at hid
      exact h.defined v id hid hout
  · intro t f opcode input test hmem v hv
    obtain ⟨id,hid,hout⟩ := h.branches t f opcode input test hmem v hv
    refine ⟨id,?_,hout⟩
    by_cases hname : v=name
    · subst hname
      simp [IrState.defineLast,hid]
    · simpa [IrState.defineLast,Function.update_of_ne hname] using hid

theorem BranchRead.labelLast {s : IrState} {done : List Statement} (h : BranchRead s done)
    (node : Node) (hlast : s.heap[s.heap.length-1]?=some node) (hflag : node.optimizable=false) :
    BranchRead s.labelLast done := by
  unfold IrState.labelLast
  split_ifs with hl
  · exact h
  · refine ⟨h.outputs,h.edges,h.lines,h.parent,h.defined,h.branches,h.externs,?_⟩
    intro l id hid
    by_cases heq : l=s.label
    · subst heq
      simp only [Function.update_self,Option.some.injEq] at hid
      subst hid
      exact ⟨node,hlast,hflag⟩
    · simp only [Function.update_of_ne heq] at hid
      exact h.labels l id hid

/-- A statement that is no branch and no extern line. -/
theorem BranchRead.mono {s : IrState} {done : List Statement} (h : BranchRead s done)
    (statement : Statement)
    (hbranch : ∀ t f opcode input test,statement ≠ .branch t f opcode input test)
    (hsymbol : ∀ e,statement ≠ .externSymbol e) : BranchRead s (done++[statement]) := by
  refine ⟨h.outputs,h.edges,?_,h.parent,?_,?_,?_,h.labels⟩
  · intro p node slot d hnode hd
    obtain ⟨t,f,input,test,hmem⟩ := h.lines p node slot d hnode hd
    exact ⟨t,f,input,test,List.mem_append_left _ hmem⟩
  · intro v id hid hout
    obtain ⟨t,f,opcode,input,test,hmem,hv⟩ := h.defined v id hid hout
    exact ⟨t,f,opcode,input,test,List.mem_append_left _ hmem,hv⟩
  · intro t f opcode input test hmem
    obtain hmem | hmem := List.mem_append.mp hmem
    · exact h.branches t f opcode input test hmem
    · exact absurd (List.mem_singleton.mp hmem).symm (hbranch t f opcode input test)
  · intro e
    rw [h.externs e,List.mem_append,List.mem_singleton]
    constructor
    · exact Or.inl
    · intro hmem
      obtain hmem | hmem := hmem
      · exact hmem
      · exact absurd hmem.symm (hsymbol e)

/-- The state after a branch line, before its label is given away. -/
def IrState.addBranch (s : IrState) (t f : Name) (node : Node) : IrState :=
  ((((s.addNode outputNode).defineLast t).addNode outputNode).defineLast f).addNode node

theorem addBranch_heap (s : IrState) (t f : Name) (node : Node) :
    (s.addBranch t f node).heap=s.heap++[outputNode,outputNode,node] := by
  simp [IrState.addBranch,IrState.addNode,IrState.defineLast]

theorem mem_addBranch (s : IrState) (t f v : Name) (node : Node) (id : Nat) :
    id∈(s.addBranch t f node).variableMap v ↔
      id∈s.variableMap v ∨ (v=t ∧ id=s.heap.length) ∨ (v=f ∧ id=s.heap.length+1) := by
  have hdefine : ∀ (s : IrState) (name : Name),id∈(s.defineLast name).variableMap v ↔
      id∈s.variableMap v ∨ (v=name ∧ id=s.heap.length-1) := by
    intro s name
    by_cases hv : v=name
    · subst hv
      simp [IrState.defineLast]
    · simp [IrState.defineLast,hv]
  change id∈(IrState.defineLast _ f).variableMap v ↔ _
  rw [hdefine]
  change id∈(IrState.defineLast _ t).variableMap v ∨ _ ↔ _
  rw [hdefine]
  simp [IrState.addNode,IrState.defineLast,or_assoc]

section AddBranch

variable (s : IrState) (t f : Name) (node : Node)

/-- A node after a branch line is an old one, one of its two outputs, or the branch. -/
theorem addBranch_cases (id : Nat) (other : Node)
    (h : (s.addBranch t f node).heap[id]?=some other) :
    s.heap[id]?=some other ∨ ((id=s.heap.length ∨ id=s.heap.length+1) ∧ other=outputNode) ∨
      (id=s.heap.length+2 ∧ other=node) := by
  rw [addBranch_heap] at h
  obtain hold | ⟨k,rfl,hk⟩ := getElem?_append_cases h
  · exact Or.inl hold
  · match k,hk with
    | 0,hk => exact Or.inr (Or.inl ⟨Or.inl rfl,(Option.some.inj hk).symm⟩)
    | 1,hk => exact Or.inr (Or.inl ⟨Or.inr rfl,(Option.some.inj hk).symm⟩)
    | 2,hk => exact Or.inr (Or.inr ⟨rfl,(Option.some.inj hk).symm⟩)
    | k+3,hk => simp at hk

theorem addBranch_old {id : Nat} {other : Node} (h : s.heap[id]?=some other) :
    (s.addBranch t f node).heap[id]?=some other := by
  have hlt := (List.getElem?_eq_some_iff.mp h).1
  rw [addBranch_heap,List.getElem?_append_left hlt,h]

theorem addBranch_new :
    IsOutput (s.addBranch t f node).heap s.heap.length ∧
      IsOutput (s.addBranch t f node).heap (s.heap.length+1) ∧
      (s.addBranch t f node).heap[s.heap.length+2]?=some node := by
  refine ⟨?_,?_,?_⟩
  · rw [IsOutput,addBranch_heap,List.getElem?_append_right (Nat.le_refl _),Nat.sub_self]
    rfl
  · rw [IsOutput,addBranch_heap,List.getElem?_append_right (by omega),Nat.add_sub_cancel_left]
    rfl
  · rw [addBranch_heap,List.getElem?_append_right (by omega),Nat.add_sub_cancel_left]
    rfl

end AddBranch

theorem BranchRead.addBranch {s : IrState} {done : List Statement} (h : BranchRead s done)
    (hread : WellRead s) (t f : Name) (opcode : Opcode) (input : Arg) (test : Option Arg) :
    BranchRead (s.addBranch t f ⟨opcode,some input,test,some ⟨s.heap.length,.INPUT_ONE⟩,
        some ⟨s.heap.length+1,.INPUT_ONE⟩,false⟩)
      (done++[.branch t f opcode input test]) := by
  let node : Node := ⟨opcode,some input,test,some ⟨s.heap.length,.INPUT_ONE⟩,
    some ⟨s.heap.length+1,.INPUT_ONE⟩,false⟩
  have hcases := addBranch_cases s t f node
  have hold : ∀ {id : Nat} {other : Node},s.heap[id]?=some other →
      (s.addBranch t f node).heap[id]?=some other := addBranch_old s t f node
  obtain ⟨hfirst,hsecond,hlast⟩ := addBranch_new s t f node
  constructor
  · intro id other hother hopt
    obtain hother | ⟨-,hnew⟩ | ⟨-,rfl⟩ := hcases id other hother
    · exact h.outputs id other hother hopt
    · exact hnew
    · cases hopt
  · intro p other slot d hother hd
    obtain hother | ⟨-,rfl⟩ | ⟨rfl,rfl⟩ := hcases p other hother
    · obtain ⟨hflag,hinput,hout,h1,h2⟩ := h.edges p other slot d hother hd
      exact ⟨hflag,hinput,hold hout,fun hs => ⟨(h1 hs).1,hold (h1 hs).2⟩,h2⟩
    · rw [slot_outputNode] at hd
      cases hd
    · cases slot with
      | destination1 =>
        cases hd
        exact ⟨rfl,rfl,hfirst,fun _ => ⟨rfl,hsecond⟩,nofun⟩
      | destination2 =>
        cases hd
        exact ⟨rfl,rfl,hsecond,nofun,fun _ => rfl⟩
  · intro p other slot d hother hd
    obtain hother | ⟨-,rfl⟩ | ⟨-,rfl⟩ := hcases p other hother
    · obtain ⟨t',f',input',test',hmem⟩ := h.lines p other slot d hother hd
      exact ⟨t',f',input',test',List.mem_append_left _ hmem⟩
    · rw [slot_outputNode] at hd
      cases hd
    · exact ⟨t,f,input,test,by simp [node]⟩
  · intro id hid
    obtain hid | ⟨hid,-⟩ | ⟨-,hnew⟩ := hcases id _ hid
    · obtain ⟨p,other,slot,hother,hd⟩ := h.parent id hid
      exact ⟨p,other,slot,hold hother,hd⟩
    · obtain rfl | rfl := hid
      · exact ⟨_,node,.destination1,hlast,rfl⟩
      · exact ⟨_,node,.destination2,hlast,rfl⟩
    · exact absurd (congrArg Node.optimizable hnew) (by simp [node,outputNode,dupNode])
  · intro v id hid hout
    obtain hid | ⟨hv,-⟩ | ⟨hv,-⟩ := (mem_addBranch s t f v node id).mp hid
    · have hlt := hread.lt v id hid
      have hout' : IsOutput s.heap id := by
        rw [IsOutput,addBranch_heap,List.getElem?_append_left hlt] at hout
        exact hout
      obtain ⟨t',f',opcode',input',test',hmem,hv⟩ := h.defined v id hid hout'
      exact ⟨t',f',opcode',input',test',List.mem_append_left _ hmem,hv⟩
    · exact ⟨t,f,opcode,input,test,by simp,Or.inl hv⟩
    · exact ⟨t,f,opcode,input,test,by simp,Or.inr hv⟩
  · intro t' f' opcode' input' test' hmem v hv
    obtain hmem | hmem := List.mem_append.mp hmem
    · obtain ⟨id,hid,hout⟩ := h.branches t' f' opcode' input' test' hmem v hv
      exact ⟨id,(mem_addBranch s t f v node id).mpr (Or.inl hid),hold hout⟩
    · cases List.mem_singleton.mp hmem
      obtain hv | hv := hv
      · exact ⟨_,(mem_addBranch s t f v node _).mpr (Or.inr (Or.inl ⟨hv,rfl⟩)),hfirst⟩
      · exact ⟨_,(mem_addBranch s t f v node _).mpr (Or.inr (Or.inr ⟨hv,rfl⟩)),hsecond⟩
  · intro e
    rw [List.mem_append,← h.externs e]
    constructor
    · exact Or.inl
    · intro hmem
      obtain hmem | hmem := hmem
      · exact hmem
      · cases List.mem_singleton.mp hmem
  · intro l id hl
    obtain ⟨other,hother,hoff⟩ := h.labels l id hl
    exact ⟨other,hold hother,hoff⟩

theorem readStatement_branchRead (s s' : IrState) (statement : Statement)
    (done : List Statement) (hread : WellRead s) (hs : BranchRead s done)
    (h : readStatement s statement=.ok s') : BranchRead s' (done++[statement]) := by
  have hplain : ∀ slot (opcode : Opcode) input1 input2,
      (⟨opcode,input1,input2,none,none,false⟩ : Node).slot slot=none := by
    intro slot opcode input1 input2
    cases slot <;> rfl
  cases statement with
  | blank | unprocessed =>
    cases h
    exact hs.mono _ (by simp) (by simp)
  | label name =>
    simp only [readStatement] at h
    split_ifs at h
    cases h
    have hkeep := hs.mono (.label name) (by simp) (by simp)
    exact ⟨hkeep.outputs,hkeep.edges,hkeep.lines,hkeep.parent,hkeep.defined,hkeep.branches,
      hkeep.externs,hkeep.labels⟩
  | exportSymbol name =>
    simp only [readStatement] at h
    split_ifs at h
    all_goals
      cases h
      have hkeep := hs.mono (.exportSymbol name) (by simp) (by simp)
      exact ⟨hkeep.outputs,hkeep.edges,hkeep.lines,hkeep.parent,hkeep.defined,hkeep.branches,
        hkeep.externs,hkeep.labels⟩
  | externSymbol name =>
    cases h
    refine ⟨hs.outputs,hs.edges,?_,hs.parent,?_,?_,?_,hs.labels⟩
    · intro p node slot d hnode hd
      obtain ⟨t,f,input,test,hmem⟩ := hs.lines p node slot d hnode hd
      exact ⟨t,f,input,test,List.mem_append_left _ hmem⟩
    · intro v id hid hout
      obtain ⟨t,f,opcode,input,test,hmem,hv⟩ := hs.defined v id hid hout
      exact ⟨t,f,opcode,input,test,List.mem_append_left _ hmem,hv⟩
    · intro t f opcode input test hmem
      obtain hmem | hmem := List.mem_append.mp hmem
      · exact hs.branches t f opcode input test hmem
      · cases List.mem_singleton.mp hmem
    · intro e
      rw [List.mem_append,List.mem_singleton,← hs.externs e,Statement.externSymbol.injEq]
      dsimp only
      split_ifs with hmem
      · exact ⟨Or.inl,fun he => he.elim id fun he => he ▸ hmem⟩
      · rw [List.mem_append,List.mem_singleton]
  | assign target opcode input1 input2 =>
    cases h
    have hadd := (hs.addPlain ⟨opcode,some input1,input2,none,none,false⟩ rfl
      fun slot => hplain slot _ _ _).mono (.assign target opcode input1 input2) (by simp) (by simp)
    have hlast : (s.addNode ⟨opcode,some input1,input2,none,none,false⟩).heap[
        (s.addNode ⟨opcode,some input1,input2,none,none,false⟩).heap.length-1]?=
          some ⟨opcode,some input1,input2,none,none,false⟩ := by simp [IrState.addNode]
    refine (hadd.definePlain target ?_).labelLast _ hlast rfl
    rw [IsOutput,hlast]
    simp [outputNode,dupNode]
  | output opcode input =>
    cases h
    have hadd := (hs.addPlain ⟨opcode,some input,none,none,none,false⟩ rfl
      fun slot => hplain slot _ _ _).mono (.output opcode input) (by simp) (by simp)
    exact hadd.labelLast ⟨opcode,some input,none,none,none,false⟩ (by simp [IrState.addNode]) rfl
  | branch t f opcode input test =>
    cases h
    refine (hs.addBranch hread t f opcode input test).labelLast ⟨opcode,some input,test,
      some ⟨s.heap.length,.INPUT_ONE⟩,some ⟨s.heap.length+1,.INPUT_ONE⟩,false⟩ ?_ rfl
    simp [addBranch_heap]

theorem readLines_branchRead (s s' : IrState) (lines : List Name) (done : List Statement)
    (hread : WellRead s) (hs : BranchRead s done) (h : readLines s lines=.ok s') :
    BranchRead s' (done++statements lines) := by
  induction lines generalizing s done with
  | nil =>
    cases h
    simpa [statements] using hs
  | cons line lines ih =>
    simp only [readLines] at h
    split at h
    · cases h
    · rename_i statement hline
      split at h
      · cases h
      · rename_i mid hmid
        have hstatements : statements (line::lines)=statement::statements lines := by
          rw [statements,List.filterMap_cons,hline]
          rfl
        have hstep := ih mid (done++[statement]) (readStatement_wellRead _ _ _ hread hmid)
          (readStatement_branchRead _ _ _ done hread hs hmid) h
        rw [hstatements]
        simpa using hstep

def Opcode.choosesOutput (o : Opcode) : Bool := o==.op .BRR || o==.op .NTG

/-- The names of opcodes are in upper case, so that a name that is BRR in upper case is BRR. -/
theorem opcode_of_upper (o : Opcode) (h : upper o.repr=(Opcode.op .BRR).repr ∨
    upper o.repr=(Opcode.op .NTG).repr) : o.choosesOutput=true := by
  revert h
  have hall : ∀o∈Opcode.all,upper o.repr=(Opcode.op .BRR).repr ∨
      upper o.repr=(Opcode.op .NTG).repr → o.choosesOutput=true := by decide +kernel
  refine hall o ?_
  cases o with
  | OUTD | OUTS => decide
  | op o => cases o <;> decide

theorem decodeAssign_not_branch (args : List Name) (t f : Name) (opcode : Opcode) (i : Arg)
    (test : Option Arg) : decodeAssign args ≠ .ok (.branch t f opcode i test) := by
  unfold decodeAssign
  intro h
  split at h
  · split_ifs at h
    split at h
    · cases h
    · dsimp only at h
      split_ifs at h
      · split at h
        · cases h
        · split_ifs at h
          cases h
      · cases h
  · cases h

theorem decodeBranch_opcode (t f operation : Name) (rest : List Name) (statement : Statement)
    (h : decodeBranch t f operation rest=.ok statement)
    (hupper : upper operation=(Opcode.op .BRR).repr ∨ upper operation=(Opcode.op .NTG).repr)
    (t' f' : Name) (opcode : Opcode) (i : Arg) (test : Option Arg)
    (hs : statement=.branch t' f' opcode i test) : opcode.choosesOutput=true := by
  unfold decodeBranch at h
  split at h
  · cases h
  · dsimp only at h
    split at h
    · cases h
    · rename_i o ho
      have hname : o.repr=operation := by simpa using List.find?_some ho
      obtain rfl := Except.ok.inj h
      cases hs
      exact opcode_of_upper _ (by rwa [hname])

theorem decodeLine_branch (line : Name) (t f : Name) (opcode : Opcode) (i : Arg)
    (test : Option Arg) (h : decodeLine line=.ok (.branch t f opcode i test)) :
    opcode.choosesOutput=true := by
  unfold decodeLine at h
  dsimp only at h
  split_ifs at h
  · cases h
  · unfold decodeArgs at h
    split at h
    · cases h
    · split_ifs at h
      cases h
    · split_ifs at h
      · cases h
      · cases h
      · exact absurd h (decodeAssign_not_branch _ t f opcode i test)
      · split at h
        · cases h
        · cases h
      · split at h
        · split_ifs at h with hupper
          · exact decodeBranch_opcode _ _ _ _ _ h hupper t f opcode i test rfl
          · cases h
        · cases h

theorem statements_branch (input : List Name) (t f : Name) (opcode : Opcode) (i : Arg)
    (test : Option Arg) (h : Statement.branch t f opcode i test∈statements input) :
    opcode.choosesOutput=true := by
  obtain ⟨line,-,hline⟩ := List.mem_filterMap.mp h
  cases hdecode : decodeLine line with
  | error e => simp [hdecode,Except.toOption] at hline
  | ok statement =>
    rw [hdecode] at hline
    obtain rfl : statement=_ := Option.some.inj hline
    exact decodeLine_branch line t f opcode i test hdecode

end Manchester.Assembler
