import Manchester.Assembler.Syntax
import Mathlib.Logic.Function.Basic

namespace Manchester.Assembler

inductive Input where
  | INPUT_ONE | INPUT_TWO
  deriving DecidableEq, Repr

def Input.value : Input → Nat
  | INPUT_ONE => 0
  | INPUT_TWO => 1

/-- `node` is the id of a node object. -/
structure Destination where
  node : Nat
  input : Input
  deriving DecidableEq, Repr

/-- A node object. Its id is its place in the heap. -/
structure Node where
  opcode : Opcode
  input1 : Option Arg
  input2 : Option Arg
  destination1 : Option Destination
  destination2 : Option Destination
  optimizable : Bool
  deriving DecidableEq, Repr

namespace Node

def input (node : Node) : Input → Option Arg
  | .INPUT_ONE => node.input1
  | .INPUT_TWO => node.input2

def clearInput (node : Node) : Input → Node
  | .INPUT_ONE => {node with input1 := none}
  | .INPUT_TWO => {node with input2 := none}

end Node

/-- The graph while it is read. Each node made so far is in the list of nodes at the index of its
id, so `heap` is that list; `variableMap` holds the indices of the nodes that define a variable.
The pending label is empty where the code has None. -/
structure IrState where
  heap : List Node
  labels : Name → Option Nat
  externalReferences : List Name
  exports : List Name
  variableMap : Name → List Nat
  label : Name

def IrState.empty : IrState := ⟨[],fun _ => none,[],[],fun _ => [],[]⟩

/-- The output and the two nodes of a branch line come in this order. -/
def dupNode (destination1 destination2 : Option Destination) : Node :=
  ⟨.op .DUP,none,none,destination1,destination2,true⟩

def IrState.addNode (s : IrState) (node : Node) : IrState := {s with heap := s.heap++[node]}

/-- `variables[name].append` of the last node. -/
def IrState.defineLast (s : IrState) (name : Name) : IrState :=
  {s with variableMap :=
    Function.update s.variableMap name (s.variableMap name++[s.heap.length-1])}

/-- A pending label is given to the last node. -/
def IrState.labelLast (s : IrState) : IrState :=
  if s.label=[] then s
  else {s with labels := Function.update s.labels s.label (some (s.heap.length-1)),label := []}

/-- One round of the loop over the lines. -/
def readStatement (s : IrState) : Statement → Except AsmError IrState
  | .blank => .ok s
  | .label name =>
    if s.label ≠ [] then .error .labelPending
    else if (s.labels name).isSome then .error .labelDefined
    else .ok {s with label := name}
  | .exportSymbol name =>
    if (s.labels name).isNone then .error .exportUndefined
    else .ok {s with exports := if name∈s.exports then s.exports else s.exports++[name]}
  | .externSymbol name =>
    -- the entry is set to the empty list, which it is until all lines are read
    .ok {s with externalReferences :=
      if name∈s.externalReferences then s.externalReferences else s.externalReferences++[name]}
  | .assign target opcode input1 input2 =>
    .ok ((s.addNode ⟨opcode,some input1,input2,none,none,false⟩).defineLast target).labelLast
  | .output opcode input =>
    .ok (s.addNode ⟨opcode,some input,none,none,none,false⟩).labelLast
  | .branch trueOutput falseOutput opcode input test =>
    let trueBranch := s.heap.length
    let falseBranch := trueBranch+1
    let s := (s.addNode (dupNode none none)).defineLast trueOutput
    let s := (s.addNode (dupNode none none)).defineLast falseOutput
    .ok (s.addNode ⟨opcode,some input,test,some ⟨trueBranch,.INPUT_ONE⟩,
      some ⟨falseBranch,.INPUT_ONE⟩,false⟩).labelLast
  -- the code logs that it is unable to process the line, and goes on
  | .unprocessed => .ok s

def readLines : IrState → List Name → Except AsmError IrState
  | s,[] => .ok s
  | s,line::lines =>
    match decodeLine line with
    | .error e => .error e
    | .ok statement =>
      match readStatement s statement with
      | .error e => .error e
      | .ok s' => readLines s' lines

/-- `node` becomes a receiver of the parent p. A parent without an open spot gets a DUP node,
which takes over its second destination and replaces every producer of the variable. -/
def connect (name : Name) (receiver : Destination) (s : IrState) (p : Nat) : IrState :=
  match s.heap[p]? with
  | none => s
  | some parent =>
    if parent.destination1=none then
      {s with heap := s.heap.set p {parent with destination1 := some receiver}}
    else if parent.destination2=none then
      {s with heap := s.heap.set p {parent with destination2 := some receiver}}
    else
      let newDup := s.heap.length
      {s with
        heap := s.heap.set p {parent with destination2 := some ⟨newDup,.INPUT_ONE⟩}++
          [dupNode parent.destination2 (some receiver)]
        variableMap := Function.update s.variableMap name [newDup]}

/-- The loop over the producers runs over the list as it was when the loop began. -/
def hookUp (s : IrState) (name : Name) (receiver : Destination) : IrState :=
  (s.variableMap name).foldl (connect name receiver) s

def clearInput (s : IrState) (node : Nat) (input : Input) : IrState :=
  {s with heap := s.heap.modify node fun n => n.clearInput input}

def fixInput (s : IrState) (node : Nat) (input : Input) : IrState :=
  match s.heap[node]?.bind fun n => n.input input with
  | some (.str name) =>
    if name=['_'] then clearInput s node input
    else if (s.labels name).isSome then s
    else hookUp (clearInput s node input) name ⟨node,input⟩
  | _ => s

/-- A literal that is left beside an incoming edge moves to the first input. -/
def moveLiteral (node : Node) : Node :=
  if node.opcode.numInputs=2 ∧ node.input1=none ∧ node.input2 ≠ none then
    {node with input1 := node.input2,input2 := none}
  else node

def fixNode (s : IrState) (node : Nat) : IrState :=
  let s := fixInput (fixInput s node .INPUT_ONE) node .INPUT_TWO
  {s with heap := s.heap.modify node moveLiteral}

/-- A DUP node that is added while the loop runs has no inputs, and its own round does
nothing. -/
def fixUp (s : IrState) : IrState := (List.range s.heap.length).foldl fixNode s

structure Graph where
  heap : List Node
  nodes : List Nat
  labels : Name → Option Nat
  externalReferences : List (Name × List Nat)
  exports : List Name

/-- The check on the nodes that an external symbol is bound to. -/
def externFree (s : IrState) : Bool :=
  s.externalReferences.all fun symbol => (s.variableMap symbol).all fun idx =>
    match s.heap[idx]? with
    | none => false
    | some node => node.destination1==none

def parseCreateIrGraph (input : List Name) : Except AsmError Graph :=
  match readLines .empty input with
  | .error e => .error e
  | .ok parsed =>
    let s := fixUp parsed
    if externFree s then
      .ok ⟨s.heap,List.range s.heap.length,s.labels,
        s.externalReferences.map fun symbol => (symbol,s.variableMap symbol),s.exports⟩
    else .error .assertionError

/-- `parents[id]`, as it is collected before the pass. -/
def Graph.parents (g : Graph) (id : Nat) : List Nat :=
  g.nodes.flatMap fun n => match g.heap[n]? with
    | none => []
    | some node =>
      (if node.destination1.map Destination.node=some id then [n] else [])++
        (if node.destination2.map Destination.node=some id then [n] else [])

def optimizeNode (parents : Nat → List Nat) (g : Graph) (id : Nat) : Except AsmError Graph :=
  match g.heap[id]?,parents id with
  | some node,[p] =>
    if node.opcode=.op .DUP ∧ node.destination2=none ∧ node.optimizable then
      match g.heap[p]? with
      | none => .error .keyError
      | some parent =>
        if parent.destination1.map Destination.node=some id then
          .ok {g with
            heap := g.heap.set p {parent with destination1 := node.destination1}
            nodes := g.nodes.erase id}
        else if parent.destination2.map Destination.node=some id then
          .ok {g with
            heap := g.heap.set p {parent with destination2 := node.destination1}
            nodes := g.nodes.erase id}
        else .error .assertionError
    else .ok g
  | _,_ => .ok g

def optimizeNodes (parents : Nat → List Nat) : Graph → List Nat → Except AsmError Graph
  | g,[] => .ok g
  | g,id::ids =>
    match optimizeNode parents g id with
    | .error e => .error e
    | .ok g' => optimizeNodes parents g' ids

def optimizeGraph (g : Graph) : Except AsmError Graph := optimizeNodes g.parents g g.nodes

end Manchester.Assembler
