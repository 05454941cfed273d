import Manchester.Assembler.Graph
import Manchester.Loader.Sephi

namespace Manchester.Assembler

/-- An instruction while destinations are filled in. A literal that is still a string is a label
that has not been replaced. -/
structure AsmInstruction where
  opcode : Opcode
  destination1 : Option Nat
  destination2 : Option Nat
  literal1 : Option Arg
  literal2 : Option Arg
  deriving DecidableEq, Repr

structure UpdateEntry where
  instructionNum : Nat
  isFirstDestination : Bool
  isSecondDestination : Bool
  isFirstLiteral : Bool
  isSecondLiteral : Bool
  deriving DecidableEq, Repr

def UpdateEntry.combineFlags (e : UpdateEntry) : Nat :=
  e.isFirstDestination.toNat ||| 2*e.isSecondDestination.toNat ||| 4*e.isFirstLiteral.toNat |||
    8*e.isSecondLiteral.toNat

structure ExternalSymbol where
  destinationToUpdate : UpdateEntry
  name : List UInt8
  deriving DecidableEq, Repr

structure ExportedSymbol where
  destination : Nat
  name : List UInt8
  deriving DecidableEq, Repr

def createDestination (addr input matching : Nat) : Nat :=
  ((((addr <<< 1) ^^^ input) <<< 3) ^^^ matching)%2^32

def matchingOne : Nat := 0
def matchingBoth : Nat := 1
def matchingAny : Nat := 2

def outputdDestination : Nat := createDestination (2^28-1) Input.INPUT_ONE.value matchingOne
def outputsDestination : Nat := createDestination (2^28-2) Input.INPUT_ONE.value matchingOne
def devNullDestination : Nat := createDestination (2^28-5) Input.INPUT_ONE.value matchingOne

/-- `str.encode`. -/
def encode (name : Name) : List UInt8 := name.flatMap String.utf8EncodeChar

/-- The second assertion on a destination node reads its inputs as truth values: the literal 0 is
false. -/
def truthy : Option Arg → Bool
  | none => false
  | some (.int value) => value != 0
  | some (.str name) => !name.isEmpty

/-- The state of the loop over `to_visit`. The index of a node is its place in `order`: a node gets
its index when its instruction is put behind the others. -/
structure EmitState where
  instructions : List AsmInstruction
  order : List Nat
  toVisit : List Nat
  constants : List UpdateEntry
  labels : List UpdateEntry
  externalReferences : List ExternalSymbol
  deriving DecidableEq, Repr

def EmitState.empty : EmitState := ⟨[],[],[],[],[],[]⟩

def nodeToInstruction (node : Node) : AsmInstruction :=
  ⟨node.opcode,none,none,node.input1,node.input2⟩

def EmitState.nodeToIdx (s : EmitState) (id : Nat) : Option Nat := s.order.idxOf? id

def EmitState.add (s : EmitState) (id : Nat) (node : Node) : EmitState :=
  {s with
    instructions := s.instructions++[nodeToInstruction node]
    order := s.order++[id]
    toVisit := s.toVisit++[id]}

/-- The last symbol that lists the node. -/
def Graph.nodesToExtern (g : Graph) (id : Nat) : Option Name :=
  (g.externalReferences.filter fun e => e.2.contains id).getLast?.map Prod.fst

/-- The node that an input names, if the input is a label. -/
def Graph.labelTarget (g : Graph) : Option Arg → Option Nat
  | some (.str label) => g.labels label
  | _ => none

def initialState (g : Graph) : List Nat → EmitState → EmitState
  | [],s => s
  | id::ids,s =>
    match g.heap[id]? with
    | none => initialState g ids s
    | some node =>
      if node.opcode.isSpecial then initialState g ids s else initialState g ids (s.add id node)

/-- How the machine is to match the tokens for a node. -/
def matchingFunction (node : Node) : Except AsmError Nat :=
  if node.opcode.numInputs=1 then .ok matchingOne
  else if node.opcode.numInputs=2 then
    if truthy node.input1 && truthy node.input2 then .error .assertionError
    else if node.opcode=.op .MER then .ok matchingAny
    else if node.input1 ≠ none then .ok matchingOne
    else .ok matchingBoth
  else .error .assertionError

/-- The first literal of instruction k, when it is a label. -/
def visitLabel (g : Graph) (s : EmitState) (k : Nat) (node : Node) : Except AsmError EmitState :=
  if (g.labelTarget node.input2).isSome then .error .assertionError
  else match g.labelTarget node.input1 with
    | none => .ok s
    | some target =>
      match s.nodeToIdx target with
      | none => .error .keyError
      | some t =>
        let inputAddr := createDestination t Input.INPUT_ONE.value matchingOne
        .ok {s with
          instructions := s.instructions.modify k fun inst =>
            {inst with literal1 := some (.int inputAddr)}
          labels := s.labels++[⟨k,false,false,true,false⟩]}

inductive DestSlot where
  | destination1 | destination2
  deriving DecidableEq, Repr

def Node.slot (node : Node) : DestSlot → Option Destination
  | .destination1 => node.destination1
  | .destination2 => node.destination2

def AsmInstruction.setSlot (inst : AsmInstruction) (value : Nat) : DestSlot → AsmInstruction
  | .destination1 => {inst with destination1 := some value}
  | .destination2 => {inst with destination2 := some value}

def constantEntry (k : Nat) (dest : DestSlot) : UpdateEntry :=
  ⟨k,dest=.destination1,dest=.destination2,false,false⟩

def EmitState.setSlot (s : EmitState) (k : Nat) (dest : DestSlot) (value : Nat) : EmitState :=
  {s with instructions := s.instructions.modify k fun inst => inst.setSlot value dest}

/-- A destination node that is seen for the first time is put behind the others. -/
def EmitState.ensure (s : EmitState) (id : Nat) (node : Node) : EmitState :=
  if s.order.contains id then s else s.add id node

def setAddress (s : EmitState) (k : Nat) (dest : DestSlot) (destination : Destination)
    (destinationNode : Node) : Except AsmError EmitState :=
  match s.nodeToIdx destination.node,matchingFunction destinationNode with
  | some j,.ok matching =>
    .ok (s.setSlot k dest (createDestination j destination.input.value matching))
  | _,.error e => .error e
  | none,_ => .error .keyError

/-- One destination of instruction k. -/
def visitSlot (g : Graph) (s : EmitState) (k : Nat) (node : Node) (dest : DestSlot) :
    Except AsmError EmitState :=
  match node.slot dest with
  | none => .ok s
  | some destination =>
    match g.heap[destination.node]? with
    | none => .error .keyError
    | some destinationNode =>
      if destinationNode.opcode=.OUTD then
        .ok {s.setSlot k dest outputdDestination with
          constants := s.constants++[constantEntry k dest]}
      else if destinationNode.opcode=.OUTS then
        .ok {s.setSlot k dest outputsDestination with
          constants := s.constants++[constantEntry k dest]}
      else setAddress (s.ensure destination.node destinationNode) k dest destination destinationNode

def visitExtern (g : Graph) (s : EmitState) (k id : Nat) : EmitState :=
  match g.nodesToExtern id with
  | none => s
  | some symbol =>
    {s with externalReferences :=
      s.externalReferences++[⟨⟨k,true,false,false,false⟩,encode symbol⟩]}

/-- One round of the loop. -/
def visit (g : Graph) (s : EmitState) (id : Nat) : Except AsmError EmitState :=
  match g.heap[id]?,s.nodeToIdx id with
  | some node,some k =>
    if node.opcode.isSpecial then .error .assertionError
    else
      match visitLabel g s k node with
      | .error e => .error e
      | .ok s =>
        match visitSlot g s k node .destination1 with
        | .error e => .error e
        | .ok s =>
          match visitSlot g s k node .destination2 with
          | .error e => .error e
          | .ok s => .ok (visitExtern g s k id)
  | _,_ => .error .keyError

/-- The loop, with fuel for as many rounds; `none` is the end of the fuel. -/
def visitAll (g : Graph) : Nat → EmitState → Option (Except AsmError EmitState)
  | fuel,s =>
    match s.toVisit with
    | [] => some (.ok s)
    | id::rest =>
      match fuel with
      | 0 => none
      | fuel+1 =>
        match visit g {s with toVisit := rest} id with
        | .error e => some (.error e)
        | .ok s' => visitAll g fuel s'

/-- The exports come in an order of their own: Python leaves the order of a set open. -/
def emitExports (g : Graph) (s : EmitState) : List Name → Except AsmError (List ExportedSymbol)
  | [] => .ok []
  | symbol::symbols =>
    match (g.labels symbol).bind s.nodeToIdx,emitExports g s symbols with
    | some t,.ok rest =>
      .ok (⟨createDestination t Input.INPUT_ONE.value matchingOne,encode symbol⟩::rest)
    | none,_ => .error .keyError
    | _,.error e => .error e

/-- The five tables, and the order that says which node an instruction is. -/
structure Emitted where
  order : List Nat
  instructions : List AsmInstruction
  constants : List UpdateEntry
  labels : List UpdateEntry
  externalReferences : List ExternalSymbol
  exports : List ExportedSymbol
  deriving DecidableEq, Repr

/-- A round for each node object is enough. -/
def graphToInstructions (g : Graph) (exportOrder : List Name) :
    Option (Except AsmError Emitted) :=
  match visitAll g g.heap.length (initialState g g.nodes .empty) with
  | none => none
  | some (.error e) => some (.error e)
  | some (.ok s) =>
    match emitExports g s exportOrder with
    | .error e => some (.error e)
    | .ok exports =>
      some (.ok ⟨s.order,s.instructions,s.constants,s.labels,s.externalReferences,exports⟩)

/-- A field of `struct.pack` without sign. -/
def packUnsigned (width : Nat) (value : Nat) : Except AsmError (List UInt8) :=
  if value < 256^width then .ok (Bytes.ofNatLE width value) else .error .structError

/-- The field `q`. -/
def packSigned64 (value : Int) : Except AsmError (List UInt8) :=
  if -2^63 ≤ value ∧ value < 2^63 then .ok (Bytes.ofNatLE 8 (value%2^64).toNat)
  else .error .structError

/-- The field `256s`: cut or filled with zeros. -/
def packName (name : List UInt8) : List UInt8 :=
  (name++List.replicate referenceMaxSize 0).take referenceMaxSize

def concatFields : List (Except AsmError (List UInt8)) → Except AsmError (List UInt8)
  | [] => .ok []
  | field::fields =>
    match field,concatFields fields with
    | .ok bytes,.ok rest => .ok (bytes++rest)
    | .error e,_ => .error e
    | _,.error e => .error e

def pad (n : Nat) : Except AsmError (List UInt8) := .ok (List.replicate n 0)

def UpdateEntry.toBinary (e : UpdateEntry) : Except AsmError (List UInt8) :=
  concatFields [packUnsigned 4 e.instructionNum,packUnsigned 1 e.combineFlags,pad 3]

def ExternalSymbol.toBinary (e : ExternalSymbol) : Except AsmError (List UInt8) :=
  concatFields [e.destinationToUpdate.toBinary,.ok (packName e.name)]

def ExportedSymbol.toBinary (e : ExportedSymbol) : Except AsmError (List UInt8) :=
  concatFields [packUnsigned 4 e.destination,.ok (packName e.name)]

/-- `literal or 0`. A string cannot be packed. -/
def packLiteral : Option Arg → Except AsmError (List UInt8)
  | none => packSigned64 0
  | some (.int value) => packSigned64 value
  | some (.str _) => .error .structError

/-- A destination of zero is false: the marker then says that there is one destination. -/
def AsmInstruction.marker (inst : AsmInstruction) : Nat :=
  if inst.destination2.getD 0 ≠ 0 then 1 else 0

def AsmInstruction.literalType (inst : AsmInstruction) : InstructionLiteralType :=
  if inst.literal1 ≠ none ∧ inst.literal2 ≠ none then .TWO
  else if inst.literal1 ≠ none ∨ inst.literal2 ≠ none then .ONE
  else .NONE

def packOpcode (opcode : Opcode) : Except AsmError (List UInt8) :=
  if opcode.opcode < 0 then .error .structError else packUnsigned 4 opcode.opcode.toNat

def AsmInstruction.toBinary (inst : AsmInstruction) : Except AsmError (List UInt8) :=
  concatFields [packOpcode inst.opcode,
    packUnsigned 4 (inst.destination1.getD devNullDestination),
    packUnsigned 4 (inst.destination2.getD devNullDestination),
    packUnsigned 1 inst.marker,pad 3,packLiteral inst.literal1,packLiteral inst.literal2,
    packUnsigned 4 inst.literalType.ctorIdx,pad 4]

def serializeInstructions (instructions : List AsmInstruction) : Except AsmError (List UInt8) :=
  concatFields (instructions.map AsmInstruction.toBinary)

def generateHeader (constants labels : List UpdateEntry)
    (externalReferences : List ExternalSymbol) (exported : List ExportedSymbol) :
    Except AsmError (List UInt8) :=
  concatFields [.ok magicBytes,packUnsigned 2 constants.length,packUnsigned 2 labels.length,
    packUnsigned 2 externalReferences.length,packUnsigned 2 exported.length,
    concatFields (constants.map UpdateEntry.toBinary),
    concatFields (labels.map UpdateEntry.toBinary),
    concatFields (externalReferences.map ExternalSymbol.toBinary),
    concatFields (exported.map ExportedSymbol.toBinary)]

/-- The file that `output_graph` writes. -/
def Emitted.file (e : Emitted) : Except AsmError (List UInt8) :=
  concatFields [generateHeader e.constants e.labels e.externalReferences e.exports,
    serializeInstructions e.instructions]

end Manchester.Assembler
