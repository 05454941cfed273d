import Manchester.Loader.Sephi

namespace Manchester

structure ExportNode where
  currentDestination : DestinationType
  name : List UInt8
  deriving DecidableEq, Repr

/-- The globals of the store. `num_instructions` is the length of the array. -/
structure InstructionStore where
  instructions : List Instruction
  exports : List ExportNode
  deriving DecidableEq, Repr

/-- The first export of that name. -/
def findExport (exports : List ExportNode) (name : List UInt8) : Option ExportNode :=
  exports.find? fun cur => cur.name==name

inductive WhichDestination where
  | FIRST_DESTINATION | SECOND_DESTINATION | FIRST_LITERAL | SECOND_LITERAL
  deriving DecidableEq, Repr

def WhichDestination.flag : WhichDestination → Flags → Bool
  | FIRST_DESTINATION => Flags.isFirstDestination
  | SECOND_DESTINATION => Flags.isSecondDestination
  | FIRST_LITERAL => Flags.isFirstLiteral
  | SECOND_LITERAL => Flags.isSecondLiteral

def isInList (constants : List DestinationToUpdate) (cur : Nat)
    (whichDestination : WhichDestination) : Bool :=
  constants.any fun c => c.instructionNumber.toNat==cur && whichDestination.flag c.flags

def incrementDestinationAddress (destination : DestinationType) (toAdd : BitVec 32) :
    DestinationType :=
  createDestination (destinationToAddress destination+toAdd) (destinationToInput destination)
    (destinationToMatchingFunction destination)

/-- A literal is cut to 32 bits on the way in and widened again on the way out. -/
def incrementLiteral (literal : DataType) (toAdd : BitVec 32) : DataType :=
  (incrementDestinationAddress (literal.setWidth 32) toAdd).setWidth 64

def isPrivilegedOpcode (opcode : BitVec 32) : Bool :=
  opcode==OpcodeType.OPN.bits || opcode==OpcodeType.RED.bits || opcode==OpcodeType.WRT.bits ||
    opcode==OpcodeType.CLS.bits || opcode==OpcodeType.HLT.bits || opcode==OpcodeType.LOD.bits ||
    opcode==OpcodeType.LS.bits || opcode==OpcodeType.SDF.bits || opcode==OpcodeType.ULK.bits ||
    opcode==OpcodeType.LSK.bits || opcode==OpcodeType.RND.bits

def relocateDestination (constants : List DestinationToUpdate) (start : BitVec 32) (i : Nat)
    (which : WhichDestination) (destination : DestinationType) : DestinationType :=
  if isInList constants i which then destination
  else if destination ≠ devNullDestination then incrementDestinationAddress destination start
  else destination

def relocateLiteral (toFix : List DestinationToUpdate) (start : BitVec 32) (i : Nat)
    (which : WhichDestination) (literal : DataType) : DataType :=
  if isInList toFix i which then incrementLiteral literal start else literal

/-- One round of the loop over the instructions of the file. -/
def relocateInstruction (sephi : Sephi) (start : BitVec 32) (isPrivileged : Bool) (i : Nat)
    (inst : Instruction) : Instruction where
  opcode :=
    if !isPrivileged && isPrivilegedOpcode inst.opcode then OpcodeType.DUP.bits else inst.opcode
  destination1 := relocateDestination sephi.constants start i .FIRST_DESTINATION inst.destination1
  destination2 := relocateDestination sephi.constants start i .SECOND_DESTINATION inst.destination2
  marker := inst.marker
  literal1 := relocateLiteral sephi.toFix start i .FIRST_LITERAL inst.literal1
  literal2 := relocateLiteral sephi.toFix start i .SECOND_LITERAL inst.literal2
  instructionLiteral := inst.instructionLiteral

/-- What an external reference does to the instruction it names. -/
def resolveReference (flags : Flags) (current : DestinationType) (inst : Instruction) :
    Instruction where
  opcode := if flags.changesOpcode then current else inst.opcode
  destination1 := if flags.isFirstDestination then current else inst.destination1
  destination2 := if flags.isSecondDestination then current else inst.destination2
  marker := inst.marker
  literal1 := if flags.isFirstLiteral then current.setWidth 64 else inst.literal1
  literal2 := if flags.isSecondLiteral then current.setWidth 64 else inst.literal2
  instructionLiteral := inst.instructionLiteral

/-- The reference sets a field of the record that it names. -/
def Flags.isWritten (f : Flags) : Bool :=
  f.isFirstDestination || f.isSecondDestination || f.isFirstLiteral || f.isSecondLiteral ||
    f.changesOpcode

/-- What a write behind the last record of the store makes of the exports, for the flags and the
destination of the reference. Whether a node of the exports lies there is up to malloc. -/
abbrev Behind := Flags → DestinationType → List ExportNode → List ExportNode

/-- No export lies there. -/
def Behind.clear : Behind := fun _ _ exports => exports

/-- The write of an external reference. An index equal to the number of new instructions passes
the check of the loop, and the write lands behind the last record of the store. -/
def writeReference (behind : Behind) (start current : Nat) (destination : DestinationToUpdate)
    (currentDestination : DestinationType) (store : InstructionStore) : InstructionStore :=
  let instNum := destination.instructionNumber.toNat
  if instNum < current then
    {store with
      instructions := store.instructions.modify (start+instNum)
        (resolveReference destination.flags currentDestination)}
  else {store with exports := behind destination.flags currentDestination store.exports}

/-- The loop over the external references, with whether it ran to its end. `none` is the
dereference of a missing export. -/
def resolveReferences (behind : Behind) (start current : Nat) :
    List ExternalReference → InstructionStore → Option (InstructionStore × Bool)
  | [],store => some (store,true)
  | ref::refs,store =>
    if current < ref.destination.instructionNumber.toNat then some (store,false)
    else if ref.destination.flags.isWritten then
      match findExport store.exports ref.name with
      | none => none
      | some result => resolveReferences behind start current refs
          (writeReference behind start current ref.destination result.currentDestination store)
    else resolveReferences behind start current refs store

/-- `instructions` is the place of the first new instruction in the store. -/
structure LoadedCodeInfo where
  instructions : Option Nat
  currentNumInstructions : Nat
  exports : List ExportNode
  error : Int
  deriving DecidableEq, Repr

def loadError : LoadedCodeInfo := ⟨none,0,[],-1⟩

def newExportNode (start : BitVec 32) (symbol : ExportSymbol) : ExportNode :=
  ⟨incrementDestinationAddress symbol.localDestination start,symbol.name⟩

/-- The file is the buffer after it has been read; none where it could not be read. A load has no
outcome where C gives it none: one of the two counts does not fit in an int, or a missing export is
dereferenced. -/
def loadFile (behind : Behind) (store : InstructionStore) (file : Option (List UInt8))
    (isPrivileged : Bool) : Option (LoadedCodeInfo × InstructionStore) :=
  match file.bind parseSephi with
  | none => some (loadError,store)
  | some sephi =>
    if sephi.externalReferences.any fun ref => (findExport store.exports ref.name).isNone then
      some (loadError,store)
    else
      let start := store.instructions.length
      let current := sephi.instructions.length
      if 2^31 ≤ start ∨ 2^31 ≤ current then none
      else
        let toAdd := BitVec.ofNat 32 start
        let appended := store.instructions++
          sephi.instructions.mapIdx (relocateInstruction sephi toAdd isPrivileged)
        match resolveReferences behind start current sephi.externalReferences
            ⟨appended,store.exports⟩ with
        | none => none
        | some (resolved,false) => some (loadError,resolved)
        | some (resolved,true) =>
          let thisExports := sephi.exports.map (newExportNode toAdd)
          some (⟨some start,current,thisExports,0⟩,
            ⟨resolved.instructions,resolved.exports++thisExports⟩)

end Manchester
