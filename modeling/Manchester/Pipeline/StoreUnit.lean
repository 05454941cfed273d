import Manchester.Loader.LoadFile

namespace Manchester

-- The instruction store: packets for the instructions that need no token, and a packet for each
-- pair of tokens.

/-- What lies behind the table of inputs, where an opcode of no instruction reads. -/
abbrev TableOverrun := BitVec 32 → Nat

def numInputs (overrun : TableOverrun) (opcode : BitVec 32) : Nat :=
  (opcodeToNumInputs opcode).getD (overrun opcode)

/-- The packet of an instruction for its two operands. -/
def makePacket (address : Nat) (inst : Instruction) (data1 data2 : DataType) (tag : TagType) :
    ExecutionPacket where
  data1 := data1
  data2 := data2
  opcode := inst.opcode
  tag := tag
  destination1 := inst.destination1
  destination2 := inst.destination2
  input := createDestination (BitVec.ofNat 32 address) 0 0
  marker := inst.marker

/-- The packet of an instruction whose operands are all literals. -/
def readyPacket (overrun : TableOverrun) (i : Nat) (inst : Instruction) : Option ExecutionPacket :=
  if inst.instructionLiteral=InstructionLiteralType.TWO.bits then
    some (makePacket i inst inst.literal1 inst.literal2 noTag)
  else if inst.instructionLiteral=InstructionLiteralType.ONE.bits ∧
      numInputs overrun inst.opcode=1 then
    some (makePacket i inst inst.literal1 0 noTag)
  else none

/-- The addresses in the packets count from the first of the given instructions. -/
def addReadyInstructions (overrun : TableOverrun) (instructions : List Instruction) :
    List ExecutionPacket :=
  instructions.zipIdx.filterMap fun p => readyPacket overrun p.2 p.1

/-- What a round of the store gets from outside. -/
structure StoreEnv where
  /-- What the record holds where the matching unit has left the second token unset. -/
  unsetToken : TokenType
  /-- The content of a file, if it can be opened and read. -/
  openFile : List UInt8 → Option (List UInt8)
  /-- What lies behind the table of instructions while a file is loaded. -/
  behind : Behind

/-- A packet that passes a word on. -/
def dupPacket (address : Nat) (data : DataType) (tag : TagType) (destination1 : DestinationType) :
    ExecutionPacket where
  data1 := data
  data2 := 0
  opcode := OpcodeType.DUP.bits
  tag := tag
  destination1 := destination1
  destination2 := devNullDestination
  input := createDestination (BitVec.ofNat 32 address) 0 0
  marker := oneOutputMarker

def loadErrorPacket (address : Nat) (inst : Instruction) (tag : TagType) : ExecutionPacket :=
  {makePacket address inst (-1) 0 tag with opcode := OpcodeType.DUP.bits}

/-- The file name of a LOD: the bytes of its first operand, with the last one set to zero. -/
def loadName (data : DataType) : List UInt8 :=
  ((Bytes.ofNatLE 8 data.toNat).take 7).takeWhile (· != 0)

def mainArgName : List UInt8 := "_main_arg_0_export".toList.map fun c => UInt8.ofNat c.toNat
def mainReturnName : List UInt8 :=
  "_main_return_location_export".toList.map fun c => UInt8.ofNat c.toNat

/-- The last export of that name. -/
def findLastExport (exports : List ExportNode) (name : List UInt8) : Option ExportNode :=
  (exports.filter fun cur => cur.name==name).getLast?

/-- The two packets that call the main function of the loaded code. -/
def mainPackets (address : Nat) (inst : Instruction) (tag : TagType) (arg : DataType)
    (exports : List ExportNode) : List ExecutionPacket :=
  match findLastExport exports mainArgName,findLastExport exports mainReturnName with
  | some mainArg,some mainReturn =>
    [dupPacket address arg tag mainArg.currentDestination,
      dupPacket address (inst.destination1.setWidth 64) tag mainReturn.currentDestination]
  | _,_ => []

/-- A LOD. There is no outcome where the load has none. -/
def loadProgram (overrun : TableOverrun) (env : StoreEnv) (store : InstructionStore)
    (address : Nat) (inst : Instruction) (token1 token2 : TokenType) :
    Option (InstructionStore × List ExecutionPacket) :=
  match loadFile env.behind store (env.openFile (loadName token1.data)) false with
  | none => none
  | some (info,store') =>
    if info.error=-1 then some (store',[loadErrorPacket address inst token1.tag])
    else
      let loaded := (store'.instructions.drop (info.instructions.getD 0)).take
        info.currentNumInstructions
      some (store',mainPackets address inst token1.tag token2.data info.exports++
        addReadyInstructions overrun loaded)

/-- The packets for an instruction of the other opcodes. -/
def firePair (overrun : TableOverrun) (address : Nat) (inst : Instruction)
    (token1 token2 : TokenType) : List ExecutionPacket :=
  if inst.instructionLiteral=InstructionLiteralType.NONE.bits ∧
      numInputs overrun inst.opcode=2 then
    [makePacket address inst token1.data token2.data token1.tag]
  else if inst.instructionLiteral=InstructionLiteralType.ONE.bits ∨
      numInputs overrun inst.opcode=1 then
    [makePacket address inst token1.data inst.literal1 token1.tag]
  else []

/-- One round of the loop. -/
def storePair (overrun : TableOverrun) (env : StoreEnv) (store : InstructionStore)
    (next : ReadyTokenPairType) : Option (InstructionStore × List ExecutionPacket) :=
  let address := (destinationToAddress next.token1.destination).toNat
  let token2 := next.token2.getD env.unsetToken
  match store.instructions[address]? with
  | none => some (store,[])
  | some inst =>
    if inst.opcode=OpcodeType.LOD.bits then
      loadProgram overrun env store address inst next.token1 token2
    else some (store,firePair overrun address inst next.token1 token2)

theorem storePair_none (overrun : TableOverrun) (env : StoreEnv) {store : InstructionStore}
    {next : ReadyTokenPairType}
    (h : store.instructions[(destinationToAddress next.token1.destination).toNat]?=none) :
    storePair overrun env store next=some (store,[]) := by
  simp only [storePair,h]

theorem storePair_some (overrun : TableOverrun) (env : StoreEnv) {store : InstructionStore}
    {next : ReadyTokenPairType} {inst : Instruction}
    (h : store.instructions[(destinationToAddress next.token1.destination).toNat]?=some inst)
    (hload : inst.opcode ≠ OpcodeType.LOD.bits) :
    storePair overrun env store next=some (store,
      firePair overrun (destinationToAddress next.token1.destination).toNat inst next.token1
        (next.token2.getD env.unsetToken)) := by
  simp only [storePair,h,if_neg hload]

end Manchester
