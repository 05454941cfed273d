import Manchester.Assembler.Encoding
import Manchester.Dataflow.Abstract
import Manchester.Pipeline.Authority

namespace Manchester

-- The trap code: the first 100 instructions of an image for trap mode.

/-- src = DUP _ -/
def trapSource : Instruction :=
  ⟨OpcodeType.DUP.bits,createDestination 3 inputOne matchingBoth,
    createDestination 3 inputTwo matchingBoth,bothOutputMarker,0,0,InstructionLiteralType.NONE.bits⟩

/-- dest = DUP _, of which nothing is used, as of each `_ = DUP _`. -/
def trapUnused : Instruction :=
  ⟨OpcodeType.DUP.bits,devNullDestination,devNullDestination,oneOutputMarker,0,0,
    InstructionLiteralType.NONE.bits⟩

/-- trap_return_loc = DUP _ -/
def trapReturnLoc : Instruction :=
  ⟨OpcodeType.DUP.bits,createDestination 5 inputTwo matchingBoth,devNullDestination,oneOutputMarker,
    0,0,InstructionLiteralType.NONE.bits⟩

/-- to_return_0 = XOR src src -/
def trapXor : Instruction :=
  ⟨OpcodeType.XOR.bits,createDestination 4 inputOne matchingOne,devNullDestination,oneOutputMarker,
    0,0,InstructionLiteralType.NONE.bits⟩

/-- to_return_1 = ADD to_return_0 1 -/
def trapAdd : Instruction :=
  ⟨OpcodeType.ADD.bits,createDestination 5 inputOne matchingBoth,devNullDestination,oneOutputMarker,
    1,0,InstructionLiteralType.ONE.bits⟩

/-- _ = RTD to_return_1 trap_return_loc -/
def trapReturn : Instruction :=
  ⟨OpcodeType.RTD.bits,devNullDestination,devNullDestination,oneOutputMarker,0,0,
    InstructionLiteralType.NONE.bits⟩

def trapCode : List Instruction :=
  [trapSource,trapUnused,trapReturnLoc,trapXor,trapAdd,trapReturn]++List.replicate 94 trapUnused

/-- The lines of `os_trap`. -/
def trapLines : List Assembler.Name :=
  ["src = DUP _".toList,"dest = DUP _".toList,"trap_return_loc = DUP _".toList,
    "to_return_0 = XOR src src".toList,"to_return_1 = ADD to_return_0 1".toList,
    "_ = RTD to_return_1 trap_return_loc".toList]++List.replicate 94 "_ = DUP _".toList

def assembledInstructions (lines : List Assembler.Name) : Option (List Instruction) :=
  match Assembler.parseCreateIrGraph lines with
  | .error _ => none
  | .ok g => match Assembler.optimizeGraph g with
    | .error _ => none
    | .ok g' => match Assembler.graphToInstructions g' [] with
      | some (.ok e) => some (e.instructions.map Assembler.AsmInstruction.record)
      | _ => none

theorem trapLines_assembled : assembledInstructions trapLines=some trapCode := by
  decide +kernel

end Manchester
