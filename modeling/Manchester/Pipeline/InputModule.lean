import Manchester.Framework.Bytes
import Manchester.Pipeline.FunctionUnit

namespace Manchester

-- The module for input and files. Its opcodes become a DUP of what the system answers.

inductive OpenMode where
  | FILE_READ_ONLY | FILE_WRITE_ONLY | FILE_READ_WRITE
  deriving DecidableEq, Repr

/-- The flags that `open` is called with. -/
structure OpenFlags where
  mode : OpenMode
  create : Bool
  truncate : Bool
  deriving DecidableEq, Repr

/-- The mode 3 sets no flag, and no flag is read only. -/
def flagToRwMode (machineFlags : BitVec 32) : OpenMode :=
  if machineFlags &&& 3=1 then .FILE_WRITE_ONLY
  else if machineFlags &&& 3=2 then .FILE_READ_WRITE
  else .FILE_READ_ONLY

def openFlags (machineFlags : BitVec 32) : OpenFlags :=
  ⟨flagToRwMode machineFlags,(machineFlags &&& 0x10)!=0,(machineFlags &&& 0x20)!=0⟩

/-- The answers of the system to the calls of one round. An answer of type int is 32 bits wide. -/
structure SystemCalls where
  openFile : List UInt8 → OpenFlags → BitVec 32
  /-- The byte, when one was read. -/
  readByte : BitVec 32 → Option UInt8
  /-- Whether the byte was written. -/
  writeByte : BitVec 32 → UInt8 → Bool
  /-- Whether the file was closed. -/
  closeFile : BitVec 32 → Bool
  system : List UInt8 → BitVec 32
  /-- The last answer in the loop that copies byte by byte. -/
  sendFile : BitVec 32 → BitVec 32 → BitVec 32
  unlink : List UInt8 → BitVec 32
  seek : BitVec 32 → BitVec 64 → BitVec 64

/-- A name of at most eight bytes, as it is packed into a word. -/
def packedName (data : DataType) : List UInt8 :=
  (Bytes.ofNatLE 8 data.toNat).takeWhile (· != 0)

def listCommand : List UInt8 := "/bin/ls".toList.map fun c => UInt8.ofNat c.toNat

/-- What the module answers to an opcode of its own. -/
def fileAnswer (calls : SystemCalls) (next : ExecutionPacket) : OpcodeType → Option DataType
  | .OPN => some ((calls.openFile (packedName next.data1)
      (openFlags (next.data2.setWidth 32))).signExtend 64)
  | .RED => some (match calls.readByte (next.data1.setWidth 32) with
    | some byte => byte.toBitVec.setWidth 64
    | none => -1)
  | .WRT => some (boolData
      (calls.writeByte (next.data1.setWidth 32) (UInt8.ofBitVec (next.data2.setWidth 8))))
  | .CLS => some (boolData (calls.closeFile (next.data1.setWidth 32)))
  | .LS => some ((calls.system listCommand).signExtend 64)
  | .SDF => some ((calls.sendFile (next.data1.setWidth 32) (next.data2.setWidth 32)).signExtend 64)
  | .ULK => some ((calls.unlink (packedName next.data1)).signExtend 64)
  | .LSK => some (calls.seek (next.data1.setWidth 32) next.data2)
  | _ => none

/-- One round of the loop. -/
def inputPacket (calls : SystemCalls) (next : ExecutionPacket) : ExecutionPacket :=
  match (OpcodeType.ofBits next.opcode).bind (fileAnswer calls next) with
  | some answer => {next with opcode := OpcodeType.DUP.bits,data1 := answer}
  | none => next

/-- The opcodes that the module answers. -/
def OpcodeType.isFile : OpcodeType → Bool
  | .OPN | .RED | .WRT | .CLS | .LS | .SDF | .ULK | .LSK => true
  | _ => false

theorem fileAnswer_isSome (calls : SystemCalls) (next : ExecutionPacket) (o : OpcodeType) :
    (fileAnswer calls next o).isSome=o.isFile := by
  cases o <;> rfl

/-- Every other packet passes unchanged. -/
theorem inputPacket_other (calls : SystemCalls) (next : ExecutionPacket)
    (h : ∀ o,OpcodeType.ofBits next.opcode=some o → o.isFile=false) :
    inputPacket calls next=next := by
  unfold inputPacket
  cases ho : OpcodeType.ofBits next.opcode with
  | none => rfl
  | some o =>
    have hnone : fileAnswer calls next o=none := by
      rw [← Option.not_isSome_iff_eq_none,fileAnswer_isSome,h o ho]
      decide
    simp [hnone]

theorem inputPacket_internal (calls : SystemCalls) (next : ExecutionPacket)
    (h : IsInternal next.opcode) : inputPacket calls next=next := by
  obtain ⟨o,ho,hint⟩ := h
  apply inputPacket_other
  intro o' ho'
  obtain rfl : o=o' := Option.some.inj (ho.symm.trans ho')
  cases o <;> first | rfl | cases hint

end Manchester
