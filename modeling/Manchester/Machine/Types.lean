import Mathlib.Data.BitVec
import Mathlib.Data.Nat.Bitwise
import Mathlib.Tactic.IntervalCases
import Mathlib.Tactic.Ring

namespace Manchester

/-- The instruction set, in the order of the C enumeration. -/
inductive OpcodeType where
  | ADD | SUB | BRR | LT | EQ | DUP | NEG | MER | NTG | ITG | GT | SIL | CTG | RTD | ETG
  | MUL | XOR | AND | OR | SHL | SHR | NEQ | OPN | RED | WRT | CLS | GTE | LTE | HLT | LOD
  | LS | SDF | ULK | LSK | RND
  deriving DecidableEq, Repr

namespace OpcodeType

def all : List OpcodeType :=
  [ADD,SUB,BRR,LT,EQ,DUP,NEG,MER,NTG,ITG,GT,SIL,CTG,RTD,ETG,MUL,XOR,AND,OR,SHL,SHR,NEQ,
    OPN,RED,WRT,CLS,GTE,LTE,HLT,LOD,LS,SDF,ULK,LSK,RND]

/-- An instruction record stores its opcode as a 32-bit word. -/
def bits (o : OpcodeType) : BitVec 32 := BitVec.ofNat 32 o.ctorIdx

/-- The opcode a stored word denotes; a file may store a word that denotes none. -/
def ofBits (b : BitVec 32) : Option OpcodeType := all[b.toNat]?

@[simp] theorem ofBits_bits (o : OpcodeType) : ofBits o.bits=some o := by
  cases o <;> rfl

end OpcodeType

abbrev TagType := BitVec 64
abbrev DataType := BitVec 64
abbrev DestinationType := BitVec 32
abbrev MarkerType := BitVec 8

/-- Inputs of each opcode, indexed by the opcode. MER is listed with one input. -/
def opcodeToNumInputsTable : List Nat :=
  [2,2,2,2,2,1,1,1,1,1,2,2,2,2,1,2,2,2,2,2,2,2,2,1,2,1,2,2,1,2,1,2,1,2,1]

/-- The table lookup; `none` is a read past the end of the table. -/
def opcodeToNumInputs (opcode : BitVec 32) : Option Nat := opcodeToNumInputsTable[opcode.toNat]?

def createTag (tagArea iterationCount : BitVec 32) : TagType :=
  (tagArea.setWidth 64 <<< 32) ^^^ iterationCount.setWidth 64
def tagToTagArea (t : TagType) : BitVec 32 := (t >>> 32).setWidth 32
def tagToIterationCount (t : TagType) : BitVec 32 := (0xffffffff#64 &&& t).setWidth 32

def noTag : TagType := 0

-- A destination is an instruction address (28 bits), an input bit and three bits of matching
-- function, of which the machine reads two.

def destinationToAddress (d : DestinationType) : BitVec 32 := d >>> 4
def destinationToInput (d : DestinationType) : BitVec 32 := (d >>> 3) &&& 1
def destinationToMatchingFunction (d : DestinationType) : BitVec 32 := d &&& 3
def createDestination (a input m : BitVec 32) : DestinationType :=
  (((a <<< 1) ^^^ input) <<< 3) ^^^ m

def matchingAny : BitVec 32 := 2
def matchingBoth : BitVec 32 := 1
def matchingOne : BitVec 32 := 0

def inputOne : BitVec 32 := 0
def inputTwo : BitVec 32 := 1

def bothOutputMarker : MarkerType := 1
def oneOutputMarker : MarkerType := 0

inductive InstructionLiteralType where
  | NONE | ONE | TWO
  deriving DecidableEq, Repr

def InstructionLiteralType.bits (l : InstructionLiteralType) : BitVec 32 :=
  BitVec.ofNat 32 l.ctorIdx

/-- An instruction record of the store. The padding bytes of the C record are left out. -/
structure Instruction where
  opcode : BitVec 32
  destination1 : DestinationType
  destination2 : DestinationType
  marker : MarkerType
  literal1 : DataType
  literal2 : DataType
  instructionLiteral : BitVec 32
  deriving DecidableEq, Repr

def outputdDestination : DestinationType := createDestination (2^28-1) 0 matchingOne
def outputsDestination : DestinationType := createDestination (2^28-2) 0 matchingOne
def registerInputHandlerDestination : DestinationType := createDestination (2^28-3) 0 matchingOne
def deregisterInputHandlerDestination : DestinationType := createDestination (2^28-4) 0 matchingOne
def devNullDestination : DestinationType := createDestination (2^28-5) 0 matchingOne

structure ExecutionPacket where
  data1 : DataType
  data2 : DataType
  opcode : BitVec 32
  tag : TagType
  destination1 : DestinationType
  destination2 : DestinationType
  input : DestinationType
  marker : MarkerType
  deriving DecidableEq, Repr

structure TokenType where
  destination : DestinationType
  data : DataType
  tag : TagType
  deriving DecidableEq, Repr

/-- A pair for the instruction store. The matching unit leaves `token2` unset when the
instruction needs only one token. -/
structure ReadyTokenPairType where
  token1 : TokenType
  token2 : Option TokenType
  deriving DecidableEq, Repr

structure ExecutionResult where
  output1 : TokenType
  output2 : TokenType
  marker : MarkerType
  deriving DecidableEq, Repr

theorem mul_two_pow_xor (a b k : Nat) (hb : b < 2^k) : (2^k*a)^^^b=2^k*a+b := by
  have hd : ((2^k*a)^^^b)/2^k=a := by
    rw [Nat.xor_div_two_pow,Nat.mul_div_cancel_left _ (Nat.two_pow_pos k),
      Nat.div_eq_of_lt hb,Nat.xor_zero]
  have hm : ((2^k*a)^^^b)%2^k=b := by
    rw [Nat.xor_mod_two_pow,Nat.mul_mod_right,Nat.mod_eq_of_lt hb,Nat.zero_xor]
  calc
    (2^k*a)^^^b = 2^k*(((2^k*a)^^^b)/2^k)+((2^k*a)^^^b)%2^k := (Nat.div_add_mod _ _).symm
    _ = 2^k*a+b := by rw [hd,hm]

/-- The three fields of a destination sit side by side; address bits above 28 are lost. -/
theorem createDestination_toNat (a input m : BitVec 32) (hi : input.toNat < 2) (hm : m.toNat < 8) :
    (createDestination a input m).toNat=16*(a.toNat%2^28)+8*input.toNat+m.toNat := by
  have hx : ((a <<< 1) ^^^ input).toNat=2*(a.toNat%2^31)+input.toNat := by
    have hs : a.toNat <<< 1%2^32=2^1*(a.toNat%2^31) := by
      rw [Nat.shiftLeft_eq]; omega
    rw [BitVec.toNat_xor,BitVec.toNat_shiftLeft,hs,mul_two_pow_xor _ _ 1 hi,pow_one]
  have hy : ((a <<< 1) ^^^ input).toNat <<< 3%2^32=
      2^3*(2*(a.toNat%2^28)+input.toNat) := by
    rw [hx,Nat.shiftLeft_eq]; omega
  rw [createDestination,BitVec.toNat_xor,BitVec.toNat_shiftLeft,hy,mul_two_pow_xor _ _ 3 hm]
  omega

theorem destinationToAddress_toNat (d : DestinationType) :
    (destinationToAddress d).toNat=d.toNat/16 := by
  simp [destinationToAddress,Nat.shiftRight_eq_div_pow]

theorem destinationToInput_toNat (d : DestinationType) :
    (destinationToInput d).toNat=d.toNat/8%2 := by
  have h : (d >>> 3).toNat &&& 1=(d >>> 3).toNat%2^1 := Nat.and_two_pow_sub_one_eq_mod _ 1
  rw [destinationToInput,BitVec.toNat_and]
  change (d >>> 3).toNat &&& 1=_
  rw [h,BitVec.toNat_ushiftRight,Nat.shiftRight_eq_div_pow]
  norm_num

theorem destinationToMatchingFunction_toNat (d : DestinationType) :
    (destinationToMatchingFunction d).toNat=d.toNat%4 := by
  rw [destinationToMatchingFunction,BitVec.toNat_and]
  exact Nat.and_two_pow_sub_one_eq_mod _ 2

theorem destinationToInput_lt (d : DestinationType) : (destinationToInput d).toNat < 2 := by
  rw [destinationToInput_toNat]; omega

theorem destinationToMatchingFunction_lt (d : DestinationType) :
    (destinationToMatchingFunction d).toNat < 4 := by
  rw [destinationToMatchingFunction_toNat]; omega

theorem destinationToInput_cases (d : DestinationType) :
    destinationToInput d=inputOne ∨ destinationToInput d=inputTwo := by
  have h := destinationToInput_lt d
  rcases Nat.lt_succ_iff_lt_or_eq.mp h with h0 | h1
  · exact .inl (BitVec.eq_of_toNat_eq (by simpa [inputOne] using h0))
  · exact .inr (BitVec.eq_of_toNat_eq (by simpa [inputTwo] using h1))

end Manchester
