import Manchester.Machine.Types

namespace Manchester.Assembler

/-- A Python string: its code points. -/
abbrev Name := List Char

instance : LawfulBEq Name := inferInstance

/-- `str.isspace` on one character. -/
def isSpace (c : Char) : Bool :=
  let n := c.toNat
  (9 ≤ n && n ≤ 13) || (28 ≤ n && n ≤ 32) || n==0x85 || n==0xa0 || n==0x1680 ||
    (0x2000 ≤ n && n ≤ 0x200a) || n==0x2028 || n==0x2029 || n==0x202f || n==0x205f || n==0x3000

def stripChars (p : Char → Bool) (s : Name) : Name :=
  ((s.dropWhile p).reverse.dropWhile p).reverse

/-- `str.strip` without an argument. -/
def strip (s : Name) : Name := stripChars isSpace s

/-- `str.rstrip` of one character. -/
def rstrip (c : Char) (s : Name) : Name := (s.reverse.dropWhile (· == c)).reverse

/-- `str.split` without an argument: the runs of characters that are not white space. -/
def split (s : Name) : List Name :=
  (s.splitOnP isSpace).filter fun word => !word.isEmpty

/-- `str.upper` on one character, exact where the result can equal an ASCII word: outside ASCII
these are the characters whose upper case is ASCII, and every other one stays outside. -/
def upperChar (c : Char) : List Char :=
  match c with
  | 'ı' => ['I']
  | 'ſ' => ['S']
  | 'ﬅ' => ['S','T']
  | 'ﬆ' => ['S','T']
  | 'ß' => ['S','S']
  | 'ﬀ' => ['F','F']
  | 'ﬁ' => ['F','I']
  | 'ﬂ' => ['F','L']
  | 'ﬃ' => ['F','F','I']
  | 'ﬄ' => ['F','F','L']
  | c => [c.toUpper]

def upper (s : Name) : Name := s.flatMap upperChar

/-- The zeros of the Unicode decimal digits; the other nine follow each of them. -/
def decimalZeros : List Nat :=
  [0x30,0x660,0x6f0,0x7c0,0x966,0x9e6,0xa66,0xae6,0xb66,0xbe6,0xc66,0xce6,0xd66,0xde6,0xe50,
    0xed0,0xf20,0x1040,0x1090,0x17e0,0x1810,0x1946,0x19d0,0x1a80,0x1a90,0x1b50,0x1bb0,0x1c40,
    0x1c50,0xa620,0xa8d0,0xa900,0xa9d0,0xa9f0,0xaa50,0xabf0,0xff10,0x104a0,0x10d30,0x11066,
    0x110f0,0x11136,0x111d0,0x112f0,0x11450,0x114d0,0x11650,0x116c0,0x11730,0x118e0,0x11950,
    0x11c50,0x11d50,0x11da0,0x16a60,0x16ac0,0x16b50,0x1d7ce,0x1d7d8,0x1d7e2,0x1d7ec,0x1d7f6,
    0x1e140,0x1e2f0,0x1e950,0x1fbf0]

/-- The value of a digit for `int`, if it is one in that base. -/
def digitValue (base : Nat) (c : Char) : Option Nat :=
  let n := c.toNat
  let value := match decimalZeros.find? fun first => first ≤ n && n < first+10 with
    | some first => some (n-first)
    | none =>
      if 0x61 ≤ n && n ≤ 0x7a then some (n-0x61+10)
      else if 0x41 ≤ n && n ≤ 0x5a then some (n-0x41+10)
      else none
  value.filter (· < base)

/-- Digits with single underscores between them; `gap` is set where no underscore may stand. -/
def digits (base : Nat) (gap : Bool) (acc : Nat) : Name → Option Nat
  | [] => if gap then none else some acc
  | c::cs =>
    if c = '_' then if gap then none else digits base true acc cs
    else match digitValue base c with
      | none => none
      | some d => digits base false (acc*base+d) cs

/-- `int(arg,base=10)` of an argument without white space; `none` is the ValueError. -/
def intBase10 : Name → Option Int
  | '+'::cs => (digits 10 true 0 cs).map Int.ofNat
  | '-'::cs => (digits 10 true 0 cs).map fun n => -Int.ofNat n
  | cs => (digits 10 true 0 cs).map Int.ofNat

/-- `int(arg,base=16)` of an argument that starts with 0x. One underscore may follow the x. -/
def intBase16 : Name → Option Int
  | _::_:: '_'::cs => (digits 16 true 0 cs).map Int.ofNat
  | _::_::cs => (digits 16 true 0 cs).map Int.ofNat
  | _ => none

def hasHexPrefix : Name → Bool
  | '0':: 'x'::_ => true
  | '0':: 'X'::_ => true
  | _ => false

inductive Arg where
  | int (value : Int)
  | str (name : Name)
  deriving DecidableEq, Repr

def Arg.isInt : Arg → Bool
  | int _ => true
  | str _ => false

def parseArg (arg : Name) : Arg :=
  match intBase10 arg with
  | some value => .int value
  | none =>
    if hasHexPrefix arg then
      match intBase16 arg with
      | some value => .int value
      | none => .str arg
    else .str arg

/-- The rows of `_OPCODE_LIST`: two output addresses of the machine and its instructions. -/
inductive Opcode where
  | OUTD | OUTS
  | op (o : OpcodeType)
  deriving DecidableEq, Repr

namespace Opcode

def opcode : Opcode → Int
  | OUTD => -1
  | OUTS => -2
  | op o => o.ctorIdx

/-- Inputs of each opcode in the assembler's list. MER has two here. -/
def numInputsList : List Nat :=
  [2,2,2,2,2,1,1,2,1,1,2,2,2,2,1,2,2,2,2,2,2,2,2,1,2,1,2,2,1,2,1,2,1,2,1]

def numInputs : Opcode → Nat
  | OUTD => 1
  | OUTS => 1
  | op o => numInputsList.getD o.ctorIdx 0

def reprList : List String :=
  ["ADD","SUB","BRR","LT","EQ","DUP","NEG","MER","NTG","ITG","GT","SIL","CTG","RTD","ETG","MUL",
    "XOR","AND","OR","SHL","SHR","NEQ","OPN","RED","WRT","CLS","GTE","LTE","HLT","LOD","LS","SDF",
    "ULK","LSK","RND"]

def repr : Opcode → Name
  | OUTD => "OUTD".toList
  | OUTS => "OUTS".toList
  | op o => (reprList.getD o.ctorIdx "").toList

def all : List Opcode := [OUTD,OUTS]++OpcodeType.all.map op

def isSpecial (o : Opcode) : Bool := o==OUTD || o==OUTS

end Opcode

/-- `OPCODES`, by name. -/
def opcodes (name : Name) : Option Opcode := Opcode.all.find? fun o => o.repr==name

inductive AsmError where
  | labelWithoutColon | labelPending | labelDefined | exportUndefined | malformed | unsupported
  | literalFirst | literalInMerge | indexError | keyError | assertionError | structError
  deriving DecidableEq, Repr

/-- What a line asks for. -/
inductive Statement where
  | blank
  | label (name : Name)
  | exportSymbol (name : Name)
  | externSymbol (name : Name)
  | assign (target : Name) (opcode : Opcode) (input1 : Arg) (input2 : Option Arg)
  | output (opcode : Opcode) (input : Arg)
  | branch (trueOutput falseOutput : Name) (opcode : Opcode) (input : Arg) (test : Option Arg)
  | unprocessed
  deriving DecidableEq, Repr

/-- A line with `=`. Its operation may be an output as well. -/
def decodeAssign (args : List Name) : Except AsmError Statement :=
  match args with
  | target::_::operation::firstArg::rest =>
    if 1 < rest.length then .error .malformed
    else match opcodes (upper operation) with
      | none => .error .unsupported
      | some opcode =>
        let input1 := parseArg firstArg
        if opcode.numInputs=2 then
          match rest with
          | [] => .error .indexError
          | secondArg::_ =>
            let input2 := parseArg secondArg
            if input1.isInt && !input2.isInt then .error .literalFirst
            else if opcode=.op .MER && (input1.isInt || input2.isInt) then .error .literalInMerge
            else .ok (.assign target opcode input1 (some input2))
        else .ok (.assign target opcode input1 none)
  | _ => .error .malformed

/-- A line of BRR or NTG, which name their two outputs. The opcode is looked up as it is
written. -/
def decodeBranch (trueOutput falseOutput operation : Name) (rest : List Name) :
    Except AsmError Statement :=
  match rest with
  | [] => .error .indexError
  | inputVar::more =>
    let testVar := match more with
      | [test] => some (parseArg test)
      | _ => none
    match opcodes operation with
    | none => .error .keyError
    | some opcode => .ok (.branch (stripChars (· == ',') trueOutput)
        (stripChars (· == ',') falseOutput) opcode (parseArg inputVar) testVar)

def decodeArgs : List Name → Except AsmError Statement
  | [] => .ok .blank
  | [theLabel] =>
    if theLabel.getLast?=some ':' then .ok (.label (rstrip ':' theLabel))
    else .error .labelWithoutColon
  | args@(first::second::rest) =>
    if upper first="EXPORT".toList then .ok (.exportSymbol second)
    else if upper first="EXTERN".toList then .ok (.externSymbol second)
    else if second=['='] then decodeAssign args
    else if upper first=Opcode.OUTD.repr ∨ upper first=Opcode.OUTS.repr then
      if rest ≠ [] then .error .malformed
      else match opcodes (upper first) with
        | none => .error .keyError
        | some opcode => .ok (.output opcode (parseArg second))
    else match rest with
      | _::operation::more =>
        if upper operation=(Opcode.op .BRR).repr ∨ upper operation=(Opcode.op .NTG).repr then
          decodeBranch first second operation more
        else .ok .unprocessed
      | _ => .error .indexError

def decodeLine (line : Name) : Except AsmError Statement :=
  let line := strip line
  if line.isEmpty ∨ line.head?=some '#' then .ok .blank else decodeArgs (split line)

end Manchester.Assembler
