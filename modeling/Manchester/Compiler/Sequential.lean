import Manchester.Assembler.Firing
import Manchester.Compiler.Generate

namespace Manchester.Compiler

open Assembler (parseArg)

/-- The values of the variables that are defined. -/
abbrev Env (α : Type) := CName → Option α

/-- The instruction of an operator; the machine has none for a division. -/
def Op.opcode : Op → Option OpcodeType
  | .add => some .ADD
  | .sub => some .SUB
  | .mul => some .MUL
  | .div => none
  | .bitAnd => some .AND
  | .bitXor => some .XOR
  | .bitOr => some .OR
  | .bitShiftLeft => some .SHL
  | .bitShiftRight => some .SHR
  | .equals => some .EQ
  | .notEquals => some .NEQ
  | .lessThan => some .LT
  | .greaterThan => some .GT
  | .lessThanOrEqual => some .LTE
  | .greaterThanOrEqual => some .GTE

/-- The number that a literal stands for. -/
def Expr.literalValue : Expr → Option Int
  | .number num =>
    match parseArg num.val with
    | .int value => some value
    | .str _ => none
  | .hexnumber num => Pass.intOfHex num.val
  | .string text =>
    if text.length ≤ 8 then some (Bytes.toNatLE (Assembler.encode text)) else none
  | _ => none

/-- The assembler stores numbers of 64 bits. -/
def fitsWord (value : Int) : Bool := -2^63 ≤ value ∧ value < 2^63

/-- An expression of variables, numbers of 64 bits and the operators of the machine. -/
def Expr.isPlain : Expr → Bool
  | .varName _ => true
  | .binaryOperation left op right => op.opcode.isSome && left.isPlain && right.isPlain
  | .functionCall _ _ => false
  | .outsLiteral _ => false
  | e => e.literalValue.any fitsWord

/-- The value of an expression; none where a variable is not defined. -/
def Expr.eval (σ : Env DataType) : Expr → Option DataType
  | .varName name => σ name
  | .binaryOperation left op right =>
    match left.eval σ,right.eval σ,op.opcode with
    | some a,some b,some o => Assembler.compute o a b
    | _,_,_ => none
  | e => e.literalValue.map (BitVec.ofInt 64)

/-- The argument of a call of OUTD. -/
def Expr.printed : Expr → Option Expr
  | .functionCall name [arg] => if name.val="OUTD".toList then some arg else none
  | _ => none

mutual

/-- A statement of assignments, OUTD statements and conditionals. -/
def Stmt.isPlain : Stmt → Bool
  | .assignment _ e => e.isPlain
  | .expression e => (e.printed.getD e).isPlain
  | .conditional condition body elseBody =>
    condition.isPlain && Stmt.allPlain body && Stmt.allPlain elseBody
  | _ => false

def Stmt.allPlain : List Stmt → Bool
  | [] => true
  | s::rest => s.isPlain && Stmt.allPlain rest

end

mutual

/-- How many OUTD statements there are in the text. -/
def Stmt.outputs : Stmt → Nat
  | .expression e => if e.printed.isSome then 1 else 0
  | .conditional _ body elseBody => Stmt.outputsOfAll body+Stmt.outputsOfAll elseBody
  | _ => 0

def Stmt.outputsOfAll : List Stmt → Nat
  | [] => 0
  | s::rest => s.outputs+Stmt.outputsOfAll rest

end

mutual

/-- Sequential execution: the variables afterwards, and for each OUTD statement of the text, in
order, what it prints if it is reached. None where a variable is read that is not defined. -/
def Stmt.exec : Stmt → Env DataType → Option (Env DataType × List (Option DataType))
  | .assignment lhs e,σ => (e.eval σ).map fun v => (Function.update σ lhs (some v),[])
  | .expression e,σ =>
    match e.printed with
    | some arg => (arg.eval σ).map fun v => (σ,[some v])
    | none => (e.eval σ).map fun _ => (σ,[])
  | .conditional condition body elseBody,σ =>
    match condition.eval σ with
    | none => none
    | some v =>
      if v ≠ 0 then
        (Stmt.execAll body σ).map fun r =>
          (r.1,r.2++List.replicate (Stmt.outputsOfAll elseBody) none)
      else
        (Stmt.execAll elseBody σ).map fun r =>
          (r.1,List.replicate (Stmt.outputsOfAll body) none++r.2)
  | _,_ => none

def Stmt.execAll : List Stmt → Env DataType → Option (Env DataType × List (Option DataType))
  | [],σ => some (σ,[])
  | s::rest,σ =>
    match s.exec σ with
    | none => none
    | some (σ1,outs) => (Stmt.execAll rest σ1).map fun r => (r.1,outs++r.2)

end

end Manchester.Compiler
