import Manchester.Assembler.Syntax

namespace Manchester.Compiler

export Assembler (Name)

def isCNameChar (c : Char) : Bool := c == '_' || c.isAlphanum

def isCName : Name → Bool
  | [] => false
  | c::cs => (c == '_' || c.isAlpha) && cs.all isCNameChar

def isSignedInt : Name → Bool
  | '+'::cs => !cs.isEmpty && cs.all Char.isDigit
  | '-'::cs => !cs.isEmpty && cs.all Char.isDigit
  | cs => !cs.isEmpty && cs.all Char.isDigit

/-- An exponent, or nothing. -/
def isExponent : Name → Bool
  | [] => true
  | c::cs => (c == 'e' || c == 'E') && isSignedInt cs

def isUnsigned (cs : Name) : Bool :=
  let whole := cs.takeWhile Char.isDigit
  match cs.dropWhile Char.isDigit with
  | '.'::rest =>
    let fraction := rest.takeWhile Char.isDigit
    (!whole.isEmpty || !fraction.isEmpty) && isExponent (rest.dropWhile Char.isDigit)
  | rest => !whole.isEmpty && isExponent rest

def isSignedNumber : Name → Bool
  | '+'::cs => isUnsigned cs
  | '-'::cs => isUnsigned cs
  | cs => isUnsigned cs

/-- The token CNAME. -/
abbrev CName := {s : Name // isCName s=true}

instance : LawfulBEq CName := inferInstance

/-- The token NUMBER, a SIGNED_NUMBER. -/
abbrev Number := {s : Name // isSignedNumber s=true}

/-- What follows 0x. Letters beyond f are accepted here and refused later. -/
abbrev HexNumber := {s : Name // (!s.isEmpty && s.all Char.isAlphanum)=true}

inductive Op where
  | add | sub | mul | div | bitAnd | bitXor | bitOr | bitShiftLeft | bitShiftRight
  | equals | notEquals | lessThan | greaterThan | lessThanOrEqual | greaterThanOrEqual
  deriving DecidableEq, Repr

/-- A string literal is held as the characters it denotes. -/
inductive Expr where
  | functionCall (name : CName) (args : List Expr)
  | outsLiteral (text : Name)
  | binaryOperation (left : Expr) (op : Op) (right : Expr)
  | varName (name : CName)
  | string (text : Name)
  | number (num : Number)
  | hexnumber (num : HexNumber)

/-- A list of arguments or an else clause that is not written is the empty one. -/
inductive Stmt where
  | functionDef (name : CName) (args : List CName) (body : List Stmt)
  | conditional (condition : Expr) (body elseBody : List Stmt)
  | whileLoop (condition : Expr) (body : List Stmt)
  | exportStatement (name : CName)
  | externStatement (name : CName) (args : List CName)
  | returnStatement (value : Option Expr)
  | asmStatement (text : Name)
  | expression (e : Expr)
  | assignment (lhs : CName) (e : Expr)

mutual

def Expr.usedVariables : Expr → List CName
  | .functionCall _ args => Expr.usedArgs args
  | .outsLiteral _ => []
  | .binaryOperation left _ right => right.usedVariables++left.usedVariables
  | .varName name => [name]
  | .string _ => []
  | .number _ => []
  | .hexnumber _ => []

def Expr.usedArgs : List Expr → List CName
  | [] => []
  | e::es => e.usedVariables++Expr.usedArgs es

end

mutual

/-- None where the pass fails: nothing handles an export statement, and its tree cannot be
flattened. -/
def Stmt.usedVariables (countLhs : Bool) : Stmt → Option (List CName)
  | .functionDef _ _ body => Stmt.usedInAll countLhs body
  | .conditional condition body elseBody =>
    match Stmt.usedInAll countLhs body,Stmt.usedInAll countLhs elseBody with
    | some inBody,some inElse => some (condition.usedVariables++inBody++inElse)
    | _,_ => none
  | .whileLoop condition body =>
    match Stmt.usedInAll countLhs body with
    | some inBody => some (condition.usedVariables++inBody)
    | none => none
  | .exportStatement _ => none
  | .externStatement _ _ => some []
  | .returnStatement value => some ((value.map Expr.usedVariables).getD [])
  | .asmStatement _ => some []
  | .expression e => some e.usedVariables
  | .assignment lhs e => some ((if countLhs then [lhs] else [])++e.usedVariables)

def Stmt.usedInAll (countLhs : Bool) : List Stmt → Option (List CName)
  | [] => some []
  | s::rest =>
    match s.usedVariables countLhs,Stmt.usedInAll countLhs rest with
    | some used,some more => some (used++more)
    | _,_ => none

end

end Manchester.Compiler
