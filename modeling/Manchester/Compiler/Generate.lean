import Manchester.Assembler.Emit
import Manchester.Compiler.Syntax
import Manchester.Framework.Bytes
import Mathlib.Data.List.AList

namespace Manchester.Compiler

open Assembler (hasHexPrefix intBase16 digits encode)

/-- `str` of a number. -/
def decimal (n : Nat) : Name := Nat.toDigits 10 n

/-- Words with a blank between them. -/
def unwords : List Name → Name
  | [] => []
  | [w] => w
  | w::ws => w++ ' '::unwords ws

def assignLine (target operation : Name) (args : List Name) : Name :=
  unwords (target::['=']::operation::args)

def branchLine (first second operation : Name) (args : List Name) : Name :=
  unwords ((first++[','])::second::['=']::operation::args)

def Op.toAsm : Op → Name
  | .add => "ADD".toList
  | .sub => "SUB".toList
  | .mul => "MUL".toList
  | .div => "NOT_IMPLEMENTED".toList
  | .bitAnd => "AND".toList
  | .bitXor => "XOR".toList
  | .bitOr => "OR".toList
  | .bitShiftLeft => "SHL".toList
  | .bitShiftRight => "SHR".toList
  | .equals => "EQ".toList
  | .notEquals => "NEQ".toList
  | .lessThan => "LT".toList
  | .greaterThan => "GT".toList
  | .lessThanOrEqual => "LTE".toList
  | .greaterThanOrEqual => "GTE".toList

structure Function where
  name : CName
  argList : List Name
  isSpecial : Bool
  hasReturnValue : Bool
  isExternal : Bool

namespace Function

def argName (f : Function) (idx : Nat) : Name :=
  '_'::f.name.val++"_arg_".toList++decimal idx++if f.isExternal then "_export".toList else []

def returnLocation (f : Function) : Name :=
  '_'::f.name.val++"_return_location".toList++if f.isExternal then "_export".toList else []

end Function

/-- The functions that are single instructions, with the operation of each. -/
def specialFunctions : List (Function × Name) :=
  let special (name : CName) (args : List String) (hasReturnValue : Bool) (operation : String) :=
    (⟨name,args.map String.toList,true,hasReturnValue,false⟩,operation.toList)
  [special ⟨"OUTD".toList,by decide⟩ ["output"] false "OUTD",
    special ⟨"OUTS".toList,by decide⟩ ["output"] false "OUTS",
    special ⟨"OPEN".toList,by decide⟩ ["filename","flags"] true "OPN",
    special ⟨"READ".toList,by decide⟩ ["fd"] true "RED",
    special ⟨"WRITE".toList,by decide⟩ ["fd","byte"] true "WRT",
    special ⟨"CLOSE".toList,by decide⟩ ["fd"] true "CLS",
    special ⟨"HALT".toList,by decide⟩ ["status"] true "HLT",
    special ⟨"LOAD".toList,by decide⟩ ["filename","arg"] true "LOD",
    special ⟨"LISTDIR".toList,by decide⟩ ["dir"] true "LS",
    special ⟨"SENDFILE".toList,by decide⟩ ["in","out"] true "SDF",
    special ⟨"UNLINK".toList,by decide⟩ ["path"] true "ULK",
    special ⟨"LSEEK".toList,by decide⟩ ["fd","offset"] true "LSK",
    special ⟨"RANDOM".toList,by decide⟩ ["input"] true "RND"]

/-- The opcode in the line of a special function. -/
def specialOperation (name : CName) : Name :=
  ((specialFunctions.find? fun p => p.1.name=name).map Prod.snd).getD []

/-- How the compiler gives up. -/
inductive CompileError where
  | undefinedVariable | undefinedFunction | wrongNumberOfArguments | literalTooLong
  | noReturnStatement | undefinedExport | indexError | keyError | typeError | valueError
  | assertionError
  deriving DecidableEq, Repr

mutual

/-- ExtractFunctionsPass. An extern statement without parameters has no list of them. -/
def Stmt.functions : Stmt → Except CompileError (List Function)
  | .functionDef name args body => do
    let inner ← Stmt.functionsOfAll body
    return ⟨name,args.map Subtype.val,false,true,false⟩::inner
  | .conditional _ body elseBody => do
    let inner ← Stmt.functionsOfAll body
    let later ← Stmt.functionsOfAll elseBody
    return inner++later
  | .whileLoop _ body => Stmt.functionsOfAll body
  | .externStatement name args => do
    if args=[] then throw .indexError
    return [⟨name,args.map Subtype.val,false,true,true⟩]
  | .exportStatement _ | .returnStatement _ | .asmStatement _ | .expression _
  | .assignment _ _ => .ok []

def Stmt.functionsOfAll : List Stmt → Except CompileError (List Function)
  | [] => .ok []
  | s::rest => do
    let first ← s.functions
    let later ← Stmt.functionsOfAll rest
    return first++later

end

/-- The dictionary of the functions: a later one of the same name counts. -/
def functionNamed (functions : List Function) (name : CName) : Option Function :=
  functions.reverse.find? fun f => f.name=name

abbrev Variables := AList fun _ : CName => Name

/-- `sets` counts the sets that were iterated over. -/
structure Pass where
  toReturn : List Name
  vars : Variables
  returnVariables : List Name
  currentScopeTag : Option Name
  firstCallToCurrentScopeTag : Option Name
  currentConditionalTrueVar : Option Name
  num : Nat
  sets : Nat

/-- Python leaves the order open in which a set is iterated over: it may be another one for each
set. -/
structure SetOrder where
  order : (α : Type) → Nat → List α → List α
  perm : ∀ α n l,(order α n l).Perm l

namespace Pass

def empty : Pass := ⟨[],∅,[],none,none,none,0,0⟩

def emit (s : Pass) (line : Name) : Pass := {s with toReturn := s.toReturn++[line]}

def newTempVariable (s : Pass) : Name × Pass :=
  ("_tmp_".toList++decimal (s.num+1),{s with num := s.num+1})

def setVariable (s : Pass) (var : CName) (name : Name) : Pass :=
  {s with vars := s.vars.insert var name}

/-- `self.variables[var]` where the variable is known to be there. -/
def nameOf (s : Pass) (var : CName) : Name := (s.vars.lookup var).getD []

/-- The elements of a set in the order in which they are visited. -/
def iterate {α : Type} (order : SetOrder) (s : Pass) (elements : List α) : List α × Pass :=
  (order.order α s.sets elements,{s with sets := s.sets+1})

/-- The lines that a literal begins with: the pending ETG of the scope, if there is one, and the
literal with the tag of the scope. -/
def scopedLiteral (s : Pass) (num target : Name) : Pass :=
  match s.currentScopeTag with
  | none => s.emit (assignLine target "DUP".toList [num])
  | some tag =>
    let s := match s.firstCallToCurrentScopeTag with
      | none => s
      | some line => {s.emit line with firstCallToCurrentScopeTag := none}
    s.emit (assignLine target "CTG".toList [tag,num])

/-- `_create_num_literal`, which returns `newVariable`. -/
def createNumLiteral (s : Pass) (num newVariable : Name) : Pass :=
  match s.currentConditionalTrueVar with
  | none => s.scopedLiteral num newVariable
  | some guard =>
    let (unguarded,s) := s.newTempVariable
    (s.scopedLiteral num unguarded).emit
      (branchLine newVariable ['_'] "BRR".toList [unguarded,guard])

/-- A BRR for each used variable, with the names that it has in the branches. -/
def branchVariables (condition : Name) : List CName → Pass → List (CName × Name × Name) × Pass
  | [],s => ([],s)
  | var::rest,s =>
    let current := s.nameOf var
    let (tmp,s) := s.newTempVariable
    let trueVar := '_'::var.val++tmp++"_true".toList
    let (tmp,s) := s.newTempVariable
    let falseVar := '_'::var.val++tmp++"_false".toList
    let s := (s.setVariable var trueVar).emit
      (branchLine trueVar falseVar "BRR".toList [current,condition])
    let (branches,s) := branchVariables condition rest s
    ((var,trueVar,falseVar)::branches,s)

/-- The variables that the false branch begins with. -/
def falseVariables : List (CName × Name × Name) → Variables → Variables
  | [],vars => vars
  | (var,_,falseVar)::rest,vars => falseVariables rest (vars.insert var falseVar)

/-- A MER for each variable that has different names after the branches. -/
def mergeVariables (afterTrue afterFalse : Variables) : List CName → Pass → Pass
  | [],s => s
  | var::rest,s =>
    mergeVariables afterTrue afterFalse rest <|
      match afterTrue.lookup var,afterFalse.lookup var with
      | some trueName,some falseName =>
        if trueName=falseName then s
        else
          let (tmp,s) := s.newTempVariable
          let newName := '_'::var.val++"_phi".toList++tmp
          (s.emit (assignLine newName "MER".toList [trueName,falseName])).setVariable var newName
      | some name,none => s.setVariable var name
      | none,some name => s.setVariable var name
      | none,none => s

/-- The names of a used variable around a loop. -/
structure LoopVariable where
  var : CName
  priorName : Name
  definedBefore : Bool
  startName : Name
  lastValueName : Name
  againName : Name
  endName : Name

/-- The names of the used variables before the loop, with a name of its own for one that is not
defined yet. -/
def priorVariables : List CName → Pass → List (CName × Name × Bool) × Pass
  | [],s => ([],s)
  | var::rest,s =>
    match s.vars.lookup var with
    | some name =>
      let (prior,s) := priorVariables rest s
      ((var,name,true)::prior,s)
    | none =>
      let (tmp,s) := s.newTempVariable
      let (prior,s) := priorVariables rest s
      ((var,'_'::var.val++"_not_defined_before_loop".toList++tmp,false)::prior,s)

/-- The lines before the condition; `found` tells that the new tag has been made. -/
def loopStart (newTagWithOldTag oldTagWithOldTag oldTagWithNewTag : Name) :
    Bool → List (CName × Name × Bool) → Pass → List LoopVariable × Pass
  | _,[],s => ([],s)
  | found,(var,priorName,definedBefore)::rest,s =>
    let s := if !found && definedBefore then
        (s.emit (branchLine newTagWithOldTag oldTagWithOldTag "NTG".toList [priorName])).emit
          (assignLine oldTagWithNewTag "CTG".toList [newTagWithOldTag,oldTagWithOldTag])
      else s
    let (tmp,s) := s.newTempVariable
    let taggedPriorVariable := '_'::var.val++"_loop_input_tagged".toList++tmp
    let (tmp,s) := s.newTempVariable
    let lastValueName := '_'::var.val++"_loop_last_value".toList++tmp
    let (tmp,s) := s.newTempVariable
    let againName := '_'::var.val++"_loop_again".toList++tmp
    let (tmp,s) := s.newTempVariable
    let startName := '_'::var.val++"_loop_start".toList++tmp
    let (tmp,s) := s.newTempVariable
    let endName := '_'::var.val++"_loop_end".toList++tmp
    let s := ((s.emit (assignLine taggedPriorVariable "CTG".toList
      [newTagWithOldTag,priorName])).emit
        (assignLine startName "MER".toList [taggedPriorVariable,lastValueName])).setVariable var
          startName
    let (loopVariables,s) := loopStart newTagWithOldTag oldTagWithOldTag oldTagWithNewTag
      (found || definedBefore) rest s
    (⟨var,priorName,definedBefore,startName,lastValueName,againName,endName⟩::loopVariables,s)

/-- The lines between the condition and the body. -/
def loopBranches (oldTagWithNewTag condition : Name) : List LoopVariable → Pass → Pass
  | [],s => s
  | v::rest,s =>
    let (tmp,s) := s.newTempVariable
    let tmpTrueName := '_'::v.var.val++"_true".toList++tmp
    let (tmp,s) := s.newTempVariable
    let tmpFalseName := '_'::v.var.val++"_false".toList++tmp
    let s := (s.emit (branchLine tmpTrueName tmpFalseName "BRR".toList
      [v.startName,condition])).emit (assignLine v.againName "ITG".toList [tmpTrueName])
    let (tmp,s) := s.newTempVariable
    let resetIterationLevelOutput := '_'::v.var.val++"_reset_il".toList++tmp
    let s := (s.emit (assignLine resetIterationLevelOutput "SIL".toList
      [tmpFalseName,['0']])).emit
        (assignLine v.endName "CTG".toList [oldTagWithNewTag,resetIterationLevelOutput])
    loopBranches oldTagWithNewTag condition rest (s.setVariable v.var v.againName)

/-- The end of the body is connected to the start of the loop. -/
def loopEnd : List LoopVariable → Pass → Pass
  | [],s => s
  | v::rest,s =>
    loopEnd rest
      ((s.emit (assignLine v.lastValueName "DUP".toList [s.nameOf v.var])).setVariable v.var
        v.endName)

/-- The arguments of a function, from number i on. -/
def functionArgs (function : Function) (scopeTag : Name) : Nat → List CName → Pass → Pass
  | _,[],s => s
  | i,arg::rest,s =>
    let externalArgName := function.argName i
    let (tmp,s) := s.newTempVariable
    let internalArgName := tmp++"_internal_".toList++externalArgName
    let s := ((s.emit (externalArgName++"_export:".toList)).emit
      (assignLine internalArgName "DUP".toList [externalArgName])).setVariable arg internalArgName
    let s := if i=0 then
        {s with
          firstCallToCurrentScopeTag := some (assignLine scopeTag "ETG".toList [internalArgName])}
      else s
    functionArgs function scopeTag (i+1) rest s

/-- All returns but the first one are merged with it. -/
def mergeReturns : Name → List Name → Pass → Name × Pass
  | priorReturn,[],s => (priorReturn,s)
  | priorReturn,returnVar::rest,s =>
    let (newReturn,s) := s.newTempVariable
    mergeReturns newReturn rest (s.emit (assignLine newReturn "MER".toList [priorReturn,returnVar]))

/-- A return variable joins the set of them. -/
def addReturn (s : Pass) (name : Name) : Pass :=
  {s with
    returnVariables :=
      if name∈s.returnVariables then s.returnVariables else s.returnVariables++[name]}

/-- The arguments of a call get the new tag. -/
def callArgs (function : Function) (newTagWithOldTag : Name) : Nat → List Name → Pass → Pass
  | _,[],s => s
  | i,arg::rest,s =>
    callArgs function newTagWithOldTag (i+1) rest
      (s.emit (assignLine (function.argName i) "CTG".toList [newTagWithOldTag,arg]))

/-- A call of a function that is no single instruction. -/
def normalCall (s : Pass) (function : Function) (args : List Name) :
    Except CompileError (Name × Pass) :=
  match args with
  | [] => .error .assertionError
  | arg0::_ =>
    let s := s.emit ("# Function call to ".toList++function.name.val)
    let (tmp,s) := s.newTempVariable
    let newTagWithOldTag := tmp++"_new_tag_with_old".toList
    let (tmp,s) := s.newTempVariable
    let oldTagWithOldTag := tmp++"_old_tag_with_old".toList
    let (tmp,s) := s.newTempVariable
    let newTagWithNewTag := tmp++"_new_tag_with_new".toList
    let (tmp,s) := s.newTempVariable
    let oldTagWithNewTag := tmp++"_old_tag_with_new".toList
    let s := ((s.emit (branchLine newTagWithOldTag oldTagWithOldTag "NTG".toList [arg0])).emit
      (assignLine newTagWithNewTag "CTG".toList [newTagWithOldTag,newTagWithOldTag])).emit
        (assignLine oldTagWithNewTag "CTG".toList [newTagWithOldTag,oldTagWithOldTag])
    let s := callArgs function newTagWithOldTag 0 args s
    let (tmp,s) := s.newTempVariable
    let returnLabel := tmp++ '_'::function.name.val++"_return_label".toList
    let s := s.emit (assignLine function.returnLocation "CTG".toList
      [newTagWithNewTag,returnLabel])
    let (tmp,s) := s.newTempVariable
    let returnedTaggedVar := tmp++"_return_value_tagged".toList
    let s := (s.emit (returnLabel++[':'])).emit
      (assignLine returnedTaggedVar "DUP".toList [['_']])
    let (tmp,s) := s.newTempVariable
    let returnedNormalTaggedVar := tmp++"_return_value".toList
    .ok (returnedNormalTaggedVar,s.emit (assignLine returnedNormalTaggedVar "CTG".toList
      [oldTagWithNewTag,returnedTaggedVar]))

/-- What an expression without a value looks like in a line. -/
def noneText : Name := "None".toList

/-- The end of `function_call`, once the arguments have been visited. -/
def functionCall (s : Pass) (functions : List Function) (name : CName) (args : List Name) :
    Except CompileError (Name × Pass) :=
  match functionNamed functions name with
  | none => .error .undefinedFunction
  | some function =>
    if args.length ≠ function.argList.length then .error .wrongNumberOfArguments
    else if function.isSpecial then
      if function.hasReturnValue then
        let (tmp,s) := s.newTempVariable
        let returnVar := '_'::name.val++"_return_".toList++tmp
        .ok (returnVar,s.emit (assignLine returnVar (specialOperation name) args))
      else .ok (noneText,s.emit (unwords (specialOperation name::args)))
    else s.normalCall function args

/-- A literal in a variable of its own. -/
def number (s : Pass) (num : Name) : Name × Pass :=
  let (newVariable,s) := s.newTempVariable
  (newVariable,s.createNumLiteral num newVariable)

/-- `int(text,16)`. -/
def intOfHex (text : Name) : Option Int :=
  if hasHexPrefix text then intBase16 text else (digits 16 true 0 text).map Int.ofNat

def hexnumber (s : Pass) (text : Name) : Except CompileError (Name × Pass) :=
  match intOfHex text with
  | none => .error .valueError
  | some num => .ok (s.number (decimal num.toNat))

/-- A string of up to eight characters is the number that its bytes make. -/
def string (s : Pass) (text : Name) : Except CompileError (Name × Pass) :=
  if 8 < text.length then .error .literalTooLong
  else .ok (s.number (decimal (Bytes.toNatLE (encode text))))

/-- OUTS of each of the pieces of a text. -/
def outsPieces (functions : List Function) : List Name → Pass → Except CompileError Pass
  | [],s => .ok s
  | piece::rest,s => do
    let (arg,s) ← s.string piece
    let (_,s) ← s.functionCall functions ⟨"OUTS".toList,by decide⟩ [arg]
    outsPieces functions rest s

end Pass

/-- The lines of a text with newlines, as the assembler reads them from the file. -/
def fileLines (text : Name) : List Name := text.splitOnP fun c => c == '\n' || c == '\r'

section Generate

variable (functions : List Function) (order : SetOrder)

mutual

/-- The visit of an expression: the name of its value. -/
def Expr.visit : Expr → Pass → Except CompileError (Name × Pass)
  | .functionCall name args,s => do
    let (args,s) ← Expr.visitArgs args s
    s.functionCall functions name args
  | .outsLiteral text,s => do
    let s ← s.outsPieces functions (text.toChunks 8)
    return (Pass.noneText,s)
  | .binaryOperation left op right,s => do
    let (leftVar,s) ← left.visit s
    let (rightVar,s) ← right.visit s
    let (newVariable,s) := s.newTempVariable
    return (newVariable,s.emit (assignLine newVariable op.toAsm [leftVar,rightVar]))
  | .varName name,s =>
    match s.vars.lookup name with
    | some var => .ok (var,s)
    | none => .error .undefinedVariable
  | .string text,s => s.string text
  | .number num,s => .ok (s.number num.val)
  | .hexnumber num,s => s.hexnumber num.val

def Expr.visitArgs : List Expr → Pass → Except CompileError (List Name × Pass)
  | [],s => .ok ([],s)
  | e::es,s => do
    let (arg,s) ← e.visit s
    let (args,s) ← Expr.visitArgs es s
    return (arg::args,s)

end

/-- The variables that the branches use, as a set: of these the ones that are defined. -/
def usedDefined (s : Pass) (used : List CName) : List CName :=
  used.dedup.filter fun var => var∈s.vars.keys

mutual

/-- The visit of a statement. -/
def Stmt.visit : Stmt → Pass → Except CompileError Pass
  | .functionDef name args body,s => do
    if args=[] then throw .indexError
    let function ← match functionNamed functions name with
      | some function => pure function
      | none => throw .keyError
    let s := s.emit ("# Defining function ".toList++name.val)
    let priorScopeTag := s.currentScopeTag
    let priorFirstCall := s.firstCallToCurrentScopeTag
    let (tmp,s) := s.newTempVariable
    let scopeTag := tmp++"_function_tag".toList
    let priorVars := s.vars
    let s := Pass.functionArgs function scopeTag 0 args {s with currentScopeTag := some scopeTag}
    let priorReturnVariables := s.returnVariables
    let s ← Stmt.visitAll body s
    let (returns,s) := s.iterate order s.returnVariables
    match returns with
    | [] => throw .noReturnStatement
    | first::rest =>
      let (priorReturn,s) := Pass.mergeReturns first rest s
      let s := s.emit (function.returnLocation++"_export:".toList)
      let (exportedReturnLoc,s) := s.newTempVariable
      let s := (s.emit (assignLine exportedReturnLoc "DUP".toList
        [function.returnLocation])).emit
          (assignLine ['_'] "RTD".toList [priorReturn,exportedReturnLoc])
      return {s with
        vars := priorVars
        returnVariables := priorReturnVariables
        currentScopeTag := priorScopeTag
        firstCallToCurrentScopeTag := priorFirstCall}
  | .conditional condition body elseBody,s => do
    let (conditionVar,s) ← condition.visit functions s
    let used ← match Stmt.usedInAll true body,Stmt.usedInAll true elseBody with
      | some inBody,some inElse => pure (inBody++inElse)
      | _,_ => throw .typeError
    let (used,s) := s.iterate order (usedDefined s used)
    let pastVariables := s.vars
    let (branches,s) := Pass.branchVariables conditionVar used s
    let priorConditionalTrueVar := s.currentConditionalTrueVar
    let (tmp,s) := s.newTempVariable
    let trueValue := tmp++"_1".toList
    let s := s.createNumLiteral ['1'] trueValue
    let (tmp,s) := s.newTempVariable
    let conditionalTrueVar := tmp++"_true".toList
    let (tmp,s) := s.newTempVariable
    let conditionalFalseVar := tmp++"_false".toList
    let s := s.emit (branchLine conditionalTrueVar conditionalFalseVar "BRR".toList
      [trueValue,conditionVar])
    let s ← Stmt.visitAll body {s with currentConditionalTrueVar := some conditionalTrueVar}
    let afterTrueVariables := s.vars
    let s ← Stmt.visitAll elseBody {s with
      currentConditionalTrueVar := some conditionalFalseVar
      vars := Pass.falseVariables branches pastVariables}
    let afterFalseVariables := s.vars
    let s := {s with currentConditionalTrueVar := priorConditionalTrueVar}
    let (newVariables,s) :=
      s.iterate order (afterFalseVariables.keys++afterTrueVariables.keys).dedup
    return Pass.mergeVariables afterTrueVariables afterFalseVariables newVariables s
  | .whileLoop condition body,s => do
    let used ← match Stmt.usedInAll true body with
      | some inBody => pure (condition.usedVariables++inBody).dedup
      | none => throw .typeError
    let (used,s) := s.iterate order used
    let (prior,s) := Pass.priorVariables used s
    let (tmp,s) := s.newTempVariable
    let newTagWithOldTag := tmp++"_new_tag_with_old".toList
    let (tmp,s) := s.newTempVariable
    let oldTagWithOldTag := tmp++"_old_tag_with_old".toList
    let (tmp,s) := s.newTempVariable
    let oldTagWithNewTag := tmp++"_old_tag_with_new".toList
    let (loopVariables,s) := Pass.loopStart newTagWithOldTag oldTagWithOldTag oldTagWithNewTag
      false prior s
    let priorConditionalTrueVar := s.currentConditionalTrueVar
    let priorScopeTag := s.currentScopeTag
    let priorFirstCall := s.firstCallToCurrentScopeTag
    let aVariable ← match loopVariables.find? fun v => v.definedBefore with
      | some v => pure v
      | none => throw .keyError
    let (tmp,s) := s.newTempVariable
    let currentLoopTag := "_loop_current_tag".toList++tmp
    let s := s.emit (assignLine currentLoopTag "ETG".toList [aVariable.startName])
    let (conditionVar,s) ← condition.visit functions {s with
      currentScopeTag := some currentLoopTag
      firstCallToCurrentScopeTag := none
      currentConditionalTrueVar := none}
    let (tmp,s) := s.newTempVariable
    let nextLoopTag := "_loop_next_tag".toList++tmp
    let s := s.emit (assignLine nextLoopTag "ETG".toList [aVariable.againName])
    let s := Pass.loopBranches oldTagWithNewTag conditionVar loopVariables {s with
      currentScopeTag := some nextLoopTag
      firstCallToCurrentScopeTag := none
      currentConditionalTrueVar := none}
    let s ← Stmt.visitAll body s
    let s := Pass.loopEnd loopVariables s
    return {s with
      currentScopeTag := priorScopeTag
      firstCallToCurrentScopeTag := priorFirstCall
      currentConditionalTrueVar := priorConditionalTrueVar}
  | .exportStatement name,s =>
    match functionNamed functions name with
    | none => .error .undefinedExport
    | some function =>
      let exports := (List.range function.argList.length).map function.argName++
        [function.returnLocation]
      .ok (exports.foldl (fun s symbol => s.emit ("export ".toList++symbol++"_export".toList)) s)
  | .externStatement name _,s =>
    match functionNamed functions name with
    | none => .error .assertionError
    | some function =>
      let externs := (List.range function.argList.length).map function.argName++
        [function.returnLocation]
      .ok (externs.foldl (fun s symbol => s.emit ("extern ".toList++symbol)) s)
  | .returnStatement none,_ => .error .indexError
  | .returnStatement (some e),s => do
    let (name,s) ← e.visit functions s
    return s.addReturn name
  | .asmStatement text,s => .ok ((fileLines (Assembler.strip text)).foldl Pass.emit s)
  | .expression e,s => do
    let (_,s) ← e.visit functions s
    return s
  | .assignment lhs e,s => do
    let (result,s) ← e.visit functions s
    let (tmp,s) := s.newTempVariable
    let newVariableName := lhs.val++tmp
    return (s.emit (assignLine newVariableName "DUP".toList [result])).setVariable lhs
      newVariableName

def Stmt.visitAll : List Stmt → Pass → Except CompileError Pass
  | [],s => .ok s
  | statement::rest,s => do
    let s ← statement.visit s
    Stmt.visitAll rest s

end

end Generate

/-- The assembly of a program. -/
def compile (order : SetOrder) (program : List Stmt) : Except CompileError (List Name) := do
  let functions ← Stmt.functionsOfAll program
  let s ← Stmt.visitAll (functions++specialFunctions.map Prod.fst) order program Pass.empty
  return s.toReturn

end Manchester.Compiler
