import Manchester.Compiler.Calls
import Manchester.Compiler.Text
import Mathlib.Data.List.TakeWhile

namespace Manchester.Os

open Compiler

namespace Var

def s : CName := ⟨['s'],by decide⟩
def i : CName := ⟨['i'],by decide⟩
def shiftAmount : CName := ⟨['s','h','i','f','t','_','a','m','o','u','n','t'],by decide⟩
def shifted : CName := ⟨['s','h','i','f','t','e','d'],by decide⟩
def char : CName := ⟨['c','h','a','r'],by decide⟩
def done : CName := ⟨['d','o','n','e'],by decide⟩
def s1 : CName := ⟨['s','1'],by decide⟩
def s2 : CName := ⟨['s','2'],by decide⟩
def str1Len : CName := ⟨['s','t','r','1','_','l','e','n'],by decide⟩
def str2Len : CName := ⟨['s','t','r','2','_','l','e','n'],by decide⟩
def toReturn : CName := ⟨['t','o','_','r','e','t','u','r','n'],by decide⟩
def char1 : CName := ⟨['c','h','a','r','_','1'],by decide⟩
def char2 : CName := ⟨['c','h','a','r','_','2'],by decide⟩
def haystack : CName := ⟨['h','a','y','s','t','a','c','k'],by decide⟩
def needle : CName := ⟨['n','e','e','d','l','e'],by decide⟩
def mask : CName := ⟨['m','a','s','k'],by decide⟩
def needleLen : CName := ⟨['n','e','e','d','l','e','_','l','e','n'],by decide⟩
def str : CName := ⟨['s','t','r'],by decide⟩
def start : CName := ⟨['s','t','a','r','t'],by decide⟩
def endPos : CName := ⟨['e','n','d'],by decide⟩
def toReturnIdx : CName := ⟨['t','o','_','r','e','t','u','r','n','_','i','d','x'],by decide⟩
def len : CName := ⟨['l','e','n'],by decide⟩
def n : CName := ⟨['n'],by decide⟩
def x : CName := ⟨['x'],by decide⟩
def result : CName := ⟨['r','e','s','u','l','t'],by decide⟩
def digitVal : CName := ⟨['d','i','g','i','t','_','v','a','l'],by decide⟩
def value : CName := ⟨['v','a','l','u','e'],by decide⟩
def iter : CName := ⟨['i','t','e','r'],by decide⟩
def filename : CName := ⟨['f','i','l','e','n','a','m','e'],by decide⟩
def flags : CName := ⟨['f','l','a','g','s'],by decide⟩
def fd : CName := ⟨['f','d'],by decide⟩
def num : CName := ⟨['n','u','m'],by decide⟩
def byte : CName := ⟨['b','y','t','e'],by decide⟩
def bytes : CName := ⟨['b','y','t','e','s'],by decide⟩
def inFd : CName := ⟨['i','n','_','f','d'],by decide⟩
def outFd : CName := ⟨['o','u','t','_','f','d'],by decide⟩
def arg : CName := ⟨['a','r','g'],by decide⟩
def directory : CName := ⟨['d','i','r','e','c','t','o','r','y'],by decide⟩
def input : CName := ⟨['i','n','p','u','t'],by decide⟩
def length : CName := ⟨['l','e','n','g','t','h'],by decide⟩
def hash : CName := ⟨['h','a','s','h'],by decide⟩

end Var

namespace Fn

def charAt : CName := ⟨['c','h','a','r','_','a','t'],by decide⟩
def strlen : CName := ⟨['s','t','r','l','e','n'],by decide⟩
def strcat : CName := ⟨['s','t','r','c','a','t'],by decide⟩
def strcmp : CName := ⟨['s','t','r','c','m','p'],by decide⟩
def strstr : CName := ⟨['s','t','r','s','t','r'],by decide⟩
def substring : CName := ⟨['s','u','b','s','t','r','i','n','g'],by decide⟩
def reverseString : CName := ⟨['r','e','v','e','r','s','e','_','s','t','r','i','n','g'],by decide⟩
def upcase : CName := ⟨['u','p','c','a','s','e'],by decide⟩
def pow : CName := ⟨['p','o','w'],by decide⟩
def atoi : CName := ⟨['a','t','o','i'],by decide⟩
def openFile : CName := ⟨['o','p','e','n','_','f','i','l','e'],by decide⟩
def OPEN : CName := ⟨['O','P','E','N'],by decide⟩
def closeFile : CName := ⟨['c','l','o','s','e','_','f','i','l','e'],by decide⟩
def CLOSE : CName := ⟨['C','L','O','S','E'],by decide⟩
def readBytes : CName := ⟨['r','e','a','d','_','b','y','t','e','s'],by decide⟩
def READ : CName := ⟨['R','E','A','D'],by decide⟩
def readLine : CName := ⟨['r','e','a','d','_','l','i','n','e'],by decide⟩
def writeBytes : CName := ⟨['w','r','i','t','e','_','b','y','t','e','s'],by decide⟩
def WRITE : CName := ⟨['W','R','I','T','E'],by decide⟩
def sendfile : CName := ⟨['s','e','n','d','f','i','l','e'],by decide⟩
def SENDFILE : CName := ⟨['S','E','N','D','F','I','L','E'],by decide⟩
def loadFile : CName := ⟨['l','o','a','d','_','f','i','l','e'],by decide⟩
def LOAD : CName := ⟨['L','O','A','D'],by decide⟩
def listDirectory : CName := ⟨['l','i','s','t','_','d','i','r','e','c','t','o','r','y'],by decide⟩
def LISTDIR : CName := ⟨['L','I','S','T','D','I','R'],by decide⟩
def unlink : CName := ⟨['u','n','l','i','n','k'],by decide⟩
def UNLINK : CName := ⟨['U','N','L','I','N','K'],by decide⟩
def jenkinsHashFunctionCont : CName :=
  ⟨['j','e','n','k','i','n','s','_','h','a','s','h','_','f','u','n','c','t','i','o','n','_','c',
    'o','n','t'],by decide⟩
def jenkinsHashFunction : CName :=
  ⟨['j','e','n','k','i','n','s','_','h','a','s','h','_','f','u','n','c','t','i','o','n'],by decide⟩
def getentropy : CName := ⟨['g','e','t','e','n','t','r','o','p','y'],by decide⟩
def RANDOM : CName := ⟨['R','A','N','D','O','M'],by decide⟩

end Fn

instance : Coe CName Expr := ⟨.varName⟩

theorem isSignedNumber_decimal (n : Nat) : isSignedNumber (decimal n)=true := by
  have hdigits : ∀ c∈decimal n,c.isDigit=true := fun c hc => decimal_isDigit hc
  have hunsigned : isUnsigned (decimal n)=true := by
    have hwhole : (decimal n).takeWhile Char.isDigit=decimal n :=
      List.takeWhile_eq_self_iff.mpr hdigits
    have hrest : (decimal n).dropWhile Char.isDigit=[] := List.dropWhile_eq_nil_iff.mpr hdigits
    rw [isUnsigned,hwhole,hrest]
    simp [decimal_ne_nil,isExponent]
  unfold isSignedNumber
  split
  · rename_i heq
    have hplus := hdigits '+' (by simp [heq])
    cases hplus
  · rename_i heq
    have hminus := hdigits '-' (by simp [heq])
    cases hminus
  · exact hunsigned

def number (n : Nat) : Expr := .number ⟨decimal n,isSignedNumber_decimal n⟩

def minusOne : Expr := .number ⟨[ '-','1'],by decide⟩

def hexFF : Expr := .hexnumber ⟨[ 'f','f'],by decide⟩

def hexFFFFFFFF : Expr := .hexnumber ⟨List.replicate 8 'F',by decide⟩

def flagText : Expr := .string [ 'f','l','a','g']

def newline : Expr := .string [ '\n']

def asm (text : String) : Stmt := .asmStatement text.toList

section

open Var

/-- `char_at(s, i)` -/
def charAt : List Stmt :=
  [.assignment shiftAmount (.binaryOperation i .mul (number 8)),
    .assignment shifted (.binaryOperation s .bitShiftRight shiftAmount),
    .returnStatement (some (.binaryOperation shifted .bitAnd hexFF))]

def strlenLoop : List Stmt :=
  [.assignment char (.functionCall Fn.charAt [s,i]),
    .conditional
      (.binaryOperation (.binaryOperation char .equals (number 0)) .bitOr
        (.binaryOperation i .equals (number 8)))
      [.assignment done (number 1)]
      [.assignment i (.binaryOperation i .add (number 1)),
        asm "_ = RTD combine combine_return",
        asm "_ = RTD combine _jenkins_hash_function_arg_0_export",
        asm "_ = RTD tag _jenkins_hash_function_arg_1_export"]]

/-- `strlen(s)` -/
def strlen : List Stmt :=
  [.assignment i (number 0),
    .assignment done (number 0),
    .whileLoop (.binaryOperation done .equals (number 0)) strlenLoop,
    .returnStatement (some i)]

/-- `strcat(s1, s2)` -/
def strcat : List Stmt :=
  [.assignment str1Len (.functionCall Fn.strlen [s1]),
    .assignment str2Len (.functionCall Fn.strlen [s2]),
    .conditional (.binaryOperation (.binaryOperation str1Len .add str2Len) .greaterThan (number 8))
      [.returnStatement (some (number 0)),
        asm "return_loc = DUP jenkins_return"]
      [.assignment toReturn
          (.binaryOperation s2 .bitShiftLeft (.binaryOperation str1Len .mul (number 8))),
        .assignment toReturn (.binaryOperation toReturn .bitXor s1),
        .returnStatement (some toReturn)]]

def strcmpLoop : List Stmt :=
  [.assignment char1 (.functionCall Fn.charAt [s1,i]),
    .assignment char2 (.functionCall Fn.charAt [s2,i]),
    asm "tag = ETG combine",
    .conditional (.binaryOperation char1 .lessThan char2)
      [.assignment toReturn minusOne,
        .assignment done (number 1)]
      [.conditional (.binaryOperation char1 .greaterThan char2)
          [.assignment toReturn (number 1),
            .assignment done (number 1)]
          []],
    .conditional (.binaryOperation i .greaterThan (number 8))
      [.assignment done (number 1)]
      [],
    .assignment i (.binaryOperation i .add (number 1))]

/-- `strcmp(s1, s2)` -/
def strcmp : List Stmt :=
  [.assignment i (number 0),
    .assignment toReturn (number 0),
    .assignment done (number 0),
    .whileLoop (.binaryOperation done .equals (number 0)) strcmpLoop,
    .returnStatement (some toReturn)]

def strstrMaskLoop : List Stmt :=
  [.assignment mask (.binaryOperation mask .bitShiftLeft (number 8)),
    .assignment mask (.binaryOperation mask .bitOr hexFF),
    .assignment i (.binaryOperation i .add (number 1))]

def strstrLoop : List Stmt :=
  [.conditional (.binaryOperation haystack .equals (number 0))
      [.assignment done (number 1)]
      [],
    .conditional (.binaryOperation (.binaryOperation haystack .bitAnd mask) .equals needle)
      [.assignment toReturn i,
        .assignment done (number 1)]
      [.assignment haystack (.binaryOperation haystack .bitShiftRight (number 8)),
        asm " _ = RTD return_loc _jenkins_hash_function_return_location_export"],
    .assignment i (.binaryOperation i .add (number 1))]

/-- `strstr(haystack, needle)` -/
def strstr : List Stmt :=
  [.assignment needleLen (.functionCall Fn.strlen [needle]),
    .assignment mask (number 0),
    .assignment i (number 0),
    .whileLoop (.binaryOperation i .lessThan needleLen) strstrMaskLoop,
    .assignment toReturn minusOne,
    .assignment done (number 0),
    .assignment i (number 0),
    .whileLoop (.binaryOperation done .equals (number 0)) strstrLoop,
    .returnStatement (some toReturn)]

def substringLoop : List Stmt :=
  [.conditional
      (.binaryOperation (.binaryOperation i .greaterThanOrEqual start) .bitAnd
        (.binaryOperation i .lessThan endPos))
      [.assignment char (.functionCall Fn.charAt [str,i]),
        .assignment toReturn
          (.binaryOperation
            (.binaryOperation char .bitShiftLeft (.binaryOperation (number 8) .mul toReturnIdx))
            .bitXor toReturn),
        .assignment toReturnIdx (.binaryOperation toReturnIdx .add (number 1))]
      [],
    .assignment i (.binaryOperation i .add (number 1))]

/-- `substring(str, start, end)` -/
def substring : List Stmt :=
  [.assignment i (number 0),
    .assignment toReturn (number 0),
    .assignment toReturnIdx (number 0),
    .whileLoop (.binaryOperation i .lessThan (number 8)) substringLoop,
    .returnStatement (some toReturn)]

def reverseStringLoop : List Stmt :=
  [.assignment char (.functionCall Fn.charAt [str,i]),
    .assignment toReturn (.binaryOperation toReturn .bitShiftLeft (number 8)),
    .assignment toReturn (.binaryOperation char .bitXor toReturn),
    .assignment i (.binaryOperation i .add (number 1))]

/-- `reverse_string(str)` -/
def reverseString : List Stmt :=
  [.assignment len (.functionCall Fn.strlen [str]),
    .assignment toReturn (number 0),
    .assignment i (number 0),
    .whileLoop (.binaryOperation i .lessThan len) reverseStringLoop,
    .returnStatement (some toReturn)]

def upcaseLoop : List Stmt :=
  [.assignment char (.functionCall Fn.charAt [str,i]),
    .conditional
      (.binaryOperation (.binaryOperation char .greaterThanOrEqual (number 97)) .bitAnd
        (.binaryOperation char .lessThanOrEqual (number 122)))
      [.assignment char (.binaryOperation char .sub (number 32))]
      [],
    .assignment toReturn
      (.binaryOperation
        (.binaryOperation char .bitShiftLeft (.binaryOperation (number 8) .mul i))
        .bitXor toReturn),
    .assignment i (.binaryOperation i .add (number 1))]

/-- `upcase(str)` -/
def upcase : List Stmt :=
  [.assignment len (.functionCall Fn.strlen [str]),
    .assignment toReturn (number 0),
    .assignment i (number 0),
    .whileLoop (.binaryOperation i .lessThan len) upcaseLoop,
    .returnStatement (some toReturn)]

def powLoop : List Stmt :=
  [.assignment result (.binaryOperation result .mul n),
    .assignment i (.binaryOperation i .add (number 1))]

/-- `pow(n, x)` -/
def pow : List Stmt :=
  [.assignment result (number 1),
    .assignment i (number 0),
    .whileLoop (.binaryOperation i .lessThan x) powLoop,
    .returnStatement (some result)]

def atoiLoop : List Stmt :=
  [.assignment char (.functionCall Fn.charAt [str,i]),
    .assignment digitVal (.binaryOperation char .sub (number 48)),
    .assignment value
      (.binaryOperation value .add
        (.binaryOperation digitVal .mul (.functionCall Fn.pow [number 10,iter]))),
    .assignment i (.binaryOperation i .sub (number 1)),
    .assignment iter (.binaryOperation iter .add (number 1))]

/-- `atoi(str)` -/
def atoi : List Stmt :=
  [.assignment value (number 0),
    .assignment len (.functionCall Fn.strlen [str]),
    .assignment i (.binaryOperation len .sub (number 1)),
    .assignment iter (number 0),
    .whileLoop (.binaryOperation i .greaterThanOrEqual (number 0)) atoiLoop,
    .returnStatement (some value)]

/-- `open_file(filename, flags)` -/
def openFile : List Stmt :=
  [.conditional
      (.binaryOperation (.functionCall Fn.strstr [filename,flagText]) .notEquals minusOne)
      [.returnStatement (some minusOne)]
      [.returnStatement (some (.functionCall Fn.OPEN [filename,flags]))]]

/-- `close_file(fd)` -/
def closeFile : List Stmt :=
  [.returnStatement (some (.functionCall Fn.CLOSE [fd]))]

def readBytesLoop : List Stmt :=
  [.assignment byte (.functionCall Fn.READ [fd]),
    .conditional (.binaryOperation byte .equals minusOne)
      [.assignment done (number 1),
        .assignment toReturn minusOne,
        asm "stdout_0 = XOR fd fd"]
      [.assignment toReturn (.binaryOperation toReturn .bitShiftLeft (number 8)),
        .assignment toReturn (.binaryOperation toReturn .bitXor byte),
        .assignment i (.binaryOperation i .add (number 1)),
        .conditional (.binaryOperation i .greaterThanOrEqual num)
          [.assignment done (number 1)]
          []]]

/-- `read_bytes(fd, num)` -/
def readBytes : List Stmt :=
  [.conditional (.binaryOperation num .greaterThan (number 8))
      [.returnStatement (some minusOne)]
      [.assignment toReturn (number 0),
        .assignment done (number 0),
        .assignment i (number 0),
        .whileLoop (.binaryOperation done .equals (number 0)) readBytesLoop,
        .returnStatement (some toReturn),
        asm "combine_return:",
        asm "new_combine = DUP _"]]

def readLineLoop : List Stmt :=
  [.assignment byte (.functionCall Fn.READ [fd]),
    .conditional
      (.binaryOperation (.binaryOperation byte .equals minusOne) .bitOr
        (.binaryOperation byte .equals newline))
      [.assignment done (number 1)]
      [.assignment toReturn
          (.binaryOperation toReturn .bitXor
            (.binaryOperation byte .bitShiftLeft (.binaryOperation (number 8) .mul i))),
        .assignment i (.binaryOperation i .add (number 1)),
        .conditional (.binaryOperation i .greaterThan (number 8))
          [.assignment done (number 1)]
          []]]

/-- `read_line(fd)` -/
def readLine : List Stmt :=
  [.assignment toReturn (number 0),
    .assignment i (number 0),
    .assignment done (number 0),
    .assignment byte (number 0),
    asm "stdout = ADD stdout_0 1",
    .whileLoop (.binaryOperation done .equals (number 0)) readLineLoop,
    .conditional
      (.binaryOperation (.binaryOperation byte .equals minusOne) .bitAnd
        (.binaryOperation i .equals (number 0)))
      [.assignment toReturn minusOne]
      [],
    .returnStatement (some toReturn)]

def writeBytesLoop : List Stmt :=
  [.assignment char (.functionCall Fn.charAt [bytes,i]),
    .assignment result (.functionCall Fn.WRITE [fd,char]),
    .assignment i (.binaryOperation i .add (number 1))]

/-- `write_bytes(fd, bytes, num)` -/
def writeBytes : List Stmt :=
  [.assignment i (number 0),
    .assignment result (number 0),
    .whileLoop (.binaryOperation i .lessThan num) writeBytesLoop,
    .returnStatement (some result)]

/-- `sendfile(in_fd, out_fd)` -/
def sendfile : List Stmt :=
  [.assignment result (.functionCall Fn.SENDFILE [inFd,outFd]),
    .returnStatement (some result)]

/-- `load_file(filename, arg)` -/
def loadFile : List Stmt :=
  [.assignment result (.functionCall Fn.LOAD [filename,arg]),
    asm "filename = XOR hash new_combine",
    .returnStatement (some result)]

/-- `list_directory(directory)` -/
def listDirectory : List Stmt :=
  [.assignment result (.functionCall Fn.LISTDIR [directory]),
    .returnStatement (some result)]

/-- `unlink(filename)` -/
def unlink : List Stmt :=
  [.assignment result (.functionCall Fn.UNLINK [filename]),
    .returnStatement (some result)]

def jenkinsHashFunctionContLoop : List Stmt :=
  [asm "fd = OPN filename 0",
    .assignment hash (.binaryOperation hash .add (.functionCall Fn.charAt [input,i])),
    .assignment hash (.binaryOperation hash .add (.binaryOperation hash .bitShiftLeft (number 10))),
    .assignment hash
      (.binaryOperation hash .bitXor (.binaryOperation hash .bitShiftRight (number 6))),
    .assignment i (.binaryOperation i .add (number 1))]

/-- `jenkins_hash_function_cont(input, length, hash)` -/
def jenkinsHashFunctionCont : List Stmt :=
  [.assignment i (number 0),
    .whileLoop (.binaryOperation i .notEquals length) jenkinsHashFunctionContLoop,
    .assignment hash (.binaryOperation hash .add (.binaryOperation hash .bitShiftLeft (number 3))),
    .assignment hash
      (.binaryOperation hash .bitXor (.binaryOperation hash .bitShiftRight (number 11))),
    .assignment hash (.binaryOperation hash .add (.binaryOperation hash .bitShiftLeft (number 15))),
    .returnStatement (some (.binaryOperation hash .bitAnd hexFFFFFFFF))]

/-- `jenkins_hash_function(input, length)` -/
def jenkinsHashFunction : List Stmt :=
  [.returnStatement (some (.functionCall Fn.jenkinsHashFunctionCont [input,length,number 0]))]

/-- `getentropy(input)` -/
def getentropy : List Stmt :=
  [.assignment result (.functionCall Fn.RANDOM [input]),
    .expression (.binaryOperation result .bitXor input),
    .returnStatement (some result)]

end

/-- The program up to the boot sequence, without the constants, which no function reads. -/
def os : List Stmt :=
  [.functionDef Fn.charAt [Var.s,Var.i] charAt,
    .exportStatement Fn.charAt,
    .functionDef Fn.strlen [Var.s] strlen,
    .exportStatement Fn.strlen,
    .functionDef Fn.strcat [Var.s1,Var.s2] strcat,
    .functionDef Fn.strcmp [Var.s1,Var.s2] strcmp,
    .exportStatement Fn.strcmp,
    asm "combine = XOR arg_0 arg_1",
    .functionDef Fn.strstr [Var.haystack,Var.needle] strstr,
    .exportStatement Fn.strstr,
    .functionDef Fn.substring [Var.str,Var.start,Var.endPos] substring,
    .exportStatement Fn.substring,
    .functionDef Fn.reverseString [Var.str] reverseString,
    .functionDef Fn.upcase [Var.str] upcase,
    .exportStatement Fn.upcase,
    .functionDef Fn.pow [Var.n,Var.x] pow,
    .exportStatement Fn.pow,
    .functionDef Fn.atoi [Var.str] atoi,
    .exportStatement Fn.atoi,
    .functionDef Fn.openFile [Var.filename,Var.flags] openFile,
    .exportStatement Fn.openFile,
    asm "arg_0 = DUP _",
    .functionDef Fn.closeFile [Var.fd] closeFile,
    .exportStatement Fn.closeFile,
    asm "jenkins_return:",
    asm "hash = DUP _",
    .functionDef Fn.readBytes [Var.fd,Var.num] readBytes,
    .exportStatement Fn.readBytes,
    .functionDef Fn.readLine [Var.fd] readLine,
    .exportStatement Fn.readLine,
    .functionDef Fn.writeBytes [Var.fd,Var.bytes,Var.num] writeBytes,
    .exportStatement Fn.writeBytes,
    .functionDef Fn.sendfile [Var.inFd,Var.outFd] sendfile,
    .exportStatement Fn.sendfile,
    .functionDef Fn.loadFile [Var.filename,Var.arg] loadFile,
    .exportStatement Fn.loadFile,
    .functionDef Fn.listDirectory [Var.directory] listDirectory,
    .exportStatement Fn.listDirectory,
    .functionDef Fn.unlink [Var.filename] unlink,
    .exportStatement Fn.unlink,
    .functionDef Fn.jenkinsHashFunctionCont [Var.input,Var.length,Var.hash] jenkinsHashFunctionCont,
    .exportStatement Fn.jenkinsHashFunctionCont,
    .functionDef Fn.jenkinsHashFunction [Var.input,Var.length] jenkinsHashFunction,
    .exportStatement Fn.jenkinsHashFunction,
    .functionDef Fn.getentropy [Var.input] getentropy,
    .exportStatement Fn.getentropy]

end Manchester.Os
