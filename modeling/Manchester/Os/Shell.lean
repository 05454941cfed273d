import Manchester.Os.Strings

namespace Manchester.Os

open Compiler Framework

namespace Fn

def argToStdoutFd : CName :=
  ⟨['a','r','g','_','t','o','_','s','t','d','o','u','t','_','f','d'],by decide⟩
def argToArg : CName := ⟨['a','r','g','_','t','o','_','a','r','g'],by decide⟩
def argAndFdToUserArg : CName :=
  ⟨['a','r','g','_','a','n','d','_','f','d','_','t','o','_','u','s','e','r','_','a','r','g'],
    by decide⟩

end Fn

def hexSevenBytes : Expr := .hexnumber ⟨List.replicate 14 'F',by decide⟩

section

open Var

/-- `arg_to_stdout_fd(arg)` -/
def argToStdoutFd : List Stmt :=
  [.returnStatement (some (.functionCall Fn.charAt [arg,number 7]))]

/-- `arg_to_arg(arg)` -/
def argToArg : List Stmt :=
  [.returnStatement (some (.binaryOperation arg .bitAnd hexSevenBytes))]

/-- `arg_and_fd_to_user_arg(arg, fd)` -/
def argAndFdToUserArg : List Stmt :=
  [.assignment arg (.functionCall Fn.argToArg [arg]),
    .assignment arg
      (.binaryOperation arg .bitXor
        (.binaryOperation fd .bitShiftLeft (.binaryOperation (number 8) .mul (number 7)))),
    .returnStatement (some arg)]

end

/-- The shell without its commands, and the functions that it has from the OS. -/
def sh : List Stmt :=
  os++[.functionDef Fn.argToStdoutFd [Var.arg] argToStdoutFd,
    .exportStatement Fn.argToStdoutFd,
    .functionDef Fn.argToArg [Var.arg] argToArg,
    .exportStatement Fn.argToArg,
    .functionDef Fn.argAndFdToUserArg [Var.arg,Var.fd] argAndFdToUserArg]

/-- The lowest byte of a descriptor. -/
def descriptorByte (fd : DataType) : UInt8 := byteAt fd 0

/-- The mask keeps the first seven bytes. -/
theorem and_sevenBytes (a : DataType) : a&&&0xffffffffffffff#64=pack (firstBytes a 7) := by
  have hmask : (0xffffffffffffff#64).toNat=2^56-1 := by decide
  have hpow : 2^56=256^7 := by decide
  apply BitVec.eq_of_toNat_eq
  rw [BitVec.toNat_and,hmask,Nat.and_two_pow_sub_one_eq_mod,hpow,
    toNat_pack_firstBytes a (by decide)]

/-- Only the lowest byte of a descriptor is left at the top of a word. -/
theorem shiftLeft_descriptor (fd : DataType) :
    fd <<< (8*7)=ofByte (descriptorByte fd) <<< (8*7) := by
  have hbyte : (descriptorByte fd).toNat=fd.toNat%256 := by simp [descriptorByte,byteAt]
  apply BitVec.eq_of_toNat_eq
  rw [BitVec.toNat_shiftLeft,BitVec.toNat_shiftLeft,ofByte,toNat_small (by omega),hbyte,
    Nat.shiftLeft_eq,Nat.shiftLeft_eq]
  omega

/-- Seven bytes of an argument and one of a descriptor. -/
def userArg (arg fd : DataType) : List UInt8 := firstBytes arg 7++[descriptorByte fd]

theorem length_userArg (arg fd : DataType) : (userArg arg fd).length=8 := by
  rw [userArg,List.length_append,length_firstBytes,List.length_singleton]

theorem pack_userArg (arg fd : DataType) :
    (arg&&&0xffffffffffffff#64)^^^(fd <<< (8*7))=pack (userArg arg fd) := by
  have hlength := length_firstBytes arg 7
  have hsnoc := pack_snoc (by omega : (firstBytes arg 7).length < 8) (descriptorByte fd)
  rw [hlength] at hsnoc
  rw [and_sevenBytes,shiftLeft_descriptor,BitVec.xor_comm,hsnoc,userArg]

theorem byteAt_userArg (arg fd : DataType) :
    byteAt (pack (userArg arg fd)) 7=descriptorByte fd := by
  have hlength := length_firstBytes arg 7
  rw [byteAt_pack (length_userArg arg fd).le,userArg,List.getD_append_right _ _ _ _ hlength.le,
    hlength]
  rfl

theorem firstBytes_userArg (arg fd : DataType) :
    firstBytes (pack (userArg arg fd)) 7=firstBytes arg 7 := by
  apply List.map_congr_left
  intro i hi
  have hlt : i < (firstBytes arg 7).length := by
    rw [length_firstBytes]
    exact List.mem_range.mp hi
  rw [byteAt_pack (length_userArg arg fd).le,userArg,List.getD_append _ _ _ _ hlt,
    List.getD_eq_getElem _ _ hlt]
  simp [firstBytes]

variable {ω : Type} {host : Host ω} {call : CName → List DataType → ω → Option (DataType × ω)}
  {n : Nat} {w : ω}

theorem functionBody_sh_charAt : functionBody sh Fn.charAt=some ([Var.s,Var.i],charAt) := by rfl

theorem functionBody_argToStdoutFd :
    functionBody sh Fn.argToStdoutFd=some ([Var.arg],argToStdoutFd) := by rfl

theorem functionBody_argToArg : functionBody sh Fn.argToArg=some ([Var.arg],argToArg) := by rfl

theorem functionBody_argAndFdToUserArg :
    functionBody sh Fn.argAndFdToUserArg=some ([Var.arg,Var.fd],argAndFdToUserArg) := by rfl

@[simp] theorem hexSevenBytes_run (s : Store ω) :
    hexSevenBytes.run host call s=some (0xffffffffffffff#64,s.2) := by
  have hvalue : hexSevenBytes.literalValue=some 0xffffffffffffff := by decide +kernel
  rw [Expr.run_literal hvalue]
  rfl

theorem argToStdoutFd_call (word : DataType) (hn : 2 ≤ n) :
    host.call sh n Fn.argToStdoutFd [word] w=some (ofByte (byteAt word 7),w) := by
  obtain ⟨m,rfl⟩ : ∃ m,n=m+1 := ⟨n-1,by omega⟩
  have hchar : host.call sh m Fn.charAt [word,BitVec.ofNat 64 7] w=
      some (ofByte (byteAt word 7),w) := by
    rw [charAt_call_in functionBody_sh_charAt (by omega),hostCharAt_of_lt word (by decide),
      Option.map_some]
  rw [Host.call,functionBody_argToStdoutFd]
  simp (disch := decide) [argToStdoutFd,hchar]

theorem argToArg_call (word : DataType) (hn : 1 ≤ n) :
    host.call sh n Fn.argToArg [word] w=some (pack (firstBytes word 7),w) := by
  obtain ⟨m,rfl⟩ : ∃ m,n=m+1 := ⟨n-1,by omega⟩
  rw [Host.call,functionBody_argToArg,← and_sevenBytes]
  simp (disch := decide) [argToArg]

/-- The argument comes first, and the descriptor is the last byte of the word. -/
theorem argAndFdToUserArg_call (arg fd : DataType) (hn : 2 ≤ n) :
    host.call sh n Fn.argAndFdToUserArg [arg,fd] w=some (pack (userArg arg fd),w) := by
  obtain ⟨m,rfl⟩ : ∃ m,n=m+1 := ⟨n-1,by omega⟩
  have harg : host.call sh m Fn.argToArg [arg] w=some (arg&&&0xffffffffffffff#64,w) := by
    rw [and_sevenBytes,argToArg_call arg (by omega)]
  have hshift : host.compute .SHL fd 56#64=some (fd <<< (8*7)) := Host.compute_of_lt (by decide) fd
  rw [Host.call,functionBody_argAndFdToUserArg,← pack_userArg]
  simp (disch := decide) [argAndFdToUserArg,harg,hshift]

/-- A program that decodes its argument gets what the shell has put into it. -/
def PassesArgument (host : Host ω) (w : ω) (arg fd : DataType) : Prop :=
  ∃ word,host.Returns sh Fn.argAndFdToUserArg [arg,fd] w word w ∧
    host.Returns sh Fn.argToArg [word] w arg w ∧ host.Returns sh Fn.argToStdoutFd [word] w fd w

theorem ofByte_descriptor_iff (fd : DataType) :
    ofByte (descriptorByte fd)=fd ↔ fd.toNat < 256 := by
  have hbyte : (descriptorByte fd).toNat=fd.toNat%256 := by simp [descriptorByte,byteAt]
  rw [← BitVec.toNat_inj,ofByte,toNat_small (by omega),hbyte]
  omega

theorem pack_firstBytes_seven {bs : List UInt8} (h : bs.length ≤ 7) :
    pack (firstBytes (pack bs) 7)=pack bs := by
  have hpow : 256^bs.length ≤ 256^7 := Nat.pow_le_pow_right (by decide) h
  have hlt := Bytes.toNatLE_lt bs
  apply BitVec.eq_of_toNat_eq
  rw [toNat_pack_firstBytes _ (by decide),toNat_pack (by omega),Nat.mod_eq_of_lt (by omega)]

theorem passesArgument_iff {bs : List UInt8} (h : bs.length ≤ 7) (fd : DataType) :
    PassesArgument host w (pack bs) fd ↔ fd.toNat < 256 := by
  have hword : host.Returns sh Fn.argAndFdToUserArg [pack bs,fd] w (pack (userArg (pack bs) fd)) w :=
    ⟨2,fun _ hn => argAndFdToUserArg_call (pack bs) fd hn⟩
  have harg : host.Returns sh Fn.argToArg [pack (userArg (pack bs) fd)] w (pack bs) w := by
    refine ⟨1,fun n hn => ?_⟩
    rw [argToArg_call _ hn,firstBytes_userArg,pack_firstBytes_seven h]
  have hfd : host.Returns sh Fn.argToStdoutFd [pack (userArg (pack bs) fd)] w
      (ofByte (descriptorByte fd)) w := by
    refine ⟨2,fun n hn => ?_⟩
    rw [argToStdoutFd_call _ hn,byteAt_userArg]
  rw [← ofByte_descriptor_iff]
  constructor
  · rintro ⟨word,hencode,-,hdecode⟩
    obtain ⟨rfl,-⟩ := hword.unique hencode
    exact (hfd.unique hdecode).1
  · intro hsame
    rw [hsame] at hfd
    exact ⟨_,hword,harg,hfd⟩

theorem toNat_signExtend_lt (descriptor : BitVec 32) :
    (descriptor.signExtend 64).toNat < 256 ↔ descriptor.toNat < 256 := by
  have hlt := descriptor.isLt
  rw [BitVec.toNat_signExtend,BitVec.toNat_setWidth,Nat.mod_eq_of_lt (by omega)]
  cases hsign : descriptor.msb with
  | false => simp
  | true =>
    have hhigh := BitVec.msb_eq_true_iff_two_mul_ge.mp hsign
    simp only [if_true]
    omega

/-- A program gets its argument of at most seven bytes and the descriptor that the shell has put
in just when the descriptor is below 256. The -1 of a failed open arrives as 255. -/
theorem argument_passing_iff (host : Host ω) (w : ω) :
    (∀ (bs : List UInt8) (fd : DataType),bs.length ≤ 7 →
      (PassesArgument host w (pack bs) fd ↔ fd.toNat < 256)) ∧
    ∀ (bs : List UInt8) (descriptor : BitVec 32),bs.length ≤ 7 →
      (PassesArgument host w (pack bs) (descriptor.signExtend 64) ↔ descriptor.toNat < 256) := by
  refine ⟨fun _ fd h => passesArgument_iff h fd,?_⟩
  intro bs descriptor h
  rw [passesArgument_iff h,toNat_signExtend_lt]

/-- The argument `a` for the standard output. -/
theorem argument_passing_stdout :
    PassesArgument (Host.modular fun _ _ (_ : Unit) => none) () (pack [97]) 1 :=
  ((argument_passing_iff _ ()).1 [97] 1 (by decide)).mpr (by decide)

/-- A failed open. -/
theorem failed_open_not_passed :
    ¬PassesArgument (Host.modular fun _ _ (_ : Unit) => none) () (pack [97]) (-1) := by
  rw [passesArgument_iff (by decide)]
  decide

end Manchester.Os
