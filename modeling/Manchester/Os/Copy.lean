import Manchester.Os.Input

namespace Manchester.Os

open Compiler Framework

/-- After these bytes were written. -/
def Files.appends (w : Files) (descriptor : BitVec 32) (bs : List UInt8) : Files :=
  {w with written := Function.update w.written descriptor (w.written descriptor++bs)}

theorem Files.appends_nil (w : Files) (descriptor : BitVec 32) : w.appends descriptor []=w := by
  rw [Files.appends,List.append_nil,Function.update_eq_self]

theorem Files.appends_append (w : Files) (descriptor : BitVec 32) (bs : List UInt8) (b : UInt8) :
    (w.appends descriptor bs).append descriptor b=w.appends descriptor (bs++[b]) := by
  rw [Files.append,Files.appends,Files.appends]
  simp only [Function.update_self,Function.update_idem,List.append_assoc]

/-- The next answers of a stream are these bytes. -/
def Provides (s : Stream) (p : Nat) (bs : List UInt8) : Prop :=
  ∀ (i : Nat) (hi : i < bs.length),s (p+i)=some bs[i]

variable {streams : BitVec 32 → Stream} {n : Nat}

theorem functionBody_readBytes :
    functionBody os Fn.readBytes=some ([Var.fd,Var.num],readBytes) := by rfl

section Round

variable {ω : Type} {host : Host ω} {call : CName → List DataType → ω → Option (DataType × ω)}
  {σ : Env DataType} {w w' : ω} {fd : DataType} {b : UInt8} {i m : Nat}

theorem ofByte_ne_minus (b : UInt8) : (ofByte b == -1#64)=false := by
  rw [← readAnswer_some,readAnswer_eq_minus]
  rfl

theorem readBytesLoop_next {acc : List UInt8} (h : Reading fd (pack acc) i 0 σ)
    (hnum : σ Var.num=some (BitVec.ofNat 64 m)) (hcall : call Fn.READ [fd] w=some (ofByte b,w'))
    (hacc : acc.length < 8) (hi : i < 8) (hm : m ≤ 8) :
    ∃ τ,Stmt.runAll host call n readBytesLoop (σ,w)=some (.next (τ,w')) ∧
      Reading fd (pack (b::acc)) (i+1) (if i+1 < m then 0 else 1) τ ∧
      τ Var.num=some (BitVec.ofNat 64 m) := by
  have hminus := ofByte_ne_minus b
  have hpack := pack_cons hacc b
  rw [BitVec.xor_comm] at hpack
  by_cases hlast : i+1 < m
  · have hnot : ¬m ≤ i+1 := by omega
    simp (disch := first | decide | omega) [readBytesLoop,h.descriptor,h.result,h.index,hnum,hcall,
      hminus,hpack,hlast,hnot,Host.compute_of_lt,-BitVec.reduceNeg]
    constructor <;> simp (disch := decide) [h.descriptor,h.flag]
  · have hle : m ≤ i+1 := by omega
    simp (disch := first | decide | omega) [readBytesLoop,h.descriptor,h.result,h.index,hnum,hcall,
      hminus,hpack,hlast,hle,Host.compute_of_lt,-BitVec.reduceNeg]
    constructor <;> simp (disch := decide) [h.descriptor]

end Round

section Read

variable {host : Host Files} {fd : DataType} {w : Files} {bs : List UInt8}

/-- What holds before a test of the loop when `i` of the bytes were read. -/
structure AtBytes (fd : DataType) (w : Files) (bs : List UInt8) (i : Nat) (st : Store Files) :
    Prop where
  reading : Reading fd (pack (bs.take i).reverse) i (if i < bs.length then 0 else 1) st.1
  number : st.1 Var.num=some (BitVec.ofNat 64 bs.length)
  files : st.2=w.advances (fd.setWidth 32) i

theorem readBytesLoop_step (hfiles : host.special=fileSpecial streams) {st : Store Files} {i : Nat}
    (hn : 0 < n) (hbs : Provides (streams (fd.setWidth 32)) (w.position (fd.setWidth 32)) bs)
    (h8 : bs.length ≤ 8) (h : AtBytes fd w bs i st) (hi : i < bs.length) :
    ∃ t,Stmt.runAll host (host.call os n) n readBytesLoop st=some (.next t) ∧
      AtBytes fd w bs (i+1) t := by
  obtain ⟨σ,u⟩ := st
  obtain rfl : u=w.advances (fd.setWidth 32) i := h.files
  have hreading : Reading fd (pack (bs.take i).reverse) i 0 σ := by
    have hat := h.reading
    rwa [if_pos hi] at hat
  have hcall : host.call os n Fn.READ [fd] (w.advances (fd.setWidth 32) i)=
      some (ofByte bs[i],w.advances (fd.setWidth 32) (i+1)) := by
    rw [read_at hfiles hn,hbs i hi,readAnswer_some]
  have hacc : (bs.take i).reverse.length < 8 := by
    rw [List.length_reverse,List.length_take]
    omega
  obtain ⟨τ,hrun,hτ,hnum⟩ :=
    readBytesLoop_next (n := n) hreading h.number hcall hacc (by omega) h8
  have htake : bs[i]::(bs.take i).reverse=(bs.take (i+1)).reverse := by
    rw [List.take_succ_eq_append_getElem hi,List.reverse_concat]
  rw [htake] at hτ
  exact ⟨(τ,_),hrun,hτ,hnum,rfl⟩

theorem readBytesLoop_loop (hfiles : host.special=fileSpecial streams) {st : Store Files}
    (hbs : Provides (streams (fd.setWidth 32)) (w.position (fd.setWidth 32)) bs)
    (h8 : bs.length ≤ 8) (hn : 9 ≤ n) (h : AtBytes fd w bs 0 st) :
    ∃ t,(Stmt.whileLoop (.binaryOperation Var.done .equals (number 0)) readBytesLoop).run
      host (host.call os n) n st=some (.next t) ∧ AtBytes fd w bs bs.length t := by
  refine Stmt.run_whileLoop_stores (AtBytes fd w bs) ?_ ?_ h (Nat.zero_le _) (by omega)
  · rintro i ⟨σ,u⟩ - hat
    rw [test_done hat.reading.flag (by split_ifs <;> decide)]
    split_ifs with hi <;> simp [hi]
  · intro i st hi hat
    exact readBytesLoop_step hfiles (by omega) hbs h8 hat hi

/-- The first byte that is read comes to the top. -/
theorem readBytes_call (hfiles : host.special=fileSpecial streams)
    (hbs : Provides (streams (fd.setWidth 32)) (w.position (fd.setWidth 32)) bs)
    (hpos : 0 < bs.length) (h8 : bs.length ≤ 8) (hn : 10 ≤ n) :
    host.call os n Fn.readBytes [fd,BitVec.ofNat 64 bs.length] w=
      some (pack bs.reverse,w.advances (fd.setWidth 32) bs.length) := by
  obtain ⟨m,rfl⟩ : ∃ m,n=m+1 := ⟨n-1,by omega⟩
  have hstart : AtBytes fd w bs 0 (Function.update (Function.update (Function.update
      (Function.update (Function.update (fun _ => none) Var.num
      (some (BitVec.ofNat 64 bs.length))) Var.fd (some fd)) Var.toReturn (some 0#64)) Var.done
      (some 0#64)) Var.i (some 0#64),w) := by
    refine ⟨?_,by simp (disch := decide),rfl⟩
    rw [if_pos hpos]
    constructor <;> simp (disch := decide) [pack,Bytes.toNatLE]
  obtain ⟨⟨τ,u⟩,hrun,hτ⟩ := readBytesLoop_loop (n := m) hfiles hbs h8 (by omega) hstart
  obtain rfl : u=w.advances (fd.setWidth 32) bs.length := hτ.files
  have hresult : τ Var.toReturn=some (pack bs.reverse) := by
    have hlast := hτ.reading.result
    rwa [List.take_length] at hlast
  have hnot : ¬8 < bs.length := by omega
  rw [Host.call,functionBody_readBytes]
  simp (disch := first | decide | omega) [readBytes,hnot,hrun,hresult]

end Read

theorem functionBody_writeBytes :
    functionBody os Fn.writeBytes=some ([Var.fd,Var.bytes,Var.num],writeBytes) := by rfl

theorem functionBody_write : functionBody os Fn.WRITE=none := by rfl

section Write

variable {ω : Type} {host : Host ω} {call : CName → List DataType → ω → Option (DataType × ω)}
  {σ : Env DataType} {w w' : ω} {fd s num c r : DataType} {i : Nat}

/-- The answer to the last of `i` writes, and what they leave. -/
def writes (write : DataType → ω → DataType × ω) (s : DataType) (w : ω) : Nat → DataType × ω
  | 0 => (0,w)
  | i+1 => write (ofByte (byteAt s i)) (writes write s w i).2

/-- The variables of `write_bytes` after `i` bytes. -/
structure Writing (fd s num r : DataType) (i : Nat) (σ : Env DataType) : Prop where
  descriptor : σ Var.fd=some fd
  word : σ Var.bytes=some s
  number : σ Var.num=some num
  result : σ Var.result=some r
  index : σ Var.i=some (BitVec.ofNat 64 i)

theorem writeBytesLoop_next (h : Writing fd s num r i σ)
    (hchar : call Fn.charAt [s,BitVec.ofNat 64 i] w=some (c,w))
    {a : DataType} (hwrite : call Fn.WRITE [fd,c] w=some (a,w')) :
    ∃ τ,Stmt.runAll host call n writeBytesLoop (σ,w)=some (.next (τ,w')) ∧
      Writing fd s num a (i+1) τ := by
  simp (disch := decide) [writeBytesLoop,h.descriptor,h.word,h.index,hchar,hwrite]
  constructor <;> simp (disch := decide) [h.descriptor,h.word,h.number]

/-- The test of a loop up to a number, which may be negative. -/
theorem test_number {x : CName} (hindex : σ Var.i=some (BitVec.ofNat 64 i))
    (hx : σ x=some num) (hi : i < 2^63) :
    (Expr.binaryOperation Var.i .lessThan x).test host call (σ,w)=
      some (decide (i < num.toInt.toNat),σ,w) := by
  have hless : (BitVec.ofNat 64 i).slt num=decide (i < num.toInt.toNat) := by
    rw [BitVec.slt,toInt_small hi]
    exact decide_eq_decide.mpr (by omega)
  simp (disch := decide) [hindex,hx,hless]

variable {write : DataType → ω → DataType × ω}

theorem writeBytesLoop_loop (hwrite : ∀ c w,host.special Fn.WRITE [fd,c] w=some (write c w))
    (h8 : num.toInt ≤ 8) (hn : 9 ≤ n) (h : Writing fd s num 0 0 σ) :
    ∃ t,(Stmt.whileLoop (.binaryOperation Var.i .lessThan Var.num) writeBytesLoop).run
      host (host.call os n) n (σ,w)=some (.next t) ∧
      Writing fd s num (writes write s w num.toInt.toNat).1 num.toInt.toNat t.1 ∧
      t.2=(writes write s w num.toInt.toNat).2 := by
  refine Stmt.run_whileLoop_stores (fun i st =>
    Writing fd s num (writes write s w i).1 i st.1 ∧ st.2=(writes write s w i).2)
    (i := 0) ?_ ?_ ⟨h,rfl⟩ (Nat.zero_le _) (by omega)
  · rintro i ⟨σ,u⟩ hi ⟨hσ,-⟩
    exact test_number hσ.index hσ.number (by omega)
  · rintro i ⟨σ,u⟩ hi ⟨hσ,hu⟩
    obtain rfl : u=(writes write s w i).2 := hu
    have hcall : host.call os n Fn.WRITE [fd,ofByte (byteAt s i)] (writes write s w i).2=
        some (writes write s w (i+1)) := by
      obtain ⟨m,rfl⟩ : ∃ m,n=m+1 := ⟨n-1,by omega⟩
      rw [Host.call,functionBody_write]
      exact hwrite _ _
    obtain ⟨τ,hrun,hτ⟩ := writeBytesLoop_next (n := n) hσ
      (charAt_byte (by omega) s (by omega)) hcall
    exact ⟨(τ,_),hrun,hτ,rfl⟩

/-- The variables before the loop. -/
theorem writing_start (fd s num : DataType) :
    Writing fd s num 0 0 (Function.update (Function.update (Function.update
      (Function.update (Function.update (fun _ => none) Var.num (some num)) Var.bytes (some s))
      Var.fd (some fd)) Var.i (some 0#64)) Var.result (some 0#64)) := by
  constructor <;> simp (disch := decide)

theorem writeBytes_call (hwrite : ∀ c w,host.special Fn.WRITE [fd,c] w=some (write c w))
    (s : DataType) (h8 : num.toInt ≤ 8) (hn : 10 ≤ n) :
    host.call os n Fn.writeBytes [fd,s,num] w=some (writes write s w num.toInt.toNat) := by
  obtain ⟨m,rfl⟩ : ∃ m,n=m+1 := ⟨n-1,by omega⟩
  obtain ⟨⟨τ,u⟩,hrun,hτ,hu⟩ := writeBytesLoop_loop (n := m) (w := w) hwrite h8 (by omega)
    (writing_start fd s num)
  obtain rfl : u=(writes write s w num.toInt.toNat).2 := hu
  have hresult : τ Var.result=some (writes write s w num.toInt.toNat).1 := hτ.result
  rw [Host.call,functionBody_writeBytes]
  simp (disch := decide) [writeBytes,hrun,hresult]

end Write

section Copy

variable {v : OpcodeType → DataType → DataType → DataType} {fdIn fdOut : DataType} {w : Files}
  {bs : List UInt8}

/-- A write that succeeds. -/
def fileWrite (fd c : DataType) (w : Files) : DataType × Files :=
  (boolData true,w.append (fd.setWidth 32) (UInt8.ofBitVec (c.setWidth 8)))

theorem ofByte_setWidth (b : UInt8) : UInt8.ofBitVec ((ofByte b).setWidth 8)=b := by
  have hb := b.toNat_lt
  apply UInt8.toNat_inj.mp
  rw [UInt8.toNat_ofBitVec,BitVec.toNat_setWidth,ofByte,toNat_small (by omega),
    Nat.mod_eq_of_lt hb]

/-- The lowest byte of a word is written first. -/
theorem writes_files (fd s : DataType) (w : Files) (m : Nat) :
    (writes (fileWrite fd) s w m).2=
      w.appends (fd.setWidth 32) (firstBytes s m) := by
  induction m with
  | zero => exact (w.appends_nil _).symm
  | succ m ih =>
    rw [writes,fileWrite,ih,ofByte_setWidth,Files.appends_append,firstBytes_succ]

theorem writeBytes_returns (v : OpcodeType → DataType → DataType → DataType)
    (streams : BitVec 32 → Stream) (fd : DataType) (w : Files) (h8 : bs.length ≤ 8) :
    ∃ a,(fileHost v streams).Returns os Fn.writeBytes [fd,pack bs,BitVec.ofNat 64 bs.length] w a
      (w.appends (fd.setWidth 32) bs) := by
  have hnum : (BitVec.ofNat 64 bs.length).toInt=bs.length := toInt_small (by omega)
  have hwrite : ∀ c w,(fileHost v streams).special Fn.WRITE [fd,c] w=some (fileWrite fd c w) :=
    fun _ _ => rfl
  have hbytes := writes_files fd (pack bs) w bs.length
  rw [firstBytes_pack h8] at hbytes
  refine ⟨(writes (fileWrite fd) (pack bs) w bs.length).1,10,fun n hn => ?_⟩
  rw [writeBytes_call hwrite _ (by omega) hn,hnum,Int.toNat_natCast,← hbytes]

/-- `write_bytes` writes what `read_bytes` read, and in the same order. -/
def CopiesBytes (v : OpcodeType → DataType → DataType → DataType) (streams : BitVec 32 → Stream)
    (fdIn fdOut : DataType) (w : Files) (bs : List UInt8) : Prop :=
  ∃ r a,(fileHost v streams).Returns os Fn.readBytes [fdIn,BitVec.ofNat 64 bs.length] w r
      (w.advances (fdIn.setWidth 32) bs.length) ∧
    (fileHost v streams).Returns os Fn.writeBytes [fdOut,r,BitVec.ofNat 64 bs.length]
      (w.advances (fdIn.setWidth 32) bs.length) a
      ((w.advances (fdIn.setWidth 32) bs.length).appends (fdOut.setWidth 32) bs)

theorem readBytes_returns
    (hbs : Provides (streams (fdIn.setWidth 32)) (w.position (fdIn.setWidth 32)) bs)
    (hpos : 0 < bs.length) (h8 : bs.length ≤ 8) :
    (fileHost v streams).Returns os Fn.readBytes [fdIn,BitVec.ofNat 64 bs.length] w
      (pack bs.reverse) (w.advances (fdIn.setWidth 32) bs.length) :=
  ⟨10,fun _ hn => readBytes_call rfl hbs hpos h8 hn⟩

theorem copiesBytes_iff
    (hbs : Provides (streams (fdIn.setWidth 32)) (w.position (fdIn.setWidth 32)) bs)
    (hpos : 0 < bs.length) (h8 : bs.length ≤ 8) :
    CopiesBytes v streams fdIn fdOut w bs ↔ bs.reverse=bs := by
  have hread := readBytes_returns (w := w) (v := v) hbs hpos h8
  have hlength : bs.reverse.length ≤ 8 := by rwa [List.length_reverse]
  obtain ⟨a,hwrite⟩ := writeBytes_returns v streams fdOut
    (w.advances (fdIn.setWidth 32) bs.length) hlength
  rw [List.length_reverse] at hwrite
  constructor
  · rintro ⟨r,a',hread',hwrite'⟩
    obtain ⟨rfl,-⟩ := hread'.unique hread
    have hfiles := (hwrite.unique hwrite').2
    have hwritten := congrArg (fun w : Files => w.written (fdOut.setWidth 32)) hfiles
    simp only [Files.appends,Function.update_self] at hwritten
    exact List.append_cancel_left hwritten
  · intro hsame
    rw [hsame] at hread hwrite
    exact ⟨pack bs,a,hread,hwrite⟩

/-- The bytes come out in the order in which they were read just when that is also the order from
the last one back: `read_bytes` makes the first byte the highest, and `write_bytes` starts with
the lowest. -/
theorem readBytes_writeBytes_iff (v : OpcodeType → DataType → DataType → DataType)
    (streams : BitVec 32 → Stream) (fdIn fdOut : DataType) (w : Files) (bs : List UInt8)
    (hbs : Provides (streams (fdIn.setWidth 32)) (w.position (fdIn.setWidth 32)) bs)
    (hpos : 1 ≤ bs.length) (h8 : bs.length ≤ 8) :
    CopiesBytes v streams fdIn fdOut w bs ↔ bs.reverse=bs :=
  copiesBytes_iff hbs hpos h8

/-- The letters `aba`, with counts modulo 64. -/
theorem copies_palindrome :
    CopiesBytes (fun o a b => (Assembler.compute o a b).getD 0)
      (fun _ p => [97,98,97][p]?) 0 1 ⟨fun _ => 0,fun _ => []⟩ [97,98,97] := by
  apply (readBytes_writeBytes_iff _ _ 0 1 _ [97,98,97] ?_ (by decide) (by decide)).mpr
  · rfl
  · intro i hi
    change [97,98,97][0+i]?=_
    rw [Nat.zero_add]
    exact List.getElem?_eq_getElem hi

/-- The letters `ab` come out as `ba`. -/
theorem two_bytes_reversed :
    ¬CopiesBytes (fun o a b => (Assembler.compute o a b).getD 0)
      (fun _ p => [97,98][p]?) 0 1 ⟨fun _ => 0,fun _ => []⟩ [97,98] := by
  rw [copiesBytes_iff ?_ (by decide) (by decide)]
  · decide
  · intro i hi
    change [97,98][0+i]?=_
    rw [Nat.zero_add]
    exact List.getElem?_eq_getElem hi

end Copy

end Manchester.Os
