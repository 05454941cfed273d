import Manchester.Os.Compare

namespace Manchester.Os

open Compiler Framework

/-- The answers to the reads of a descriptor: the next byte, or none at the end of the file. -/
abbrev Stream := Nat → Option UInt8

def endsLine : Option UInt8 → Bool
  | none => true
  | some b => b==10

/-- The bytes before the first newline or end of file, and at most `k` of them. -/
def takeLine (s : Stream) : Nat → Nat → List UInt8
  | _,0 => []
  | p,k+1 =>
    match s p with
    | none => []
    | some b => if b==10 then [] else b::takeLine s (p+1) k

/-- The bytes that `k` reads take from a stream. -/
def consumed (s : Stream) : Nat → Nat → List UInt8
  | _,0 => []
  | p,k+1 => (s p).toList++consumed s (p+1) k

/-- The answers from `p` on are these bytes, and no newline. -/
def IsLine (s : Stream) (p : Nat) : List UInt8 → Prop
  | [] => True
  | b::bs => s p=some b ∧ b ≠ 10 ∧ IsLine s (p+1) bs

variable {s : Stream} {p k : Nat} {acc : List UInt8} {b : UInt8}

theorem IsLine.snoc (h : IsLine s p acc) (hb : s (p+acc.length)=some b) (hne : b ≠ 10) :
    IsLine s p (acc++[b]) := by
  induction acc generalizing p with
  | nil => exact ⟨hb,hne,trivial⟩
  | cons a acc ih =>
    refine ⟨h.1,h.2.1,ih h.2.2 ?_⟩
    rw [← hb,List.length_cons]
    congr 1
    omega

theorem IsLine.takeLine_of_ends (h : IsLine s p acc) (hends : endsLine (s (p+acc.length))=true)
    (hk : acc.length ≤ k) : takeLine s p k=acc := by
  induction acc generalizing p k with
  | nil =>
    cases k with
    | zero => rfl
    | succ k =>
      rw [List.length_nil,Nat.add_zero] at hends
      cases hs : s p with
      | none => rw [takeLine,hs]
      | some b =>
        rw [hs,endsLine] at hends
        simp only [takeLine,hs,hends,if_true]
  | cons a acc ih =>
    obtain ⟨k,rfl⟩ : ∃ j,k=j+1 := ⟨k-1,by rw [List.length_cons] at hk; omega⟩
    have hrest := ih h.2.2 (k := k)
      (by rw [← hends,List.length_cons]; congr 2; omega) (Nat.le_of_succ_le_succ hk)
    simp only [takeLine,h.1,beq_eq_false_iff_ne.mpr h.2.1,hrest]
    rfl

theorem IsLine.takeLine_full (h : IsLine s p acc) : takeLine s p acc.length=acc := by
  induction acc generalizing p with
  | nil => rfl
  | cons a acc ih =>
    simp only [List.length_cons,takeLine,h.1,beq_eq_false_iff_ne.mpr h.2.1,ih h.2.2]
    rfl

theorem IsLine.get (h : IsLine s p acc) {i : Nat} (hi : i < acc.length) :
    s (p+i)=some acc[i] ∧ acc[i] ≠ 10 := by
  induction acc generalizing p i with
  | nil => cases hi
  | cons a acc ih =>
    cases i with
    | zero => exact ⟨h.1,h.2.1⟩
    | succ i =>
      have hrest := ih h.2.2 (Nat.lt_of_succ_lt_succ hi)
      rw [Nat.add_right_comm] at hrest
      exact hrest

theorem IsLine.left {bs : List UInt8} (h : IsLine s p (acc++bs)) : IsLine s p acc := by
  induction acc generalizing p with
  | nil => trivial
  | cons a acc ih => exact ⟨h.1,h.2.1,ih h.2.2⟩

theorem isLine_takeLine (s : Stream) (p k : Nat) : IsLine s p (takeLine s p k) := by
  induction k generalizing p with
  | zero => trivial
  | succ k ih =>
    cases hs : s p with
    | none => simp [takeLine,hs,IsLine]
    | some b =>
      by_cases hb : b=10
      · simp [takeLine,hs,hb,IsLine]
      · simpa [takeLine,hs,hb,IsLine] using ih (p+1)

/-- A line that is shorter than it may be has come to its end. -/
theorem endsLine_takeLine (h : (takeLine s p k).length < k) :
    endsLine (s (p+(takeLine s p k).length))=true := by
  induction k generalizing p with
  | zero => cases h
  | succ k ih =>
    cases hs : s p with
    | none => simp [takeLine,hs,endsLine]
    | some b =>
      by_cases hb : b=10
      · simp [takeLine,hs,hb,endsLine]
      · simp only [takeLine,hs,beq_eq_false_iff_ne.mpr hb,Bool.false_eq_true,if_false,
          List.length_cons] at h ⊢
        have hrest := ih (Nat.lt_of_succ_lt_succ h)
        rwa [Nat.add_right_comm] at hrest

theorem length_takeLine_le (s : Stream) (p k : Nat) : (takeLine s p k).length ≤ k := by
  induction k generalizing p with
  | zero => exact Nat.zero_le _
  | succ k ih =>
    rw [takeLine]
    split
    · exact Nat.zero_le _
    · split
      · exact Nat.zero_le _
      · exact Nat.succ_le_succ (ih (p+1))

/-- Nine bytes of a line are eight and one more. -/
theorem takeLine_nine (h : 8 < (takeLine s p 9).length) :
    ∃ front b,takeLine s p 9=front++[b] ∧ front.length=8 := by
  have hle := length_takeLine_le s p 9
  rcases List.eq_nil_or_concat' (takeLine s p 9) with hnil | ⟨front,b,hconcat⟩
  · rw [hnil] at h
    cases h
  · refine ⟨front,b,hconcat,?_⟩
    rw [hconcat,List.length_append,List.length_singleton] at h hle
    omega

theorem consumed_succ (s : Stream) (p k : Nat) :
    consumed s p (k+1)=consumed s p k++(s (p+k)).toList := by
  induction k generalizing p with
  | zero => simp [consumed]
  | succ k ih =>
    have hnext : p+1+k=p+(k+1) := by omega
    rw [consumed,ih,consumed,List.append_assoc,hnext]

theorem IsLine.consumed (h : IsLine s p acc) : consumed s p acc.length=acc := by
  induction acc generalizing p with
  | nil => rfl
  | cons a acc ih =>
    rw [List.length_cons,Os.consumed,h.1,ih h.2.2]
    rfl

/-- The read that ends a line takes a newline or nothing. -/
theorem IsLine.consumed_end (h : IsLine s p acc) (hends : endsLine (s (p+acc.length))=true) :
    Os.consumed s p (acc.length+1)=acc ∨ Os.consumed s p (acc.length+1)=acc++[10] := by
  rw [consumed_succ,h.consumed]
  cases hs : s (p+acc.length) with
  | none => exact Or.inl (List.append_nil acc)
  | some b =>
    rw [hs] at hends
    obtain rfl : b=10 := beq_iff_eq.mp hends
    exact Or.inr rfl

/-- How many reads of each descriptor were answered, and what was written to it. -/
structure Files where
  position : BitVec 32 → Nat
  written : BitVec 32 → List UInt8

def Files.advance (w : Files) (descriptor : BitVec 32) : Files :=
  {w with position := Function.update w.position descriptor (w.position descriptor+1)}

/-- After `k` reads. -/
def Files.advances (w : Files) (descriptor : BitVec 32) : Nat → Files
  | 0 => w
  | k+1 => (w.advances descriptor k).advance descriptor

theorem Files.advances_position (w : Files) (descriptor : BitVec 32) (k : Nat) :
    (w.advances descriptor k).position descriptor=w.position descriptor+k := by
  induction k with
  | zero => rfl
  | succ k ih =>
    have hnext : (w.advances descriptor (k+1)).position descriptor=
        (w.advances descriptor k).position descriptor+1 := Function.update_self _ _ _
    rw [hnext,ih,Nat.add_assoc]

def Files.append (w : Files) (descriptor : BitVec 32) (b : UInt8) : Files :=
  {w with written := Function.update w.written descriptor (w.written descriptor++[b])}

/-- What the machine makes of the answer to a read. -/
def readAnswer : Option UInt8 → DataType
  | some b => b.toBitVec.setWidth 64
  | none => -1

/-- Descriptors whose reads are answered by streams, and whose writes succeed. -/
def fileSpecial (streams : BitVec 32 → Stream) (name : CName) (args : List DataType) (w : Files) :
    Option (DataType × Files) :=
  if name=Fn.READ then
    match args with
    | [fd] =>
      let descriptor := fd.setWidth 32
      some (readAnswer (streams descriptor (w.position descriptor)),w.advance descriptor)
    | _ => none
  else if name=Fn.WRITE then
    match args with
    | [fd,byte] =>
      some (boolData true,w.append (fd.setWidth 32) (UInt8.ofBitVec (byte.setWidth 8)))
    | _ => none
  else none

/-- The machine answers a RED as the streams do. -/
theorem fileAnswer_read (streams : BitVec 32 → Stream) (calls : SystemCalls)
    (next : ExecutionPacket) (w : Files)
    (hcalls : ∀ fd,calls.readByte fd=streams fd (w.position fd)) :
    fileAnswer calls next .RED=
      (fileSpecial streams Fn.READ [next.data1] w).map Prod.fst := by
  rw [fileAnswer,hcalls]
  rfl

theorem readAnswer_none : readAnswer none=-1#64 := rfl

theorem readAnswer_some (b : UInt8) : readAnswer (some b)=ofByte b := by
  apply BitVec.eq_of_toNat_eq
  have hb := b.toNat_lt
  rw [readAnswer,BitVec.toNat_setWidth,ofByte,toNat_small (by omega)]
  exact Nat.mod_eq_of_lt (by rw [UInt8.toNat_toBitVec]; omega)

theorem readAnswer_eq_minus (o : Option UInt8) : (readAnswer o == -1#64)=o.isNone := by
  cases o with
  | none => rfl
  | some b =>
    have hb := b.toNat_lt
    rw [readAnswer_some,Option.isNone_some,beq_eq_false_iff_ne]
    intro heq
    have hnat := congrArg BitVec.toNat heq
    rw [ofByte,toNat_small (by omega)] at hnat
    simp at hnat
    omega

/-- A word that ends the loop of `read_line`. -/
theorem readAnswer_ends (o : Option UInt8) :
    (readAnswer o == -1#64 || readAnswer o == 10#64)=endsLine o := by
  rw [readAnswer_eq_minus]
  cases o with
  | none => rfl
  | some b =>
    have hten : (ofByte b == 10#64)=(b == 10) := by
      rw [beq_eq_decide,beq_eq_decide]
      exact decide_eq_decide.mpr (ofByte_eq_iff b 10)
    rw [readAnswer_some,hten,Option.isNone_some,Bool.false_or,endsLine]

variable {v : OpcodeType → DataType → DataType → DataType} {streams : BitVec 32 → Stream}
  {n : Nat}

/-- A host whose files are streams; a shift by 64 or more gives what `v` says. -/
def fileHost (v : OpcodeType → DataType → DataType → DataType) (streams : BitVec 32 → Stream) :
    Host Files := Host.total v (fileSpecial streams)

theorem functionBody_read : functionBody os Fn.READ=none := by rfl

theorem functionBody_readLine : functionBody os Fn.readLine=some ([Var.fd],readLine) := by rfl

theorem read_call {host : Host Files} (hfiles : host.special=fileSpecial streams) (fd : DataType)
    (w : Files) (hn : 0 < n) :
    host.call os n Fn.READ [fd] w=
      some (readAnswer (streams (fd.setWidth 32) (w.position (fd.setWidth 32))),
        w.advance (fd.setWidth 32)) := by
  obtain ⟨m,rfl⟩ : ∃ m,n=m+1 := ⟨n-1,by omega⟩
  rw [Host.call,functionBody_read]
  simp only [hfiles]
  rfl

@[simp] theorem newline_run {ω : Type} {host : Host ω}
    {call : CName → List DataType → ω → Option (DataType × ω)} (s : Store ω) :
    newline.run host call s=some (10#64,s.2) := by
  have hvalue : newline.literalValue=some 10 := by decide +kernel
  rw [Expr.run_literal hvalue]
  rfl

/-- The variables of `read_line` after `i` bytes. -/
structure Reading (fd r : DataType) (i d : Nat) (σ : Env DataType) : Prop where
  descriptor : σ Var.fd=some fd
  result : σ Var.toReturn=some r
  index : σ Var.i=some (BitVec.ofNat 64 i)
  flag : σ Var.done=some (BitVec.ofNat 64 d)

section Round

variable {ω : Type} {host : Host ω} {call : CName → List DataType → ω → Option (DataType × ω)}
  {σ : Env DataType} {w w' : ω} {fd r a : DataType} {i : Nat}

theorem readLineLoop_end (h : Reading fd r i 0 σ) (hcall : call Fn.READ [fd] w=some (a,w'))
    (hend : (a == -1#64 || a == 10#64)=true) :
    ∃ τ,Stmt.runAll host call n readLineLoop (σ,w)=some (.next (τ,w')) ∧
      Reading fd r i 1 τ ∧ τ Var.byte=some a := by
  simp (disch := decide) [readLineLoop,h.descriptor,hcall,hend,-BitVec.reduceNeg]
  constructor <;> simp (disch := decide) [h.descriptor,h.result,h.index]

theorem readLineLoop_next {c : DataType} (h : Reading fd r i 0 σ)
    (hcall : call Fn.READ [fd] w=some (a,w')) (hend : (a == -1#64 || a == 10#64)=false)
    (hshift : host.compute .SHL a (8#64*BitVec.ofNat 64 i)=some c) (hi : i < 9) :
    ∃ τ,Stmt.runAll host call n readLineLoop (σ,w)=some (.next (τ,w')) ∧
      Reading fd (r^^^c) (i+1) (if 8 < i+1 then 1 else 0) τ ∧ τ Var.byte=some a := by
  by_cases hlast : 8 < i+1
  · simp (disch := first | decide | omega) [readLineLoop,h.descriptor,h.result,h.index,hcall,hend,
      hshift,hlast,-BitVec.reduceNeg]
    constructor <;> simp (disch := decide) [h.descriptor]
  · simp (disch := first | decide | omega) [readLineLoop,h.descriptor,h.result,h.index,hcall,hend,
      hshift,hlast,-BitVec.reduceNeg]
    constructor <;> simp (disch := decide) [h.descriptor,h.flag]

end Round

section Run

variable {host : Host Files} {fd : DataType} {w : Files} {bytes : List UInt8}

/-- What holds before a test of the loop when the bytes of a line were read so far. -/
def AtByte (fd : DataType) (w : Files) (bytes : List UInt8) (i : Nat) (st : Store Files) : Prop :=
  Reading fd (pack (bytes.take i)) i 0 st.1 ∧ st.2=w.advances (fd.setWidth 32) i

theorem read_at (hfiles : host.special=fileSpecial streams) {i : Nat} (hn : 0 < n) :
    host.call os n Fn.READ [fd] (w.advances (fd.setWidth 32) i)=
      some (readAnswer (streams (fd.setWidth 32) (w.position (fd.setWidth 32)+i)),
        w.advances (fd.setWidth 32) (i+1)) := by
  rw [read_call hfiles fd _ hn,Files.advances_position]
  rfl

theorem readLineLoop_step (hfiles : host.special=fileSpecial streams) {st : Store Files} {i : Nat}
    (hn : 0 < n)
    (hline : IsLine (streams (fd.setWidth 32)) (w.position (fd.setWidth 32)) bytes)
    (h : AtByte fd w bytes i st) (hi : i < bytes.length) (h8 : i < 8) :
    ∃ t,Stmt.runAll host (host.call os n) n readLineLoop st=
      some (.next t) ∧
      AtByte fd w bytes (i+1) t := by
  obtain ⟨σ,u⟩ := st
  obtain ⟨hat,hu⟩ := h
  obtain rfl : u=w.advances (fd.setWidth 32) i := hu
  obtain ⟨hbyte,hne⟩ := hline.get hi
  have hcall : host.call os n Fn.READ [fd] (w.advances (fd.setWidth 32) i)=
      some (readAnswer (streams (fd.setWidth 32) (w.position (fd.setWidth 32)+i)),
        w.advances (fd.setWidth 32) (i+1)) := read_at hfiles hn
  rw [hbyte,readAnswer_some] at hcall
  have hend : (ofByte bytes[i] == -1#64 || ofByte bytes[i] == 10#64)=false := by
    rw [← readAnswer_some,readAnswer_ends]
    exact beq_eq_false_iff_ne.mpr hne
  obtain ⟨τ,hrun,hτ,-⟩ := readLineLoop_next (n := n) hat hcall hend (compute_shl_bytes _ h8)
    (by omega)
  have htake : (bytes.take i).length=i := List.length_take_of_le (Nat.le_of_lt hi)
  have hpack : pack (bytes.take i)^^^(ofByte bytes[i] <<< (8*i))=pack (bytes.take (i+1)) := by
    have hsnoc := @pack_snoc (bytes.take i) (by omega) bytes[i]
    rw [htake,BitVec.xor_comm] at hsnoc
    rw [hsnoc,List.take_succ_eq_append_getElem hi]
  rw [hpack,if_neg (by omega)] at hτ
  exact ⟨(τ,_),hrun,hτ,rfl⟩

/-- The loop reads `m` bytes, and then one round ends it. -/
theorem readLineLoop_loop (hfiles : host.special=fileSpecial streams)
    {post : Store Files → Prop} {st : Store Files} {m : Nat}
    (hline : IsLine (streams (fd.setWidth 32)) (w.position (fd.setWidth 32)) bytes)
    (hm : m ≤ bytes.length) (h8 : m ≤ 8) (hn : 10 ≤ n)
    (hlast : ∀ st,AtByte fd w bytes m st →
      ∃ t,Stmt.runAll host (host.call os n) n readLineLoop st=
        some (.next t) ∧
      t.1 Var.done=some 1#64 ∧ post t)
    (hstart : AtByte fd w bytes 0 st) :
    ∃ t,(Stmt.whileLoop (.binaryOperation Var.done .equals (number 0)) readLineLoop).run
      host (host.call os n) n st=some (.next t) ∧ post t := by
  have hround : ∀ k (st : Store Files),
      ((∃ i ≤ m,AtByte fd w bytes i st ∧ k=m-i+1) ∨ st.1 Var.done=some 1#64 ∧ post st ∧ k=0) →
      iterate.Round ((Expr.binaryOperation Var.done .equals (number 0)).test host
        (host.call os n))
        (Stmt.runAll host (host.call os n) n readLineLoop)
        (fun k st => (∃ i ≤ m,AtByte fd w bytes i st ∧ k=m-i+1) ∨
          st.1 Var.done=some 1#64 ∧ post st ∧ k=0) post k st := by
    rintro k ⟨σ,u⟩ (⟨i,hi,hat,rfl⟩ | ⟨hdone,hpost,rfl⟩)
    · have htest : (Expr.binaryOperation Var.done .equals (number 0)).test host
          (host.call os n) (σ,u)=some (true,σ,u) :=
        test_done hat.1.flag (by decide)
      rcases Nat.lt_or_eq_of_le hi with hlt | rfl
      · obtain ⟨t,hrun,ht⟩ := readLineLoop_step (n := n) hfiles (by omega) hline hat (by omega)
          (by omega)
        exact Or.inr ⟨_,t,m-(i+1)+1,htest,hrun,by omega,Or.inl ⟨i+1,hlt,ht,rfl⟩⟩
      · obtain ⟨t,hrun,hdone,hpost⟩ := hlast (σ,u) hat
        exact Or.inr ⟨_,t,0,htest,hrun,by omega,Or.inr ⟨hdone,hpost,rfl⟩⟩
    · exact Or.inl ⟨_,test_done hdone (by decide),hpost⟩
  rw [Stmt.run_whileLoop]
  exact iterate.terminates hround (m+1) st n (Or.inl ⟨0,Nat.zero_le _,hstart,rfl⟩) (by omega)

theorem readLine_start (fd : DataType) (w : Files) (bytes : List UInt8) :
    AtByte fd w bytes 0 (Function.update (Function.update (Function.update (Function.update
      (Function.update (fun _ => none) Var.fd (some fd)) Var.toReturn (some 0#64)) Var.i
      (some 0#64)) Var.done (some 0#64)) Var.byte (some 0#64),w) := by
  refine ⟨?_,rfl⟩
  constructor <;> simp (disch := decide) [pack,Bytes.toNatLE]

/-- A line of at most eight bytes. -/
theorem readLine_short (hfiles : host.special=fileSpecial streams)
    (hline : IsLine (streams (fd.setWidth 32)) (w.position (fd.setWidth 32)) bytes)
    (hends : endsLine (streams (fd.setWidth 32) (w.position (fd.setWidth 32)+bytes.length))=true)
    (h8 : bytes.length ≤ 8) (hn : 11 ≤ n) :
    host.call os n Fn.readLine [fd] w=
      some (if (streams (fd.setWidth 32) (w.position (fd.setWidth 32))).isNone then -1
        else pack bytes,w.advances (fd.setWidth 32) (bytes.length+1)) := by
  obtain ⟨m,rfl⟩ : ∃ m,n=m+1 := ⟨n-1,by omega⟩
  have hlast : ∀ st,AtByte fd w bytes bytes.length st →
      ∃ t,Stmt.runAll host (host.call os m) m readLineLoop st=
        some (.next t) ∧ t.1 Var.done=some 1#64 ∧
        (Reading fd (pack bytes) bytes.length 1 t.1 ∧ t.1 Var.byte=some (readAnswer
          (streams (fd.setWidth 32) (w.position (fd.setWidth 32)+bytes.length))) ∧
        t.2=w.advances (fd.setWidth 32) (bytes.length+1)) := by
    rintro ⟨σ,u⟩ ⟨hat,hu⟩
    obtain rfl : u=w.advances (fd.setWidth 32) bytes.length := hu
    rw [List.take_length] at hat
    obtain ⟨τ,hrun,hτ,hbyte⟩ := readLineLoop_end (n := m) hat
      (read_at (n := m) hfiles (by omega)) ((readAnswer_ends _).trans hends)
    exact ⟨(τ,_),hrun,hτ.flag,hτ,hbyte,rfl⟩
  obtain ⟨⟨τ,u⟩,hrun,hτ,hbyte,hu⟩ := readLineLoop_loop hfiles hline le_rfl h8 (by omega) hlast
    (readLine_start fd w bytes)
  obtain rfl : u=w.advances (fd.setWidth 32) (bytes.length+1) := hu
  replace hτ : Reading fd (pack bytes) bytes.length 1 τ := hτ
  replace hbyte : τ Var.byte=some (readAnswer
    (streams (fd.setWidth 32) (w.position (fd.setWidth 32)+bytes.length))) := hbyte
  have hfirst : readAnswer (streams (fd.setWidth 32) (w.position (fd.setWidth 32)+bytes.length))=
      -1#64 ∧ bytes=[] ↔ streams (fd.setWidth 32) (w.position (fd.setWidth 32))=none := by
    rw [← beq_iff_eq,readAnswer_eq_minus,Option.isNone_iff_eq_none]
    cases bytes with
    | nil => simp
    | cons b bytes => simp [hline.1]
  rw [Host.call,functionBody_readLine]
  by_cases hnone : streams (fd.setWidth 32) (w.position (fd.setWidth 32))=none
  · have hminus := hfirst.mpr hnone
    simp (disch := first | decide | omega) [readLine,hrun,hτ.index,hbyte,hminus,hnone,
      readAnswer_none,-BitVec.reduceNeg]
  · have hother := mt hfirst.mp hnone
    simp (disch := first | decide | omega) [readLine,hrun,hτ.result,hτ.index,hbyte,hother,hnone,
      -BitVec.reduceNeg]

/-- A line of more than eight bytes: the ninth one is read too. -/
theorem readLine_long (hfiles : host.special=fileSpecial streams) {b : UInt8} {c : DataType}
    (hlength : bytes.length=8)
    (hline : IsLine (streams (fd.setWidth 32)) (w.position (fd.setWidth 32)) (bytes++[b]))
    (hshift : host.compute .SHL (ofByte b) 64#64=some c) (hn : 11 ≤ n) :
    host.call os n Fn.readLine [fd] w=
      some (pack bytes^^^c,w.advances (fd.setWidth 32) 9) := by
  obtain ⟨m,rfl⟩ : ∃ m,n=m+1 := ⟨n-1,by omega⟩
  have hfull : (bytes++[b]).length=9 := by rw [List.length_append,hlength,List.length_singleton]
  have hlast : ∀ st,AtByte fd w (bytes++[b]) 8 st →
      ∃ t,Stmt.runAll host (host.call os m) m readLineLoop st=
        some (.next t) ∧ t.1 Var.done=some 1#64 ∧
        (Reading fd (pack bytes^^^c) 9 1 t.1 ∧ (∃ a,t.1 Var.byte=some a) ∧
          t.2=w.advances (fd.setWidth 32) 9) := by
    rintro ⟨σ,u⟩ ⟨hat,hu⟩
    obtain rfl : u=w.advances (fd.setWidth 32) 8 := hu
    rw [List.take_left' hlength] at hat
    obtain ⟨hbyte,hne⟩ := hline.get (i := 8) (by omega)
    have hget : (bytes++[b])[8]=b := List.getElem_concat_length hlength.symm _
    rw [hget] at hbyte hne
    have hcall : host.call os m Fn.READ [fd] (w.advances (fd.setWidth 32) 8)=
        some (ofByte b,w.advances (fd.setWidth 32) 9) := by
      rw [read_at hfiles (by omega),hbyte,readAnswer_some]
    have hend : (ofByte b == -1#64 || ofByte b == 10#64)=false := by
      rw [← readAnswer_some,readAnswer_ends]
      exact beq_eq_false_iff_ne.mpr hne
    obtain ⟨τ,hrun,hτ,hread⟩ := readLineLoop_next (n := m) hat hcall hend hshift (by decide)
    exact ⟨(τ,_),hrun,hτ.flag,hτ,⟨_,hread⟩,rfl⟩
  obtain ⟨⟨τ,u⟩,hrun,hτ,⟨a,hbyte⟩,hu⟩ := readLineLoop_loop hfiles hline (by omega) le_rfl
    (by omega) hlast (readLine_start fd w (bytes++[b]))
  obtain rfl : u=w.advances (fd.setWidth 32) 9 := hu
  replace hτ : Reading fd (pack bytes^^^c) 9 1 τ := hτ
  replace hbyte : τ Var.byte=some a := hbyte
  rw [Host.call,functionBody_readLine]
  simp (disch := first | decide | omega) [readLine,hrun,hτ.result,hτ.index,hbyte,-BitVec.reduceNeg]

end Run

/-- A result of `read_line` and how many answers it took, as its comment has them. -/
structure ReadsLine (s : Stream) (p : Nat) (r : DataType) (count : Nat) : Prop where
  /-- The bytes before the first newline or end of file, and at most eight. -/
  result : s p ≠ none → r=pack (takeLine s p 8)
  /-- No byte is lost but the newline. -/
  taken : consumed s p count=takeLine s p 8 ∨ consumed s p count=takeLine s p 8++[10]
  eof : pack (takeLine s p 8) ≠ -1 → (r=-1 ↔ s p=none)

/-- `read_line` returns, and as promised. -/
def MeetsComment (v : OpcodeType → DataType → DataType → DataType)
    (streams : BitVec 32 → Stream) (fd : DataType) (w : Files) : Prop :=
  ∃ r w',(fileHost v streams).Returns os Fn.readLine [fd] w r w' ∧
    ReadsLine (streams (fd.setWidth 32)) (w.position (fd.setWidth 32)) r
      (w'.position (fd.setWidth 32)-w.position (fd.setWidth 32))

section Promise

variable {fd : DataType} {w : Files}

theorem meetsComment_of_short
    (h : (takeLine (streams (fd.setWidth 32)) (w.position (fd.setWidth 32)) 9).length ≤ 8) :
    MeetsComment v streams fd w := by
  have hline := isLine_takeLine (streams (fd.setWidth 32)) (w.position (fd.setWidth 32)) 9
  have hends := endsLine_takeLine (Nat.lt_succ_of_le h)
  refine ⟨_,_,⟨11,fun n hn => readLine_short rfl hline hends h hn⟩,?_⟩
  have hsame := hline.takeLine_of_ends hends h
  rw [Files.advances_position,Nat.add_sub_cancel_left]
  have htaken := hline.consumed_end hends
  rw [← hsame] at htaken ⊢
  refine ⟨fun hsome => ?_,htaken,fun hother => ?_⟩
  · rw [if_neg (by simpa using hsome)]
  · by_cases hfirst : streams (fd.setWidth 32) (w.position (fd.setWidth 32))=none
    · rw [if_pos (by simpa using hfirst)]
      exact iff_of_true rfl hfirst
    · rw [if_neg (by simpa using hfirst)]
      exact iff_of_false hother hfirst

/-- The ninth byte of a line is read, and is not in the result. -/
theorem not_meetsComment_of_long
    (h : 8 < (takeLine (streams (fd.setWidth 32)) (w.position (fd.setWidth 32)) 9).length) :
    ¬MeetsComment v streams fd w := by
  have hline := isLine_takeLine (streams (fd.setWidth 32)) (w.position (fd.setWidth 32)) 9
  obtain ⟨front,b,hconcat,hlength⟩ := takeLine_nine h
  rw [hconcat] at hline
  have hfull : (front++[b]).length=9 := by rw [List.length_append,hlength,List.length_singleton]
  have hcut : takeLine (streams (fd.setWidth 32)) (w.position (fd.setWidth 32)) 8=front := by
    rw [← hlength]
    exact hline.left.takeLine_full
  have hall := hline.consumed
  rw [hfull] at hall
  have hshift : (fileHost v streams).compute .SHL (ofByte b) 64#64=some (v .SHL (ofByte b) 64) :=
    if_pos (by decide)
  rintro ⟨r,w',hreturns,hreads⟩
  obtain ⟨rfl,rfl⟩ := hreturns.unique ⟨11,fun n hn => readLine_long rfl hlength hline hshift hn⟩
  have htaken := hreads.taken
  rw [Files.advances_position,Nat.add_sub_cancel_left,hall,hcut] at htaken
  rcases htaken with heq | heq
  · have hlen := congrArg List.length heq
    omega
  · obtain ⟨-,hb⟩ := List.append_inj heq rfl
    have hne := (hline.get (i := 8) (by omega)).2
    rw [List.getElem_concat_length hlength.symm] at hne
    exact hne (List.cons.inj hb).1

/-- `read_line` does what its comment says of the lines of at most eight bytes. -/
theorem readLine_meets_iff (v : OpcodeType → DataType → DataType → DataType)
    (streams : BitVec 32 → Stream) (fd : DataType) (w : Files) :
    MeetsComment v streams fd w ↔
      (takeLine (streams (fd.setWidth 32)) (w.position (fd.setWidth 32)) 9).length ≤ 8 := by
  constructor
  · intro hmeets
    by_contra hlong
    exact not_meetsComment_of_long (Nat.lt_of_not_le hlong) hmeets
  · exact meetsComment_of_short

/-- Nine letters `a` and the end of the file, with counts modulo 64. -/
theorem readLine_nine_letters :
    ¬MeetsComment (fun o a b => (Assembler.compute o a b).getD 0)
      (fun _ p => if p < 9 then some 97 else none) 0 ⟨fun _ => 0,fun _ => []⟩ :=
  not_meetsComment_of_long (by decide)

end Promise

end Manchester.Os
