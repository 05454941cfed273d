import Manchester.Assembler.Emit

namespace Manchester.Assembler

open Bytes

/-- What C reads of a name. -/
def cString (name : List UInt8) : List UInt8 := name.takeWhile (· != 0)

def UpdateEntry.record (e : UpdateEntry) : DestinationToUpdate :=
  ⟨BitVec.ofNat 32 e.instructionNum,BitVec.ofNat 8 e.combineFlags⟩

def ExternalSymbol.record (e : ExternalSymbol) : ExternalReference :=
  ⟨e.destinationToUpdate.record,cString e.name⟩

def ExportedSymbol.record (e : ExportedSymbol) : ExportSymbol :=
  ⟨BitVec.ofNat 32 e.destination,cString e.name⟩

/-- A name in its field, which has no room for more than 255 bytes and the zero behind them. -/
def fieldName (name : List UInt8) : List UInt8 := cString (name.take (referenceMaxSize-1))

def ExternalSymbol.fileRecord (e : ExternalSymbol) : ExternalReference :=
  ⟨e.destinationToUpdate.record,fieldName e.name⟩

def ExportedSymbol.fileRecord (e : ExportedSymbol) : ExportSymbol :=
  ⟨BitVec.ofNat 32 e.destination,fieldName e.name⟩

theorem fieldName_of_short (name : List UInt8) (h : name.length < referenceMaxSize) :
    fieldName name=cString name := by
  rw [fieldName,List.take_of_length_le (by omega)]

def literalWord : Option Arg → DataType
  | some (.int value) => BitVec.ofInt 64 value
  | _ => 0

def AsmInstruction.record (inst : AsmInstruction) : Instruction where
  opcode := BitVec.ofNat 32 inst.opcode.opcode.toNat
  destination1 := BitVec.ofNat 32 (inst.destination1.getD devNullDestination)
  destination2 := BitVec.ofNat 32 (inst.destination2.getD devNullDestination)
  marker := BitVec.ofNat 8 inst.marker
  literal1 := literalWord inst.literal1
  literal2 := literalWord inst.literal2
  instructionLiteral := inst.literalType.bits

theorem concatFields_ok (fields : List (Except AsmError (List UInt8))) (bytes : List UInt8)
    (h : concatFields fields=.ok bytes) :
    ∃ parts : List (List UInt8),fields=parts.map Except.ok ∧ bytes=parts.flatten := by
  induction fields generalizing bytes with
  | nil =>
    cases h
    exact ⟨[],rfl,rfl⟩
  | cons field fields ih =>
    simp only [concatFields] at h
    split at h
    · rename_i part rest hrest
      cases h
      obtain ⟨parts,hparts,hflat⟩ := ih rest hrest
      exact ⟨part::parts,by rw [hparts,List.map_cons],by rw [hflat,List.flatten_cons]⟩
    · cases h
    · cases h

theorem concatFields_cons_ok {field : Except AsmError (List UInt8)}
    {fields : List (Except AsmError (List UInt8))} {bytes : List UInt8}
    (h : concatFields (field::fields)=.ok bytes) :
    ∃ part rest,field=.ok part ∧ concatFields fields=.ok rest ∧ bytes=part++rest := by
  simp only [concatFields] at h
  split at h
  · rename_i part rest hrest
    cases h
    exact ⟨part,rest,rfl,hrest,rfl⟩
  · cases h
  · cases h

theorem packUnsigned_ok {width value : Nat} {bytes : List UInt8}
    (h : packUnsigned width value=.ok bytes) :
    bytes=ofNatLE width value ∧ value < 256^width := by
  unfold packUnsigned at h
  split_ifs at h with hv
  cases h
  exact ⟨rfl,hv⟩

/-- A word that was packed is read back. -/
theorem ofNat_toNatLE {width : Nat} (w value : Nat) (hw : 256^w=2^width) :
    BitVec.ofNat width (toNatLE (ofNatLE w value))=BitVec.ofNat width value := by
  apply BitVec.eq_of_toNat_eq
  rw [toNatLE_ofNatLE,hw,BitVec.toNat_ofNat,BitVec.toNat_ofNat,Nat.mod_mod]

theorem packLiteral_ok {literal : Option Arg} {bytes : List UInt8}
    (h : packLiteral literal=.ok bytes) :
    ∃ n,bytes=ofNatLE 8 n ∧ BitVec.ofNat 64 n=literalWord literal := by
  unfold packLiteral packSigned64 at h
  split at h
  · cases h
    exact ⟨_,rfl,by decide⟩
  · rename_i value
    split_ifs at h
    cases h
    refine ⟨_,rfl,?_⟩
    rw [literalWord]
    apply BitVec.eq_of_toNat_eq
    rw [BitVec.toNat_ofNat,BitVec.toNat_ofInt]
    omega
  · cases h

theorem packName_take (name : List UInt8) :
    ((packName name).take (referenceMaxSize-1)).takeWhile (· != 0)=fieldName name := by
  have hpad : (packName name).take (referenceMaxSize-1)=
      name.take (referenceMaxSize-1)++
        List.replicate (referenceMaxSize-1-name.length) 0 := by
    rw [packName,List.take_take,List.take_append,List.take_replicate]
    congr 2
    simp only [referenceMaxSize]
    omega
  rw [hpad,fieldName,cString,List.takeWhile_append]
  split_ifs with hall
  · have hself := (List.takeWhile_prefix (· != 0)).eq_of_length hall
    rw [hself,List.takeWhile_replicate]
    simp
  · rfl

theorem readWord_slice (width : Nat) (content : List UInt8) (off len o : Nat)
    (h : o+width/8 ≤ len) :
    readWord width (slice content off len) o=readWord width content (off+o) := by
  rw [readWord,slice_slice _ _ _ _ _ h,readWord]

theorem readName_slice (content : List UInt8) (off len o : Nat) (h : o+255 ≤ len) :
    readName (slice content off len) o=readName content (off+o) := by
  simp only [readName,referenceMaxSize]
  rw [slice_slice _ _ _ _ _ h]

theorem UpdateEntry.toBinary_ok {e : UpdateEntry} {bytes : List UInt8}
    (h : e.toBinary=.ok bytes) : bytes.length=destinationToUpdateSize ∧
      readDestinationToUpdate bytes 0=e.record := by
  obtain ⟨num,rest1,hnum,h1,rfl⟩ := concatFields_cons_ok h
  obtain ⟨flags,rest2,hflags,h2,rfl⟩ := concatFields_cons_ok h1
  obtain ⟨padding,rest3,hpad,h3,rfl⟩ := concatFields_cons_ok h2
  cases h3
  cases hpad
  obtain ⟨rfl,-⟩ := packUnsigned_ok hnum
  obtain ⟨rfl,-⟩ := packUnsigned_ok hflags
  refine ⟨by simp [destinationToUpdateSize],?_⟩
  have hn : readWord 32 (ofNatLE 4 e.instructionNum++(ofNatLE 1 e.combineFlags++
      (List.replicate 3 0++[]))) 0=BitVec.ofNat 32 e.instructionNum := ofNat_toNatLE 4 _ rfl
  have hf : readWord 8 (ofNatLE 4 e.instructionNum++(ofNatLE 1 e.combineFlags++
      (List.replicate 3 0++[]))) 4=BitVec.ofNat 8 e.combineFlags := ofNat_toNatLE 1 _ rfl
  simp only [readDestinationToUpdate,Nat.zero_add,hn,hf,UpdateEntry.record]

theorem length_packName (name : List UInt8) : (packName name).length=referenceMaxSize := by
  rw [packName,List.length_take,List.length_append,List.length_replicate]
  omega

/-- A name behind the `len` bytes of a field. -/
theorem readName_packName (bytes name : List UInt8) (len : Nat) (hlen : bytes.length=len) :
    readName (bytes++(packName name++[])) len=fieldName name := by
  have hslice : slice (bytes++(packName name++[])) len (referenceMaxSize-1)=
      (packName name).take (referenceMaxSize-1) := by
    rw [← hlen,List.append_nil,slice,List.drop_left]
  rw [readName,hslice,packName_take name]

theorem ExternalSymbol.toBinary_ok {e : ExternalSymbol} {bytes : List UInt8}
    (h : e.toBinary=.ok bytes) :
    bytes.length=externalReferenceSize ∧ readExternalReference bytes 0=e.fileRecord := by
  obtain ⟨dest,rest1,hdest,h1,rfl⟩ := concatFields_cons_ok h
  obtain ⟨name,rest2,hn,h2,rfl⟩ := concatFields_cons_ok h1
  cases h2
  cases hn
  obtain ⟨hlen,hread⟩ := UpdateEntry.toBinary_ok hdest
  refine ⟨by simp [hlen,length_packName,externalReferenceSize,destinationToUpdateSize,
    referenceMaxSize],?_⟩
  have hslice : slice (dest++(packName e.name++[])) 0 8=dest := by
    have hlen8 : dest.length=8 := hlen
    simp [slice,← hlen8]
  have hd : readDestinationToUpdate (dest++(packName e.name++[])) 0=
      e.destinationToUpdate.record := by
    rw [← hread,readDestinationToUpdate,readDestinationToUpdate,← hslice,
      readWord_slice _ _ _ _ _ (by decide),readWord_slice _ _ _ _ _ (by decide),hslice]
  rw [readExternalReference,hd,readName_packName dest e.name 8 hlen]
  rfl

theorem ExportedSymbol.toBinary_ok {e : ExportedSymbol} {bytes : List UInt8}
    (h : e.toBinary=.ok bytes) :
    bytes.length=exportSymbolSize ∧ readExportSymbol bytes 0=e.fileRecord := by
  obtain ⟨dest,rest1,hdest,h1,rfl⟩ := concatFields_cons_ok h
  obtain ⟨name,rest2,hn,h2,rfl⟩ := concatFields_cons_ok h1
  cases h2
  cases hn
  obtain ⟨rfl,-⟩ := packUnsigned_ok hdest
  refine ⟨by simp [length_packName,exportSymbolSize,referenceMaxSize],?_⟩
  have hd : readWord 32 (ofNatLE 4 e.destination++(packName e.name++[])) 0=
      BitVec.ofNat 32 e.destination := ofNat_toNatLE 4 _ rfl
  rw [readExportSymbol,hd,readName_packName _ e.name 4 (length_ofNatLE 4 _)]
  rfl

theorem packOpcode_ok {opcode : Opcode} {bytes : List UInt8} (h : packOpcode opcode=.ok bytes) :
    bytes=ofNatLE 4 opcode.opcode.toNat := by
  unfold packOpcode at h
  split_ifs at h
  exact (packUnsigned_ok h).1

theorem AsmInstruction.toBinary_ok {inst : AsmInstruction} {bytes : List UInt8}
    (h : inst.toBinary=.ok bytes) :
    bytes.length=instructionSize ∧ readInstruction bytes 0=inst.record := by
  obtain ⟨f1,rest1,h1,k1,rfl⟩ := concatFields_cons_ok h
  obtain ⟨f2,rest2,h2,k2,rfl⟩ := concatFields_cons_ok k1
  obtain ⟨f3,rest3,h3,k3,rfl⟩ := concatFields_cons_ok k2
  obtain ⟨f4,rest4,h4,k4,rfl⟩ := concatFields_cons_ok k3
  obtain ⟨f5,rest5,h5,k5,rfl⟩ := concatFields_cons_ok k4
  obtain ⟨f6,rest6,h6,k6,rfl⟩ := concatFields_cons_ok k5
  obtain ⟨f7,rest7,h7,k7,rfl⟩ := concatFields_cons_ok k6
  obtain ⟨f8,rest8,h8,k8,rfl⟩ := concatFields_cons_ok k7
  obtain ⟨f9,rest9,h9,k9,rfl⟩ := concatFields_cons_ok k8
  cases k9
  cases h5
  cases h9
  obtain rfl := packOpcode_ok h1
  obtain ⟨rfl,-⟩ := packUnsigned_ok h2
  obtain ⟨rfl,-⟩ := packUnsigned_ok h3
  obtain ⟨rfl,-⟩ := packUnsigned_ok h4
  obtain ⟨n1,rfl,hn1⟩ := packLiteral_ok h6
  obtain ⟨n2,rfl,hn2⟩ := packLiteral_ok h7
  obtain ⟨rfl,-⟩ := packUnsigned_ok h8
  refine ⟨by simp [instructionSize],?_⟩
  simp only [readInstruction,AsmInstruction.record,Nat.zero_add,Instruction.mk.injEq,← hn1,← hn2]
  refine ⟨?_,?_,?_,?_,?_,?_,?_⟩
  · exact ofNat_toNatLE 4 _ rfl
  · exact ofNat_toNatLE 4 _ rfl
  · exact ofNat_toNatLE 4 _ rfl
  · exact ofNat_toNatLE 1 _ rfl
  · exact ofNat_toNatLE 8 _ rfl
  · exact ofNat_toNatLE 8 _ rfl
  · exact ofNat_toNatLE 4 _ rfl

theorem readTable_flatten {α : Type} (readRecord : List UInt8 → Nat → α) (size : Nat)
    (hlocal : ∀ content off,readRecord (slice content off size) 0=readRecord content off)
    (parts : List (List UInt8)) (hsize : ∀p∈parts,p.length=size) (before after : List UInt8) :
    readTable readRecord size parts.length (before++(parts.flatten++after)) before.length=
      parts.map fun p => readRecord p 0 := by
  apply List.ext_getElem
  · simp
  · intro i hi hi'
    have hi : i < parts.length := by simpa using hi
    have hflat : parts.flatten=parts.flatMap id := by simp [List.flatMap]
    have hlen : parts.flatten.length=size*parts.length := by
      rw [hflat,length_flatMap id size parts hsize]
    have hbound : size*i+size ≤ size*parts.length := by
      rw [← Nat.mul_succ]
      exact Nat.mul_le_mul_left size hi
    have hslice : slice (before++(parts.flatten++after)) (before.length+size*i) size=parts[i] := by
      rw [slice_append_right,slice_append_left _ _ _ _ (by omega),hflat,
        slice_flatMap id size parts hsize i hi]
      rfl
    simp only [readTable,List.getElem_map,List.getElem_range]
    rw [← hlocal,hslice]

/-- A table of records that were packed one after the other is read back. -/
theorem readTable_encoded {α β : Type} (toBinary : α → Except AsmError (List UInt8))
    (record : α → β) (readRecord : List UInt8 → Nat → β) (size : Nat)
    (hlocal : ∀ content off,readRecord (slice content off size) 0=readRecord content off)
    (xs : List α) (hrecord : ∀x∈xs,∀ bytes,toBinary x=.ok bytes →
      bytes.length=size ∧ readRecord bytes 0=record x) (bytes : List UInt8)
    (h : concatFields (xs.map toBinary)=.ok bytes) :
    bytes.length=size*xs.length ∧ ∀ before after,
      readTable readRecord size xs.length (before++(bytes++after)) before.length=
        xs.map record := by
  obtain ⟨parts,hparts,rfl⟩ := concatFields_ok _ _ h
  have hlen : parts.length=xs.length := by simpa using (congrArg List.length hparts).symm
  have hpart : ∀ i (hi : i < xs.length),∃p,parts[i]?=some p ∧ p.length=size ∧
      readRecord p 0=record xs[i] := by
    intro i hi
    have hip : i < parts.length := by omega
    have hget : toBinary xs[i]=.ok parts[i] := by
      have hmap := congrArg (fun l => l[i]?) hparts
      simpa [List.getElem?_eq_getElem hi,List.getElem?_eq_getElem hip] using hmap
    obtain ⟨hsize,hread⟩ := hrecord xs[i] (List.getElem_mem hi) _ hget
    exact ⟨parts[i],List.getElem?_eq_getElem hip,hsize,hread⟩
  have hsize : ∀p∈parts,p.length=size := by
    intro p hp
    obtain ⟨i,hi,rfl⟩ := List.mem_iff_getElem.mp hp
    obtain ⟨p,hp,hlp,-⟩ := hpart i (by omega)
    rw [List.getElem?_eq_getElem hi,Option.some.injEq] at hp
    rw [hp,hlp]
  have hflat : parts.flatten=parts.flatMap id := by simp [List.flatMap]
  refine ⟨by rw [hflat,length_flatMap id size parts hsize,hlen],?_⟩
  intro before after
  rw [← hlen,readTable_flatten readRecord size hlocal parts hsize]
  apply List.ext_getElem
  · simp [hlen]
  · intro i hi hi'
    obtain ⟨p,hp,-,hread⟩ := hpart i (by simpa using hi')
    rw [List.getElem?_eq_getElem (by simpa using hi),Option.some.injEq] at hp
    simp only [List.getElem_map]
    rw [hp,hread]

theorem readDestinationToUpdate_local (content : List UInt8) (off : Nat) :
    readDestinationToUpdate (slice content off destinationToUpdateSize) 0=
      readDestinationToUpdate content off := by
  simp only [readDestinationToUpdate,destinationToUpdateSize]
  rw [readWord_slice _ _ _ _ _ (by decide),readWord_slice _ _ _ _ _ (by decide)]
  rfl

theorem readExternalReference_local (content : List UInt8) (off : Nat) :
    readExternalReference (slice content off externalReferenceSize) 0=
      readExternalReference content off := by
  simp only [readExternalReference,readDestinationToUpdate,externalReferenceSize]
  rw [readWord_slice _ _ _ _ _ (by decide),readWord_slice _ _ _ _ _ (by decide),
    readName_slice _ _ _ _ (by decide)]
  rfl

theorem readExportSymbol_local (content : List UInt8) (off : Nat) :
    readExportSymbol (slice content off exportSymbolSize) 0=readExportSymbol content off := by
  simp only [readExportSymbol,exportSymbolSize]
  rw [readWord_slice _ _ _ _ _ (by decide),readName_slice _ _ _ _ (by decide)]
  rfl

theorem readInstruction_local (content : List UInt8) (off : Nat) :
    readInstruction (slice content off instructionSize) 0=readInstruction content off := by
  simp only [readInstruction,instructionSize,Nat.zero_add]
  repeat rw [readWord_slice _ _ _ _ _ (by decide)]
  rfl

/-- The tables of the assembler as the loader sees them. -/
def Emitted.sephi (e : Emitted) : Sephi :=
  ⟨e.constants.map UpdateEntry.record,e.labels.map UpdateEntry.record,
    e.externalReferences.map ExternalSymbol.record,e.exports.map ExportedSymbol.record,
    e.instructions.map AsmInstruction.record⟩

/-- Names that fit their fields with a zero behind them. -/
def Emitted.ShortNames (e : Emitted) : Prop :=
  (∀r∈e.externalReferences,r.name.length < referenceMaxSize) ∧
    ∀x∈e.exports,x.name.length < referenceMaxSize

/-- The tables as they stand in the file, where a long name is cut. -/
def Emitted.fileSephi (e : Emitted) : Sephi :=
  ⟨e.constants.map UpdateEntry.record,e.labels.map UpdateEntry.record,
    e.externalReferences.map ExternalSymbol.fileRecord,e.exports.map ExportedSymbol.fileRecord,
    e.instructions.map AsmInstruction.record⟩

theorem Emitted.fileSephi_of_short {e : Emitted} (h : e.ShortNames) : e.fileSephi=e.sephi := by
  have hrefs : e.externalReferences.map ExternalSymbol.fileRecord=
      e.externalReferences.map ExternalSymbol.record := by
    apply List.map_congr_left
    intro r hr
    rw [ExternalSymbol.fileRecord,fieldName_of_short _ (h.1 r hr),ExternalSymbol.record]
  have hexports : e.exports.map ExportedSymbol.fileRecord=
      e.exports.map ExportedSymbol.record := by
    apply List.map_congr_left
    intro x hx
    rw [ExportedSymbol.fileRecord,fieldName_of_short _ (h.2 x hx),ExportedSymbol.record]
  rw [Emitted.fileSephi,hrefs,hexports,Emitted.sephi]

theorem readTable_at {α : Type} {read : List UInt8 → Nat → α} {size count off : Nat}
    {content table : List UInt8} {result : List α}
    (h : ∀ before after,readTable read size count (before++(table++after)) before.length=result)
    (before after : List UInt8) (hcontent : content=before++(table++after))
    (hoff : before.length=off) : readTable read size count content off=result := by
  rw [hcontent,← hoff]
  exact h before after

/-- A header and five tables whose sizes it gives are taken apart at the right places. -/
theorem parseSephi_layout (sephi : Sephi) (constants toFix refs exports instructions : List UInt8)
    (c l e x : Nat) (hc : c < 2^16) (hl : l < 2^16) (he : e < 2^16) (hx : x < 2^16)
    (hconstants : constants.length=destinationToUpdateSize*c)
    (htoFix : toFix.length=destinationToUpdateSize*l)
    (hrefs : refs.length=externalReferenceSize*e)
    (hexports : exports.length=exportSymbolSize*x)
    (hinstructions : instructions.length=instructionSize*sephi.instructions.length)
    (kconstants : ∀ before after,readTable readDestinationToUpdate destinationToUpdateSize c
      (before++(constants++after)) before.length=sephi.constants)
    (ktoFix : ∀ before after,readTable readDestinationToUpdate destinationToUpdateSize l
      (before++(toFix++after)) before.length=sephi.toFix)
    (krefs : ∀ before after,readTable readExternalReference externalReferenceSize e
      (before++(refs++after)) before.length=sephi.externalReferences)
    (kexports : ∀ before after,readTable readExportSymbol exportSymbolSize x
      (before++(exports++after)) before.length=sephi.exports)
    (kinstructions : ∀ before after,
      readTable readInstruction instructionSize sephi.instructions.length
        (before++(instructions++after)) before.length=sephi.instructions) :
    parseSephi (magicBytes++(ofNatLE 2 c++(ofNatLE 2 l++(ofNatLE 2 e++(ofNatLE 2 x++
      (constants++(toFix++(refs++(exports++instructions)))))))))=some sephi := by
  obtain ⟨header,hheader⟩ : ∃ header,
      magicBytes++(ofNatLE 2 c++(ofNatLE 2 l++(ofNatLE 2 e++ofNatLE 2 x)))=header := ⟨_,rfl⟩
  have hlen : header.length=sephiHeaderSize := by
    rw [← hheader]
    simp [magicBytes,sephiHeaderSize]
  obtain ⟨content,hcontent⟩ : ∃ content,magicBytes++(ofNatLE 2 c++(ofNatLE 2 l++(ofNatLE 2 e++
    (ofNatLE 2 x++(constants++(toFix++(refs++(exports++instructions))))))))=content := ⟨_,rfl⟩
  have hread : readHeader content=⟨magicBytes,BitVec.ofNat 16 c,BitVec.ofNat 16 l,
      BitVec.ofNat 16 e,BitVec.ofNat 16 x⟩ := by
    rw [← hcontent,readHeader,SephiHeader.mk.injEq]
    exact ⟨rfl,ofNat_toNatLE 2 _ rfl,ofNat_toNatLE 2 _ rfl,ofNat_toNatLE 2 _ rfl,
      ofNat_toNatLE 2 _ rfl⟩
  have hsplit : content=header++(constants++(toFix++(refs++(exports++instructions)))) := by
    rw [← hcontent,← hheader]
    simp only [List.append_assoc]
  have hsize : content.length=sephiHeaderSize+destinationToUpdateSize*c+destinationToUpdateSize*l+
      externalReferenceSize*e+exportSymbolSize*x+instructionSize*sephi.instructions.length := by
    rw [hsplit]
    simp only [List.length_append,hlen,hconstants,htoFix,hrefs,hexports,hinstructions]
    omega
  have h1 : readTable readDestinationToUpdate destinationToUpdateSize c content sephiHeaderSize=
      sephi.constants := readTable_at kconstants header _ hsplit hlen
  have h2 : readTable readDestinationToUpdate destinationToUpdateSize l content
      (sephiHeaderSize+destinationToUpdateSize*c)=sephi.toFix := by
    apply readTable_at ktoFix (header++constants) (refs++(exports++instructions))
    · rw [hsplit,List.append_assoc]
    · rw [List.length_append,hlen,hconstants]
  have h3 : readTable readExternalReference externalReferenceSize e content
      (sephiHeaderSize+destinationToUpdateSize*c+destinationToUpdateSize*l)=
        sephi.externalReferences := by
    apply readTable_at krefs (header++constants++toFix) (exports++instructions)
    · simp only [hsplit,List.append_assoc]
    · simp only [List.length_append,hlen,hconstants,htoFix]
  have h4 : readTable readExportSymbol exportSymbolSize x content
      (sephiHeaderSize+destinationToUpdateSize*c+destinationToUpdateSize*l+
        externalReferenceSize*e)=sephi.exports := by
    apply readTable_at kexports (header++constants++toFix++refs) instructions
    · simp only [hsplit,List.append_assoc]
    · simp only [List.length_append,hlen,hconstants,htoFix,hrefs]
  have h5 : readTable readInstruction instructionSize sephi.instructions.length content
      (sephiHeaderSize+destinationToUpdateSize*c+destinationToUpdateSize*l+
        externalReferenceSize*e+exportSymbolSize*x)=sephi.instructions := by
    apply readTable_at kinstructions (header++constants++toFix++refs++exports) []
    · simp only [hsplit,List.append_assoc,List.append_nil]
    · simp only [List.length_append,hlen,hconstants,htoFix,hrefs,hexports]
  have hmod : ∀ n,n < 2^16 → (BitVec.ofNat 16 n).toNat=n := by
    intro n hn
    rw [BitVec.toNat_ofNat,Nat.mod_eq_of_lt hn]
  have hsub : content.length-(sephiHeaderSize+destinationToUpdateSize*c+destinationToUpdateSize*l+
      externalReferenceSize*e+exportSymbolSize*x)=instructionSize*sephi.instructions.length := by
    omega
  rw [hcontent]
  simp only [parseSephi,hread,hmod c hc,hmod l hl,hmod e he,hmod x hx,h1,h2,h3,h4,hsub,
    Nat.mul_mod_right,h5,
    Nat.mul_div_cancel_left sephi.instructions.length (by decide : 0 < instructionSize)]
  rw [if_neg (by omega),if_neg (by simp),if_neg (by omega),if_neg (by simp)]

/-- What the assembler writes is what the loader reads. -/
theorem Emitted.parse_fileSephi {e : Emitted} {bytes : List UInt8} (h : e.file=.ok bytes) :
    parseSephi bytes=some e.fileSephi := by
  obtain ⟨header,rest1,hheader,h1,rfl⟩ := concatFields_cons_ok h
  obtain ⟨instructions,rest2,hinstructions,h2,rfl⟩ := concatFields_cons_ok h1
  cases h2
  obtain ⟨f0,r0,k0,hr0,rfl⟩ := concatFields_cons_ok hheader
  obtain ⟨f1,r1,k1,hr1,rfl⟩ := concatFields_cons_ok hr0
  obtain ⟨f2,r2,k2,hr2,rfl⟩ := concatFields_cons_ok hr1
  obtain ⟨f3,r3,k3,hr3,rfl⟩ := concatFields_cons_ok hr2
  obtain ⟨f4,r4,k4,hr4,rfl⟩ := concatFields_cons_ok hr3
  obtain ⟨constants,r5,hconstants,hr5,rfl⟩ := concatFields_cons_ok hr4
  obtain ⟨toFix,r6,htoFix,hr6,rfl⟩ := concatFields_cons_ok hr5
  obtain ⟨refs,r7,hrefs,hr7,rfl⟩ := concatFields_cons_ok hr6
  obtain ⟨exports,r8,hexports,hr8,rfl⟩ := concatFields_cons_ok hr7
  cases hr8
  cases k0
  obtain ⟨rfl,hc⟩ := packUnsigned_ok k1
  obtain ⟨rfl,hl⟩ := packUnsigned_ok k2
  obtain ⟨rfl,he⟩ := packUnsigned_ok k3
  obtain ⟨rfl,hx⟩ := packUnsigned_ok k4
  obtain ⟨lenC,tabC⟩ := readTable_encoded _ UpdateEntry.record _ _ readDestinationToUpdate_local
    e.constants (fun _ _ _ hb => UpdateEntry.toBinary_ok hb) _ hconstants
  obtain ⟨lenL,tabL⟩ := readTable_encoded _ UpdateEntry.record _ _ readDestinationToUpdate_local
    e.labels (fun _ _ _ hb => UpdateEntry.toBinary_ok hb) _ htoFix
  obtain ⟨lenE,tabE⟩ := readTable_encoded _ ExternalSymbol.fileRecord _ _
    readExternalReference_local e.externalReferences
    (fun _ _ _ hb => ExternalSymbol.toBinary_ok hb) _ hrefs
  obtain ⟨lenX,tabX⟩ := readTable_encoded _ ExportedSymbol.fileRecord _ _ readExportSymbol_local
    e.exports (fun _ _ _ hb => ExportedSymbol.toBinary_ok hb) _ hexports
  obtain ⟨lenI,tabI⟩ := readTable_encoded _ AsmInstruction.record _ _ readInstruction_local
    e.instructions (fun _ _ _ hb => AsmInstruction.toBinary_ok hb) _ hinstructions
  have hlenI : e.fileSephi.instructions.length=e.instructions.length := by
    simp [Emitted.fileSephi]
  have hlayout := parseSephi_layout e.fileSephi constants toFix refs exports instructions
    _ _ _ _ hc hl he hx lenC lenL lenE lenX (by rw [hlenI,lenI]) tabC tabL tabE tabX
    (by rw [hlenI]; exact tabI)
  simpa only [List.append_assoc,List.append_nil] using hlayout

theorem Emitted.parse_file {e : Emitted} {bytes : List UInt8} (h : e.file=.ok bytes)
    (hnames : e.ShortNames) : parseSephi bytes=some e.sephi := by
  rw [Emitted.parse_fileSephi h,Emitted.fileSephi_of_short hnames]

end Manchester.Assembler
