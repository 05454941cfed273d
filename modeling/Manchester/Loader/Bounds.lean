import Manchester.Loader.Placed

namespace Manchester

-- A file that `read_all` reads completely has less than 2^31 bytes, since it counts them in an int.
-- A string is put down with its NUL, also where a comparison stops before it.

/-- What is touched: bytes of the buffer of the file, or a record of the store. -/
inductive Access where
  | buffer (off len : Nat)
  | record (index : Int)
  deriving DecidableEq, Repr

def Access.InBounds (fileSize start current : Nat) : Access → Prop
  | .buffer off len => off+len ≤ fileSize
  | .record index => (start : Int) ≤ index ∧ index < start+current

namespace Sephi

-- Where the tables start.

def toFixOffset (sephi : Sephi) : Nat :=
  sephiHeaderSize+destinationToUpdateSize*sephi.constants.length
def referencesOffset (sephi : Sephi) : Nat :=
  sephi.toFixOffset+destinationToUpdateSize*sephi.toFix.length
def exportsOffset (sephi : Sephi) : Nat :=
  sephi.referencesOffset+externalReferenceSize*sephi.externalReferences.length
def instructionsOffset (sephi : Sephi) : Nat :=
  sephi.exportsOffset+exportSymbolSize*sephi.exports.length

end Sephi

def headerAccesses (content : List UInt8) : List Access :=
  if content.length < sephiHeaderSize then []
  else .buffer 0 8::if (readHeader content).magicBytes ≠ magicBytes then []
    else [.buffer 8 2,.buffer 10 2,.buffer 12 2,.buffer 14 2]

def stringAccess (content : List UInt8) (off : Nat) : Access :=
  .buffer off ((readName content off).length+1)

/-- The names of the references are terminated and looked up, until one is unknown. -/
def nameAccesses (exports : List ExportNode) (content : List UInt8) :
    Nat → List ExternalReference → List Access
  | _,[] => []
  | off,ref::refs =>
    .buffer (off+8+(referenceMaxSize-1)) 1::stringAccess content (off+8)::
      if (findExport exports ref.name).isNone then []
      else nameAccesses exports content (off+externalReferenceSize) refs

/-- `is_in_list` reads the table up to the entry that it finds. -/
def listAccesses (cur : Nat) (which : WhichDestination) :
    Nat → List DestinationToUpdate → List Access
  | _,[] => []
  | off,c::cs =>
    .buffer off destinationToUpdateSize::
      if c.instructionNumber.toNat==cur && which.flag c.flags then []
      else listAccesses cur which (off+destinationToUpdateSize) cs

/-- Instruction i is relocated in the buffer and copied to the store. -/
def relocateAccesses (sephi : Sephi) (start : Int) (i : Nat) : List Access :=
  listAccesses i .FIRST_DESTINATION sephiHeaderSize sephi.constants++
    listAccesses i .SECOND_DESTINATION sephiHeaderSize sephi.constants++
    listAccesses i .FIRST_LITERAL sephi.toFixOffset sephi.toFix++
    listAccesses i .SECOND_LITERAL sephi.toFixOffset sephi.toFix++
    [.buffer (sephi.instructionsOffset+instructionSize*i) instructionSize,.record (start+i)]

def resolveAccesses (content : List UInt8) (start : Int) (current : Nat) :
    Nat → List ExternalReference → List Access
  | _,[] => []
  | off,ref::refs =>
    let instNum := ref.destination.instructionNumber.toNat
    stringAccess content (off+8)::.buffer off destinationToUpdateSize::
      if current < instNum then []
      else (if ref.destination.flags.isWritten then [.record (start+instNum)] else [])++
        resolveAccesses content start current (off+externalReferenceSize) refs

def exportAccesses (content : List UInt8) : Nat → List ExportSymbol → List Access
  | _,[] => []
  | off,_::symbols =>
    .buffer (off+4+(referenceMaxSize-1)) 1::.buffer off 4::stringAccess content (off+4)::
      exportAccesses content (off+exportSymbolSize) symbols

/-- The accesses of `load_file`, in the order of its parts. The number of the first new
instruction is held in an int. -/
def loadAccesses (store : InstructionStore) (content : List UInt8) : List Access :=
  headerAccesses content++
    match parseSephi content with
    | none => []
    | some sephi =>
      nameAccesses store.exports content sephi.referencesOffset sephi.externalReferences++
        if sephi.externalReferences.any fun ref => (findExport store.exports ref.name).isNone then []
        else
          let start := (BitVec.ofNat 32 store.instructions.length).toInt
          let current := sephi.instructions.length
          (List.range current).flatMap (relocateAccesses sephi start)++
            resolveAccesses content start current sephi.referencesOffset sephi.externalReferences++
            if sephi.externalReferences.any fun ref =>
              current < ref.destination.instructionNumber.toNat then []
            else exportAccesses content sephi.exportsOffset sephi.exports

/-- How many instructions the file has. -/
def numInstructions (content : List UInt8) : Nat :=
  ((parseSephi content).map fun sephi => sephi.instructions.length).getD 0

/-- The tables fill the file. -/
theorem parseSephi_size (content : List UInt8) (sephi : Sephi)
    (h : parseSephi content=some sephi) :
    content.length=sephi.instructionsOffset+instructionSize*sephi.instructions.length := by
  simp only [parseSephi] at h
  split_ifs at h with hsmall hmagic htables hrest
  obtain rfl := Option.some.inj h
  simp only [Sephi.instructionsOffset,Sephi.exportsOffset,Sephi.referencesOffset,
    Sephi.toFixOffset,readTable_length]
  simp only [not_or,Nat.not_lt] at htables
  have hsize := htables.2.2.2.2
  have hmul := Nat.mul_div_cancel' (Nat.dvd_of_mod_eq_zero (not_not.mp hrest))
  omega

theorem readName_length (content : List UInt8) (off : Nat) :
    (readName content off).length < referenceMaxSize := by
  have hslice : (Bytes.slice content off (referenceMaxSize-1)).length ≤ referenceMaxSize-1 := by
    rw [Bytes.slice]
    exact List.length_take_le _ _
  have hname : (readName content off).length ≤
      (Bytes.slice content off (referenceMaxSize-1)).length :=
    (List.takeWhile_sublist _).length_le
  have hmax : referenceMaxSize=256 := rfl
  omega

/-- A name in a field of the buffer is read inside the field. -/
theorem stringAccess_inBounds (content : List UInt8) (off fileSize start current : Nat)
    (h : off+referenceMaxSize ≤ fileSize) :
    (stringAccess content off).InBounds fileSize start current := by
  have hlength := readName_length content off
  show off+((readName content off).length+1) ≤ fileSize
  omega

section Parts

variable {content : List UInt8} {fileSize start current : Nat}

theorem headerAccesses_inBounds :
    ∀a∈headerAccesses content,a.InBounds content.length start current := by
  unfold headerAccesses
  by_cases hsmall : content.length < sephiHeaderSize
  · rw [if_pos hsmall]
    simp
  · have hsize : 16 ≤ content.length := Nat.le_of_not_lt hsmall
    rw [if_neg hsmall]
    split_ifs
    · simp only [List.mem_singleton,forall_eq,Access.InBounds]
      omega
    · simp only [List.mem_cons,List.not_mem_nil,or_false,forall_eq_or_imp,forall_eq,
        Access.InBounds]
      omega

theorem nameAccesses_inBounds (exports : List ExportNode) (off : Nat)
    (refs : List ExternalReference) (h : off+externalReferenceSize*refs.length ≤ fileSize) :
    ∀a∈nameAccesses exports content off refs,a.InBounds fileSize start current := by
  induction refs generalizing off with
  | nil => simp [nameAccesses]
  | cons ref refs ih =>
    simp only [List.length_cons,externalReferenceSize] at h
    have hmax : referenceMaxSize=256 := rfl
    have hfield : off+8+referenceMaxSize ≤ fileSize := by omega
    simp only [nameAccesses,List.forall_mem_cons]
    refine ⟨?_,stringAccess_inBounds _ _ _ _ _ hfield,?_⟩
    · simp only [Access.InBounds]
      omega
    · split_ifs
      · simp
      · apply ih
        simp only [externalReferenceSize]
        omega

theorem listAccesses_inBounds (cur : Nat) (which : WhichDestination) (off : Nat)
    (constants : List DestinationToUpdate)
    (h : off+destinationToUpdateSize*constants.length ≤ fileSize) :
    ∀a∈listAccesses cur which off constants,a.InBounds fileSize start current := by
  induction constants generalizing off with
  | nil => simp [listAccesses]
  | cons c cs ih =>
    simp only [List.length_cons,destinationToUpdateSize] at h
    simp only [listAccesses,List.forall_mem_cons]
    constructor
    · show off+8 ≤ fileSize
      omega
    · split_ifs
      · simp
      · apply ih
        simp only [destinationToUpdateSize]
        omega

theorem exportAccesses_inBounds (off : Nat) (symbols : List ExportSymbol)
    (h : off+exportSymbolSize*symbols.length ≤ fileSize) :
    ∀a∈exportAccesses content off symbols,a.InBounds fileSize start current := by
  induction symbols generalizing off with
  | nil => simp [exportAccesses]
  | cons symbol symbols ih =>
    simp only [List.length_cons,exportSymbolSize] at h
    have hmax : referenceMaxSize=256 := rfl
    have hfield : off+4+referenceMaxSize ≤ fileSize := by omega
    simp only [exportAccesses,List.forall_mem_cons]
    refine ⟨?_,?_,stringAccess_inBounds _ _ _ _ _ hfield,?_⟩
    · simp only [Access.InBounds]
      omega
    · show off+4 ≤ fileSize
      omega
    · apply ih
      simp only [exportSymbolSize]
      omega

/-- The loop over the references stays in the buffer, and in the new part of the store exactly
when each reference that it comes to and that changes something does. -/
theorem resolveAccesses_inBounds_iff (first : Int) (bound off : Nat)
    (refs : List ExternalReference) (h : off+externalReferenceSize*refs.length ≤ fileSize) :
    (∀a∈resolveAccesses content first bound off refs,a.InBounds fileSize start current) ↔
      ∀ref∈reachedReferences bound refs,ref.destination.flags.isWritten=true →
        (Access.record (first+ref.destination.instructionNumber.toNat)).InBounds
          fileSize start current := by
  induction refs generalizing off with
  | nil => simp [resolveAccesses,reachedReferences]
  | cons ref refs ih =>
    simp only [List.length_cons,externalReferenceSize] at h
    have hmax : referenceMaxSize=256 := rfl
    have hfield : off+8+referenceMaxSize ≤ fileSize := by omega
    have hrecord : (Access.buffer off destinationToUpdateSize).InBounds fileSize start current := by
      show off+8 ≤ fileSize
      omega
    have hstring := stringAccess_inBounds content (off+8) fileSize start current hfield
    simp only [resolveAccesses,List.forall_mem_cons]
    rw [and_iff_right hstring,and_iff_right hrecord]
    by_cases hin : bound < ref.destination.instructionNumber.toNat
    · simp [reachedReferences,hin]
    · have hrest := ih (off+externalReferenceSize) (by simp only [externalReferenceSize]; omega)
      rw [if_neg hin,reachedReferences_cons (Nat.le_of_not_lt hin),List.forall_mem_cons,
          List.forall_mem_append,hrest]
      refine and_congr_left fun _ => ?_
      by_cases hwritten : ref.destination.flags.isWritten=true
      · simp [hwritten]
      · simp [hwritten]

end Parts

theorem relocateAccesses_inBounds_iff (content : List UInt8) (sephi : Sephi)
    (hparse : parseSephi content=some sephi) (first : Int) (start current i : Nat)
    (hi : i < sephi.instructions.length) :
    (∀a∈relocateAccesses sephi first i,a.InBounds content.length start current) ↔
      (Access.record (first+i)).InBounds content.length start current := by
  have hsize := parseSephi_size content sephi hparse
  simp only [Sephi.instructionsOffset,Sephi.exportsOffset,Sephi.referencesOffset,
    externalReferenceSize,exportSymbolSize,instructionSize] at hsize
  have hconstants : sephiHeaderSize+destinationToUpdateSize*sephi.constants.length ≤
      content.length := by
    rw [Sephi.toFixOffset] at hsize
    omega
  have htoFix : sephi.toFixOffset+destinationToUpdateSize*sephi.toFix.length ≤
      content.length := by omega
  have hrecord : (Access.buffer (sephi.instructionsOffset+instructionSize*i)
      instructionSize).InBounds content.length start current := by
    simp only [Access.InBounds,Sephi.instructionsOffset,Sephi.exportsOffset,
      Sephi.referencesOffset,externalReferenceSize,exportSymbolSize,instructionSize]
    omega
  simp only [relocateAccesses,List.forall_mem_append,List.forall_mem_cons]
  constructor
  · exact fun h => h.2.2.1
  · intro h
    exact ⟨⟨⟨⟨listAccesses_inBounds _ _ _ _ hconstants,listAccesses_inBounds _ _ _ _ hconstants⟩,
      listAccesses_inBounds _ _ _ _ htoFix⟩,listAccesses_inBounds _ _ _ _ htoFix⟩,hrecord,h,
      List.forall_mem_nil _⟩

/-- The number of the first new instruction, held in an int. -/
theorem start_toInt (start : Nat) (h : start < 2^31) : (BitVec.ofNat 32 start).toInt=start := by
  have hnat : (BitVec.ofNat 32 start).toNat=start := by
    rw [BitVec.toNat_ofNat]
    omega
  rw [BitVec.toInt_eq_toNat_of_lt (by omega),hnat]

theorem start_toInt_lt (start : Nat) (h : 2^31 ≤ start) :
    (BitVec.ofNat 32 start).toInt < start := by
  have hlt := (BitVec.ofNat 32 start).toInt_lt
  omega

theorem records_inBounds_iff (fileSize start current : Nat) :
    (∀ i < current,(Access.record ((BitVec.ofNat 32 start).toInt+i)).InBounds
        fileSize start current) ↔ (current ≠ 0 → start < 2^31) := by
  constructor
  · intro h hpos
    by_contra hge
    have hfirst := (h 0 (Nat.pos_of_ne_zero hpos)).1
    have hlt := start_toInt_lt start (Nat.le_of_not_lt hge)
    omega
  · intro h i hi
    rw [start_toInt start (h (by omega))]
    simp only [Access.InBounds]
    omega

theorem record_inBounds_iff (fileSize start current k : Nat) (h : current ≠ 0 → start < 2^31) :
    (Access.record ((BitVec.ofNat 32 start).toInt+k)).InBounds fileSize start current ↔
      k < current := by
  by_cases hzero : current=0
  · subst hzero
    simp only [Access.InBounds]
    omega
  · rw [start_toInt start (h hzero)]
    simp only [Access.InBounds]
    omega

/-- A file that is refused before the store grows is read in bounds. -/
theorem loadAccesses_of_refused (store : InstructionStore) (content : List UInt8)
    (start current : Nat) (h : ∀ sephi,¬Admitted store (some content) sephi) :
    ∀a∈loadAccesses store content,a.InBounds content.length start current := by
  rw [loadAccesses,List.forall_mem_append]
  refine ⟨headerAccesses_inBounds,?_⟩
  cases hparse : parseSephi content with
  | none => simp
  | some sephi =>
    have hsize := parseSephi_size content sephi hparse
    have hunknown : (sephi.externalReferences.any fun ref =>
        (findExport store.exports ref.name).isNone)=true := by
      rw [any_unknown_iff]
      exact fun hknown => h sephi ⟨hparse,hknown⟩
    simp only [hunknown,if_true,List.append_nil]
    apply nameAccesses_inBounds
    rw [Sephi.instructionsOffset,Sephi.exportsOffset] at hsize
    omega

/-- The records that the load of any other file touches decide. -/
theorem loadAccesses_of_admitted (store : InstructionStore) (content : List UInt8) (sephi : Sephi)
    (start current : Nat) (h : Admitted store (some content) sephi) :
    (∀a∈loadAccesses store content,a.InBounds content.length start current) ↔
      (∀ i < sephi.instructions.length,
        (Access.record ((BitVec.ofNat 32 store.instructions.length).toInt+i)).InBounds
          content.length start current) ∧
        ∀ref∈reachedReferences sephi.instructions.length sephi.externalReferences,
          ref.destination.flags.isWritten=true →
            (Access.record ((BitVec.ofNat 32 store.instructions.length).toInt+
              ref.destination.instructionNumber.toNat)).InBounds content.length start current := by
  have hparse : parseSephi content=some sephi := h.1
  have hsize := parseSephi_size content sephi hparse
  have hknown : (sephi.externalReferences.any fun ref =>
      (findExport store.exports ref.name).isNone)=false := by
    rw [Bool.eq_false_iff,Ne,any_unknown_iff]
    exact not_not_intro h.2
  have hreferences : sephi.referencesOffset+externalReferenceSize*sephi.externalReferences.length ≤
      content.length := by
    rw [Sephi.instructionsOffset,Sephi.exportsOffset] at hsize
    omega
  have hexports : ∀a∈(if sephi.externalReferences.any fun ref =>
      sephi.instructions.length < ref.destination.instructionNumber.toNat then []
      else exportAccesses content sephi.exportsOffset sephi.exports),
      a.InBounds content.length start current := by
    split_ifs
    · exact List.forall_mem_nil _
    · apply exportAccesses_inBounds
      rw [Sephi.instructionsOffset] at hsize
      omega
  simp only [loadAccesses,hparse,hknown,Bool.false_eq_true,if_false,List.forall_mem_append]
  rw [and_iff_right headerAccesses_inBounds,
    and_iff_right (nameAccesses_inBounds _ _ _ hreferences),and_iff_left hexports,
    resolveAccesses_inBounds_iff _ _ _ _ hreferences]
  refine and_congr_left fun _ => ?_
  rw [List.forall_mem_flatMap]
  simp only [List.mem_range]
  exact forall₂_congr fun i hi => relocateAccesses_inBounds_iff content sephi hparse _ _ _ i hi

/-- Every access of a load is in bounds exactly when, if its file passes the checks, the store has
fewer than 2^31 instructions before new ones are added, and no reference that the loop comes to
changes the instruction behind the last one of the file. -/
theorem load_accesses_iff (store : InstructionStore) (content : List UInt8) :
    (∀a∈loadAccesses store content,
        a.InBounds content.length store.instructions.length (numInstructions content)) ↔
      ∀ sephi,Admitted store (some content) sephi →
        (sephi.instructions ≠ [] → store.instructions.length < 2^31) ∧
          ∀ref∈reachedReferences sephi.instructions.length sephi.externalReferences,
            ref.destination.flags.isWritten=true →
              ref.destination.instructionNumber.toNat < sephi.instructions.length := by
  by_cases hadmitted : ∃ sephi,Admitted store (some content) sephi
  · obtain ⟨sephi,hsephi⟩ := hadmitted
    have hnum : numInstructions content=sephi.instructions.length := by
      have hparse : parseSephi content=some sephi := hsephi.1
      rw [numInstructions,hparse]
      rfl
    have honly : ∀ sephi',Admitted store (some content) sephi' → sephi'=sephi := fun sephi' h' =>
      hsephi.unique h'
    rw [loadAccesses_of_admitted store content sephi _ _ hsephi,hnum,records_inBounds_iff]
    constructor
    · intro ⟨hstart,hrefs⟩ sephi' hsephi'
      obtain rfl := honly sephi' hsephi'
      have hstart' : sephi'.instructions.length ≠ 0 → store.instructions.length < 2^31 := hstart
      refine ⟨fun hne => hstart' (by simpa using hne),fun ref href hwritten => ?_⟩
      exact (record_inBounds_iff _ _ _ _ hstart').mp (hrefs ref href hwritten)
    · intro h
      obtain ⟨hstart,hrefs⟩ := h sephi hsephi
      have hstart' : sephi.instructions.length ≠ 0 → store.instructions.length < 2^31 :=
        fun hne => hstart (by simpa using hne)
      refine ⟨hstart',fun ref href hwritten => ?_⟩
      exact (record_inBounds_iff _ _ _ _ hstart').mpr (hrefs ref href hwritten)
  · have hrefused : ∀ sephi,¬Admitted store (some content) sephi := not_exists.mp hadmitted
    exact iff_of_true (loadAccesses_of_refused store content _ _ hrefused)
      fun sephi hsephi => absurd hsephi (hrefused sephi)

/-- The records that a load changes are among those that are touched. -/
theorem changed_record_accessed (behind : Behind) (store store' : InstructionStore)
    (content : List UInt8) (isPrivileged : Bool) (info : LoadedCodeInfo)
    (hload : loadFile behind store (some content) isPrivileged=some (info,store')) (i : Nat)
    (hi : store'.instructions[i]? ≠ store.instructions[i]?) :
    Access.record i∈loadAccesses store content := by
  by_cases hadmitted : ∃ sephi,Admitted store (some content) sephi
  · obtain ⟨sephi,hsephi⟩ := hadmitted
    have hparse : parseSephi content=some sephi := hsephi.1
    have hknown : (sephi.externalReferences.any fun ref =>
        (findExport store.exports ref.name).isNone)=false := by
      rw [Bool.eq_false_iff,Ne,any_unknown_iff]
      exact not_not_intro hsephi.2
    have hplaces := loadFile_admitted _ _ _ _ _ _ sephi hload hsephi
    have hstart : store.instructions.length < 2^31 := by
      simp only [loadFile,Option.bind_some,hparse,hknown,Bool.false_eq_true,if_false] at hload
      by_contra hge
      rw [if_pos (.inl (Nat.le_of_not_lt hge))] at hload
      cases hload
    rw [hplaces] at hi
    have hnew : store.instructions.length ≤ i := by
      by_contra hold
      exact hi (List.getElem?_append_left (Nat.lt_of_not_le hold))
    obtain ⟨k,rfl⟩ := Nat.exists_eq_add_of_le hnew
    have hk : k < sephi.instructions.length := by
      by_contra hge
      apply hi
      rw [List.getElem?_eq_none (by simp only [List.length_append,List.length_mapIdx]; omega),
        List.getElem?_eq_none (by omega)]
    simp only [loadAccesses,hparse,hknown,Bool.false_eq_true,if_false,List.mem_append,
      List.mem_flatMap,List.mem_range]
    refine .inr (.inr (.inl (.inl ⟨k,hk,?_⟩)))
    rw [relocateAccesses,start_toInt _ hstart,Nat.cast_add]
    simp
  · obtain ⟨-,rfl⟩ := loadFile_not_admitted _ _ _ _ _ _ hload (not_exists.mp hadmitted)
    exact absurd rfl hi

/-- One instruction, and a reference to "x" for its instruction 1. -/
private def boundaryFile : List UInt8 :=
  magicBytes++[0,0,0,0,1,0,0,0]++[1,0,0,0,1,0,0,0,0x78]++List.replicate 255 0++
    List.replicate 40 0

/-- The index is not above the number of instructions, and the record behind them is written. -/
theorem load_access_out_of_bounds :
    Access.record 1∈loadAccesses ⟨[],[⟨24,[0x78]⟩]⟩ boundaryFile ∧
      ¬(Access.record 1).InBounds boundaryFile.length 0 (numInstructions boundaryFile) := by
  have hnum : numInstructions boundaryFile=1 := by decide +kernel
  refine ⟨by decide +kernel,?_⟩
  rw [hnum]
  intro h
  exact absurd h.2 (by decide)

end Manchester
