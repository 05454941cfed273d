import Manchester.Loader.Outcome

namespace Manchester

/-- The references that the loop comes to: those before the first one that is out of range. -/
def reachedReferences (current : Nat) (refs : List ExternalReference) : List ExternalReference :=
  refs.takeWhile fun ref => ref.destination.instructionNumber.toNat ≤ current

theorem reachedReferences_cons {current : Nat} {ref : ExternalReference}
    {refs : List ExternalReference} (h : ref.destination.instructionNumber.toNat ≤ current) :
    reachedReferences current (ref::refs)=ref::reachedReferences current refs := by
  simp [reachedReferences,h]

theorem mem_reachedReferences {current : Nat} {refs : List ExternalReference}
    {ref : ExternalReference} (h : ref∈reachedReferences current refs) :
    ref∈refs ∧ ref.destination.instructionNumber.toNat ≤ current := by
  rw [reachedReferences] at h
  have hle := List.mem_takeWhile_imp h
  exact ⟨(List.takeWhile_sublist _).subset h,by simpa using hle⟩

theorem reachedReferences_all {current : Nat} {refs : List ExternalReference}
    (h : ∀ref∈refs,ref.destination.instructionNumber.toNat ≤ current) :
    reachedReferences current refs=refs := by
  rw [reachedReferences,List.takeWhile_eq_self_iff]
  intro ref href
  simpa using h ref href

/-- No reference that the loop comes to makes it write behind the store. -/
def WritesInside (current : Nat) (refs : List ExternalReference) : Prop :=
  ∀ref∈reachedReferences current refs,ref.destination.flags.isWritten=true →
    ref.destination.instructionNumber.toNat < current

theorem writesInside_of_lt {current : Nat} {refs : List ExternalReference}
    (h : ∀ref∈refs,ref.destination.instructionNumber.toNat < current) :
    WritesInside current refs :=
  fun ref href _ => h ref (mem_reachedReferences href).1

theorem WritesInside.tail {current : Nat} {ref : ExternalReference}
    {refs : List ExternalReference} (h : WritesInside current (ref::refs))
    (hin : ref.destination.instructionNumber.toNat ≤ current) : WritesInside current refs := by
  intro r hr
  apply h
  rw [reachedReferences_cons hin]
  exact List.mem_cons_of_mem _ hr

theorem WritesInside.head {current : Nat} {ref : ExternalReference}
    {refs : List ExternalReference} (h : WritesInside current (ref::refs))
    (hin : ref.destination.instructionNumber.toNat ≤ current)
    (hwritten : ref.destination.flags.isWritten=true) :
    ref.destination.instructionNumber.toNat < current := by
  apply h ref _ hwritten
  rw [reachedReferences_cons hin]
  exact List.mem_cons_self

/-- Such a loop leaves the exports as they are. -/
theorem exportsAfter_inside (behind : Behind) {current : Nat} {refs : List ExternalReference}
    (exports : List ExportNode) (h : WritesInside current refs) :
    exportsAfter behind current refs exports=exports := by
  rw [exportsAfter]
  induction refs with
  | nil => rfl
  | cons ref refs ih =>
    rw [resolvedReferences]
    by_cases hin : current < ref.destination.instructionNumber.toNat
    · rw [if_pos hin,List.foldl_nil]
    · have hle := Nat.le_of_not_lt hin
      rw [if_neg hin]
      by_cases hwritten : ref.destination.flags.isWritten=true
      · rw [if_pos hwritten]
        cases findExport exports ref.name with
        | none => rfl
        | some result =>
          have hlt := h.head hle hwritten
          simp only [List.foldl_cons,writeExports,if_pos hlt]
          exact ih (h.tail hle)
      · rw [if_neg hwritten]
        exact ih (h.tail hle)

/-- What a reference does to the new instruction of number k, by what its name stands for in the
given exports. -/
def resolveNamed (exports : List ExportNode) (k : Nat) (inst : Instruction)
    (ref : ExternalReference) : Instruction :=
  if ref.destination.instructionNumber.toNat=k then
    match findExport exports ref.name with
    | none => inst
    | some result => resolveReference ref.destination.flags result.currentDestination inst
  else inst

theorem resolveReference_not_written {flags : Flags} (h : ¬flags.isWritten=true)
    (current : DestinationType) (inst : Instruction) :
    resolveReference flags current inst=inst := by
  simp only [Flags.isWritten,Bool.or_eq_true,not_or,Bool.not_eq_true] at h
  obtain ⟨⟨⟨⟨hfirst,hsecond⟩,hliteral1⟩,hliteral2⟩,hopcode⟩ := h
  simp only [resolveReference,hfirst,hsecond,hliteral1,hliteral2,hopcode,Bool.false_eq_true,
    if_false]

theorem resolveNamed_not_written {ref : ExternalReference}
    (h : ¬ref.destination.flags.isWritten=true) (exports : List ExportNode) (k : Nat)
    (inst : Instruction) : resolveNamed exports k inst ref=inst := by
  rw [resolveNamed]
  split_ifs
  · split
    · rfl
    · exact resolveReference_not_written h _ _
  · rfl

/-- A loop that writes inside the store goes by the exports before the load. -/
theorem foldl_resolved_inside (behind : Behind) {current : Nat} {refs : List ExternalReference}
    (exports : List ExportNode) (h : WritesInside current refs)
    (hknown : ∀ref∈refs,(findExport exports ref.name).isSome) (k : Nat) (inst : Instruction) :
    (resolvedReferences behind current refs exports).foldl (resolveAt k) inst=
      (reachedReferences current refs).foldl (resolveNamed exports k) inst := by
  induction refs generalizing inst with
  | nil => rfl
  | cons ref refs ih =>
    have hrest : ∀r∈refs,(findExport exports r.name).isSome := fun r hr => hknown r (by simp [hr])
    rw [resolvedReferences]
    by_cases hin : current < ref.destination.instructionNumber.toNat
    · have hnil : reachedReferences current (ref::refs)=[] := by simp [reachedReferences,hin]
      rw [if_pos hin,hnil]
      rfl
    · have hle := Nat.le_of_not_lt hin
      rw [if_neg hin,reachedReferences_cons hle,List.foldl_cons]
      by_cases hwritten : ref.destination.flags.isWritten=true
      · obtain ⟨result,hfind⟩ := Option.isSome_iff_exists.mp (hknown ref (by simp))
        have hlt := h.head hle hwritten
        simp only [if_pos hwritten,hfind,List.foldl_cons,writeExports,if_pos hlt,resolveAt,
          resolveNamed]
        exact ih (h.tail hle) hrest _
      · rw [if_neg hwritten,resolveNamed_not_written hwritten]
        exact ih (h.tail hle) hrest _

/-- Where every reference is to an instruction of the file, the load goes by the exports before
it. -/
theorem placedInstruction_inside (behind : Behind) (store : InstructionStore) (sephi : Sephi)
    (isPrivileged : Bool)
    (hinside : ∀ref∈sephi.externalReferences,
      ref.destination.instructionNumber.toNat < sephi.instructions.length)
    (hknown : ∀ref∈sephi.externalReferences,(findExport store.exports ref.name).isSome) (k : Nat)
    (inst : Instruction) :
    placedInstruction behind store sephi isPrivileged k inst=
      sephi.externalReferences.foldl (resolveNamed store.exports k) (relocateInstruction sephi
        (BitVec.ofNat 32 store.instructions.length) isPrivileged k inst) := by
  rw [placedInstruction,Sephi.resolved,
    foldl_resolved_inside behind store.exports (writesInside_of_lt hinside) hknown,
    reachedReferences_all fun ref href => (hinside ref href).le]

theorem resolveReferences_complete (behind : Behind) (start : Nat) {current : Nat}
    {refs : List ExternalReference} (store : InstructionStore) (h : WritesInside current refs)
    (hknown : ∀ref∈refs,(findExport store.exports ref.name).isSome) :
    ∃ out ok,resolveReferences behind start current refs store=some (out,ok) := by
  induction refs generalizing store with
  | nil => exact ⟨store,true,rfl⟩
  | cons ref refs ih =>
    rw [resolveReferences]
    by_cases hin : current < ref.destination.instructionNumber.toNat
    · exact ⟨store,false,if_pos hin⟩
    · have hle := Nat.le_of_not_lt hin
      have htail := h.tail hle
      rw [if_neg hin]
      by_cases hwritten : ref.destination.flags.isWritten=true
      · obtain ⟨result,hfind⟩ := Option.isSome_iff_exists.mp (hknown ref (by simp))
        have hlt := h.head hle hwritten
        simp only [if_pos hwritten,hfind,writeReference,if_pos hlt]
        exact ih _ htail fun r hr => hknown r (by simp [hr])
      · rw [if_neg hwritten]
        exact ih _ htail fun r hr => hknown r (by simp [hr])

/-- The file passes the checks that come before the store grows. -/
def Admitted (store : InstructionStore) (file : Option (List UInt8)) (sephi : Sephi) : Prop :=
  file.bind parseSephi=some sephi ∧
    ∀ref∈sephi.externalReferences,(findExport store.exports ref.name).isSome

theorem Admitted.unique {store : InstructionStore} {file : Option (List UInt8)}
    {sephi sephi' : Sephi} (h : Admitted store file sephi) (h' : Admitted store file sephi') :
    sephi'=sephi :=
  Option.some.inj (h'.1.symm.trans h.1)

/-- The load of the file succeeds. -/
def Loads (store : InstructionStore) (file : Option (List UInt8)) (sephi : Sephi) : Prop :=
  Admitted store file sephi ∧ ∀ref∈sephi.externalReferences,
    ref.destination.instructionNumber.toNat ≤ sephi.instructions.length

theorem any_unknown_iff (exports : List ExportNode) (refs : List ExternalReference) :
    (refs.any fun ref => (findExport exports ref.name).isNone)=true ↔
      ¬∀ref∈refs,(findExport exports ref.name).isSome := by
  simp

/-- What a successful load returns. -/
def loadedInfo (store : InstructionStore) (sephi : Sephi) : LoadedCodeInfo :=
  ⟨some store.instructions.length,sephi.instructions.length,newExports store sephi,0⟩

/-- The store after a successful load. -/
def loadedStore (behind : Behind) (store : InstructionStore) (sephi : Sephi)
    (isPrivileged : Bool) : InstructionStore :=
  {placedStore behind store sephi isPrivileged with
    exports := sephi.keptExports behind store.exports++newExports store sephi}

/-- The ways in which `loadFile` ends. A file with a reference that is out of range has its
instructions in the store. -/
inductive LoadOutcome (behind : Behind) (store : InstructionStore) (file : Option (List UInt8))
    (isPrivileged : Bool) : LoadedCodeInfo → InstructionStore → Prop where
  | rejected (hrefused : ∀ sephi,¬Admitted store file sephi) :
      LoadOutcome behind store file isPrivileged loadError store
  | aborted (sephi : Sephi) (hadmitted : Admitted store file sephi)
      (hbeyond : ¬∀ref∈sephi.externalReferences,
        ref.destination.instructionNumber.toNat ≤ sephi.instructions.length) :
      LoadOutcome behind store file isPrivileged loadError
        (placedStore behind store sephi isPrivileged)
  | loaded (sephi : Sephi) (hloads : Loads store file sephi)
      (hstart : store.instructions.length < 2^31) :
      LoadOutcome behind store file isPrivileged (loadedInfo store sephi)
        (loadedStore behind store sephi isPrivileged)

theorem loadFile_outcome (behind : Behind) (store store' : InstructionStore)
    (file : Option (List UInt8)) (isPrivileged : Bool) (info : LoadedCodeInfo)
    (h : loadFile behind store file isPrivileged=some (info,store')) :
    LoadOutcome behind store file isPrivileged info store' := by
  unfold loadFile at h
  split at h
  · rename_i hfile
    cases h
    refine .rejected fun sephi hsephi => ?_
    have hparse := hsephi.1
    rw [hfile] at hparse
    cases hparse
  · rename_i sephi hfile
    split at h
    · rename_i hunknown
      cases h
      refine .rejected fun sephi' hsephi' => ?_
      obtain rfl := Option.some.inj (hfile.symm.trans hsephi'.1)
      exact (any_unknown_iff _ _).mp hunknown hsephi'.2
    · rename_i hknown
      have hadmitted : Admitted store file sephi :=
        ⟨hfile,not_not.mp ((any_unknown_iff _ _).not.mp hknown)⟩
      simp only at h
      split at h
      · cases h
      · rename_i hsmall
        split at h
        · cases h
        · rename_i out hout
          obtain ⟨rfl,hok⟩ := resolveSephi_placed behind store out sephi isPrivileged false hout
          cases h
          exact .aborted sephi hadmitted fun hall => absurd (hok.mpr hall) Bool.false_ne_true
        · rename_i out hout
          obtain ⟨rfl,hok⟩ := resolveSephi_placed behind store out sephi isPrivileged true hout
          cases h
          exact .loaded sephi ⟨hadmitted,hok.mp rfl⟩ (by omega)

/-- Without exports no reference is resolved, and what lies behind the store does not matter. -/
theorem loadFile_no_exports (behind behind' : Behind) (instructions : List Instruction)
    (file : Option (List UInt8)) (isPrivileged : Bool) :
    loadFile behind ⟨instructions,[]⟩ file isPrivileged=
      loadFile behind' ⟨instructions,[]⟩ file isPrivileged := by
  simp only [loadFile]
  cases file.bind parseSephi with
  | none => rfl
  | some sephi =>
    cases hrefs : sephi.externalReferences with
    | nil => simp only [hrefs,resolveReferences]
    | cons ref refs => simp [hrefs,findExport]

/-- When `loadFile` succeeds. -/
theorem loadFile_of_valid (behind : Behind) (store : InstructionStore) (file : List UInt8)
    (isPrivileged : Bool) (sephi : Sephi) (hfile : parseSephi file=some sephi)
    (hstart : store.instructions.length < 2^31) (hcurrent : sephi.instructions.length < 2^31)
    (hrefs : ∀ref∈sephi.externalReferences,
      ref.destination.instructionNumber.toNat < sephi.instructions.length ∧
        (findExport store.exports ref.name).isSome) :
    loadFile behind store (some file) isPrivileged=
      some (loadedInfo store sephi,loadedStore behind store sephi isPrivileged) := by
  have hknown : (sephi.externalReferences.any fun ref =>
      (findExport store.exports ref.name).isNone)=false := by
    rw [Bool.eq_false_iff,Ne,any_unknown_iff]
    exact not_not_intro fun ref href => (hrefs ref href).2
  obtain ⟨out,ok,hout⟩ := resolveReferences_complete behind store.instructions.length
    ⟨appendRelocated store sephi isPrivileged,store.exports⟩
    (writesInside_of_lt fun ref href => (hrefs ref href).1) fun ref href => (hrefs ref href).2
  obtain ⟨rfl,hok⟩ := resolveSephi_placed behind store out sephi isPrivileged ok hout
  obtain rfl := hok.mpr fun ref href => (hrefs ref href).1.le
  rw [appendRelocated] at hout
  simp only [loadFile,Option.bind_some,hfile,hknown,Bool.false_eq_true,if_false,
    if_neg (by omega : ¬(2^31 ≤ store.instructions.length ∨ 2^31 ≤ sephi.instructions.length)),
    hout]
  rfl

/-- A load of a file that passes those checks adds its instructions, also when it fails later. -/
theorem loadFile_admitted (behind : Behind) (store store' : InstructionStore)
    (file : Option (List UInt8)) (isPrivileged : Bool) (info : LoadedCodeInfo) (sephi : Sephi)
    (hload : loadFile behind store file isPrivileged=some (info,store'))
    (hadmitted : Admitted store file sephi) :
    store'.instructions=store.instructions++
      sephi.instructions.mapIdx (placedInstruction behind store sephi isPrivileged) := by
  cases loadFile_outcome _ _ _ _ _ _ hload with
  | rejected hrefused => exact absurd hadmitted (hrefused sephi)
  | aborted sephi' hsephi' _ =>
    obtain rfl := hadmitted.unique hsephi'
    rfl
  | loaded sephi' hloads _ =>
    obtain rfl := hadmitted.unique hloads.1
    rfl

/-- A load of any other file changes nothing. -/
theorem loadFile_not_admitted (behind : Behind) (store store' : InstructionStore)
    (file : Option (List UInt8)) (isPrivileged : Bool) (info : LoadedCodeInfo)
    (hload : loadFile behind store file isPrivileged=some (info,store'))
    (hrefused : ∀ sephi,¬Admitted store file sephi) : info=loadError ∧ store'=store := by
  cases loadFile_outcome _ _ _ _ _ _ hload with
  | rejected => exact ⟨rfl,rfl⟩
  | aborted sephi hsephi _ => exact absurd hsephi (hrefused sephi)
  | loaded sephi hloads _ => exact absurd hloads.1 (hrefused sephi)

/-- What a successful load comes to. -/
theorem loadFile_loads (behind : Behind) (store store' : InstructionStore)
    (file : Option (List UInt8)) (isPrivileged : Bool) (info : LoadedCodeInfo) (sephi : Sephi)
    (hload : loadFile behind store file isPrivileged=some (info,store'))
    (hloads : Loads store file sephi) :
    info=loadedInfo store sephi ∧ store'=loadedStore behind store sephi isPrivileged := by
  cases loadFile_outcome _ _ _ _ _ _ hload with
  | rejected hrefused => exact absurd hloads.1 (hrefused sephi)
  | aborted sephi' hsephi' hbeyond =>
    obtain rfl := hloads.1.unique hsephi'
    exact absurd hloads.2 hbeyond
  | loaded sephi' hsephi' _ =>
    obtain rfl := hloads.1.unique hsephi'.1
    exact ⟨rfl,rfl⟩

/-- A load that returns no error has succeeded. -/
theorem loadFile_ok (behind : Behind) (store store' : InstructionStore)
    (file : Option (List UInt8)) (isPrivileged : Bool) (info : LoadedCodeInfo)
    (hload : loadFile behind store file isPrivileged=some (info,store')) (hok : info.error ≠ -1) :
    ∃ sephi,Loads store file sephi := by
  cases loadFile_outcome _ _ _ _ _ _ hload with
  | rejected => exact absurd rfl hok
  | aborted => exact absurd rfl hok
  | loaded sephi hloads _ => exact ⟨sephi,hloads⟩

/-- The instructions that a load has added. -/
def LoadedCodeInfo.slice (info : LoadedCodeInfo) (store : InstructionStore) : List Instruction :=
  (store.instructions.drop (info.instructions.getD 0)).take info.currentNumInstructions

theorem loadFile_slice (behind : Behind) (store store' : InstructionStore)
    (file : Option (List UInt8)) (isPrivileged : Bool) (info : LoadedCodeInfo)
    (hload : loadFile behind store file isPrivileged=some (info,store')) (hok : info.error ≠ -1) :
    ∃ sephi,Loads store file sephi ∧ info.instructions=some store.instructions.length ∧
      info.slice store'=
        sephi.instructions.mapIdx (placedInstruction behind store sephi isPrivileged) := by
  obtain ⟨sephi,hloads⟩ := loadFile_ok _ _ _ _ _ _ hload hok
  obtain ⟨rfl,rfl⟩ := loadFile_loads _ _ _ _ _ _ _ hload hloads
  refine ⟨sephi,hloads,rfl,?_⟩
  rw [LoadedCodeInfo.slice,loadedInfo,loadedStore,placedStore,Option.getD_some,List.drop_left]
  apply List.take_of_length_le
  rw [List.length_mapIdx]

theorem loads_error (behind : Behind) (store store' : InstructionStore)
    (file : Option (List UInt8)) (isPrivileged : Bool) (info : LoadedCodeInfo) (sephi : Sephi)
    (hload : loadFile behind store file isPrivileged=some (info,store'))
    (hloads : Loads store file sephi) : info.error=0 := by
  obtain ⟨rfl,-⟩ := loadFile_loads _ _ _ _ _ _ _ hload hloads
  rfl

end Manchester
