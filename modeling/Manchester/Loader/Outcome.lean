import Mathlib.Data.List.TakeWhile
import Manchester.Loader.LoadFile

namespace Manchester

/-- A reference that the loop writes for, with the destination that its name stands for when the
loop comes to it. -/
structure ResolvedReference where
  destination : DestinationToUpdate
  currentDestination : DestinationType
  deriving DecidableEq, Repr

/-- The exports after the write for a reference. -/
def writeExports (behind : Behind) (current : Nat) (exports : List ExportNode)
    (w : ResolvedReference) : List ExportNode :=
  if w.destination.instructionNumber.toNat < current then exports
  else behind w.destination.flags w.currentDestination exports

/-- The references that the loop writes for. -/
def resolvedReferences (behind : Behind) (current : Nat) :
    List ExternalReference → List ExportNode → List ResolvedReference
  | [],_ => []
  | ref::refs,exports =>
    if current < ref.destination.instructionNumber.toNat then []
    else if ref.destination.flags.isWritten then
      match findExport exports ref.name with
      | none => []
      | some result =>
        let w : ResolvedReference := ⟨ref.destination,result.currentDestination⟩
        w::resolvedReferences behind current refs (writeExports behind current exports w)
    else resolvedReferences behind current refs exports

def writeResolved (behind : Behind) (start current : Nat) (store : InstructionStore)
    (w : ResolvedReference) : InstructionStore :=
  writeReference behind start current w.destination w.currentDestination store

theorem writeResolved_exports (behind : Behind) (start current : Nat) (store : InstructionStore)
    (w : ResolvedReference) :
    (writeResolved behind start current store w).exports=
      writeExports behind current store.exports w := by
  simp only [writeResolved,writeReference,writeExports]
  split_ifs <;> rfl

/-- However the loop ends, it has made the writes of the references it came to, and it ran to its
end exactly when none of the table is out of range. -/
theorem resolveReferences_writes (behind : Behind) (start current : Nat)
    (refs : List ExternalReference) (store out : InstructionStore) (ok : Bool)
    (h : resolveReferences behind start current refs store=some (out,ok)) :
    out=(resolvedReferences behind current refs store.exports).foldl
        (writeResolved behind start current) store ∧
      (ok=true ↔ ∀ref∈refs,ref.destination.instructionNumber.toNat ≤ current) := by
  induction refs generalizing store with
  | nil =>
    simp only [resolveReferences,Option.some.injEq,Prod.mk.injEq] at h
    obtain ⟨rfl,rfl⟩ := h
    exact ⟨rfl,by simp⟩
  | cons ref refs ih =>
    simp only [resolveReferences] at h
    simp only [resolvedReferences]
    by_cases hin : current < ref.destination.instructionNumber.toNat
    · rw [if_pos hin] at h ⊢
      cases h
      refine ⟨rfl,?_⟩
      simp only [Bool.false_eq_true,false_iff,List.forall_mem_cons,not_and]
      intro hle
      omega
    · rw [if_neg hin] at h ⊢
      rw [List.forall_mem_cons,and_iff_right (Nat.le_of_not_lt hin)]
      by_cases hwritten : ref.destination.flags.isWritten=true
      · rw [if_pos hwritten] at h ⊢
        cases hfind : findExport store.exports ref.name with
        | none =>
          rw [hfind] at h
          cases h
        | some result =>
          rw [hfind] at h
          obtain ⟨hout,hok⟩ := ih _ h
          have hexports := writeResolved_exports behind start current store
            ⟨ref.destination,result.currentDestination⟩
          rw [writeResolved] at hexports
          rw [hexports] at hout
          exact ⟨hout,hok⟩
      · rw [if_neg hwritten] at h ⊢
        exact ih _ h

/-- The exports when the loop has ended. -/
def exportsAfter (behind : Behind) (current : Nat) (refs : List ExternalReference)
    (exports : List ExportNode) : List ExportNode :=
  (resolvedReferences behind current refs exports).foldl (writeExports behind current) exports

/-- What a write does to the new instruction of number k. -/
def resolveAt (k : Nat) (inst : Instruction) (w : ResolvedReference) : Instruction :=
  if w.destination.instructionNumber.toNat=k then
    resolveReference w.destination.flags w.currentDestination inst
  else inst

section Writes

variable (behind : Behind) (start current : Nat) (ws : List ResolvedReference)

theorem foldl_writeResolved_exports (store : InstructionStore) :
    (ws.foldl (writeResolved behind start current) store).exports=
      ws.foldl (writeExports behind current) store.exports := by
  induction ws generalizing store with
  | nil => rfl
  | cons w ws ih => rw [List.foldl_cons,ih,writeResolved_exports,List.foldl_cons]

theorem foldl_writeResolved_length (store : InstructionStore) :
    (ws.foldl (writeResolved behind start current) store).instructions.length=
      store.instructions.length := by
  induction ws generalizing store with
  | nil => rfl
  | cons w ws ih =>
    rw [List.foldl_cons,ih]
    simp only [writeResolved,writeReference]
    split_ifs
    · exact List.length_modify _ _ _
    · rfl

/-- The old instructions are kept. -/
theorem foldl_writeResolved_old (store : InstructionStore) {i : Nat} (hi : i < start) :
    (ws.foldl (writeResolved behind start current) store).instructions[i]?=
      store.instructions[i]? := by
  induction ws generalizing store with
  | nil => rfl
  | cons w ws ih =>
    rw [List.foldl_cons,ih]
    simp only [writeResolved,writeReference]
    split_ifs
    · have hne : start+w.destination.instructionNumber.toNat ≠ i := by omega
      exact List.getElem?_modify_ne _ _ hne
    · rfl

/-- The writes for a new instruction are applied to it in their order. -/
theorem foldl_writeResolved_new (store : InstructionStore) {k : Nat} (hk : k < current) :
    (ws.foldl (writeResolved behind start current) store).instructions[start+k]?=
      store.instructions[start+k]?.map fun inst => ws.foldl (resolveAt k) inst := by
  induction ws generalizing store with
  | nil =>
    simp only [List.foldl_nil]
    cases store.instructions[start+k]? <;> rfl
  | cons w ws ih =>
    rw [List.foldl_cons,ih]
    simp only [writeResolved,writeReference,List.foldl_cons,resolveAt]
    by_cases hw : w.destination.instructionNumber.toNat < current
    · rw [if_pos hw,List.getElem?_modify]
      cases store.instructions[start+k]? with
      | none => rfl
      | some inst =>
        simp only [Option.map_some,Nat.add_left_cancel_iff]
        split_ifs <;> rfl
    · have hne : w.destination.instructionNumber.toNat ≠ k := by omega
      simp only [if_neg hw,if_neg hne]

end Writes

/-- The store behind its old end once the new instructions are relocated. -/
def appendRelocated (store : InstructionStore) (sephi : Sephi) (isPrivileged : Bool) :
    List Instruction :=
  store.instructions++sephi.instructions.mapIdx
    (relocateInstruction sephi (BitVec.ofNat 32 store.instructions.length) isPrivileged)

theorem appendRelocated_length (store : InstructionStore) (sephi : Sephi) (isPrivileged : Bool) :
    (appendRelocated store sephi isPrivileged).length=
      store.instructions.length+sephi.instructions.length := by
  simp [appendRelocated]

def newExports (store : InstructionStore) (sephi : Sephi) : List ExportNode :=
  sephi.exports.map (newExportNode (BitVec.ofNat 32 store.instructions.length))

/-- The references of a file that a load into the store writes for. -/
def Sephi.resolved (sephi : Sephi) (behind : Behind) (exports : List ExportNode) :
    List ResolvedReference :=
  resolvedReferences behind sephi.instructions.length sephi.externalReferences exports

/-- What a load of the file leaves of the exports, its own apart. -/
def Sephi.keptExports (sephi : Sephi) (behind : Behind) (exports : List ExportNode) :
    List ExportNode :=
  exportsAfter behind sephi.instructions.length sephi.externalReferences exports

/-- Instruction k of a file as the load leaves it in the store. -/
def placedInstruction (behind : Behind) (store : InstructionStore) (sephi : Sephi)
    (isPrivileged : Bool) (k : Nat) (inst : Instruction) : Instruction :=
  (sephi.resolved behind store.exports).foldl (resolveAt k)
    (relocateInstruction sephi (BitVec.ofNat 32 store.instructions.length) isPrivileged k inst)

/-- The store with the instructions of the file behind the old ones. -/
def placedStore (behind : Behind) (store : InstructionStore) (sephi : Sephi)
    (isPrivileged : Bool) : InstructionStore where
  instructions := store.instructions++
    sephi.instructions.mapIdx (placedInstruction behind store sephi isPrivileged)
  exports := sephi.keptExports behind store.exports

/-- The loop over the references of a file, on the store that its instructions have joined. -/
def resolveSephi (behind : Behind) (store : InstructionStore) (sephi : Sephi)
    (isPrivileged : Bool) : Option (InstructionStore × Bool) :=
  resolveReferences behind store.instructions.length sephi.instructions.length
    sephi.externalReferences ⟨appendRelocated store sephi isPrivileged,store.exports⟩

theorem resolveSephi_placed (behind : Behind) (store out : InstructionStore) (sephi : Sephi)
    (isPrivileged ok : Bool)
    (h : resolveSephi behind store sephi isPrivileged=some (out,ok)) :
    out=placedStore behind store sephi isPrivileged ∧
      (ok=true ↔ ∀ref∈sephi.externalReferences,
        ref.destination.instructionNumber.toNat ≤ sephi.instructions.length) := by
  obtain ⟨rfl,hok⟩ := resolveReferences_writes _ _ _ _ _ _ _ h
  refine ⟨?_,hok⟩
  rw [placedStore,InstructionStore.mk.injEq]
  refine ⟨List.ext_getElem? fun i => ?_,foldl_writeResolved_exports _ _ _ _ _⟩
  by_cases hold : i < store.instructions.length
  · rw [foldl_writeResolved_old _ _ _ _ _ hold,appendRelocated,List.getElem?_append_left hold,
      List.getElem?_append_left hold]
  · obtain ⟨k,rfl⟩ := Nat.exists_eq_add_of_le (Nat.le_of_not_lt hold)
    by_cases hk : k < sephi.instructions.length
    · rw [foldl_writeResolved_new _ _ _ _ _ hk]
      simp only [appendRelocated]
      rw [List.getElem?_append_right (Nat.le_add_right _ _),
        List.getElem?_append_right (Nat.le_add_right _ _),Nat.add_sub_cancel_left,
        List.getElem?_mapIdx,List.getElem?_mapIdx,Option.map_map]
      rfl
    · have hend : (appendRelocated store sephi isPrivileged).length ≤
          store.instructions.length+k := by
        rw [appendRelocated_length]
        omega
      rw [List.getElem?_eq_none (by rwa [foldl_writeResolved_length]),
        List.getElem?_eq_none (by simp only [List.length_append,List.length_mapIdx]; omega)]

end Manchester
