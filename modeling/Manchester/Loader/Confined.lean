import Manchester.Loader.Privilege
import Manchester.Pipeline.IoSwitch

namespace Manchester

/-- The two destinations of an instruction. -/
inductive DestinationSlot where
  | first | second
  deriving DecidableEq, Repr

def DestinationSlot.which : DestinationSlot → WhichDestination
  | first => .FIRST_DESTINATION
  | second => .SECOND_DESTINATION

def Instruction.destination (inst : Instruction) : DestinationSlot → DestinationType
  | .first => inst.destination1
  | .second => inst.destination2

/-- A destination of the switch, or one that a symbol is exported for. -/
def IsEntry (exports : List ExportNode) (d : DestinationType) : Prop :=
  isSwitchDestination d=true ∨ ∃node∈exports,node.currentDestination=d

/-- The destination is in the module that has `current` instructions from `start` on, or is an
entry. -/
def IsConfined (exports : List ExportNode) (start current : Nat) (d : DestinationType) : Prop :=
  (start ≤ (destinationToAddress d).toNat ∧ (destinationToAddress d).toNat < start+current) ∨
    IsEntry exports d

/-- All destinations of the instructions that a load has added are confined to them. -/
def PlacesConfined (info : LoadedCodeInfo) (store : InstructionStore) : Prop :=
  ∀ start,info.instructions=some start → ∀ k < info.currentNumInstructions,
    ∀ inst,store.instructions[start+k]?=some inst → ∀ slot,
      IsConfined store.exports start info.currentNumInstructions (inst.destination slot)

/-- A destination in a record of the file: as a constant it must be confined; any other must be
that of /dev/null, or have the number of an instruction of the file and stay below 2^28 in the
store, or be moved to an entry. -/
def FieldConfined (exports : List ExportNode) (start : Nat) (sephi : Sephi) (k : Nat)
    (slot : DestinationSlot) (d : DestinationType) : Prop :=
  if isInList sephi.constants k slot.which then
    IsConfined exports start sephi.instructions.length d
  else
    d=devNullDestination ∨
      ((destinationToAddress d).toNat < sephi.instructions.length ∧
        start+(destinationToAddress d).toNat < 2^28) ∨
      IsEntry exports (incrementDestinationAddress d (BitVec.ofNat 32 start))

theorem destinationToAddress_lt (d : DestinationType) : (destinationToAddress d).toNat < 2^28 := by
  rw [destinationToAddress_toNat]
  omega

theorem increment_address (d : DestinationType) (start : Nat) :
    (destinationToAddress (incrementDestinationAddress d (BitVec.ofNat 32 start))).toNat=
      ((destinationToAddress d).toNat+start)%2^28 := by
  have hinput := destinationToInput_lt d
  have hmatching := destinationToMatchingFunction_lt d
  rw [incrementDestinationAddress,destinationToAddress_toNat,
    createDestination_toNat _ _ _ hinput (by omega),BitVec.toNat_add,BitVec.toNat_ofNat]
  omega

/-- An address that is moved lies in the module exactly when it was the number of an instruction
and the sum does not wrap around. -/
theorem increment_in_module_iff (d : DestinationType) (start current : Nat) :
    (start ≤ (destinationToAddress
          (incrementDestinationAddress d (BitVec.ofNat 32 start))).toNat ∧
        (destinationToAddress (incrementDestinationAddress d (BitVec.ofNat 32 start))).toNat <
          start+current) ↔
      (destinationToAddress d).toNat < current ∧ start+(destinationToAddress d).toNat < 2^28 := by
  have hlt := destinationToAddress_lt d
  rw [increment_address]
  constructor
  · intro ⟨hle,hbelow⟩
    have hmod := Nat.mod_lt ((destinationToAddress d).toNat+start) (Nat.two_pow_pos 28)
    have hsum : (destinationToAddress d).toNat+start < 2^28 := by
      by_contra hwrap
      have hone : ((destinationToAddress d).toNat+start)%2^28=
          (destinationToAddress d).toNat+start-2^28 := by omega
      omega
    rw [Nat.mod_eq_of_lt hsum] at hbelow
    omega
  · intro ⟨hnum,hsum⟩
    rw [Nat.mod_eq_of_lt (by omega)]
    omega

/-- A destination of instruction k of the file is confined to the module and the exports after the
load: the one that the last reference replacing it stands for, else the one in the record. -/
def SlotConfined (behind : Behind) (store : InstructionStore) (sephi : Sephi) (k : Nat)
    (slot : DestinationSlot) (d : DestinationType) : Prop :=
  let exports := sephi.keptExports behind store.exports++newExports store sephi
  match lastWrite slot.which.flag (sephi.resolved behind store.exports) k with
  | none => FieldConfined exports store.instructions.length sephi k slot d
  | some w =>
    IsConfined exports store.instructions.length sephi.instructions.length w.currentDestination

/-- References that write inside the store stand for destinations of exports. -/
theorem resolvedReferences_isEntry (behind : Behind) {current : Nat}
    {refs : List ExternalReference} (exports : List ExportNode) (h : WritesInside current refs) :
    ∀w∈resolvedReferences behind current refs exports,IsEntry exports w.currentDestination := by
  induction refs with
  | nil => simp [resolvedReferences]
  | cons ref refs ih =>
    rw [resolvedReferences]
    by_cases hin : current < ref.destination.instructionNumber.toNat
    · simp [hin]
    · have hle := Nat.le_of_not_lt hin
      rw [if_neg hin]
      by_cases hwritten : ref.destination.flags.isWritten=true
      · rw [if_pos hwritten]
        cases hfind : findExport exports ref.name with
        | none => simp
        | some result =>
          have hlt := h.head hle hwritten
          simp only [List.forall_mem_cons,writeExports,if_pos hlt]
          exact ⟨.inr ⟨result,List.mem_of_find?_eq_some hfind,rfl⟩,ih (h.tail hle)⟩
      · rw [if_neg hwritten]
        exact ih (h.tail hle)

/-- So a file whose references write inside answers only for the destinations that none of them
replaces. -/
theorem slotConfined_inside (behind : Behind) (store : InstructionStore) (sephi : Sephi)
    (h : WritesInside sephi.instructions.length sephi.externalReferences) (k : Nat)
    (slot : DestinationSlot) (d : DestinationType) :
    SlotConfined behind store sephi k slot d ↔
      (lastWrite slot.which.flag (sephi.resolved behind store.exports) k=none →
        FieldConfined (store.exports++newExports store sephi) store.instructions.length sephi k
          slot d) := by
  rw [SlotConfined,Sephi.keptExports,exportsAfter_inside behind store.exports h]
  cases hlast : lastWrite slot.which.flag (sephi.resolved behind store.exports) k with
  | none => simp
  | some w =>
    refine iff_of_true (.inr ?_) fun hnone => by cases hnone
    have hw := resolvedReferences_isEntry behind store.exports h w (lastWrite_mem hlast)
    obtain hswitch | ⟨node,hnode,hdestination⟩ := hw
    · exact .inl hswitch
    · exact .inr ⟨node,List.mem_append_left _ hnode,hdestination⟩

/-- A confined program reaches an instruction that was in the store before it only through an
entry. -/
theorem PlacesConfined.entry {info : LoadedCodeInfo} {store : InstructionStore}
    (h : PlacesConfined info store) {start k : Nat} (hstart : info.instructions=some start)
    (hk : k < info.currentNumInstructions) {inst : Instruction}
    (hinst : store.instructions[start+k]?=some inst) (slot : DestinationSlot)
    (hold : (destinationToAddress (inst.destination slot)).toNat < start) :
    IsEntry store.exports (inst.destination slot) := by
  obtain hmodule | hentry := h start hstart k hk inst hinst slot
  · exact absurd hmodule.1 (Nat.not_le.mpr hold)
  · exact hentry

end Manchester
