import Manchester.Loader.Placed
import Manchester.Loader.Privilege

namespace Manchester

/-- The word is the number of an opcode. -/
def IsDefined (opcode : BitVec 32) : Prop := ∃ o : OpcodeType,opcode=o.bits

theorem isDefined_iff (opcode : BitVec 32) : IsDefined opcode ↔ opcode.toNat < 35 := by
  constructor
  · rintro ⟨o,rfl⟩
    cases o <;> decide
  · intro h
    obtain ⟨o,ho⟩ : ∃ o,OpcodeType.ofBits opcode=some o := by
      have hall : opcode.toNat < OpcodeType.all.length := h
      exact ⟨_,List.getElem?_eq_getElem hall⟩
    refine ⟨o,BitVec.eq_of_toNat_eq ?_⟩
    rw [OpcodeType.ofBits] at ho
    generalize opcode.toNat=n at h ho
    interval_cases n <;> cases ho <;> rfl

/-- The lookup of a defined opcode reads the table. -/
theorem IsDefined.lookup {opcode : BitVec 32} (h : IsDefined opcode) :
    (opcodeToNumInputs opcode).isSome := by
  have hlt : opcode.toNat < opcodeToNumInputsTable.length := (isDefined_iff opcode).mp h
  rw [opcodeToNumInputs,List.getElem?_eq_getElem hlt]
  rfl

theorem isDefined_of_isPrivileged (opcode : BitVec 32) (h : isPrivilegedOpcode opcode=true) :
    IsDefined opcode := by
  simp only [isPrivilegedOpcode,Bool.or_eq_true,beq_iff_eq] at h
  obtain ((((((((((h | h) | h) | h) | h) | h) | h) | h) | h) | h) | h) := h <;> exact ⟨_,h⟩

theorem relocateInstruction_defined_iff (sephi : Sephi) (start : BitVec 32) (isPrivileged : Bool)
    (i : Nat) (inst : Instruction) :
    IsDefined (relocateInstruction sephi start isPrivileged i inst).opcode ↔
      IsDefined inst.opcode := by
  by_cases h : (!isPrivileged && isPrivilegedOpcode inst.opcode)=true
  · -- a stripped opcode was defined, and DUP is
    simp only [relocateInstruction,if_pos h]
    rw [Bool.and_eq_true] at h
    exact ⟨fun _ => isDefined_of_isPrivileged _ h.2,fun _ => ⟨.DUP,rfl⟩⟩
  · simp only [relocateInstruction,if_neg h]

/-- The file gives each of its instructions a defined opcode: the one in its record, or, where
references rewrite that, the destination that the last of them stands for. -/
def OpcodesDefined (behind : Behind) (exports : List ExportNode) (sephi : Sephi) : Prop :=
  ∀ k inst,sephi.instructions[k]?=some inst →
    match lastWrite Flags.changesOpcode (sephi.resolved behind exports) k with
    | none => IsDefined inst.opcode
    | some w => IsDefined w.currentDestination

theorem placedInstruction_defined_iff (behind : Behind) (store : InstructionStore) (sephi : Sephi)
    (isPrivileged : Bool) (k : Nat) (inst : Instruction) :
    IsDefined (placedInstruction behind store sephi isPrivileged k inst).opcode ↔
      match lastWrite Flags.changesOpcode (sephi.resolved behind store.exports) k with
      | none => IsDefined inst.opcode
      | some w => IsDefined w.currentDestination := by
  rw [placedInstruction_opcode]
  cases lastWrite Flags.changesOpcode (sephi.resolved behind store.exports) k with
  | none => exact relocateInstruction_defined_iff _ _ _ _ _
  | some w => exact Iff.rfl

/-- Every instruction of the store has a defined opcode. -/
def InstructionStore.IsDefined (store : InstructionStore) : Prop :=
  ∀inst∈store.instructions,Manchester.IsDefined inst.opcode

/-- A load keeps the opcodes of the store defined exactly when its file gives defined ones. -/
theorem loadFile_defined_iff (behind : Behind) (store store' : InstructionStore)
    (file : Option (List UInt8)) (isPrivileged : Bool) (info : LoadedCodeInfo)
    (hload : loadFile behind store file isPrivileged=some (info,store'))
    (hstore : store.IsDefined) :
    store'.IsDefined ↔
      ∀ sephi,Admitted store file sephi → OpcodesDefined behind store.exports sephi := by
  by_cases hadmitted : ∃ sephi,Admitted store file sephi
  · obtain ⟨sephi,hsephi⟩ := hadmitted
    have hplaces := loadFile_admitted _ _ _ _ _ _ sephi hload hsephi
    have honly : (∀ sephi',Admitted store file sephi' →
        OpcodesDefined behind store.exports sephi') ↔
          OpcodesDefined behind store.exports sephi := by
      constructor
      · exact fun h => h sephi hsephi
      · intro h sephi' hsephi'
        obtain rfl := hsephi.unique hsephi'
        exact h
    rw [honly]
    simp only [InstructionStore.IsDefined,hplaces,List.mem_append,or_imp,forall_and]
    have hold : ∀inst∈store.instructions,Manchester.IsDefined inst.opcode := hstore
    rw [and_iff_right hold]
    constructor
    · intro h k inst hk
      rw [← placedInstruction_defined_iff behind store sephi isPrivileged k inst]
      apply h
      apply List.mem_of_getElem? (i := k)
      rw [List.getElem?_mapIdx,hk,Option.map_some]
    · intro h inst hinst
      obtain ⟨k,hk⟩ := List.mem_iff_getElem?.mp hinst
      rw [List.getElem?_mapIdx] at hk
      obtain ⟨inst',hinst',rfl⟩ := Option.map_eq_some_iff.mp hk
      rw [placedInstruction_defined_iff behind store sephi isPrivileged k inst']
      exact h k inst' hinst'
  · obtain ⟨-,rfl⟩ := loadFile_not_admitted _ _ _ _ _ _ hload (not_exists.mp hadmitted)
    exact ⟨fun _ sephi h => absurd ⟨sephi,h⟩ hadmitted,fun _ => hstore⟩

end Manchester
