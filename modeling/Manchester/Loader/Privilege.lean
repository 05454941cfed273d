import Mathlib.Data.List.Induction
import Manchester.Loader.Placed

namespace Manchester

/-- The last of the writes for instruction k that sets the field. -/
def lastWrite (field : Flags → Bool) (ws : List ResolvedReference) (k : Nat) :
    Option ResolvedReference :=
  (ws.filter fun w => w.destination.instructionNumber.toNat==k &&
    field w.destination.flags).getLast?

theorem lastWrite_mem {field : Flags → Bool} {ws : List ResolvedReference} {k : Nat}
    {w : ResolvedReference} (h : lastWrite field ws k=some w) : w∈ws :=
  (List.mem_filter.mp (List.mem_of_getLast? h)).1

theorem lastWrite_append_singleton (field : Flags → Bool) (ws : List ResolvedReference)
    (w : ResolvedReference) (k : Nat) :
    lastWrite field (ws++[w]) k=
      if (w.destination.instructionNumber.toNat==k && field w.destination.flags)=true then some w
      else lastWrite field ws k := by
  simp only [lastWrite,List.filter_append,List.filter_cons,List.filter_nil]
  split_ifs <;> simp

/-- A field of an instruction after all writes is what the last one for it sets it to. -/
theorem foldl_resolveAt_field {α : Type} (field : Flags → Bool) (get : Instruction → α)
    (set : DestinationType → α)
    (hset : ∀ flags destination inst,get (resolveReference flags destination inst)=
      if field flags=true then set destination else get inst)
    (k : Nat) (ws : List ResolvedReference) (inst : Instruction) :
    get (ws.foldl (resolveAt k) inst)=
      (lastWrite field ws k).elim (get inst) fun w => set w.currentDestination := by
  -- the writes are taken from their end: the last one decides, or leaves it to the others
  induction ws using List.reverseRecOn with
  | nil => rfl
  | append_singleton ws w ih =>
    rw [List.foldl_append,List.foldl_cons,List.foldl_nil,lastWrite_append_singleton,resolveAt]
    by_cases hk : w.destination.instructionNumber.toNat=k
    · rw [if_pos hk,hset]
      by_cases hfield : field w.destination.flags=true
      · simp [hk,hfield]
      · simp [hfield,ih]
    · simp [hk,ih]

/-- The opcode of an instruction of the file as the load leaves it. -/
theorem placedInstruction_opcode (behind : Behind) (store : InstructionStore) (sephi : Sephi)
    (isPrivileged : Bool) (k : Nat) (inst : Instruction) :
    (placedInstruction behind store sephi isPrivileged k inst).opcode=
      (lastWrite Flags.changesOpcode (sephi.resolved behind store.exports) k).elim
        (relocateInstruction sephi (BitVec.ofNat 32 store.instructions.length) isPrivileged k
          inst).opcode ResolvedReference.currentDestination :=
  foldl_resolveAt_field Flags.changesOpcode Instruction.opcode id (fun _ _ _ => rfl) _ _ _

theorem relocateInstruction_unprivileged (sephi : Sephi) (start : BitVec 32) (i : Nat)
    (inst : Instruction) :
    isPrivilegedOpcode (relocateInstruction sephi start false i inst).opcode=false := by
  simp only [relocateInstruction,Bool.not_false,Bool.true_and]
  split
  · decide
  · simp_all

end Manchester
