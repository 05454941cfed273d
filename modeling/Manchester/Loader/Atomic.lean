import Manchester.Loader.Placed

namespace Manchester

/-- The file passes every check before the store grows, has a reference to an instruction beyond its
last one, and leaves something: instructions, or a change of an export behind the store. -/
def FailsLate (behind : Behind) (store : InstructionStore) (file : Option (List UInt8)) : Prop :=
  ∃ sephi,Admitted store file sephi ∧
    (∃ref∈sephi.externalReferences,
      sephi.instructions.length < ref.destination.instructionNumber.toNat) ∧
    (sephi.instructions ≠ [] ∨ sephi.keptExports behind store.exports ≠ store.exports)

theorem placedStore_eq_iff (behind : Behind) (store : InstructionStore) (sephi : Sephi)
    (isPrivileged : Bool) :
    placedStore behind store sephi isPrivileged=store ↔
      sephi.instructions=[] ∧ sephi.keptExports behind store.exports=store.exports := by
  constructor
  · intro h
    have hinstructions := congrArg InstructionStore.instructions h
    have hexports := congrArg InstructionStore.exports h
    simp only [placedStore,List.append_right_eq_self,List.mapIdx_eq_nil_iff] at hinstructions
    exact ⟨hinstructions,hexports⟩
  · intro h
    obtain ⟨hnil,hexports⟩ := h
    rw [placedStore,hnil,hexports,List.mapIdx_nil,List.append_nil]

/-- A load that fails leaves everything as it was, unless it fails late. -/
theorem failed_load_atomic_iff (behind : Behind) (store store' : InstructionStore)
    (file : Option (List UInt8)) (isPrivileged : Bool) (info : LoadedCodeInfo)
    (hload : loadFile behind store file isPrivileged=some (info,store')) :
    (info.error=-1 → store'=store) ↔ ¬FailsLate behind store file := by
  cases loadFile_outcome _ _ _ _ _ _ hload with
  | rejected hrefused =>
    refine iff_of_true (fun _ => rfl) ?_
    intro ⟨sephi,hsephi,_⟩
    exact hrefused sephi hsephi
  | aborted sephi hadmitted hbeyond =>
    push Not at hbeyond
    have hsame : (loadError.error=-1 → placedStore behind store sephi isPrivileged=store) ↔
        placedStore behind store sephi isPrivileged=store := ⟨fun h => h rfl,fun h _ => h⟩
    rw [hsame,placedStore_eq_iff]
    constructor
    · intro ⟨hnil,hexports⟩ ⟨sephi',hsephi',_,hleft⟩
      obtain rfl := hadmitted.unique hsephi'
      exact hleft.elim (fun hne => hne hnil) fun hne => hne hexports
    · intro h
      constructor
      · by_contra hne
        exact h ⟨sephi,hadmitted,hbeyond,.inl hne⟩
      · by_contra hne
        exact h ⟨sephi,hadmitted,hbeyond,.inr hne⟩
  | loaded sephi hloads _ =>
    refine iff_of_true (fun herror => absurd herror (show (0 : Int) ≠ -1 by decide)) ?_
    intro ⟨sephi',hsephi',hbeyond,_⟩
    obtain rfl := hloads.1.unique hsephi'
    obtain ⟨ref,href,hlt⟩ := hbeyond
    exact absurd (hloads.2 ref href) (Nat.not_le.mpr hlt)

/-- One instruction, and a reference to "x" for its instruction 2. -/
private def beyondFile : List UInt8 :=
  magicBytes++[0,0,0,0,1,0,0,0]++[2,0,0,0,1,0,0,0,0x78]++List.replicate 255 0++
    List.replicate 40 0

private def knownStore (exports : List ExportNode) : InstructionStore := ⟨[],exports⟩

/-- Without the name "x" the load fails before the store grows. -/
theorem failed_load_atomic_unknown :
    loadFile .clear (knownStore []) (some beyondFile) false=some (loadError,knownStore []) ∧
      ¬FailsLate .clear (knownStore []) (some beyondFile) := by
  have hload : loadFile .clear (knownStore []) (some beyondFile) false=
      some (loadError,knownStore []) := by decide +kernel
  exact ⟨hload,(failed_load_atomic_iff _ _ _ _ false _ hload).mp fun _ => rfl⟩

/-- With it the same load fails when its instruction is in the store already. -/
theorem failed_load_not_atomic :
    ∃ store',loadFile .clear (knownStore [⟨24,[0x78]⟩]) (some beyondFile) false=
        some (loadError,store') ∧ loadError.error=-1 ∧
      store' ≠ knownStore [⟨24,[0x78]⟩] := by
  refine ⟨⟨[⟨0,0,0,0,0,0,0⟩],[⟨24,[0x78]⟩]⟩,by decide +kernel,rfl,?_⟩
  intro h
  cases h

end Manchester
