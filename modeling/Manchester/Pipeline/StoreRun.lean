import Manchester.Framework.Rounds
import Manchester.Loader.Opcodes
import Manchester.Pipeline.StoreUnit

namespace Manchester

/-- The load of the OS, without which the machine exits. -/
def Boots (os : Option (List UInt8)) (image : InstructionStore) : Prop :=
  ∃ behind info,loadFile behind ⟨[],[]⟩ os true=some (info,image) ∧ info.error ≠ -1

theorem Boots.load {os : Option (List UInt8)} {image : InstructionStore} (h : Boots os image)
    (behind : Behind) :
    ∃ info,loadFile behind ⟨[],[]⟩ os true=some (info,image) ∧ info.error ≠ -1 := by
  obtain ⟨behind',info,hload,herror⟩ := h
  exact ⟨info,(loadFile_no_exports behind behind' [] os true).trans hload,herror⟩

/-- A round of the store: the states around it, the pair and the packets. -/
structure StoreRound where
  before : InstructionStore
  env : StoreEnv
  next : ReadyTokenPairType
  after : InstructionStore
  sent : List ExecutionPacket

namespace StoreRound

def address (round : StoreRound) : Nat :=
  (destinationToAddress round.next.token1.destination).toNat

/-- The instruction that the pair is for. -/
def target (round : StoreRound) : Option Instruction := round.before.instructions[round.address]?

/-- The pair is for a LOD. -/
def isLoad (round : StoreRound) : Prop :=
  ∃ inst,round.target=some inst ∧ inst.opcode=OpcodeType.LOD.bits

/-- The file that the operand of a LOD names. -/
def file (round : StoreRound) : Option (List UInt8) :=
  round.env.openFile (loadName round.next.token1.data)

def Legal (overrun : TableOverrun) (round : StoreRound) : Prop :=
  storePair overrun round.env round.before round.next=some (round.after,round.sent)

end StoreRound

/-- Runs of the store after its boot. -/
abbrev StoreRuns (overrun : TableOverrun) : InstructionStore → List StoreRound → Prop :=
  Transition.Rounds StoreRound.before StoreRound.after (StoreRound.Legal overrun)

/-- What a legal round is: a pair for no instruction, for a LOD whose load fails, for a LOD whose
load succeeds, or for an instruction of another opcode. -/
inductive RoundKind (overrun : TableOverrun) (round : StoreRound) : Prop where
  | ignored (htarget : round.target=none) (hafter : round.after=round.before)
      (hsent : round.sent=[])
  | loadFailed (inst : Instruction) (htarget : round.target=some inst)
      (hload : inst.opcode=OpcodeType.LOD.bits) (info : LoadedCodeInfo)
      (hfile : loadFile round.env.behind round.before round.file false=some (info,round.after))
      (herror : info.error=-1)
      (hsent : round.sent=[loadErrorPacket round.address inst round.next.token1.tag])
  | loaded (inst : Instruction) (htarget : round.target=some inst)
      (hload : inst.opcode=OpcodeType.LOD.bits) (info : LoadedCodeInfo)
      (hfile : loadFile round.env.behind round.before round.file false=some (info,round.after))
      (herror : info.error ≠ -1)
      (hsent : round.sent=mainPackets round.address inst round.next.token1.tag
        (round.next.token2.getD round.env.unsetToken).data info.exports++
          addReadyInstructions overrun (info.slice round.after))
  | fired (inst : Instruction) (htarget : round.target=some inst)
      (hload : inst.opcode ≠ OpcodeType.LOD.bits) (hafter : round.after=round.before)
      (hsent : round.sent=firePair overrun round.address inst round.next.token1
        (round.next.token2.getD round.env.unsetToken))

theorem StoreRound.Legal.kind {overrun : TableOverrun} {round : StoreRound}
    (h : round.Legal overrun) : RoundKind overrun round := by
  rw [StoreRound.Legal] at h
  cases htarget : round.target with
  | none =>
    rw [storePair_none overrun round.env htarget] at h
    obtain ⟨hafter,hsent⟩ := Prod.mk.inj (Option.some.inj h)
    exact .ignored htarget hafter.symm hsent.symm
  | some inst =>
    by_cases hload : inst.opcode=OpcodeType.LOD.bits
    · have htarget' : round.before.instructions[(destinationToAddress
          round.next.token1.destination).toNat]?=some inst := htarget
      simp only [storePair,htarget',if_pos hload,loadProgram] at h
      split at h
      · cases h
      · rename_i info store' hfile
        split at h
        · rename_i herror
          obtain ⟨hafter,hsent⟩ := Prod.mk.inj (Option.some.inj h)
          exact .loadFailed inst htarget hload info (by rw [← hafter]; exact hfile) herror
            hsent.symm
        · rename_i herror
          obtain ⟨hafter,hsent⟩ := Prod.mk.inj (Option.some.inj h)
          exact .loaded inst htarget hload info (by rw [← hafter]; exact hfile) herror
            (by rw [← hsent,← hafter]; rfl)
    · rw [storePair_some overrun round.env htarget hload] at h
      obtain ⟨hafter,hsent⟩ := Prod.mk.inj (Option.some.inj h)
      exact .fired inst htarget hload hafter.symm hsent.symm

/-- The lookups of `add_ready_instructions`. -/
def readyLookups (instructions : List Instruction) : List (BitVec 32) :=
  (instructions.filter fun inst =>
    inst.instructionLiteral==InstructionLiteralType.ONE.bits).map Instruction.opcode

/-- The lookups of one round: the opcode that the pair is for, and, where that is a LOD whose load
succeeds, those for the instructions it has added. -/
def StoreRound.lookups (round : StoreRound) : List (BitVec 32) :=
  match round.target with
  | none => []
  | some inst =>
    inst.opcode::if inst.opcode=OpcodeType.LOD.bits then
        match loadFile round.env.behind round.before round.file false with
        | some (info,store') => if info.error=-1 then [] else readyLookups (info.slice store')
        | none => []
      else []

theorem numInputs_of_isDefined {opcode : BitVec 32} (h : IsDefined opcode)
    (overrun overrun' : TableOverrun) : numInputs overrun opcode=numInputs overrun' opcode := by
  obtain ⟨n,hn⟩ := Option.isSome_iff_exists.mp h.lookup
  rw [numInputs,numInputs,hn,Option.getD_some,Option.getD_some]

/-- Where the lookups are in range, nothing behind the table is read. -/
theorem addReadyInstructions_of_isDefined (instructions : List Instruction)
    (h : ∀op∈readyLookups instructions,IsDefined op) (overrun overrun' : TableOverrun) :
    addReadyInstructions overrun instructions=addReadyInstructions overrun' instructions := by
  apply List.filterMap_congr
  intro p hp
  have hmem : p.1∈instructions := (List.mem_zipIdx' hp).2 ▸ List.getElem_mem _
  by_cases hone : p.1.instructionLiteral=InstructionLiteralType.ONE.bits
  · have hdefined : IsDefined p.1.opcode :=
      h _ (List.mem_map.mpr ⟨p.1,List.mem_filter.mpr ⟨hmem,by simp [hone]⟩,rfl⟩)
    rw [readyPacket,readyPacket,numInputs_of_isDefined hdefined overrun overrun']
  · simp [readyPacket,hone]

theorem storePair_of_isDefined (overrun overrun' : TableOverrun) (round : StoreRound)
    (h : ∀op∈round.lookups,IsDefined op) :
    storePair overrun round.env round.before round.next=
      storePair overrun' round.env round.before round.next := by
  rw [StoreRound.lookups] at h
  cases htarget : round.target with
  | none => rw [storePair_none _ _ htarget,storePair_none _ _ htarget]
  | some inst =>
    rw [htarget] at h
    simp only [List.forall_mem_cons] at h
    obtain ⟨hopcode,hslice⟩ := h
    by_cases hload : inst.opcode=OpcodeType.LOD.bits
    · have htarget' : round.before.instructions[(destinationToAddress
          round.next.token1.destination).toNat]?=some inst := htarget
      simp only [storePair,htarget',if_pos hload,loadProgram]
      rw [if_pos hload] at hslice
      cases hfile : loadFile round.env.behind round.before round.file false with
      | none =>
        rw [StoreRound.file] at hfile
        rw [hfile]
      | some loaded =>
        rw [hfile] at hslice
        rw [StoreRound.file] at hfile
        rw [hfile]
        simp only at hslice ⊢
        by_cases herror : loaded.1.error=-1
        · rw [if_pos herror,if_pos herror]
        · rw [if_neg herror,if_neg herror]
          rw [if_neg herror] at hslice
          have hready := addReadyInstructions_of_isDefined _ hslice overrun overrun'
          rw [LoadedCodeInfo.slice] at hready
          rw [hready]
    · rw [storePair_some _ _ htarget hload,storePair_some _ _ htarget hload,firePair,firePair,
        numInputs_of_isDefined hopcode overrun overrun']

theorem readyLookups_of_isDefined {store : InstructionStore} (h : store.IsDefined)
    (instructions : List Instruction) (hsub : instructions ⊆ store.instructions) :
    ∀op∈readyLookups instructions,IsDefined op := by
  intro op hop
  obtain ⟨inst,hinst,rfl⟩ := List.mem_map.mp hop
  exact h inst (hsub (List.mem_filter.mp hinst).1)

theorem LoadedCodeInfo.slice_subset (info : LoadedCodeInfo) (store : InstructionStore) :
    info.slice store ⊆ store.instructions :=
  ((List.take_sublist _ _).trans (List.drop_sublist _ _)).subset

/-- One round: if the file of a LOD gives defined opcodes, the store keeps them and the lookups of
the round are of them. -/
theorem StoreRound.Legal.isDefined {overrun : TableOverrun} {round : StoreRound}
    (hlegal : round.Legal overrun) (hbefore : round.before.IsDefined)
    (hfile : round.isLoad → ∀ sephi,Admitted round.before round.file sephi →
      OpcodesDefined round.env.behind round.before.exports sephi) :
    round.after.IsDefined ∧ ∀op∈round.lookups,IsDefined op := by
  have hload : ∀ inst info,round.target=some inst → inst.opcode=OpcodeType.LOD.bits →
      loadFile round.env.behind round.before round.file false=some (info,round.after) →
        round.after.IsDefined := by
    intro inst info htarget hop hloaded
    exact (loadFile_defined_iff _ _ _ _ _ _ hloaded hbefore).mpr (hfile ⟨inst,htarget,hop⟩)
  have hopcode : ∀ inst,round.target=some inst → IsDefined inst.opcode := by
    intro inst htarget
    exact hbefore inst (List.mem_of_getElem? htarget)
  cases hlegal.kind with
  | ignored htarget hafter =>
    rw [hafter,StoreRound.lookups,htarget]
    exact ⟨hbefore,by simp⟩
  | loadFailed inst htarget hop info hloaded herror =>
    refine ⟨hload inst info htarget hop hloaded,?_⟩
    simp only [StoreRound.lookups,htarget,if_pos hop,hloaded,if_pos herror]
    simpa using hopcode inst htarget
  | loaded inst htarget hop info hloaded herror =>
    have hdefined := hload inst info htarget hop hloaded
    refine ⟨hdefined,?_⟩
    simp only [StoreRound.lookups,htarget,if_pos hop,hloaded,if_neg herror,List.forall_mem_cons]
    exact ⟨hopcode inst htarget,readyLookups_of_isDefined hdefined _ (info.slice_subset _)⟩
  | fired inst htarget hop hafter =>
    rw [hafter,StoreRound.lookups,htarget]
    refine ⟨hbefore,?_⟩
    simp only [if_neg hop]
    simpa using hopcode inst htarget

/-- One instruction with the given opcode and a literal. -/
def opcodeFile (low high : UInt8) : List UInt8 :=
  magicBytes++List.replicate 8 0++[low,high]++List.replicate 30 0++[1]++List.replicate 7 0

def opcodeStore (opcode : BitVec 32) : InstructionStore :=
  ⟨[⟨opcode,0,0,0,0,0,1⟩],[]⟩

/-- A token for instruction 0. -/
def opcodeRound : StoreRound :=
  ⟨opcodeStore 5,⟨⟨0,0,0⟩,fun _ => none,.clear⟩,⟨⟨0,7,0⟩,none⟩,opcodeStore 5,[⟨7,0,5,0,0,0,0,0⟩]⟩

theorem opcodeRound_legal : opcodeRound.Legal fun _ => 0 :=
  show storePair _ _ _ _=_ by decide +kernel

end Manchester
