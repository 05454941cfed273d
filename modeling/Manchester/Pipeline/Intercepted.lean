import Manchester.Framework.Guarded
import Manchester.Pipeline.Capacity
import Manchester.Pipeline.StoreRun

namespace Manchester

open Framework

/-- The opcodes without a case in `function_unit`: the input module answers all but LOD, and the
store handles LOD. -/
def OpcodeType.isIntercepted (o : OpcodeType) : Bool := o.isFile || o==.LOD

/-- The packet is of an opcode that the function unit evaluates. -/
def ExecutionPacket.IsEvaluable (p : ExecutionPacket) : Prop :=
  ∃ o : OpcodeType,p.opcode=o.bits ∧ o.isIntercepted=false

/-- No instruction with two literals gets the opcode LOD from the file: neither from its record,
which only a privileged load keeps, nor from the last reference that rewrites its opcode. -/
def NoLiteralLod (behind : Behind) (isPrivileged : Bool) (exports : List ExportNode)
    (sephi : Sephi) : Prop :=
  ∀ k inst,sephi.instructions[k]?=some inst →
    inst.instructionLiteral=InstructionLiteralType.TWO.bits →
    match lastWrite Flags.changesOpcode (sephi.resolved behind exports) k with
    | none => isPrivileged=true → inst.opcode ≠ OpcodeType.LOD.bits
    | some w => w.currentDestination ≠ OpcodeType.LOD.bits

/-- The load of this file gives defined opcodes. -/
def DefinesOpcodes (behind : Behind) (store : InstructionStore) (file : Option (List UInt8)) :
    Prop :=
  ∀ sephi,Admitted store file sephi → OpcodesDefined behind store.exports sephi

/-- A load of this file that succeeds brings in no LOD with two literals. -/
def BringsNoLiteralLod (isPrivileged : Bool) (behind : Behind) (store : InstructionStore)
    (file : Option (List UInt8)) : Prop :=
  ∀ sephi,Loads store file sephi → NoLiteralLod behind isPrivileged store.exports sephi

theorem placedInstruction_literal (behind : Behind) (store : InstructionStore) (sephi : Sephi)
    (isPrivileged : Bool) (k : Nat) (inst : Instruction) :
    (placedInstruction behind store sephi isPrivileged k inst).instructionLiteral=
      inst.instructionLiteral := by
  have hfold : ∀ (ws : List ResolvedReference) (new : Instruction),
      (ws.foldl (resolveAt k) new).instructionLiteral=new.instructionLiteral := by
    intro ws
    induction ws with
    | nil => exact fun _ => rfl
    | cons w ws ih =>
      intro new
      rw [List.foldl_cons,ih,resolveAt]
      split_ifs <;> rfl
  rw [placedInstruction,hfold]
  rfl

theorem relocateInstruction_lod (sephi : Sephi) (start : BitVec 32) (isPrivileged : Bool) (k : Nat)
    (inst : Instruction)
    (h : (relocateInstruction sephi start isPrivileged k inst).opcode=OpcodeType.LOD.bits) :
    isPrivileged=true ∧ inst.opcode=OpcodeType.LOD.bits := by
  cases isPrivileged with
  | true => exact ⟨rfl,h⟩
  | false =>
    have hfree := relocateInstruction_unprivileged sephi start k inst
    rw [h] at hfree
    exact absurd hfree (by decide)

theorem placedInstruction_not_lod {behind : Behind} {store : InstructionStore} {sephi : Sephi}
    {isPrivileged : Bool} (hfile : NoLiteralLod behind isPrivileged store.exports sephi) {k : Nat}
    {inst : Instruction} (hk : sephi.instructions[k]?=some inst)
    (htwo : inst.instructionLiteral=InstructionLiteralType.TWO.bits) :
    (placedInstruction behind store sephi isPrivileged k inst).opcode ≠ OpcodeType.LOD.bits := by
  have hrule := hfile k inst hk htwo
  rw [placedInstruction_opcode]
  cases hlast : lastWrite Flags.changesOpcode (sephi.resolved behind store.exports) k with
  | none =>
    rw [hlast] at hrule
    intro hlod
    obtain ⟨hprivileged,hop⟩ := relocateInstruction_lod _ _ _ _ _ hlod
    exact hrule hprivileged hop
  | some w =>
    rw [hlast] at hrule
    exact hrule

/-- A packet of the store: it is of a defined opcode, and not of a LOD. -/
def ExecutionPacket.IsFired (p : ExecutionPacket) : Prop :=
  IsDefined p.opcode ∧ p.opcode ≠ OpcodeType.LOD.bits

theorem isFired_dup {p : ExecutionPacket} (h : p.opcode=OpcodeType.DUP.bits) : p.IsFired := by
  rw [ExecutionPacket.IsFired,h]
  exact ⟨⟨.DUP,rfl⟩,by decide⟩

/-- An instruction that is ready at once is a LOD only with two literals. -/
theorem readyPacket_lod {overrun : TableOverrun} {i : Nat} {inst : Instruction}
    {packet : ExecutionPacket} (h : readyPacket overrun i inst=some packet) :
    packet.opcode=inst.opcode ∧ (inst.opcode=OpcodeType.LOD.bits →
      inst.instructionLiteral=InstructionLiteralType.TWO.bits) := by
  unfold readyPacket at h
  split_ifs at h with htwo hone
  · cases h
    exact ⟨rfl,fun _ => htwo⟩
  · cases h
    refine ⟨rfl,fun hop => ?_⟩
    have hinputs := hone.2
    rw [hop,numInputs_opcode] at hinputs
    exact absurd hinputs (by decide)

theorem addReadyInstructions_fired (overrun : TableOverrun) (instructions : List Instruction)
    (hdefined : ∀inst∈instructions,IsDefined inst.opcode)
    (hliteral : ∀inst∈instructions,inst.instructionLiteral=InstructionLiteralType.TWO.bits →
      inst.opcode ≠ OpcodeType.LOD.bits) :
    ∀p∈addReadyInstructions overrun instructions,p.IsFired := by
  intro p hp
  obtain ⟨⟨inst,i⟩,hzip,hpacket⟩ := List.mem_filterMap.mp hp
  have hinst : inst∈instructions := List.mem_of_getElem? (List.mem_zipIdx_iff_getElem?.mp hzip)
  obtain ⟨hop,hlod⟩ := readyPacket_lod hpacket
  rw [ExecutionPacket.IsFired,hop]
  exact ⟨hdefined inst hinst,fun h => hliteral inst hinst (hlod h) h⟩

/-- What a load has added is fired without a LOD. -/
theorem slice_fired (overrun : TableOverrun) {behind : Behind} {store store' : InstructionStore}
    {file : Option (List UInt8)} {isPrivileged : Bool} {info : LoadedCodeInfo}
    (hload : loadFile behind store file isPrivileged=some (info,store')) (hok : info.error ≠ -1)
    (hdefined : store'.IsDefined) (hfile : BringsNoLiteralLod isPrivileged behind store file) :
    ∀p∈addReadyInstructions overrun (info.slice store'),p.IsFired := by
  obtain ⟨sephi,hloads,-,hslice⟩ := loadFile_slice _ _ _ _ _ _ hload hok
  apply addReadyInstructions_fired
  · exact fun inst hinst => hdefined inst (info.slice_subset store' hinst)
  · intro inst hinst htwo
    rw [hslice] at hinst
    obtain ⟨k,hk⟩ := List.mem_iff_getElem?.mp hinst
    rw [List.getElem?_mapIdx] at hk
    obtain ⟨inst',hinst',rfl⟩ := Option.map_eq_some_iff.mp hk
    apply placedInstruction_not_lod (hfile sephi hloads) hinst'
    rw [← htwo,placedInstruction_literal]

theorem mainPackets_dup (address : Nat) (inst : Instruction) (tag : TagType) (arg : DataType)
    (exports : List ExportNode) :
    ∀p∈mainPackets address inst tag arg exports,p.opcode=OpcodeType.DUP.bits := by
  intro p hp
  unfold mainPackets at hp
  split at hp
  · simp only [List.mem_cons,List.not_mem_nil,or_false] at hp
    obtain rfl | rfl := hp <;> rfl
  · cases hp

/-- One round of the store. -/
theorem StoreRound.Legal.fired {overrun : TableOverrun} {round : StoreRound}
    (hlegal : round.Legal overrun) (hbefore : round.before.IsDefined)
    (hfile : round.isLoad → DefinesOpcodes round.env.behind round.before round.file ∧
      BringsNoLiteralLod false round.env.behind round.before round.file) :
    round.after.IsDefined ∧ ∀p∈round.sent,p.IsFired := by
  have hafter := (hlegal.isDefined hbefore fun hload => (hfile hload).1).1
  refine ⟨hafter,?_⟩
  cases hlegal.kind with
  | ignored _ _ hsent =>
    rw [hsent]
    simp
  | loadFailed inst _ _ info _ _ hsent =>
    rw [hsent]
    intro p hp
    rw [List.mem_singleton.mp hp]
    exact isFired_dup rfl
  | loaded inst htarget hload info hloaded herror hsent =>
    rw [hsent]
    intro p hp
    obtain hmain | hready := List.mem_append.mp hp
    · exact isFired_dup (mainPackets_dup _ _ _ _ _ p hmain)
    · exact slice_fired overrun hloaded herror hafter (hfile ⟨inst,htarget,hload⟩).2 p hready
  | fired inst htarget hload _ hsent =>
    rw [hsent]
    intro p hp
    obtain ⟨hop,-⟩ := (firePair_single_output _ _ _ _ _).1 p hp
    rw [ExecutionPacket.IsFired,hop]
    exact ⟨hbefore inst (List.mem_of_getElem? htarget),hload⟩

def interceptedMessage : ∀ i : ModuleName,i.Msg → Prop
  | .instructionStore => ExecutionPacket.IsFired
  | .inputModule => ExecutionPacket.IsEvaluable
  | .processingUnit => fun _ => True
  | .ioSwitch => fun _ => True
  | .matchingUnit => fun _ => True

def definedLocal : ∀ i : ModuleName,i.Local → Prop
  | .instructionStore => InstructionStore.IsDefined
  | .inputModule => fun _ => True
  | .processingUnit => fun _ => True
  | .ioSwitch => fun _ => True
  | .matchingUnit => fun _ => True

theorem Boots.carries {c : MachineConfig} {os : Option (List UInt8)} {image : InstructionStore}
    (hboot : Boots os image) (hdefined : DefinesOpcodes .clear ⟨[],[]⟩ os)
    (hliteral : BringsNoLiteralLod true .clear ⟨[],[]⟩ os) {cap : Nat} {s : Machine c cap}
    (h : Started c image s) :
    Network.Carries (N := machine c) interceptedMessage definedLocal s := by
  obtain ⟨info,hload,herror⟩ := hboot.load .clear
  have himage : image.IsDefined :=
    (loadFile_defined_iff _ _ _ _ _ _ hload (by simp [InstructionStore.IsDefined])).mpr hdefined
  obtain ⟨sephi,hloads,hstart,hslice⟩ := loadFile_slice _ _ _ _ _ _ hload herror
  have hall : info.slice image=image.instructions := by
    rw [hslice,loadFile_admitted _ _ _ _ _ _ sephi hload hloads.1,List.nil_append]
  constructor
  · intro i x hx
    rw [h.channel,Channel.sent_empty,List.nil_append,h.pending] at hx
    cases i with
    | instructionStore =>
      apply slice_fired c.overrun hload herror himage hliteral
      rw [hall]
      exact hx
    | inputModule => cases hx
    | processingUnit => trivial
    | ioSwitch => trivial
    | matchingUnit => trivial
  · intro i
    cases i with
    | instructionStore =>
      have hlocal : s.locals .instructionStore=image := (h.process .instructionStore).1
      rw [hlocal]
      exact himage
    | inputModule => trivial
    | processingUnit => trivial
    | ioSwitch => trivial
    | matchingUnit => trivial

end Manchester
