import Manchester.Framework.Deadlock
import Manchester.Pipeline.Schedule

namespace Manchester

open Framework

-- The queues of the machine have room for so many elements, and the modules form a ring.

def maxQueueSize : Nat := 1024

instance : Fintype ModuleName where
  elems := {.instructionStore,.inputModule,.processingUnit,.ioSwitch,.matchingUnit}
  complete := by
    intro i
    cases i <;> decide

theorem machine_ring (c : MachineConfig) : Network.IsRing (machine c) := by
  intro i j
  cases i <;> cases j <;>
    first | exact ⟨0,rfl⟩ | exact ⟨1,rfl⟩ | exact ⟨2,rfl⟩ | exact ⟨3,rfl⟩ | exact ⟨4,rfl⟩

theorem source_ne (c : MachineConfig) (i : ModuleName) : (machine c).source i ≠ i := by
  intro h
  cases i <;> cases h

theorem env_nonempty (c : MachineConfig) (i : ModuleName) : Nonempty ((machine c).Env i) :=
  ⟨fixedEnv i⟩

section States

variable {c : MachineConfig} {image : InstructionStore} {cap : Nat} {s : Machine c cap}

theorem Started.held (h : Started c image s) (i : ModuleName) : s.held i=↑(s.pending i) := by
  rw [Network.State.held,h.channel]
  rfl

/-- Only the store has something to put at the start. -/
theorem Started.pending (h : Started c image s) (i : ModuleName) : s.pending i=burst c image i := by
  have hi := h.process i
  cases i with
  | instructionStore => exact hi.2
  | inputModule => exact hi
  | processingUnit => exact hi.2
  | ioSwitch => exact hi.2
  | matchingUnit => exact hi.2

theorem Started.messages (h : Started c image s) :
    Network.messages s=(addReadyInstructions c.overrun image.instructions).length := by
  have hload : ∀ i,Network.load s i=(burst c image i).length := by
    intro i
    rw [Network.load,h.held,h.pending]
    rfl
  unfold Network.messages
  simp only [hload]
  rfl

end States

theorem OpcodeType.eq_bits {b : BitVec 32} {o : OpcodeType} (h : OpcodeType.ofBits b=some o) :
    b=o.bits := by
  have hindex : OpcodeType.all[o.ctorIdx]?=some o := by
    cases o <;> rfl
  have hlt : b.toNat < OpcodeType.all.length := (List.getElem?_eq_some_iff.mp h).1
  have hsame : b.toNat=o.ctorIdx :=
    (List.getElem?_inj hlt (by decide)).mp (h.trans hindex.symm)
  rw [OpcodeType.bits,← hsame,BitVec.ofNat_toNat,BitVec.setWidth_eq]

/-- No instruction doubles a token, and no further code is loaded. -/
def SingleOutput (image : InstructionStore) : Prop :=
  ∀inst∈image.instructions,inst.opcode ≠ OpcodeType.LOD.bits ∧
    inst.opcode ≠ OpcodeType.NTG.bits ∧ inst.marker ≠ bothOutputMarker

def ExecutionPacket.IsSingle (p : ExecutionPacket) : Prop :=
  p.opcode ≠ OpcodeType.NTG.bits ∧ p.marker ≠ bothOutputMarker

def singleMessage : ∀ i : ModuleName,i.Msg → Prop
  | .instructionStore => ExecutionPacket.IsSingle
  | .inputModule => ExecutionPacket.IsSingle
  | .processingUnit => fun _ => True
  | .ioSwitch => fun _ => True
  | .matchingUnit => fun _ => True

/-- The store keeps its image. -/
def imageLocal (image : InstructionStore) : ∀ i : ModuleName,i.Local → Prop
  | .instructionStore => fun store => store=image
  | .inputModule => fun _ => True
  | .processingUnit => fun _ => True
  | .ioSwitch => fun _ => True
  | .matchingUnit => fun _ => True

theorem firePair_single_output (overrun : TableOverrun) (address : Nat) (inst : Instruction)
    (token1 token2 : TokenType) :
    (∀p∈firePair overrun address inst token1 token2,
      p.opcode=inst.opcode ∧ p.marker=inst.marker) ∧
        (firePair overrun address inst token1 token2).length ≤ 1 := by
  unfold firePair
  split_ifs <;> simp [makePacket]

theorem inputPacket_single (calls : SystemCalls) (next : ExecutionPacket) (h : next.IsSingle) :
    (inputPacket calls next).IsSingle := by
  unfold inputPacket
  split
  · have hdup : OpcodeType.DUP.bits ≠ OpcodeType.NTG.bits := by decide
    exact ⟨hdup,h.2⟩
  · exact h

theorem functionUnit_single (env : FunctionEnv) (random : RandomStream) (calls : Nat)
    (packet : ExecutionPacket) (hsingle : packet.IsSingle) (result : ExecutionResult)
    (calls' : Nat) (h : functionUnit env random calls packet=some (result,calls')) :
    result.tokens.length=1 := by
  obtain ⟨hopcode,hmarker⟩ := hsingle
  have hne : oneOutputMarker ≠ bothOutputMarker := by decide
  unfold functionUnit at h
  cases ho : OpcodeType.ofBits packet.opcode with
  | none =>
    rw [ho] at h
    cases h
    simp [ExecutionResult.tokens,pureResult,ExecutionResult.withTag,hmarker,hne]
  | some o =>
    rw [ho] at h
    have hntg : o ≠ .NTG := by
      rintro rfl
      exact hopcode (OpcodeType.eq_bits ho)
    cases o <;> cases h <;> first
      | exact absurd rfl hntg
      | simp [ExecutionResult.tokens,pureResult,ExecutionResult.withTag,hmarker,hne]

theorem matchToken_length (t : TokenWaitingTableType) (token : TokenType) :
    (matchToken t token).2.length ≤ 1 := by
  simp only [matchToken]
  split_ifs
  · exact Nat.le_refl 1
  · split
    · exact Nat.zero_le 1
    · split
      · exact Nat.zero_le 1
      · exact Nat.le_refl 1
  · exact Nat.zero_le 1

theorem addReadyInstructions_mem (overrun : TableOverrun) (instructions : List Instruction)
    (p : ExecutionPacket) (h : p∈addReadyInstructions overrun instructions) :
    ∃inst∈instructions,p.opcode=inst.opcode ∧ p.marker=inst.marker := by
  obtain ⟨⟨inst,i⟩,hmem,hp⟩ := List.mem_filterMap.mp h
  refine ⟨inst,(List.mem_zipIdx hmem).2.2 ▸ List.getElem_mem _,?_⟩
  unfold readyPacket at hp
  split_ifs at hp <;> cases hp <;> exact ⟨rfl,rfl⟩

theorem machine_thrifty {c : MachineConfig} (htrap : c.trapFlag=false) {image : InstructionStore}
    (himage : SingleOutput image) (i : ModuleName) :
    Network.Thrifty (N := machine c) singleMessage (imageLocal image) i := by
  intro env here x new out hhere hx hreact
  cases i with
  | instructionStore =>
    obtain rfl : here=image := hhere
    change storePair c.overrun env here x=some (new,out) at hreact
    cases hinst : here.instructions[(destinationToAddress x.token1.destination).toNat]? with
    | none =>
      rw [storePair_none c.overrun env hinst] at hreact
      cases hreact
      exact ⟨rfl,by simp,by simp⟩
    | some inst =>
      obtain ⟨hload,hntg,hmarker⟩ := himage inst (List.mem_of_getElem? hinst)
      rw [storePair_some c.overrun env hinst hload] at hreact
      cases hreact
      obtain ⟨hkind,hlength⟩ := firePair_single_output c.overrun
        (destinationToAddress x.token1.destination).toNat inst x.token1
        (x.token2.getD env.unsetToken)
      refine ⟨rfl,?_,hlength⟩
      intro p hp
      obtain ⟨hop,hmark⟩ := hkind p hp
      exact ⟨by rwa [hop],by rwa [hmark]⟩
  | inputModule =>
    cases hreact
    refine ⟨trivial,?_,Nat.le_refl _⟩
    intro p hp
    rw [List.mem_singleton.mp hp]
    exact inputPacket_single env x hx
  | processingUnit =>
    refine ⟨trivial,fun _ _ => trivial,?_⟩
    change processPacket c.trapFlag c.random env here x=some (new,out) at hreact
    cases hexited : here.exited with
    | true =>
      rw [processPacket,if_pos hexited] at hreact
      cases hreact
    | false =>
      rw [htrap,processPacket_plain c.random env here x hexited] at hreact
      cases hunit : functionUnit env c.random here.calls x with
      | none =>
        rw [hunit] at hreact
        cases hreact
        exact Nat.zero_le 1
      | some r =>
        obtain ⟨result,calls⟩ := r
        rw [hunit] at hreact
        cases hreact
        exact Nat.le_of_eq (functionUnit_single env c.random here.calls x hx result calls hunit)
  | ioSwitch =>
    cases hreact
    refine ⟨trivial,fun _ _ => trivial,?_⟩
    split_ifs <;> simp
  | matchingUnit =>
    change some (matchToken here x)=some (new,out) at hreact
    have hlength := matchToken_length here x
    rw [Option.some.inj hreact] at hlength
    exact ⟨trivial,fun _ _ => trivial,hlength⟩

theorem Started.keeps_single {c : MachineConfig} {image : InstructionStore} {cap : Nat}
    {s : Machine c cap} (himage : SingleOutput image) (h : Started c image s) :
    Network.Keeps (N := machine c) singleMessage (imageLocal image) s where
  held := by
    intro i x hx
    rw [h.held,h.pending,Multiset.mem_coe] at hx
    cases i with
    | instructionStore =>
      obtain ⟨inst,hinst,hop,hmark⟩ := addReadyInstructions_mem c.overrun _ x hx
      obtain ⟨-,hntg,hmarker⟩ := himage inst hinst
      exact ⟨by rwa [hop],by rwa [hmark]⟩
    | inputModule => cases hx
    | processingUnit => trivial
    | ioSwitch => trivial
    | matchingUnit => trivial
  locals := by
    intro i
    have hi := h.process i
    cases i with
    | instructionStore => exact hi.1
    | inputModule => trivial
    | processingUnit => trivial
    | ioSwitch => trivial
    | matchingUnit => trivial

theorem SingleOutput.not_deadlocked {c : MachineConfig} (htrap : c.trapFlag=false)
    {image : InstructionStore} (himage : SingleOutput image) {cap : Nat} (hcap : 0 < cap)
    (hfew : (addReadyInstructions c.overrun image.instructions).length < 5*(cap+1))
    {s : Machine c cap} (hr : Reached c image s) : ¬Network.Deadlocked s := by
  apply Network.Keeps.not_deadlocked (machine_ring c) hcap (source_ne c)
    (machine_thrifty htrap himage) (fun s h => ?_) hr
  rw [h.messages]
  exact ⟨h.keeps_single himage,hfew⟩

end Manchester
