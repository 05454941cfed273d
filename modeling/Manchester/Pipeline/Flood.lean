import Manchester.Assembler.Encoding
import Manchester.Pipeline.Capacity

namespace Manchester

open Framework

/-- x = DUP 0, with the result back to the first instruction. -/
def dupInstruction : Instruction :=
  ⟨OpcodeType.DUP.bits,0,0,oneOutputMarker,0,0,InstructionLiteralType.ONE.bits⟩

def dupImage (n : Nat) : InstructionStore := ⟨List.replicate n dupInstruction,[]⟩

/-- The record of the instruction: the opcode at 0, and the literal type at 32. -/
def dupRecord : List UInt8 := 5::(List.replicate 31 0++1::List.replicate 7 0)

def dupFile (n : Nat) : List UInt8 :=
  magicBytes++(List.replicate 8 0++(List.replicate n dupRecord).flatten)

theorem dupRecord_read : readInstruction dupRecord 0=dupInstruction := by
  decide +kernel

theorem parseSephi_dupFile (n : Nat) :
    parseSephi (dupFile n)=some ⟨[],[],[],[],List.replicate n dupInstruction⟩ := by
  have hsize : ∀p∈List.replicate n dupRecord,p.length=instructionSize := by
    intro p hp
    rw [List.eq_of_mem_replicate hp]
    rfl
  have hflat : (List.replicate n dupRecord).flatten.length=instructionSize*n := by
    simp [instructionSize,dupRecord,Nat.mul_comm]
  have hempty : ∀ {α : Type} (read : List UInt8 → Nat → α) (size : Nat) before after,
      readTable read size 0 (before++([]++after)) before.length=[] := fun _ _ _ _ => rfl
  have hlayout := Assembler.parseSephi_layout
    ⟨[],[],[],[],List.replicate n dupInstruction⟩ [] [] [] []
    (List.replicate n dupRecord).flatten 0 0 0 0 (by decide) (by decide) (by decide) (by decide)
    rfl rfl rfl rfl (by rw [hflat,List.length_replicate]) (hempty _ _) (hempty _ _) (hempty _ _)
    (hempty _ _) (by
      intro before after
      have htable := Assembler.readTable_flatten readInstruction instructionSize
        Assembler.readInstruction_local _ hsize before after
      rw [List.length_replicate] at htable
      rw [List.length_replicate,htable,List.map_replicate,dupRecord_read])
  exact hlayout

theorem relocate_dupInstruction (exports : List ExportSymbol) (instructions : List Instruction)
    (i : Nat) :
    relocateInstruction ⟨[],[],[],exports,instructions⟩ (BitVec.ofNat 32 0) true i dupInstruction=
      dupInstruction := by
  rfl

/-- An empty store takes the file as its image. -/
theorem loadFile_dupFile (n : Nat) (hn : n < 2^31) :
    loadFile .clear ⟨[],[]⟩ (some (dupFile n)) true=some (⟨some 0,n,[],0⟩,dupImage n) := by
  have hmap : (List.replicate n dupInstruction).mapIdx
      (relocateInstruction ⟨[],[],[],[],List.replicate n dupInstruction⟩ (BitVec.ofNat 32 0) true)=
        List.replicate n dupInstruction := by
    apply List.ext_getElem
    · simp
    · intro i hi hi'
      rw [List.getElem_mapIdx,List.getElem_replicate]
      exact relocate_dupInstruction _ _ i
  simp only [loadFile,Option.bind_some,parseSephi_dupFile,List.any_nil,List.length_nil,
    List.length_replicate,hmap,resolveReferences,dupImage]
  rw [if_neg (by simp),if_neg (by omega)]
  rfl

/-- Packets of the instruction, and tokens to it. -/
def dupMessage : ∀ i : ModuleName,i.Msg → Prop
  | .instructionStore => fun p =>
    p.opcode=OpcodeType.DUP.bits ∧ p.marker=oneOutputMarker ∧ p.destination1=0
  | .inputModule => fun p =>
    p.opcode=OpcodeType.DUP.bits ∧ p.marker=oneOutputMarker ∧ p.destination1=0
  | .processingUnit => fun t => t.destination=0
  | .ioSwitch => fun t => t.destination=0
  | .matchingUnit => fun _ => True

def runningLocal : ∀ i : ModuleName,i.Local → Prop
  | .instructionStore => fun _ => True
  | .inputModule => fun _ => True
  | .processingUnit => fun s => s.exited=false
  | .ioSwitch => fun _ => True
  | .matchingUnit => fun _ => True

theorem machine_relays {c : MachineConfig} (htrap : c.trapFlag=false) (i : ModuleName)
    (hi : i ≠ .instructionStore) :
    Network.Relays (N := machine c) dupMessage runningLocal i := by
  intro env here x hhere hx
  cases i with
  | instructionStore => exact absurd rfl hi
  | inputModule =>
    refine ⟨(),x,?_,trivial,hx⟩
    have hpass : inputPacket env x=x := inputPacket_internal env x ⟨.DUP,by rw [hx.1]; rfl,rfl⟩
    change some ((),[inputPacket env x])=_
    rw [hpass]
  | processingUnit =>
    obtain ⟨hopcode,hmarker,hdest⟩ := hx
    have hne : oneOutputMarker ≠ bothOutputMarker := by decide
    obtain ⟨result,hunit,htokens⟩ := functionUnit_dup env c.random here.calls x hopcode
    rw [hmarker,if_neg hne,hdest] at htokens
    refine ⟨here,⟨0,x.data1,x.tag⟩,?_,hhere,rfl⟩
    change processPacket c.trapFlag c.random env here x=_
    rw [htrap,processPacket_plain c.random env here x hhere]
    simp only [hunit,htokens]
  | ioSwitch =>
    have hpass : isSwitchDestination x.destination=false := by
      rw [show x.destination=0 from hx]
      decide
    refine ⟨(switchToken c.behind here x).1,x,?_,trivial,hx⟩
    change some (switchToken c.behind here x)=_
    rw [switchToken,hpass]
    rfl
  | matchingUnit =>
    have hone : destinationToMatchingFunction x.destination=matchingOne := by
      rw [show x.destination=0 from hx]
      decide
    refine ⟨here,⟨x,none⟩,?_,trivial,trivial⟩
    change some (matchToken here x)=_
    simp only [matchToken,hone]
    rfl

theorem dupImage_ready (overrun : TableOverrun) (n : Nat) :
    (addReadyInstructions overrun (dupImage n).instructions).length=n ∧
      ∀p∈addReadyInstructions overrun (dupImage n).instructions,
        dupMessage .instructionStore p := by
  have hpacket : addReadyInstructions overrun (dupImage n).instructions=
      ((dupImage n).instructions.zipIdx.map fun p => makePacket p.2 dupInstruction 0 0 noTag) := by
    rw [addReadyInstructions,← List.filterMap_eq_map']
    apply List.filterMap_congr
    intro ⟨inst,i⟩ hmem
    have hinst : inst=dupInstruction := by
      apply List.eq_of_mem_replicate (n := n)
      exact (List.mem_zipIdx hmem).2.2 ▸ List.getElem_mem _
    rw [hinst]
    rfl
  rw [hpacket]
  constructor
  · simp [dupImage]
  · intro p hp
    obtain ⟨-,-,rfl⟩ := List.mem_map.mp hp
    exact ⟨rfl,rfl,rfl⟩

theorem dupImage_flooded (c : MachineConfig) (n cap : Nat) :
    Network.Flooded (N := machine c) dupMessage runningLocal .instructionStore n
      (firstState c (dupImage n) cap) where
  keeps := {
    held := by
      intro i x hx
      rw [(firstState_started c (dupImage n) cap).held,Multiset.mem_coe] at hx
      cases i with
      | instructionStore => exact (dupImage_ready c.overrun n).2 x hx
      | inputModule => cases hx
      | processingUnit => cases hx
      | ioSwitch => cases hx
      | matchingUnit => cases hx
    locals := by
      intro i
      cases i <;> first | rfl | trivial }
  messages := by
    rw [(firstState_started c (dupImage n) cap).messages]
    exact (dupImage_ready c.overrun n).1
  short := by
    intro i hi
    cases i with
    | instructionStore => exact absurd rfl hi
    | inputModule => exact Nat.zero_le 1
    | processingUnit => exact Nat.zero_le 1
    | ioSwitch => exact Nat.zero_le 1
    | matchingUnit => exact Nat.zero_le 1

/-- How many modules a message has before it until it is back at the store. -/
def stagesLeft : ModuleName → Nat
  | .instructionStore => 4
  | .inputModule => 3
  | .processingUnit => 2
  | .ioSwitch => 1
  | .matchingUnit => 0

theorem dupImage_singleOutput (n : Nat) : SingleOutput (dupImage n) := by
  intro inst hinst
  rw [List.eq_of_mem_replicate hinst]
  decide

/-- The bound is sharp: the ring comes to a deadlock from that many instructions on. -/
theorem dupImage_deadlock_iff (c : MachineConfig) (htrap : c.trapFlag=false) (n : Nat) :
    (∃ s : Machine c maxQueueSize,Reached c (dupImage n) s ∧ Network.Deadlocked s) ↔
      5*(maxQueueSize+1) ≤ n := by
  constructor
  · intro ⟨s,hr,hdead⟩
    by_contra hfew
    apply (dupImage_singleOutput n).not_deadlocked htrap (by decide) ?_ hr hdead
    rw [(dupImage_ready c.overrun n).1]
    omega
  · intro hn
    have hstages : ∀ i : ModuleName,i ≠ .instructionStore → stagesLeft i.source=stagesLeft i+1 := by
      intro i hi
      cases i <;> first | exact absurd rfl hi | rfl
    exact (dupImage_flooded c n maxQueueSize).exists_deadlocked (source_ne c) (env_nonempty c)
      (machine_relays htrap) hn stagesLeft hstages (.start (firstState_started c (dupImage n) _))

/-- A deadlock takes a ring that is full to the brim. In plain mode, an image of single outputs
with too few ready instructions for that never comes to one. -/
theorem deadlock_only_when_full (c : MachineConfig) (image : InstructionStore)
    (s : Machine c maxQueueSize) (hr : Reached c image s) :
    (Network.Deadlocked s → (∀ i,Network.WaitsForRoom s i) ∧
      5*(maxQueueSize+1) ≤ Network.messages s) ∧
    (c.trapFlag=false → SingleOutput image →
      (addReadyInstructions c.overrun image.instructions).length < 5*(maxQueueSize+1) →
        ¬Network.Deadlocked s) := by
  have hcap : 0 < maxQueueSize := by decide
  constructor
  · intro h
    exact ⟨h.waitsForRoom (machine_ring c) hcap,h.messages_le (machine_ring c) hcap⟩
  · intro htrap himage hfew
    exact himage.not_deadlocked htrap hcap hfew hr

private def plainMachine : MachineConfig := ⟨false,fun _ => 0,fun _ => 0,[]⟩

theorem deadlock_only_when_full_dup :
    (∃ s : Machine plainMachine maxQueueSize,
      Network.Deadlocked s ∧ ∀ i,Network.WaitsForRoom s i) ∧
    ∀ s : Machine plainMachine maxQueueSize,Reached plainMachine (dupImage 5124) s →
      ¬Network.Deadlocked s := by
  constructor
  · obtain ⟨s,hr,hdead⟩ := (dupImage_deadlock_iff plainMachine rfl 5125).mpr (by decide)
    exact ⟨s,hdead,((deadlock_only_when_full _ _ s hr).1 hdead).1⟩
  · intro s hr
    apply (deadlock_only_when_full _ _ s hr).2 rfl (dupImage_singleOutput 5124)
    rw [(dupImage_ready _ 5124).1]
    decide

/-- An image of 5125 such instructions is accepted, and all five modules can come to a stop. -/
theorem accepted_image_deadlocks :
    ¬∀ (c : MachineConfig) (file : List UInt8) (info : LoadedCodeInfo) (image : InstructionStore),
      loadFile .clear ⟨[],[]⟩ (some file) true=some (info,image) → info.error=0 →
        ∀ s : Machine c maxQueueSize,Reached c image s → ¬Network.Deadlocked s := by
  intro h
  obtain ⟨s,hr,hdead⟩ := (dupImage_deadlock_iff plainMachine rfl (5*(maxQueueSize+1))).mpr
    (Nat.le_refl _)
  exact h plainMachine _ _ _ (loadFile_dupFile (5*(maxQueueSize+1)) (by decide)) rfl s hr hdead

end Manchester
