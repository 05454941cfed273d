import Manchester.Dataflow.Implements
import Manchester.Framework.Worker
import Manchester.Pipeline.Capacity

namespace Manchester

open Framework

/-- Each token fits what it is for, and no two that wait for a partner are alike in address, tag
and port. -/
structure Dataflow.Tame (overrun : TableOverrun) (instructions : List Instruction)
    (a : Dataflow) : Prop where
  fits : ∀ t,Operand.token t∈a.operands → DestinationFits overrun instructions t.destination
  distinct : ∀ t u,Operand.token t::ₘ{Operand.token u} ≤ a.operands → Pairs t → Pairs u →
    tokenToKey t=tokenToKey u → destinationToInput t.destination ≠ destinationToInput u.destination

/-- An image below the addresses of the switch that asks nothing of the outside and on which the
dataflow machine comes to tame states only. -/
structure TameImage (overrun : TableOverrun) (random : RandomStream)
    (instructions : List Instruction) : Prop where
  room : instructions.length ≤ 2^28-5
  fits : ImageFits overrun instructions
  internal : ∀inst∈instructions,IsInternal inst.opcode
  tame : ∀ a,Transition.Reachable (· = Dataflow.start overrun instructions)
    (Dataflow.Step overrun random instructions) a → a.Tame overrun instructions

theorem IsInternal.noFile {opcode : BitVec 32} (h : IsInternal opcode) :
    ∀ o,OpcodeType.ofBits opcode=some o → o.isFile=false := by
  intro o ho
  obtain ⟨o',ho',hinternal⟩ := h
  obtain rfl : o=o' := Option.some.inj (ho.symm.trans ho')
  cases o <;> first | rfl | cases hinternal

theorem IsInternal.noLoad {opcode : BitVec 32} (h : IsInternal opcode) :
    opcode ≠ OpcodeType.LOD.bits := by
  rintro rfl
  obtain ⟨o,ho,hinternal⟩ := h
  rw [OpcodeType.ofBits_bits] at ho
  obtain rfl := Option.some.inj ho
  cases hinternal

section Packets

variable {overrun : TableOverrun} {instructions : List Instruction}

/-- A packet has the opcode of its instruction. -/
theorem Firing.opcode {consumed : Multiset Operand} {packet : ExecutionPacket}
    (h : Firing overrun instructions consumed packet) :
    ∃inst∈instructions,packet.opcode=inst.opcode := by
  cases h with
  | both address inst _ _ hinst => exact ⟨inst,List.mem_of_getElem? hinst,rfl⟩
  | single address inst _ hinst => exact ⟨inst,List.mem_of_getElem? hinst,rfl⟩
  | literals address inst _ hinst hready =>
    refine ⟨inst,List.mem_of_getElem? hinst,?_⟩
    unfold readyPacket at hready
    split_ifs at hready <;> cases hready <;> rfl

end Packets

section States

variable {c : MachineConfig} {image : InstructionStore} {cap : Nat} {s t : Machine c cap}
  {a : Dataflow}

theorem Corresponds.tokens_le (h : Corresponds c image s a) :
    (heldTokens s).map Operand.token ≤ a.operands := by
  obtain ⟨consumed,-,hops⟩ := h.operands
  rw [hops,Multiset.map_add,add_assoc]
  exact Multiset.le_add_right _ _

theorem Corresponds.packet_internal (h : Corresponds c image s a)
    (hinternal : ∀inst∈image.instructions,IsInternal inst.opcode) {packet : ExecutionPacket}
    (hp : packet∈heldPackets s) : IsInternal packet.opcode := by
  obtain ⟨consumed,hrel,-⟩ := h.operands
  obtain ⟨ops,-,hfiring⟩ := Multiset.exists_mem_of_rel_of_mem hrel hp
  obtain ⟨inst,hinst,hopcode⟩ := hfiring.opcode
  rw [hopcode]
  exact hinternal inst hinst

theorem Dataflow.Tame.distinct_held (h : a.Tame c.overrun image.instructions)
    (hle : (heldTokens s).map Operand.token ≤ a.operands) (t u : TokenType)
    (htu : t::ₘ{u} ≤ heldTokens s) : Pairs t → Pairs u → tokenToKey t=tokenToKey u →
      destinationToInput t.destination ≠ destinationToInput u.destination := by
  apply h.distinct t u
  have hmap := Multiset.map_le_map (f := Operand.token) htu
  rw [Multiset.map_cons,Multiset.map_singleton] at hmap
  exact hmap.trans hle

/-- A pipeline on its way, and the state of the dataflow machine that it stands for. -/
structure StandsFor (c : MachineConfig) (image : InstructionStore) {cap : Nat} (s : Machine c cap)
    (a : Dataflow) : Prop where
  reached : Transition.Reachable (· = Dataflow.start c.overrun image.instructions)
    (Dataflow.Step c.overrun c.random image.instructions) a
  inv : PipelineInv c image s
  corresponds : Corresponds c image s a
  orderly : Orderly c image s
  running : (s.locals .processingUnit).exited=false

theorem Started.standsFor (h : Started c image s) :
    StandsFor c image s (Dataflow.start c.overrun image.instructions) := by
  obtain ⟨hinv,hcorresponds⟩ := h.corresponds
  have hempty : ∀ i,s.channel i=Channel.empty := h.channel
  obtain ⟨hunit,hunitIdle⟩ := h.process .processingUnit
  have hheld : heldTokens s=0 := by
    have hswitchIdle : s.pending .ioSwitch=[] := (h.process .ioSwitch).2
    obtain ⟨⟨stale,htable⟩,hmatchIdle⟩ := h.process .matchingUnit
    have hwaiting := (newTokenWaitingTable_valid sizeMatchingStore (by decide) stale).2
    rw [← htable] at hwaiting
    simp [heldTokens,h.held,hunitIdle,hswitchIdle,hmatchIdle,hwaiting]
  refine ⟨.start rfl,hinv,hcorresponds,⟨?_,?_,?_,?_⟩,?_⟩
  · simp [hempty,Channel.empty]
  · simp [hempty,Channel.empty]
  · simp [hempty,Channel.empty]
  · intro t u hle
    rw [hheld] at hle
    simp at hle
  · rw [hunit]
    rfl

theorem StandsFor.delivered (h : StandsFor c image s a)
    (ht : Network.Delivered (N := machine c) s t) : StandsFor c image t a where
  reached := h.reached
  inv := Delivered.inv ht h.inv
  corresponds := Delivered.corresponds ht h.corresponds
  orderly := by
    have hheld := (Delivered.tokens ht image.instructions).1
    refine ⟨?_,?_,?_,?_⟩
    · rw [ht.taken]
      exact h.orderly.noFile
    · rw [ht.taken]
      exact h.orderly.noLoad
    · rw [ht.taken]
      exact h.orderly.runTime
    · rw [hheld]
      exact h.orderly.distinct
  running := ht.locals .processingUnit ▸ h.running

/-- What is taken in a round is in order, and so is what is held after it if the dataflow machine
holds it. -/
theorem StandsFor.orderly_took {random : RandomStream} {b : Dataflow} (h : StandsFor c image s a)
    (himage : TameImage c.overrun random image.instructions)
    (ha : a.Tame c.overrun image.instructions) (hb : b.Tame c.overrun image.instructions)
    {i : ModuleName} {x : i.source.Msg} {new : i.Local} {out : List i.Msg}
    (ht : Network.Took (N := machine c) s t i x new out)
    (hle : (heldTokens t).map Operand.token ≤ b.operands) : Orderly c image t where
  noFile := by
    intro p hp
    obtain hp | hp := ht.taken_or_held (j := .instructionStore) hp
    · exact h.orderly.noFile p hp
    · have hheld : p∈heldPackets s := Multiset.mem_add.mpr (Or.inl hp)
      exact (h.corresponds.packet_internal himage.internal hheld).noFile
  noLoad := by
    intro pair _ inst hinst
    exact (himage.internal inst (List.mem_of_getElem? hinst)).noLoad
  runTime := by
    intro t ht' hstatic
    obtain ht' | ht' := ht.taken_or_held (j := .ioSwitch) ht'
    · exact h.orderly.runTime t ht' hstatic
    · apply ha.fits
      apply Multiset.mem_of_le h.corresponds.tokens_le
      apply Multiset.mem_map_of_mem
      simp only [heldTokens,Multiset.mem_add]
      exact Or.inl (Or.inl (Or.inr ht'))
  distinct := hb.distinct_held hle

/-- No round but one of the processing unit makes a token. -/
theorem StandsFor.tokens_le (h : StandsFor c image s a) {i : ModuleName} (hi : i ≠ .processingUnit)
    {env : i.Env} {x : i.source.Msg} {new : i.Local} {out : List i.Msg}
    (hreact : react c i env (s.locals i) x=some (new,out))
    (ht : Network.Took (N := machine c) s t i x new out) : heldTokens t ≤ heldTokens s := by
  cases i with
  | instructionStore =>
    obtain ⟨htokens,-⟩ := takeStore_held ht
    rw [htokens]
    exact Multiset.le_add_left _ _
  | inputModule =>
    have hothers : ∀ j,j ≠ .inputModule → j ≠ .instructionStore → t.held j=s.held j := ht.others
    have h1 := hothers .processingUnit (by decide) (by decide)
    have h2 := hothers .ioSwitch (by decide) (by decide)
    have h3 := hothers .matchingUnit (by decide) (by decide)
    have htable : t.locals .matchingUnit=s.locals .matchingUnit := ht.elsewhere _ (by decide)
    rw [heldTokens,heldTokens,h1,h2,h3,htable]
  | processingUnit => exact absurd rfl hi
  | ioSwitch =>
    have hheld := takeSwitch_held ht
    have hout : out=if isSwitchDestination x.destination then [] else [x] :=
      (congrArg Prod.snd (Option.some.inj hreact)).symm
    have hle : (↑out : Multiset TokenType) ≤ {x} := by
      rw [hout]
      split_ifs <;> simp
    have hsum : {x}+heldTokens t ≤ {x}+heldTokens s := by
      rw [hheld,add_comm ({x} : Multiset TokenType)]
      exact add_le_add (le_refl _) hle
    exact le_of_add_le_add_left hsum
  | matchingUnit =>
    have hheld := takeMatching_held ht
    obtain ⟨-,hmatched⟩ := matchToken_matched h.inv.table x
    have hmatch : matchToken (s.locals .matchingUnit) x=(new,out) := Option.some.inj hreact
    rw [hmatch] at hmatched
    have hbalance := hmatched.balance
    have hsum : heldTokens t+↑([x].filter fun t => ¬Passes t ∧ ¬Pairs t)=heldTokens s := by
      apply add_left_cancel (a := {x}+(s.locals .matchingUnit).waiting)
      calc
        {x}+(s.locals .matchingUnit).waiting+
            (heldTokens t+↑([x].filter fun t => ¬Passes t ∧ ¬Pairs t)) =
            {x}+heldTokens t+(s.locals .matchingUnit).waiting+
              ↑([x].filter fun t => ¬Passes t ∧ ¬Pairs t) := by abel
        _ = new.waiting+(↑out : Multiset ReadyTokenPairType).bind (fun p => ↑p.tokens)+
            ↑([x].filter fun t => ¬Passes t ∧ ¬Pairs t)+heldTokens s := by
          rw [hheld]
          abel
        _ = {x}+(s.locals .matchingUnit).waiting+heldTokens s := by rw [← hbalance]
    rw [← hsum]
    exact Multiset.le_add_right _ _

/-- A round of another module leaves the dataflow machine where it is. -/
theorem StandsFor.round (h : StandsFor c image s a)
    (himage : TameImage c.overrun c.random image.instructions) {i : ModuleName}
    (hi : i ≠ .processingUnit) {env : i.Env} {x : i.source.Msg} {new : i.Local} {out : List i.Msg}
    (hreact : react c i env (s.locals i) x=some (new,out))
    (ht : Network.Took (N := machine c) s t i x new out) :
    out.length ≤ 1 ∧ StandsFor c image t a := by
  have ha := himage.tame a h.reached
  have horderly := h.orderly_took himage ha ha ht
    ((Multiset.map_le_map (h.tokens_le hi hreact ht)).trans h.corresponds.tokens_le)
  have hrunning : t.locals .processingUnit=s.locals .processingUnit :=
    ht.elsewhere _ fun heq => hi heq.symm
  suffices hround : out.length ≤ 1 ∧ PipelineInv c image t ∧ Corresponds c image t a from
    ⟨hround.1,h.reached,hround.2.1,hround.2.2,horderly,hrunning ▸ h.running⟩
  cases i with
  | instructionStore =>
    refine ⟨?_,takeStore ht hreact horderly h.inv h.corresponds⟩
    change storePair c.overrun env (s.locals .instructionStore) x=_ at hreact
    rw [h.inv.store] at hreact
    cases hinst : image.instructions[(destinationToAddress x.token1.destination).toNat]? with
    | none =>
      rw [storePair_none c.overrun env hinst] at hreact
      cases hreact
      exact Nat.zero_le 1
    | some inst =>
      have hload := (himage.internal inst (List.mem_of_getElem? hinst)).noLoad
      rw [storePair_some c.overrun env hinst hload] at hreact
      cases hreact
      exact (firePair_single_output c.overrun _ inst x.token1 _).2
  | inputModule =>
    have hx : x∈heldPackets s := by
      have hsource : s.held .instructionStore=x::ₘt.held .instructionStore := ht.source
      rw [heldPackets,hsource]
      simp
    have hsame := inputPacket_internal env x (h.corresponds.packet_internal himage.internal hx)
    have hout : out=[x] := by
      rw [← hsame]
      exact (congrArg Prod.snd (Option.some.inj hreact)).symm
    refine ⟨?_,takeInput ht hout h.inv h.corresponds⟩
    rw [hout,List.length_singleton]
  | processingUnit => exact absurd rfl hi
  | ioSwitch =>
    have hout : out=if isSwitchDestination x.destination then [] else [x] :=
      (congrArg Prod.snd (Option.some.inj hreact)).symm
    refine ⟨?_,takeSwitch ht hout h.inv h.corresponds⟩
    rw [hout]
    split_ifs <;> simp
  | matchingUnit =>
    have hmatch : matchToken (s.locals .matchingUnit) x=(new,out) := Option.some.inj hreact
    refine ⟨?_,takeMatching ht hmatch himage.fits horderly h.inv h.corresponds⟩
    have hlength := matchToken_length (s.locals .matchingUnit) x
    rwa [hmatch] at hlength

/-- A round of the processing unit is a step of the dataflow machine. -/
theorem StandsFor.work (h : StandsFor c image s a)
    (himage : TameImage c.overrun c.random image.instructions) (htrap : c.trapFlag=false)
    {env : FunctionEnv} {x : ExecutionPacket} {new : ProcessingState} {out : List TokenType}
    (hreact : processPacket c.trapFlag c.random env (s.locals .processingUnit) x=some (new,out))
    (ht : Network.Took (N := machine c) s t .processingUnit x new out) :
    ∃ b,Dataflow.Step c.overrun c.random image.instructions a b ∧ StandsFor c image t b := by
  rw [htrap] at hreact
  obtain ⟨hinv,b,hstep,hcorresponds⟩ := takeProcessing ht hreact h.inv h.corresponds
  have hreached := h.reached.next hstep
  refine ⟨b,hstep,hreached,hinv,hcorresponds,h.orderly_took himage (himage.tame a h.reached)
    (himage.tame b hreached) ht hcorresponds.tokens_le,?_⟩
  have hx : x∈heldPackets s := by
    rw [(takeProcessing_held ht).1]
    exact Multiset.mem_cons_self x _
  obtain ⟨result,-,calls,hunit,-⟩ := functionUnit_internal c.random
    (s.locals .processingUnit).calls x (h.corresponds.packet_internal himage.internal hx) env env
  have hhere : t.locals .processingUnit=new := ht.here
  rw [processPacket_plain c.random env _ x h.running,hunit] at hreact
  obtain ⟨rfl,-⟩ := Prod.mk.inj (Option.some.inj hreact)
  rw [hhere]
  exact h.running

end States

end Manchester
