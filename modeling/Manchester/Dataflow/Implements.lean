import Manchester.Dataflow.Simulation
import Manchester.Pipeline.Schedule

namespace Manchester

open Framework

section Runs

variable {c : MachineConfig} {image : InstructionStore} {cap : Nat} {s t : Machine c cap}

/-- A pipeline that starts holds the packets of the instructions that wait for nothing. -/
theorem Started.corresponds (h : Started c image s) :
    PipelineInv c image s ∧
      Corresponds c image s (Dataflow.start c.overrun image.instructions) := by
  have hempty : ∀ i,s.channel i=Channel.empty := h.channel
  have hheld : ∀ i,s.held i=↑(s.pending i) := by
    intro i
    rw [Network.State.held,hempty]
    exact zero_add _
  obtain ⟨hstore,hready⟩ := h.process .instructionStore
  have hinput : s.pending .inputModule=[] := h.process .inputModule
  obtain ⟨hunit,hunitIdle⟩ := h.process .processingUnit
  have hswitchIdle : s.pending .ioSwitch=[] := (h.process .ioSwitch).2
  obtain ⟨⟨stale,htable⟩,hmatchIdle⟩ := h.process .matchingUnit
  obtain ⟨hvalid,hwaiting⟩ := newTokenWaitingTable_valid sizeMatchingStore (by decide) stale
  rw [← htable] at hvalid hwaiting
  have htokens : heldTokens s=0 := by
    simp [heldTokens,hheld,hunitIdle,hswitchIdle,hmatchIdle,hwaiting]
  have hgone : goneTokens image.instructions s=0 := by
    simp [goneTokens,hempty,Channel.empty]
  have hpackets : heldPackets s=↑(addReadyInstructions c.overrun image.instructions) := by
    simp [heldPackets,hheld,hready,hinput]
  constructor
  · refine ⟨hstore,hvalid,?_,?_,?_⟩
    · simp [hheld,hswitchIdle]
    · simp [hheld,hmatchIdle]
    · simp [hgone]
  · refine ⟨⟨_,hpackets ▸ addReadyInstructions_firing c.overrun image.instructions,?_⟩,?_⟩
    · rw [htokens,hgone,Dataflow.start]
      simp only [add_zero,Multiset.map_zero,zero_add,← Multiset.map_coe]
      have hsum := Multiset.sum_map_singleton
        ((↑(readyAddresses c.overrun image.instructions) : Multiset Nat).map Operand.literals)
      rw [Multiset.map_map] at hsum
      exact hsum.symm
    · rw [hunit]
      rfl

/-- One step of the pipeline is no step of the dataflow machine, or one. -/
theorem Step.corresponds {a : Dataflow} (hs : Network.Step (N := machine c) s t)
    (horder : Orderly c image t) (htrap : c.trapFlag=false)
    (himage : ImageFits c.overrun image.instructions) (hinv : PipelineInv c image s)
    (h : Corresponds c image s a) :
    PipelineInv c image t ∧ (Corresponds c image t a ∨
      ∃ b,Dataflow.Step c.overrun c.random image.instructions a b ∧ Corresponds c image t b) := by
  have hne : ∀ i,(machine c).source i ≠ i := by
    intro i
    cases i <;> nofun
  obtain hput | ⟨i,env,x,new,out,hreact,ht⟩ := hs.spec hne
  · exact ⟨Delivered.inv hput hinv,Or.inl (Delivered.corresponds hput h)⟩
  cases i with
  | instructionStore =>
    have hround := takeStore ht hreact horder hinv h
    exact ⟨hround.1,Or.inl hround.2⟩
  | inputModule =>
    have htaken : (t.channel .instructionStore).taken=(s.channel .instructionStore).taken++[x] :=
      ht.taken
    have hsame := inputPacket_other env x (horder.noFile x (by simp [htaken]))
    have hout : out=[x] := by
      rw [← hsame]
      exact (congrArg Prod.snd (Option.some.inj hreact)).symm
    have hround := takeInput ht hout hinv h
    exact ⟨hround.1,Or.inl hround.2⟩
  | processingUnit =>
    have hround : processPacket c.trapFlag c.random env (s.locals .processingUnit) x=
      some (new,out) := hreact
    rw [htrap] at hround
    have hstep := takeProcessing ht hround hinv h
    exact ⟨hstep.1,Or.inr hstep.2⟩
  | ioSwitch =>
    have hround := takeSwitch ht (congrArg Prod.snd (Option.some.inj hreact)).symm hinv h
    exact ⟨hround.1,Or.inl hround.2⟩
  | matchingUnit =>
    have hround := takeMatching ht (Option.some.inj hreact) himage horder hinv h
    exact ⟨hround.1,Or.inl hround.2⟩

/-- Every state of an orderly run stands for a state that the dataflow machine reaches, whatever
the interleaving of the modules: it holds exactly the tokens of that machine, but for those that are
for an output or for no instruction. -/
theorem pipeline_refines_dataflow (c : MachineConfig) (image : InstructionStore) {cap : Nat}
    (htrap : c.trapFlag=false) (himage : ImageFits c.overrun image.instructions)
    (s : Machine c cap)
    (hs : Transition.Reachable (Started c image)
      (fun s t => Network.Step (N := machine c) s t ∧ Orderly c image t) s) :
    ∃ a,Transition.Reachable (· = Dataflow.start c.overrun image.instructions)
        (Dataflow.Step c.overrun c.random image.instructions) a ∧
      Corresponds c image s a ∧
      ∀t∈goneTokens image.instructions s,isSwitchDestination t.destination=true ∨
        tokenTarget image.instructions t=none := by
  have hstart : ∀ s : Machine c cap,Started c image s →
      ∃ a,a=Dataflow.start c.overrun image.instructions ∧
        PipelineInv c image s ∧ Corresponds c image s a :=
    fun _ h => ⟨_,rfl,h.corresponds⟩
  have hround : ∀ (s t : Machine c cap) (a : Dataflow),
      PipelineInv c image s ∧ Corresponds c image s a →
      Network.Step (N := machine c) s t ∧ Orderly c image t →
      ∃ b,Relation.ReflTransGen (Dataflow.Step c.overrun c.random image.instructions) a b ∧
        PipelineInv c image t ∧ Corresponds c image t b := by
    intro s t a ⟨hinv,h⟩ ⟨hstep,horder⟩
    obtain ⟨hinv',h | ⟨b,hb,h⟩⟩ := Step.corresponds hstep horder htrap himage hinv h
    · exact ⟨a,.refl,hinv',h⟩
    · exact ⟨b,.single hb,hinv',h⟩
  obtain ⟨a,ha,hinv,h⟩ := hs.simulation hstart fun s t a h _ hst => hround s t a h hst
  exact ⟨a,ha,h,hinv.gone⟩

end Runs

private theorem addTokens (s : Machine quietConfig 2)
    (htable : s.locals .matchingUnit=newTokenWaitingTable sizeMatchingStore fun _ => [])
    (hio : s.held .ioSwitch=0) (hmatching : s.held .matchingUnit=0) :
    heldTokens s=s.held .processingUnit := by
  have hwaiting := (newTokenWaitingTable_valid sizeMatchingStore (by decide) fun _ => []).2
  simp [heldTokens,htable,hwaiting,hio,hmatching]

/-- The tokens of this run are the operands of the sum, on their way to the switch. -/
private theorem addOrderly (s : Machine quietConfig 2)
    (hpackets : (s.channel .instructionStore).taken ⊆ [leftPacket,rightPacket])
    (hpairs : (s.channel .matchingUnit).taken=[]) (hswitch : (s.channel .ioSwitch).taken=[])
    (htable : s.locals .matchingUnit=newTokenWaitingTable sizeMatchingStore fun _ => [])
    (hunit : s.held .processingUnit ≤ {leftOperand,rightOperand}) (hio : s.held .ioSwitch=0)
    (hmatching : s.held .matchingUnit=0) : Orderly quietConfig addTwo s where
  noFile := by
    intro p hp
    have hopcode : p.opcode=OpcodeType.DUP.bits := by
      have hp := hpackets hp
      simp only [List.mem_cons,List.not_mem_nil,or_false] at hp
      obtain rfl | rfl := hp <;> rfl
    intro o ho
    rw [hopcode] at ho
    obtain rfl := Option.some.inj ho
    rfl
  noLoad := by simp [hpairs]
  runTime := by simp [hswitch]
  distinct := by
    intro t u hle _ _ _
    rw [addTokens s htable hio hmatching] at hle
    have hboth := Multiset.eq_of_le_of_card_le (hle.trans hunit) (by simp)
    have ht : t∈({leftOperand,rightOperand} : Multiset TokenType) := by simp [← hboth]
    simp only [Multiset.insert_eq_cons,Multiset.mem_cons,Multiset.mem_singleton] at ht
    obtain rfl | rfl := ht
    · have hu : u=rightOperand := by simpa using hboth
      rw [hu]
      decide
    · have hswap : rightOperand::ₘ{u}=rightOperand::ₘ{leftOperand} :=
        hboth.trans (Multiset.cons_swap leftOperand rightOperand 0)
      have hu : u=leftOperand := by simpa using hswap
      rw [hu]
      decide

/-- Both operands of the sum are live, and the dataflow machine holds just these. -/
theorem pipeline_refines_dataflow_add :
    ∃ (s : Machine quietConfig 2) (a : Dataflow),
      heldTokens s={leftOperand,rightOperand} ∧
      Transition.Reachable (· = Dataflow.start quietConfig.overrun addTwo.instructions)
        (Dataflow.Step quietConfig.overrun quietConfig.random addTwo.instructions) a ∧
      Corresponds quietConfig addTwo s a ∧
      ∀t∈goneTokens addTwo.instructions s,isSwitchDestination t.destination=true ∨
        tokenTarget addTwo.instructions t=none := by
  have begun : Transition.Reachable (Started quietConfig addTwo)
      (fun s t => Network.Step (N := machine quietConfig) s t ∧ Orderly quietConfig addTwo t)
      (firstState quietConfig addTwo 2) := .start (firstState_started _ _ _)
  have put := begun.next ⟨.put _ .instructionStore leftPacket [rightPacket] rfl (by decide),
    addOrderly _ (by decide) rfl rfl rfl (by decide) rfl rfl⟩
  have ready := put.next ⟨.put _ .instructionStore rightPacket [] rfl (by decide),
    addOrderly _ (by decide) rfl rfl rfl (by decide) rfl rfl⟩
  have read := ready.next ⟨.take _ .inputModule (fixedEnv .inputModule) leftPacket [rightPacket] ()
    [leftPacket] rfl rfl rfl,addOrderly _ (by decide) rfl rfl rfl (by decide) rfl rfl⟩
  have passed := read.next ⟨.put _ .inputModule leftPacket [] rfl (by decide),
    addOrderly _ (by decide) rfl rfl rfl (by decide) rfl rfl⟩
  have fired := passed.next ⟨.take _ .processingUnit (fixedEnv .processingUnit) leftPacket []
    ProcessingState.empty [leftOperand] rfl rfl rfl,
    addOrderly _ (by decide) rfl rfl rfl (by decide) rfl rfl⟩
  have read' := fired.next ⟨.take _ .inputModule (fixedEnv .inputModule) rightPacket [] ()
    [rightPacket] rfl rfl rfl,addOrderly _ (by decide) rfl rfl rfl (by decide) rfl rfl⟩
  have passed' := read'.next ⟨.put _ .inputModule rightPacket [] rfl (by decide),
    addOrderly _ (by decide) rfl rfl rfl (by decide) rfl rfl⟩
  have sent := passed'.next ⟨.put _ .processingUnit leftOperand [] rfl (by decide),
    addOrderly _ (by decide) rfl rfl rfl (by decide) rfl rfl⟩
  have fired' := sent.next ⟨.take _ .processingUnit (fixedEnv .processingUnit) rightPacket []
    ProcessingState.empty [rightOperand] rfl rfl rfl,
    addOrderly _ (by decide) rfl rfl rfl (by decide) rfl rfl⟩
  obtain ⟨a,ha⟩ := pipeline_refines_dataflow quietConfig addTwo rfl addTwo_fits _ fired'
  refine ⟨_,a,?_,ha⟩
  rw [addTokens _ rfl rfl rfl]
  decide

end Manchester
