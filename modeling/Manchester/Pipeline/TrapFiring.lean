import Manchester.Pipeline.Issued
import Manchester.Pipeline.TrapRun

namespace Manchester

/-- A round on a packet of the trap code: the tokens of the run go on, or the token for `dest` goes
to DEV_NULL, or the RTD answers, and the token that waited is sent. -/
inductive Answers (random : RandomStream) (env : FunctionEnv) (s : ProcessingState)
    (packet : ExecutionPacket) (rest : Multiset TokenType) (runs : Multiset TrapRun)
    (pending : Multiset Held) : Prop where
  | moves (sent : List TokenType) (runs' : Multiset TrapRun)
      (hround : processPacket true random env s packet=some (s,sent))
      (hinside : ∀t∈sent,toTrapCode t=true) (hruns : runs'.map TrapRun.held=runs.map TrapRun.held)
      (h : Outstanding random s.trapWaiting (↑sent+rest) runs' pending)
      (hless : remaining runs' pending < remaining runs pending)
  | notes (held : Held) (others : Multiset Held) (hpending : pending=held ::ₘ others)
      (hround : processPacket true random env s packet=
        some (s,[TrapRun.noteToken random held]))
      (h : Outstanding random s.trapWaiting rest runs others)
      (hless : remaining runs others < remaining runs pending)
  | releases (run : TrapRun) (others : Multiset TrapRun) (hruns : runs=run ::ₘ others)
      (hround : processPacket true random env s packet=some ({s with
        trapWaiting := Function.update s.trapWaiting (run.held.location random) none},
          [run.held.token]))
      (h : Outstanding random
        (Function.update s.trapWaiting (run.held.location random) none) rest others pending)
      (hless : remaining others pending < remaining runs pending)

theorem Answers.round {random : RandomStream} {env : FunctionEnv} {s : ProcessingState}
    {packet : ExecutionPacket} {rest : Multiset TokenType} {runs : Multiset TrapRun}
    {pending : Multiset Held} (h : Answers random env s packet rest runs pending) :
    ∃ after sent,processPacket true random env s packet=some (after,sent) ∧
      after.exited=s.exited := by
  cases h with
  | moves sent _ hround => exact ⟨_,_,hround,rfl⟩
  | notes _ _ _ hround => exact ⟨_,_,hround,rfl⟩
  | releases _ _ _ hround => exact ⟨_,_,hround,rfl⟩

section Packets

variable (random : RandomStream) (env : FunctionEnv) {s : ProcessingState}
  {packet : ExecutionPacket}

/-- An instruction of the trap code sends its result at once. -/
theorem processPacket_trapCode (hexited : s.exited=false) {address : Nat} {inst : Instruction}
    {data1 data2 : DataType} {tag : TagType} (haddress : address < trapCodeLimit)
    (hrtd : inst.opcode ≠ OpcodeType.RTD.bits) {result : ExecutionResult} {tokens : List TokenType}
    (hunit : functionUnit env random s.calls (makePacket address inst data1 data2 tag)=
      some (result,s.calls)) (htokens : result.tokens=tokens) :
    processPacket true random env s (makePacket address inst data1 data2 tag)=some (s,tokens) := by
  have hcode : isTrapCode (makePacket address inst data1 data2 tag).input=true := by
    rw [isTrapCode_iff,makePacket,createDestination_address]
    unfold trapCodeLimit at haddress ⊢
    omega
  rw [processPacket_trap random env s _ result s.calls hexited hunit
    fun h => absurd h hrtd,if_pos hcode,htokens]

/-- An RTD with the data 1 and a location where a token waits. -/
theorem processPacket_approved (hexited : s.exited=false)
    (hrtd : packet.opcode=OpcodeType.RTD.bits) {location : DestinationType} {token : TokenType}
    (hdata : packet.data1=1) (hlocation : packet.data2.setWidth 32=location)
    (hwaits : s.trapWaiting location=some token) :
    processPacket true random env s packet=
      some ({s with trapWaiting := Function.update s.trapWaiting location none},[token]) := by
  obtain ⟨result,hunit,htokens⟩ := functionUnit_rtd env random s.calls packet hrtd
  have houtput : result.output1=⟨location,1,packet.tag⟩ := by
    rw [hlocation,hdata] at htokens
    exact (List.cons.inj htokens).1
  rw [processPacket,if_neg (by simp [hexited]),hunit]
  simp only [finishPacket,hrtd,beq_self_eq_true,Bool.and_self,if_true,houtput,hwaits]

end Packets

namespace Outstanding

variable {random : RandomStream} {env : FunctionEnv} {s : ProcessingState}
  {rest : Multiset TokenType} {runs : Multiset TrapRun} {pending : Multiset Held}
  (overrun : TableOverrun)
  (os : List Instruction)

/-- A run goes on, by an instruction whose result stays in the trap code. -/
theorem move {run : TrapRun} (run' : TrapRun) {others : Multiset TrapRun}
    {flight consumed kept : Multiset TokenType}
    (h : Outstanding random s.trapWaiting flight (run ::ₘ others) pending)
    (hflight : flight=consumed+rest) (hexited : s.exited=false) {address : Nat}
    {inst : Instruction} {data1 data2 : DataType} {tag : TagType}
    (haddress : address < trapCodeLimit) (hrtd : inst.opcode ≠ OpcodeType.RTD.bits)
    {result : ExecutionResult}
    (hunit : functionUnit env random s.calls (makePacket address inst data1 data2 tag)=
      some (result,s.calls)) {sent : List TokenType} (htokens : result.tokens=sent)
    (hinside : ∀d∈sent.map TokenType.destination,
      (destinationToAddress d).toNat < trapCodeLimit)
    (hheld : run'.held=run.held) (hold : run.tokens random=consumed+kept)
    (hnew : run'.tokens random=↑sent+kept) (hless : run'.work < run.work) :
    Answers random env s (makePacket address inst data1 data2 tag) rest (run ::ₘ others)
      pending := by
  refine .moves sent (run' ::ₘ others)
    (processPacket_trapCode random env hexited haddress hrtd hunit htokens) ?_ ?_ ?_ ?_
  · intro t ht
    exact decide_eq_true (hinside _ (List.mem_map_of_mem ht))
  · rw [Multiset.map_cons,Multiset.map_cons,hheld]
  · rw [hflight] at h
    exact h.advance hheld hold hnew
  · rw [remaining_cons,remaining_cons]
    omega

theorem not_single_xor : ¬(trapXor.instructionLiteral=InstructionLiteralType.ONE.bits ∨
    numInputs overrun trapXor.opcode=1) := by
  intro h
  obtain h | h := h
  · exact absurd h (by decide)
  · cases h

theorem not_single_return : ¬(trapReturn.instructionLiteral=InstructionLiteralType.ONE.bits ∨
    numInputs overrun trapReturn.opcode=1) := by
  intro h
  obtain h | h := h
  · exact absurd h (by decide)
  · cases h

section Instructions

variable (env) {others : Multiset TrapRun} (held : Held) (source : DataType)

theorem fire_dest
    (h : Outstanding random s.trapWaiting (TrapRun.destToken random held ::ₘ rest) runs
      (held ::ₘ pending)) (hexited : s.exited=false) :
    Answers random env s (makePacket 1 trapUnused (TrapRun.destToken random held).data
      trapUnused.literal1 (TrapRun.destToken random held).tag) rest runs (held ::ₘ pending) := by
  obtain ⟨result,hunit,htokens⟩ := functionUnit_dup env random s.calls
    (makePacket 1 trapUnused (TrapRun.destToken random held).data trapUnused.literal1
      (TrapRun.destToken random held).tag) rfl
  have hsent : result.tokens=[TrapRun.noteToken random held] := by
    rw [htokens]
    rfl
  refine .notes held pending rfl
    (processPacket_trapCode random env hexited (by decide) (by decide) hunit hsent) h.note ?_
  simp [remaining]

theorem fire_source (returning : Bool)
    (h : Outstanding random s.trapWaiting
      (⟨createDestination 0 inputOne matchingOne,source,held.tag random⟩ ::ₘ rest)
      (⟨held,source,.asked,returning⟩ ::ₘ others) pending) (hexited : s.exited=false) :
    Answers random env s (makePacket 0 trapSource source trapSource.literal1 (held.tag random))
      rest (⟨held,source,.asked,returning⟩ ::ₘ others) pending := by
  obtain ⟨result,hunit,htokens⟩ := functionUnit_dup env random s.calls
    (makePacket 0 trapSource source trapSource.literal1 (held.tag random)) rfl
  have hsent : result.tokens=[⟨trapSource.destination1,source,held.tag random⟩,
      ⟨trapSource.destination2,source,held.tag random⟩] := by
    rw [htokens]
    rfl
  have hinside : ∀d∈[trapSource.destination1,trapSource.destination2],
      (destinationToAddress d).toNat < trapCodeLimit :=
    List.forall_mem_cons.mpr ⟨by decide,List.forall_mem_singleton.mpr (by decide)⟩
  exact h.move ⟨held,source,.doubled,returning⟩ (Multiset.singleton_add _ _).symm hexited
    (by decide) (by decide) hunit hsent hinside rfl rfl rfl (Nat.lt_add_one _)

theorem fire_location (stage : SourceStage)
    (h : Outstanding random s.trapWaiting
      (⟨createDestination 2 inputOne matchingOne,(held.location random).setWidth 64,
        held.tag random⟩ ::ₘ rest) (⟨held,source,stage,false⟩ ::ₘ others) pending)
    (hexited : s.exited=false) :
    Answers random env s (makePacket 2 trapReturnLoc ((held.location random).setWidth 64)
      trapReturnLoc.literal1 (held.tag random)) rest (⟨held,source,stage,false⟩ ::ₘ others)
      pending := by
  obtain ⟨result,hunit,htokens⟩ := functionUnit_dup env random s.calls
    (makePacket 2 trapReturnLoc ((held.location random).setWidth 64) trapReturnLoc.literal1
      (held.tag random)) rfl
  have hsent : result.tokens=[⟨trapReturnLoc.destination1,
      (held.location random).setWidth 64,held.tag random⟩] := by
    rw [htokens]
    rfl
  have hinside : ∀d∈[trapReturnLoc.destination1],
      (destinationToAddress d).toNat < trapCodeLimit :=
    List.forall_mem_singleton.mpr (by decide)
  exact h.move ⟨held,source,stage,true⟩ (Multiset.singleton_add _ _).symm hexited (by decide)
    (by decide) hunit hsent hinside rfl (add_comm _ _) (add_comm _ _)
    (Nat.add_lt_add_right (Nat.lt_add_one 1) _)

theorem fire_xor (returning : Bool)
    (h : Outstanding random s.trapWaiting
      (⟨trapSource.destination1,source,held.tag random⟩ ::ₘ
        ⟨trapSource.destination2,source,held.tag random⟩ ::ₘ rest)
      (⟨held,source,.doubled,returning⟩ ::ₘ others) pending) (hexited : s.exited=false) :
    Answers random env s (makePacket 3 trapXor source source (held.tag random)) rest
      (⟨held,source,.doubled,returning⟩ ::ₘ others) pending := by
  obtain ⟨result,hunit,htokens⟩ := functionUnit_xor env random s.calls
    (makePacket 3 trapXor source source (held.tag random)) rfl
  have hsent : result.tokens=[⟨trapXor.destination1,0,held.tag random⟩] := by
    rw [htokens,makePacket,BitVec.xor_self]
    rfl
  have hinside : ∀d∈[trapXor.destination1],
      (destinationToAddress d).toNat < trapCodeLimit :=
    List.forall_mem_singleton.mpr (by decide)
  exact h.move ⟨held,source,.cancelled,returning⟩ (Multiset.cons_add _ {_} rest).symm hexited
    (by decide) (by decide) hunit hsent hinside rfl rfl rfl (Nat.lt_add_one _)

theorem fire_add (returning : Bool)
    (h : Outstanding random s.trapWaiting
      (⟨trapXor.destination1,0,held.tag random⟩ ::ₘ rest)
      (⟨held,source,.cancelled,returning⟩ ::ₘ others) pending) (hexited : s.exited=false) :
    Answers random env s (makePacket 4 trapAdd 0 trapAdd.literal1 (held.tag random)) rest
      (⟨held,source,.cancelled,returning⟩ ::ₘ others) pending := by
  obtain ⟨result,hunit,htokens⟩ := functionUnit_add env random s.calls
    (makePacket 4 trapAdd 0 trapAdd.literal1 (held.tag random)) rfl
  have hsent : result.tokens=[⟨trapAdd.destination1,1,held.tag random⟩] := by
    rw [htokens]
    rfl
  have hinside : ∀d∈[trapAdd.destination1],
      (destinationToAddress d).toNat < trapCodeLimit :=
    List.forall_mem_singleton.mpr (by decide)
  exact h.move ⟨held,source,.approved,returning⟩ (Multiset.singleton_add _ _).symm hexited
    (by decide) (by decide) hunit hsent hinside rfl rfl rfl (Nat.lt_add_one _)

/-- The RTD ends the run. -/
theorem fire_return
    (h : Outstanding random s.trapWaiting
      (⟨trapAdd.destination1,1,held.tag random⟩ ::ₘ
        ⟨trapReturnLoc.destination1,(held.location random).setWidth 64,held.tag random⟩ ::ₘ rest)
      (⟨held,source,.approved,true⟩ ::ₘ others) pending) (hexited : s.exited=false) :
    Answers random env s
      (makePacket 5 trapReturn 1 ((held.location random).setWidth 64) (held.tag random)) rest
      (⟨held,source,.approved,true⟩ ::ₘ others) pending := by
  have hwaits := h.waits _ (Multiset.mem_cons_self _ _)
  have hback : ((held.location random).setWidth 64).setWidth 32=held.location random := by simp
  have hflight : ∀ a b : TokenType,a ::ₘ b ::ₘ rest={a}+{b}+rest := by
    intro a b
    rw [add_assoc,Multiset.singleton_add,Multiset.singleton_add]
  rw [hflight] at h
  refine .releases ⟨held,source,.approved,true⟩ others rfl
    (processPacket_approved random env hexited rfl rfl hback hwaits) h.finish ?_
  rw [remaining_cons]
  exact Nat.lt_add_of_pos_left (by decide : 0 < 1)

end Instructions

/-- An instruction of the trap code that needs one token. -/
theorem fire_single {token : TokenType} {address : Nat} {inst : Instruction}
    (h : Outstanding random s.trapWaiting (token ::ₘ rest) runs pending) (hexited : s.exited=false)
    (hinst : (trapCode++os)[address]?=some inst)
    (hone : inst.instructionLiteral=InstructionLiteralType.ONE.bits ∨
      numInputs overrun inst.opcode=1)
    (haddress : (destinationToAddress token.destination).toNat=address) :
    Answers random env s (makePacket address inst token.data inst.literal1 token.tag) rest runs
      pending := by
  obtain ⟨held,hheld,rfl⟩ | ⟨run,hrun,hhas⟩ := h.mem_flight (Multiset.mem_cons_self _ _)
  · obtain rfl : 1=address := dest_address.symm.trans haddress
    obtain rfl : trapUnused=inst := Option.some.inj hinst
    obtain ⟨pending,rfl⟩ := Multiset.exists_cons_of_mem hheld
    exact h.fire_dest env held hexited
  · obtain ⟨others,rfl⟩ := Multiset.exists_cons_of_mem hrun
    cases hhas with
    | source held source returning =>
      obtain rfl : 0=address := source_address.symm.trans haddress
      obtain rfl : trapSource=inst := Option.some.inj hinst
      exact h.fire_source env held source returning hexited
    | location held source stage =>
      obtain rfl : 2=address := location_address.symm.trans haddress
      obtain rfl : trapReturnLoc=inst := Option.some.inj hinst
      exact h.fire_location env held source stage hexited
    | zero held source returning =>
      obtain rfl : 4=address := zero_address.symm.trans haddress
      obtain rfl : trapAdd=inst := Option.some.inj hinst
      exact h.fire_add env held source returning hexited
    -- the others are tokens for the XOR and the RTD, which need two
    | first held source returning =>
      obtain rfl : 3=address := first_address.symm.trans haddress
      obtain rfl : trapXor=inst := Option.some.inj hinst
      exact absurd hone (not_single_xor overrun)
    | second held source returning =>
      obtain rfl : 3=address := second_address.symm.trans haddress
      obtain rfl : trapXor=inst := Option.some.inj hinst
      exact absurd hone (not_single_xor overrun)
    | one held source returning =>
      obtain rfl : 5=address := one_address.symm.trans haddress
      obtain rfl : trapReturn=inst := Option.some.inj hinst
      exact absurd hone (not_single_return overrun)
    | returning held source stage =>
      obtain rfl : 5=address := returning_address.symm.trans haddress
      obtain rfl : trapReturn=inst := Option.some.inj hinst
      exact absurd hone (not_single_return overrun)

/-- Tokens with one tag are of one run, but for those for `dest`. -/
theorem partner {flight : Multiset TokenType}
    (h : Outstanding random s.trapWaiting flight runs pending) {run : TrapRun} (hrun : run∈runs)
    {token1 token2 : TokenType} (hhas : run.Has random token1) (hmem : token2∈flight)
    (htag : token1.tag=token2.tag)
    (hdest : token2.destination ≠ createDestination 1 inputOne matchingOne) :
    run.Has random token2 := by
  obtain ⟨held,-,rfl⟩ | ⟨run',hrun',hhas'⟩ := h.mem_flight hmem
  · exact absurd rfl hdest
  · have hsame : run.held.tag random=run'.held.tag random := by
      rw [← hhas.tag,← hhas'.tag,htag]
    rw [h.run_unique hrun hrun' hsame]
    exact hhas'

/-- An instruction of the trap code that needs two tokens. -/
theorem fire_both {token1 token2 : TokenType} {address : Nat} {inst : Instruction}
    (h : Outstanding random s.trapWaiting (token1 ::ₘ token2 ::ₘ rest) runs pending)
    (hexited : s.exited=false) (hinst : (trapCode++os)[address]?=some inst)
    (hnone : inst.instructionLiteral=InstructionLiteralType.NONE.bits)
    (htwo : numInputs overrun inst.opcode=2)
    (haddress1 : (destinationToAddress token1.destination).toNat=address)
    (haddress2 : (destinationToAddress token2.destination).toNat=address)
    (hinput1 : destinationToInput token1.destination=inputOne)
    (hinput2 : destinationToInput token2.destination=inputTwo) (htag : token1.tag=token2.tag) :
    Answers random env s (makePacket address inst token1.data token2.data token1.tag) rest runs
      pending := by
  have hmem2 : token2∈token1 ::ₘ token2 ::ₘ rest :=
    Multiset.mem_cons_of_mem (Multiset.mem_cons_self _ _)
  have hdest : token2.destination ≠ createDestination 1 inputOne matchingOne := by
    intro hdest
    rw [hdest] at hinput2
    exact absurd hinput2 (by decide)
  obtain ⟨held,-,rfl⟩ | ⟨run,hrun,hhas⟩ := h.mem_flight (Multiset.mem_cons_self _ _)
  · obtain rfl : 1=address := dest_address.symm.trans haddress1
    obtain rfl : trapUnused=inst := Option.some.inj hinst
    cases htwo
  have hinputs : inputOne ≠ inputTwo := by decide
  have hhas2 := h.partner hrun hhas hmem2 htag hdest
  obtain ⟨others,rfl⟩ := Multiset.exists_cons_of_mem hrun
  cases hhas with
  | first held source returning =>
    obtain rfl : 3=address := first_address.symm.trans haddress1
    obtain rfl : trapXor=inst := Option.some.inj hinst
    cases hhas2 with
    | first => exact absurd (first_input.symm.trans hinput2) hinputs
    | location =>
      rw [location_address] at haddress2
      cases haddress2
    | returning =>
      rw [returning_address] at haddress2
      cases haddress2
    | second => exact h.fire_xor env held source returning hexited
  | one held source returning =>
    obtain rfl : 5=address := one_address.symm.trans haddress1
    obtain rfl : trapReturn=inst := Option.some.inj hinst
    cases hhas2 with
    | one => exact absurd (one_input.symm.trans hinput2) hinputs
    | location =>
      rw [location_address] at haddress2
      cases haddress2
    | returning => exact h.fire_return env held source hexited
  -- the other tokens are for instructions with one operand, or for second operands
  | source =>
    obtain rfl : 0=address := source_address.symm.trans haddress1
    obtain rfl : trapSource=inst := Option.some.inj hinst
    cases htwo
  | second => exact absurd (hinput1.symm.trans second_input) hinputs
  | zero =>
    obtain rfl : 4=address := zero_address.symm.trans haddress1
    obtain rfl : trapAdd=inst := Option.some.inj hinst
    exact absurd hnone (by decide)
  | location =>
    obtain rfl : 2=address := location_address.symm.trans haddress1
    obtain rfl : trapReturnLoc=inst := Option.some.inj hinst
    cases htwo
  | returning => exact absurd (hinput1.symm.trans returning_input) hinputs

/-- Whatever instruction fires on tokens in flight, it is one of the six that are used. -/
theorem fire {consumed : Multiset TokenType} {packet : ExecutionPacket}
    (h : Outstanding random s.trapWaiting (consumed+rest) runs pending) (hexited : s.exited=false)
    (hfiring : Firing overrun (trapCode++os) (consumed.map Operand.token) packet) :
    Answers random env s packet rest runs pending := by
  have hinj : Function.Injective Operand.token := fun _ _ h => Operand.token.inj h
  obtain ⟨operands,hoperands⟩ : ∃ operands,operands=consumed.map Operand.token := ⟨_,rfl⟩
  rw [← hoperands] at hfiring
  cases hfiring with
  | both address inst token1 token2 hinst hnone htwo haddress1 haddress2 hinput1 hinput2 htag =>
    have hconsumed : consumed=token1 ::ₘ {token2} := by
      apply Multiset.map_injective hinj
      rw [← hoperands,Multiset.map_cons,Multiset.map_singleton]
      rfl
    rw [hconsumed,Multiset.cons_add,Multiset.singleton_add] at h
    exact h.fire_both overrun os hexited hinst hnone htwo haddress1 haddress2 hinput1 hinput2 htag
  | single address inst token hinst hone haddress =>
    have hconsumed : consumed={token} := by
      apply Multiset.map_injective hinj
      rw [← hoperands,Multiset.map_singleton]
    rw [hconsumed,Multiset.singleton_add] at h
    exact h.fire_single overrun os hexited hinst hone haddress
  | literals address inst packet hinst hready =>
    have hmem : Operand.literals address∈consumed.map Operand.token := by
      rw [← hoperands]
      exact Multiset.mem_singleton_self _
    obtain ⟨token,-,hsame⟩ := Multiset.mem_map.mp hmem
    cases hsame

end Outstanding

end Manchester
