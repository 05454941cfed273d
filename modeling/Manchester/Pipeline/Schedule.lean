import Manchester.Matching.Pairing
import Manchester.Pipeline.Machine

namespace Manchester

open Framework

/-- Some answer of the system: a module that follows the rules does not use it. -/
def fixedEnv : ∀ i : ModuleName,i.Env
  | .instructionStore => ⟨⟨0,0,0⟩,fun _ => none,.clear⟩
  | .inputModule =>
    ⟨fun _ _ => 0,fun _ => none,fun _ _ => false,fun _ => false,fun _ => 0,fun _ _ => 0,
      fun _ => 0,fun _ _ => 0⟩
  | .processingUnit => ⟨⟨⟨0,0,0⟩,⟨0,0,0⟩,0⟩,0,0⟩
  | .ioSwitch => ()
  | .matchingUnit => ()

def respond (c : MachineConfig) (i : ModuleName) (here : i.Local) (x : i.source.Msg) :
    i.Local × List i.Msg :=
  (react c i (fixedEnv i) here x).getD (here,[])

def firstLocal (image : InstructionStore) : ∀ i : ModuleName,i.Local
  | .instructionStore => image
  | .inputModule => ()
  | .processingUnit => .empty
  | .ioSwitch => []
  | .matchingUnit => newTokenWaitingTable sizeMatchingStore fun _ => []

def burst (c : MachineConfig) (image : InstructionStore) : ∀ i : ModuleName,List i.Msg
  | .instructionStore => addReadyInstructions c.overrun image.instructions
  | .inputModule => []
  | .processingUnit => []
  | .ioSwitch => []
  | .matchingUnit => []

/-- All that module i puts for the messages xs. -/
def outputs (c : MachineConfig) (image : InstructionStore) (i : ModuleName)
    (xs : List i.source.Msg) : List i.Msg :=
  burst c image i++(transduce (respond c i) (firstLocal image i) xs).2

/-- A machine before its first step. -/
def firstState (c : MachineConfig) (image : InstructionStore) (cap : Nat) : Machine c cap where
  channel := fun _ => .empty
  locals := firstLocal image
  pending := burst c image

theorem firstState_started (c : MachineConfig) (image : InstructionStore) (cap : Nat) :
    Started c image (firstState c image cap) where
  channel := fun _ => rfl
  process := by
    intro i
    cases i with
    | instructionStore => exact ⟨rfl,rfl⟩
    | inputModule => rfl
    | processingUnit => exact ⟨rfl,rfl⟩
    | ioSwitch => exact ⟨rfl,rfl⟩
    | matchingUnit => exact ⟨⟨_,rfl⟩,rfl⟩

theorem outputs_mono (c : MachineConfig) (image : InstructionStore) (i : ModuleName)
    (xs ys : List i.source.Msg) (h : xs <+: ys) :
    outputs c image i xs <+: outputs c image i ys :=
  (List.prefix_append_right_inj _).mpr (transduce_mono _ _ h)

/-- Up to this state, no opcode that needs the outside has been executed, and the destinations that
were made while running fit their instructions. -/
structure Internal (c : MachineConfig) (image : InstructionStore) {cap : Nat}
    (s : Machine c cap) : Prop where
  opcodes : ∀p∈(s.channel .instructionStore).taken,IsInternal p.opcode
  noLoad : ∀pair∈(s.channel .matchingUnit).taken,∀ inst,
    image.instructions[(destinationToAddress pair.token1.destination).toNat]?=some inst →
      inst.opcode ≠ OpcodeType.LOD.bits
  runTime : ∀t∈(s.channel .ioSwitch).taken,¬IsStatic image.instructions t.destination →
    DestinationFits c.overrun image.instructions t.destination

section Modules

variable {c : MachineConfig} {image : InstructionStore} {cap : Nat} {s : Machine c cap}

theorem runMatchingUnit_eq (t : TokenWaitingTableType) (tokens : List TokenType) :
    runMatchingUnit t tokens=transduce matchToken t tokens := by
  induction tokens generalizing t with
  | nil => rfl
  | cons token tokens ih => simp [runMatchingUnit,transduce,ih]

/-- The matching unit puts the pairs of the reference matcher, whatever its table held. -/
theorem ran_matchingUnit {xs : List TokenType} {here : TokenWaitingTableType}
    {out : List ReadyTokenPairType}
    (h : Network.Ran (N := machine c) (start c image) .matchingUnit xs here out) :
    out=(runReference (fun _ => none) xs).2 := by
  obtain ⟨-,first,burst,⟨⟨stale,hfirst⟩,hburst⟩,-,hout⟩ := h.transduce (P := fun _ => True)
    matchToken (fun _ _ _ => trivial)
    (fun x _ env here r _ hr => ⟨(Option.some.inj hr).symm,trivial⟩)
  rw [hout,hburst,hfirst,← runMatchingUnit_eq,runMatchingUnit_sends _ (by decide)]
  rfl

/-- What the switch lets through is for no output. -/
theorem ran_ioSwitch {xs : List TokenType} {here : List Output} {out : List TokenType}
    (h : Network.Ran (N := machine c) (start c image) .ioSwitch xs here out) :
    ∀t∈out,isSwitchDestination t.destination=false := by
  apply h.forall_out (Q := fun t : TokenType => isSwitchDestination t.destination=false)
  · rintro first burst ⟨-,rfl⟩
    simp
  · intro x _ env here r hr t ht
    obtain rfl := Option.some.inj hr
    unfold switchToken at ht
    split_ifs at ht with hswitch
    · simp at ht
    · simpa [List.mem_singleton.mp ht] using hswitch

/-- Packets of internal opcodes pass the input module. -/
theorem ran_inputModule {xs : List ExecutionPacket} {here : Unit} {out : List ExecutionPacket}
    (h : Network.Ran (N := machine c) (start c image) .inputModule xs here out)
    (hxs : ∀x∈xs,IsInternal x.opcode) : ∀p∈out,IsInternal p.opcode := by
  apply h.forall_out (Q := fun p : ExecutionPacket => IsInternal p.opcode)
  · rintro first burst rfl
    simp
  · intro x hx env here r hr p hp
    obtain rfl := Option.some.inj hr
    rw [inputPacket_internal env x (hxs x hx)] at hp
    rw [List.mem_singleton.mp hp]
    exact hxs x hx

/-- A pair that lacks its second token is one that the unit has passed on. -/
theorem matched_single {tokens : List TokenType} {pair : ReadyTokenPairType}
    (h : pair∈(runReference (fun _ => none) tokens).2) (hnone : pair.token2=none) :
    pair.token1∈tokens ∧ Passes pair.token1 := by
  have hmem : pair∈(runReference (fun _ => none) tokens).2.filter (fun p => p.token2.isNone) :=
    List.mem_filter.mpr ⟨h,by rw [hnone]; rfl⟩
  rw [runReference_passed] at hmem
  obtain ⟨token,htoken,rfl⟩ := List.mem_map.mp hmem
  simpa using List.mem_filter.mp htoken

/-- The store answers a pair that fits without a look at what is unset. -/
theorem storePair_fits (overrun : TableOverrun) (env env' : StoreEnv) (store : InstructionStore)
    (pair : ReadyTokenPairType)
    (hload : ∀ inst,
      store.instructions[(destinationToAddress pair.token1.destination).toNat]?=some inst →
        inst.opcode ≠ OpcodeType.LOD.bits)
    (hfits : pair.token2=none → Passes pair.token1 ∧ ∀ inst,
      store.instructions[(destinationToAddress pair.token1.destination).toNat]?=some inst →
        TargetFits overrun inst (destinationToMatchingFunction pair.token1.destination)) :
    ∃ out,storePair overrun env store pair=some (store,out) ∧
      storePair overrun env' store pair=some (store,out) := by
  cases hinst : store.instructions[(destinationToAddress pair.token1.destination).toNat]? with
  | none => exact ⟨[],storePair_none overrun env hinst,storePair_none overrun env' hinst⟩
  | some inst =>
    rw [storePair_some overrun env hinst (hload inst hinst),
      storePair_some overrun env' hinst (hload inst hinst)]
    cases htoken : pair.token2 with
    | some token2 => exact ⟨_,rfl,rfl⟩
    | none =>
      obtain ⟨hpass,htarget⟩ := hfits htoken
      rw [firePair_single overrun _ inst _ _ (htarget inst hinst) hpass,
        firePair_single overrun _ inst _ _ (htarget inst hinst) hpass]
      exact ⟨_,rfl,rfl⟩

end Modules

section Runs

variable {c : MachineConfig} {image : InstructionStore} {cap : Nat} {s : Machine c cap}

theorem Internal.pairFits (h : Internal c image s) (himage : ImageFits c.overrun image.instructions)
    (hsep : Network.Separate (N := machine c) (start c image) s) {pair : ReadyTokenPairType}
    (hpair : pair∈(s.channel .matchingUnit).taken) (hnone : pair.token2=none) :
    Passes pair.token1 ∧ ∀ inst,
      image.instructions[(destinationToAddress pair.token1.destination).toNat]?=some inst →
        TargetFits c.overrun inst (destinationToMatchingFunction pair.token1.destination) := by
  have hsent : pair∈(s.channel .matchingUnit).sent := List.mem_append_left _ hpair
  have hmatched : pair∈(runReference (fun _ => none) (s.channel .ioSwitch).taken).2 := by
    rw [← ran_matchingUnit (hsep .matchingUnit)]
    exact List.mem_append_left _ hsent
  obtain ⟨htoken,hpass⟩ := matched_single hmatched hnone
  have hswitch : isSwitchDestination pair.token1.destination=false :=
    ran_ioSwitch (hsep .ioSwitch) _ (List.mem_append_left _ (List.mem_append_left _ htoken))
  have hfits := himage.destination (h.runTime pair.token1 htoken)
  exact ⟨hpass,fun inst hinst => hfits.target hswitch hinst⟩

theorem follows_outputs (himage : ImageFits c.overrun image.instructions)
    (hsep : Network.Separate (N := machine c) (start c image) s) (h : Internal c image s) :
    Network.Follows (N := machine c) (outputs c image) s := by
  intro i
  cases i with
  | instructionStore =>
    obtain ⟨-,first,burst,⟨hfirst,hburst⟩,-,hout⟩ := (hsep .instructionStore).transduce
      (P := fun store => store=image) (respond c .instructionStore) (fun _ _ h => h.1) (by
        intro pair hpair env here r hhere hr
        subst hhere
        obtain ⟨out,h1,h2⟩ := storePair_fits c.overrun env (fixedEnv .instructionStore) here pair
          (h.noLoad pair hpair) (h.pairFits himage hsep hpair)
        obtain rfl := Option.some.inj (h1.symm.trans hr)
        refine ⟨?_,rfl⟩
        simp only [respond,react,h2]
        rfl)
    rw [hout,hfirst,hburst]
    rfl
  | inputModule =>
    obtain ⟨-,first,burst,hburst,-,hout⟩ := (hsep .inputModule).transduce
      (P := fun _ => True) (respond c .inputModule) (fun _ _ _ => trivial) (by
        intro packet hpacket env here r _ hr
        obtain rfl := Option.some.inj hr
        refine ⟨?_,trivial⟩
        simp only [respond,react,Option.getD_some,
          inputPacket_internal _ packet (h.opcodes packet hpacket)])
    rw [hout,hburst]
    rfl
  | processingUnit =>
    have hinternal : ∀p∈(s.channel .inputModule).taken,IsInternal p.opcode := by
      intro p hp
      exact ran_inputModule (hsep .inputModule) h.opcodes p
        (List.mem_append_left _ (List.mem_append_left _ hp))
    obtain ⟨-,first,burst,⟨hfirst,hburst⟩,-,hout⟩ := (hsep .processingUnit).transduce
      (P := fun _ => True) (respond c .processingUnit) (fun _ _ _ => trivial) (by
        intro packet hpacket env here r _ hr
        refine ⟨?_,trivial⟩
        have hsame := processPacket_internal c.trapFlag c.random here packet
          (hinternal packet hpacket) env (fixedEnv .processingUnit)
        change processPacket c.trapFlag c.random env here packet=some r at hr
        rw [hsame] at hr
        simp only [respond,react,hr]
        rfl)
    rw [hout,hfirst,hburst]
    rfl
  | ioSwitch =>
    obtain ⟨-,first,burst,⟨hfirst,hburst⟩,-,hout⟩ := (hsep .ioSwitch).transduce
      (P := fun _ => True) (respond c .ioSwitch) (fun _ _ _ => trivial)
      (fun _ _ _ _ _ _ hr => ⟨(Option.some.inj hr).symm,trivial⟩)
    rw [hout,hfirst,hburst]
    rfl
  | matchingUnit =>
    rw [ran_matchingUnit (hsep .matchingUnit),outputs]
    change _=[]++(transduce matchToken (newTokenWaitingTable sizeMatchingStore fun _ => []) _).2
    rw [← runMatchingUnit_eq,runMatchingUnit_sends _ (by decide)]
    rfl

theorem Internal.before {t : Machine c cap} (h : Internal c image t)
    (hs : Network.Step (N := machine c) s t) : Internal c image s where
  opcodes := fun p hp => h.opcodes p ((hs.taken_mono .instructionStore).subset hp)
  noLoad := fun pair hp => h.noLoad pair ((hs.taken_mono .matchingUnit).subset hp)
  runTime := fun token ht => h.runTime token ((hs.taken_mono .ioSwitch).subset ht)

/-- A state that a run of the machine reaches. -/
abbrev Reached (c : MachineConfig) (image : InstructionStore) (s : Machine c cap) : Prop :=
  Transition.Reachable (Started c image) (Network.Step (N := machine c)) s

theorem Reached.follows (hr : Reached c image s) (himage : ImageFits c.overrun image.instructions)
    (h : Internal c image s) : Network.Follows (N := machine c) (outputs c image) s :=
  follows_outputs himage (Network.Reachable.separate hr) h

theorem Reached.run_follows (hr : Reached c image s)
    (himage : ImageFits c.overrun image.instructions) (h : Internal c image s) :
    Transition.Reachable (Started c image)
      (fun a b => Network.Step (N := machine c) a b ∧
        Network.Follows (N := machine c) (outputs c image) b) s := by
  induction hr with
  | start h0 => exact .start h0
  | next hr hs ih =>
    have hfollows := Reached.follows (.next hr hs) himage h
    exact .next (ih (h.before hs)) ⟨hs,hfollows⟩

theorem printed_eq (behind : List UInt8) (printed : List Output) (tokens : List TokenType) :
    (transduce (switchToken behind) printed tokens).1=
      printed++tokens.flatMap fun t => (printToken behind t).toList := by
  induction tokens generalizing printed with
  | nil => simp [transduce]
  | cons token tokens ih => simp [transduce,switchToken,ih]

/-- What has been printed is what the tokens for the outputs print, one after the other. -/
theorem Reached.printed (hr : Reached c image s) :
    s.locals .ioSwitch=
      (s.channel .processingUnit).taken.flatMap fun t => (printToken c.behind t).toList := by
  obtain ⟨-,first,burst,⟨hfirst,-⟩,hlocal,-⟩ := (Network.Reachable.separate hr .ioSwitch).transduce
    (P := fun _ => True) (switchToken c.behind) (fun _ _ _ => trivial)
    (fun _ _ _ _ _ _ hr => ⟨(Option.some.inj hr).symm,trivial⟩)
  rw [hlocal,hfirst,printed_eq]
  rfl

/-- Two runs of one image, with any interleaving of the modules and queues of any capacities, put
the same elements into each queue and print the same outputs, as far as both have come. -/
theorem schedule_independent (c : MachineConfig) (image : InstructionStore)
    (himage : ImageFits c.overrun image.instructions) {cap cap' : Nat} (s : Machine c cap)
    (t : Machine c cap') (hs : Reached c image s) (ht : Reached c image t)
    (hinternal : Internal c image s) (hinternal' : Internal c image t) :
    (∀ i,Network.Comparable (s.channel i).sent (t.channel i).sent) ∧
      Network.Comparable (s.locals .ioSwitch) (t.locals .ioSwitch) := by
  have hqueues : ∀ i,Network.Comparable (s.channel i).sent (t.channel i).sent := fun i =>
    Network.histories_comparable (outputs_mono c image) (ht.follows himage hinternal')
      (hs.run_follows himage hinternal) i
  refine ⟨hqueues,?_⟩
  rw [hs.printed,ht.printed]
  have htaken := (hqueues .processingUnit).of_prefixes (Channel.taken_prefix _)
    (Channel.taken_prefix _)
  apply htaken.mono (f := fun tokens => tokens.flatMap fun t => (printToken c.behind t).toList)
  rintro xs ys ⟨rest,rfl⟩
  exact ⟨_,(List.flatMap_append).symm⟩

end Runs

def quietConfig : MachineConfig := ⟨false,fun _ => 0,fun _ => 0,[]⟩

def duplicate (data : DataType) (destination : DestinationType) : Instruction :=
  ⟨OpcodeType.DUP.bits,destination,devNullDestination,oneOutputMarker,data,0,
    InstructionLiteralType.ONE.bits⟩

def addition : Instruction :=
  ⟨OpcodeType.ADD.bits,outputdDestination,devNullDestination,oneOutputMarker,0,0,
    InstructionLiteralType.NONE.bits⟩

/-- x = DUP 5 / y = DUP 7 / z = ADD x y / OUTD z -/
def addTwo : InstructionStore :=
  ⟨[duplicate 5 (createDestination 2 inputOne matchingBoth),
    duplicate 7 (createDestination 2 inputTwo matchingBoth),addition],[]⟩

def leftPacket : ExecutionPacket :=
  makePacket 0 (duplicate 5 (createDestination 2 inputOne matchingBoth)) 5 0 noTag

def rightPacket : ExecutionPacket :=
  makePacket 1 (duplicate 7 (createDestination 2 inputTwo matchingBoth)) 7 0 noTag

def leftOperand : TokenType := ⟨createDestination 2 inputOne matchingBoth,5,noTag⟩

def rightOperand : TokenType := ⟨createDestination 2 inputTwo matchingBoth,7,noTag⟩

theorem addTwo_fits : ImageFits quietConfig.overrun addTwo.instructions := by
  have hport : ∀ d : DestinationType,(destinationToAddress d).toNat=2 →
      destinationToMatchingFunction d=matchingBoth →
      DestinationFits quietConfig.overrun addTwo.instructions d := by
    intro d haddress hmatching
    right
    intro inst hinst
    rw [haddress] at hinst
    obtain rfl := Option.some.inj hinst
    exact Or.inr (Or.inr ⟨hmatching,rfl,rfl⟩)
  have hnull : DestinationFits quietConfig.overrun addTwo.instructions devNullDestination :=
    Or.inl (by decide)
  intro d ⟨inst,hinst,hd⟩
  have hinst : inst∈[_,_,_] := hinst
  simp only [List.mem_cons,List.not_mem_nil,or_false] at hinst
  obtain rfl | rfl | rfl := hinst
  · obtain rfl | rfl := hd
    · exact hport _ (by decide) (by decide)
    · exact hnull
  · obtain rfl | rfl := hd
    · exact hport _ (by decide) (by decide)
    · exact hnull
  · obtain rfl | rfl := hd
    · exact Or.inl (by decide)
    · exact hnull

private def sumPacket : ExecutionPacket := makePacket 2 addition 5 7 noTag

private def sumToken : TokenType := ⟨outputdDestination,12,noTag⟩

private def operandPair : ReadyTokenPairType := ⟨leftOperand,some rightOperand⟩

/-- The first operand waits in the table for the second. -/
private theorem operands_meet (stale : Nat → List TableListType) : ∃ waiting after,
    matchToken (newTokenWaitingTable sizeMatchingStore stale) leftOperand=(waiting,[]) ∧
      matchToken waiting rightOperand=(after,[operandPair]) := by
  generalize htable : newTokenWaitingTable sizeMatchingStore stale=table
  have hone := runMatchingUnit_sends sizeMatchingStore (by decide) stale [leftOperand]
  have hboth := runMatchingUnit_sends sizeMatchingStore (by decide) stale
    [leftOperand,rightOperand]
  have hwaits : (runReference (fun _ => none) [leftOperand]).2=[] := rfl
  have hmeets : (runReference (fun _ => none) [leftOperand,rightOperand]).2=[operandPair] := rfl
  rw [htable,hwaits] at hone
  rw [htable,hmeets] at hboth
  simp only [runMatchingUnit,List.append_nil] at hone hboth
  rw [hone,List.nil_append] at hboth
  exact ⟨_,_,Prod.ext rfl hone,Prod.ext rfl hboth⟩

private theorem addTwo_internal {s : Machine quietConfig cap}
    (hpackets : (s.channel .instructionStore).taken ⊆ [leftPacket,rightPacket,sumPacket])
    (hpairs : (s.channel .matchingUnit).taken ⊆ [operandPair])
    (htokens : (s.channel .ioSwitch).taken ⊆ [leftOperand,rightOperand]) :
    Internal quietConfig addTwo s where
  opcodes := by
    intro p hp
    have hp := hpackets hp
    simp only [List.mem_cons,List.not_mem_nil,or_false] at hp
    obtain rfl | rfl | rfl := hp
    · exact ⟨.DUP,rfl,rfl⟩
    · exact ⟨.DUP,rfl,rfl⟩
    · exact ⟨.ADD,rfl,rfl⟩
  noLoad := by
    intro pair hpair inst hinst
    obtain rfl := List.mem_singleton.mp (hpairs hpair)
    obtain rfl := Option.some.inj hinst
    decide
  runTime := by
    intro t ht hstatic
    have ht := htokens ht
    simp only [List.mem_cons,List.not_mem_nil,or_false] at ht
    obtain rfl | rfl := ht
    · exact absurd ⟨_,List.mem_cons_self,Or.inl rfl⟩ hstatic
    · exact absurd ⟨_,List.mem_cons_of_mem _ List.mem_cons_self,Or.inl rfl⟩ hstatic

/-- One run stops when the first operand has been made, the other when the sum is printed. -/
theorem schedule_independent_print :
    ∃ (s : Machine quietConfig 1) (t : Machine quietConfig 1024),
      (s.channel .processingUnit).sent=[leftOperand] ∧ t.locals .ioSwitch=[.decimal 12] ∧
        (∀ i,Network.Comparable (s.channel i).sent (t.channel i).sent) ∧
          Network.Comparable (s.locals .ioSwitch) (t.locals .ioSwitch) := by
  have first : Reached quietConfig addTwo (firstState quietConfig addTwo 1) :=
    .start (firstState_started _ _ _)
  have put := first.next (.put _ .instructionStore leftPacket [rightPacket] rfl (by decide))
  have read := put.next (.take _ .inputModule (fixedEnv .inputModule) leftPacket [] ()
    [leftPacket] rfl rfl rfl)
  have passed := read.next (.put _ .inputModule leftPacket [] rfl (by decide))
  have fired := passed.next (.take _ .processingUnit (fixedEnv .processingUnit) leftPacket []
    ProcessingState.empty [leftOperand] rfl rfl rfl)
  have half := fired.next (.put _ .processingUnit leftOperand [] rfl (by decide))
  obtain ⟨waiting,after,hleft,hright⟩ := operands_meet fun _ => []
  have first : Reached quietConfig addTwo (firstState quietConfig addTwo 1024) :=
    .start (firstState_started _ _ _)
  have left := first.next (.put _ .instructionStore leftPacket [rightPacket] rfl (by decide))
  have right := left.next (.put _ .instructionStore rightPacket [] rfl (by decide))
  have read := right.next (.take _ .inputModule (fixedEnv .inputModule) leftPacket [rightPacket] ()
    [leftPacket] rfl rfl rfl)
  have passed := read.next (.put _ .inputModule leftPacket [] rfl (by decide))
  have read := passed.next (.take _ .inputModule (fixedEnv .inputModule) rightPacket [] ()
    [rightPacket] rfl rfl rfl)
  have passed := read.next (.put _ .inputModule rightPacket [] rfl (by decide))
  have fired := passed.next (.take _ .processingUnit (fixedEnv .processingUnit) leftPacket
    [rightPacket] ProcessingState.empty [leftOperand] rfl rfl rfl)
  have sent := fired.next (.put _ .processingUnit leftOperand [] rfl (by decide))
  have fired := sent.next (.take _ .processingUnit (fixedEnv .processingUnit) rightPacket []
    ProcessingState.empty [rightOperand] rfl rfl rfl)
  have sent := fired.next (.put _ .processingUnit rightOperand [] rfl (by decide))
  have switched := sent.next (.take _ .ioSwitch () leftOperand [rightOperand] [] [leftOperand]
    rfl rfl rfl)
  have through := switched.next (.put _ .ioSwitch leftOperand [] rfl (by decide))
  have switched := through.next (.take _ .ioSwitch () rightOperand [] [] [rightOperand]
    rfl rfl rfl)
  have through := switched.next (.put _ .ioSwitch rightOperand [] rfl (by decide))
  have waits := through.next (.take _ .matchingUnit () leftOperand [rightOperand] waiting [] rfl rfl
    (by exact congrArg some hleft))
  have paired := waits.next (.take _ .matchingUnit () rightOperand [] after [operandPair] rfl rfl
    (by exact congrArg some hright))
  have hroom : 0 < 1024 := by decide
  have sent := paired.next (.put _ .matchingUnit operandPair [] rfl hroom)
  have ready := sent.next (.take _ .instructionStore (fixedEnv .instructionStore) operandPair []
    addTwo [sumPacket] rfl rfl rfl)
  have put := ready.next (.put _ .instructionStore sumPacket [] rfl hroom)
  have read := put.next (.take _ .inputModule (fixedEnv .inputModule) sumPacket [] ()
    [sumPacket] rfl rfl rfl)
  have passed := read.next (.put _ .inputModule sumPacket [] rfl hroom)
  have fired := passed.next (.take _ .processingUnit (fixedEnv .processingUnit) sumPacket []
    ProcessingState.empty [sumToken] rfl rfl rfl)
  have result := fired.next (.put _ .processingUnit sumToken [] rfl hroom)
  have printed := result.next (.take _ .ioSwitch () sumToken [] [.decimal 12] [] rfl rfl rfl)
  refine ⟨_,_,?_,?_,schedule_independent quietConfig addTwo addTwo_fits _ _ half printed
    (addTwo_internal (by decide) (by decide) (by decide))
    (addTwo_internal (List.Subset.refl [leftPacket,rightPacket,sumPacket])
      (List.Subset.refl [operandPair]) (List.Subset.refl [leftOperand,rightOperand]))⟩
  · rfl
  · rfl

end Manchester
