import Manchester.Dataflow.Tame

namespace Manchester

open Framework

theorem isSwitchDestination_matching {d : DestinationType} (h : isSwitchDestination d=true) :
    destinationToMatchingFunction d=matchingOne ∧ ¬(destinationToAddress d).toNat < 2^28-5 := by
  simp only [isSwitchDestination,Bool.or_eq_true,beq_iff_eq] at h
  obtain (((rfl | rfl) | rfl) | rfl) | rfl := h <;> decide

theorem Pairs.not_switch {t : TokenType} (h : Pairs t) :
    isSwitchDestination t.destination=false := by
  by_contra hswitch
  obtain ⟨hone,-⟩ := isSwitchDestination_matching (Bool.eq_true_of_not_eq_false hswitch)
  exact h.not_passes (Or.inl hone)

theorem printToken_switch {behind : List UInt8} {t : TokenType}
    (h : isSwitchDestination t.destination=false) : printToken behind t=none := by
  simp only [isSwitchDestination,Bool.or_eq_false_iff,beq_eq_false_iff_ne] at h
  rw [printToken,if_neg h.1.1.1.1,if_neg h.1.1.1.2]

/-- What holds of all tokens that come in and of those that wait holds of those that are sent on. -/
theorem runReference_tokens {Q : TokenType → Prop} (tokens : List TokenType) (w : WaitingMap)
    (hwaiting : ∀ key t,w key=some t → Q t) (htokens : ∀t∈tokens,Q t) :
    ∀pair∈(runReference w tokens).2,∀t∈pair.tokens,Q t := by
  induction tokens generalizing w with
  | nil => simp [runReference]
  | cons token tokens ih =>
    have htoken := htokens token List.mem_cons_self
    have hupdate : ∀ v : Option TokenType,(∀ t,v=some t → Q t) →
        ∀ key t,Function.update w (tokenToKey token) v key=some t → Q t := by
      intro v hv key t ht
      by_cases hkey : key=tokenToKey token
      · rw [hkey,Function.update_self] at ht
        exact hv t ht
      · rw [Function.update_of_ne hkey] at ht
        exact hwaiting key t ht
    have hround : (∀ key t,(matchReference w token).1 key=some t → Q t) ∧
        ∀pair∈(matchReference w token).2,∀t∈pair.tokens,Q t := by
      unfold matchReference
      split_ifs with hpass hpair
      · simpa [ReadyTokenPairType.tokens,htoken] using hwaiting
      · cases hfound : w (tokenToKey token) with
        | none =>
          refine ⟨hupdate (some token) fun t ht => ?_,by simp⟩
          rwa [← Option.some.inj ht]
        | some found =>
          refine ⟨hupdate none fun t ht => ?_,fun pair hmem t ht => ?_⟩
          · cases ht
          · have hheld :
                t∈(↑(readyTokenPairFromTokens token found).tokens : Multiset TokenType) := by
              rw [← List.mem_singleton.mp hmem]
              exact Multiset.mem_coe.mpr ht
            rw [readyTokenPair_held,Multiset.mem_add,Multiset.mem_singleton,
              Multiset.mem_singleton] at hheld
            obtain rfl | rfl := hheld
            · exact htoken
            · exact hwaiting _ t hfound
      · exact ⟨hwaiting,by simp⟩
    intro pair hmem
    rw [runReference] at hmem
    obtain hmem | hmem := List.mem_append.mp hmem
    · exact hround.2 pair hmem
    · exact ih _ hround.1 (fun t ht => htokens t (List.mem_cons_of_mem _ ht)) pair hmem

theorem TokenWaitingTableType.Valid.waiting_find {table : TokenWaitingTableType} (h : table.Valid) :
    ∃ find : KeyType → Option TokenType,∀t∈table.waiting,Pairs t ∧ find (tokenToKey t)=some t := by
  obtain ⟨size,b,hrep,hown⟩ := h
  refine ⟨b.find,fun t ht => ?_⟩
  rw [TokenWaitingTableType.waiting,hrep.entries,Multiset.mem_coe] at ht
  obtain ⟨⟨key,u⟩,hmem,rfl⟩ := List.mem_map.mp ht
  have hfind := (b.mem_entries_iff key u).mp hmem
  obtain ⟨hpairs,hkey⟩ := hown key u hfind
  exact ⟨hpairs,hkey ▸ hfind⟩

section States

variable {c : MachineConfig} {image : InstructionStore} {cap : Nat} {s : Machine c cap}
  {a : Dataflow}

/-- The outputs are those of the tokens that have left. -/
theorem Reached.printed_gone (hr : Reached c image s) (instructions : List Instruction) :
    (↑(s.locals .ioSwitch) : Multiset Output)=
      (goneTokens instructions s).filterMap (printToken c.behind) := by
  have hsep := Network.Reachable.separate hr
  have hswitched : ∀t∈(s.channel .ioSwitch).taken,isSwitchDestination t.destination=false :=
    fun t ht => ran_ioSwitch (hsep .ioSwitch) t (List.mem_append_left _ (List.mem_append_left _ ht))
  have hpairs : ∀pair∈(s.channel .matchingUnit).taken,∀t∈pair.tokens,
      isSwitchDestination t.destination=false := by
    intro pair hpair
    have hsent : pair∈(runReference (fun _ => none) (s.channel .ioSwitch).taken).2 := by
      rw [← ran_matchingUnit (hsep .matchingUnit)]
      exact List.mem_append_left _ (List.mem_append_left _ hpair)
    exact runReference_tokens _ _ (by simp) hswitched pair hsent
  have hnone : ∀ l : List TokenType,(∀t∈l,isSwitchDestination t.destination=false) →
      (↑l : Multiset TokenType).filterMap (printToken c.behind)=0 := by
    intro l hl
    rw [Multiset.filterMap_coe,
      List.filterMap_eq_nil_iff.mpr fun t ht => printToken_switch (hl t ht)]
    rfl
  have hkept : ∀ l : List TokenType,(l.filter fun t => isSwitchDestination t.destination).filterMap
      (printToken c.behind)=l.filterMap (printToken c.behind) := by
    intro l
    rw [List.filterMap_filter]
    refine List.filterMap_congr fun t _ => ?_
    split_ifs with hswitch
    · rfl
    · exact (printToken_switch (Bool.eq_false_of_not_eq_true hswitch)).symm
  rw [goneTokens,Multiset.filterMap_add,Multiset.filterMap_add,
    hnone ((s.channel .ioSwitch).taken.filter _)
      fun t ht => hswitched t (List.mem_of_mem_filter ht),
    hnone (List.flatMap _ _) fun t ht => ?_,add_zero,add_zero,Multiset.filterMap_coe,hkept,
    hr.printed,List.filterMap_eq_flatMap_toList]
  obtain ⟨pair,hpair,ht⟩ := List.mem_flatMap.mp ht
  exact hpairs pair (List.mem_of_mem_filter hpair) t ht

theorem filterMap_tokens (behind : List UInt8) (tokens : Multiset TokenType) :
    (tokens.map Operand.token).filterMap (Operand.printed behind)=
      tokens.filterMap (printToken behind) := by
  rw [Multiset.filterMap_map]
  rfl

/-- Nothing has been printed but what the dataflow machine prints. -/
theorem StandsFor.printed_le (h : StandsFor c image s a) (hr : Reached c image s) :
    (↑(s.locals .ioSwitch) : Multiset Output) ≤ a.printed c.behind := by
  obtain ⟨consumed,-,hops⟩ := h.corresponds.operands
  rw [hr.printed_gone image.instructions,← filterMap_tokens,Dataflow.printed,hops]
  apply Multiset.filterMap_le_filterMap
  rw [Multiset.map_add,add_assoc,add_left_comm]
  exact Multiset.le_add_right _ _

/-- Where no message is left, the tokens are those that wait and those that have left. -/
theorem Corresponds.at_rest (h : Corresponds c image s a) (hrest : ∀ i,s.held i=0) :
    a.operands=
      ((s.locals .matchingUnit).waiting+goneTokens image.instructions s).map Operand.token := by
  obtain ⟨consumed,hrel,hops⟩ := h.operands
  have hpackets : heldPackets s=0 := by
    rw [heldPackets,hrest,hrest]
    rfl
  have htokens : heldTokens s=(s.locals .matchingUnit).waiting := by
    simp only [heldTokens,hrest,zero_add,Multiset.zero_bind,add_zero]
  rw [hpackets,Multiset.rel_zero_left] at hrel
  rw [hops,hrel,htokens,Multiset.sum_zero,add_zero]

/-- Then everything has been printed. -/
theorem StandsFor.printed_eq (h : StandsFor c image s a) (hr : Reached c image s)
    (hrest : ∀ i,s.held i=0) : (↑(s.locals .ioSwitch) : Multiset Output)=a.printed c.behind := by
  obtain ⟨find,hwaiting⟩ := h.inv.table.waiting_find
  have hnone : (s.locals .matchingUnit).waiting.filterMap (printToken c.behind)=0 := by
    rw [Multiset.filterMap_eq_bind]
    refine (Multiset.bind_congr fun t ht => ?_).trans (Multiset.bind_zero _)
    rw [printToken_switch (hwaiting t ht).1.not_switch]
    rfl
  rw [hr.printed_gone image.instructions,Dataflow.printed,h.corresponds.at_rest hrest,
    filterMap_tokens,Multiset.filterMap_add,hnone,zero_add]

/-- And no instruction of the dataflow machine can fire. -/
theorem StandsFor.stuck {random : RandomStream} (h : StandsFor c image s a)
    (himage : TameImage c.overrun c.random image.instructions) (hrest : ∀ i,s.held i=0) :
    ¬∃ b,Dataflow.Step c.overrun random image.instructions a b := by
  have hops := h.corresponds.at_rest hrest
  have htame := himage.tame a h.reached
  obtain ⟨find,hwaiting⟩ := h.inv.table.waiting_find
  -- a token for an instruction waits for its partner
  have hwaits : ∀ t inst,Operand.token t∈a.operands →
      image.instructions[(destinationToAddress t.destination).toNat]?=some inst →
      t∈(s.locals .matchingUnit).waiting ∧ TargetFits c.overrun inst matchingBoth := by
    intro t inst ht hinst
    have hlt := (List.getElem?_eq_some_iff.mp hinst).1
    have hroom := himage.room
    have hswitch : isSwitchDestination t.destination=false := by
      by_contra hswitch
      have haddress := (isSwitchDestination_matching (Bool.eq_true_of_not_eq_false hswitch)).2
      omega
    have hmem : t∈(s.locals .matchingUnit).waiting+goneTokens image.instructions s := by
      rw [hops] at ht
      obtain ⟨u,hu,heq⟩ := Multiset.mem_map.mp ht
      rwa [← Operand.token.inj heq]
    obtain hmem | hmem := Multiset.mem_add.mp hmem
    · have hfit := (htame.fits t ht).target hswitch hinst
      rw [show destinationToMatchingFunction t.destination=matchingBoth from (hwaiting t hmem).1]
        at hfit
      exact ⟨hmem,hfit⟩
    · obtain hswitch' | hnone := h.inv.gone t hmem
      · rw [hswitch] at hswitch'
        cases hswitch'
      · cases hnone.symm.trans hinst
  rintro ⟨b,hstep⟩
  cases hstep with
  | fire consumed rest calls packet env hfiring =>
    cases hfiring with
    | both place inst token1 token2 hinst hnone htwo hplace1 hplace2 hinput1 hinput2 htag =>
      obtain ⟨hmem1,-⟩ := hwaits token1 inst (by simp) (hplace1 ▸ hinst)
      obtain ⟨hmem2,-⟩ := hwaits token2 inst (by simp) (hplace2 ▸ hinst)
      have hkey : tokenToKey token1=tokenToKey token2 := by
        have haddress := BitVec.eq_of_toNat_eq (hplace1.trans hplace2.symm)
        rw [tokenToKey,tokenToKey,htag,haddress]
      have hfound := (hwaiting token1 hmem1).2
      rw [hkey] at hfound
      obtain rfl := Option.some.inj (hfound.symm.trans (hwaiting token2 hmem2).2)
      exact absurd (hinput1.symm.trans hinput2) (by decide)
    | single place inst token hinst hone hplace =>
      obtain ⟨-,hfit⟩ := hwaits token inst (by simp) (hplace ▸ hinst)
      obtain ⟨hnone,htwo⟩ := hfit.both
      obtain hone | hone := hone
      · rw [hnone] at hone
        exact absurd hone (by decide)
      · omega
    | literals place inst packet hinst hready =>
      have hmem : Operand.literals place∈({Operand.literals place}+rest : Multiset Operand) := by
        simp
      change {Operand.literals place}+rest=_ at hops
      rw [hops] at hmem
      obtain ⟨t,-,heq⟩ := Multiset.mem_map.mp hmem
      cases heq

/-- Every module has an answer to each message that is on its way to it. -/
theorem StandsFor.answers {random : RandomStream} (h : StandsFor c image s a)
    (himage : TameImage c.overrun random image.instructions) (i : ModuleName) (x : i.source.Msg) :
    ∃ env r,react c i env (s.locals i) x=some r := by
  refine ⟨fixedEnv i,?_⟩
  cases i with
  | instructionStore =>
    change ∃ r,storePair c.overrun _ (s.locals .instructionStore) x=some r
    rw [h.inv.store]
    cases hinst : image.instructions[(destinationToAddress x.token1.destination).toNat]? with
    | none => exact ⟨_,storePair_none c.overrun _ hinst⟩
    | some inst =>
      have hload := (himage.internal inst (List.mem_of_getElem? hinst)).noLoad
      exact ⟨_,storePair_some c.overrun _ hinst hload⟩
  | processingUnit =>
    change ∃ r,processPacket _ _ _ (s.locals .processingUnit) x=some r
    unfold processPacket
    rw [h.running]
    cases functionUnit (fixedEnv .processingUnit) c.random (s.locals .processingUnit).calls x with
    | none => exact ⟨_,rfl⟩
    | some result => exact ⟨_,rfl⟩
  | inputModule | ioSwitch | matchingUnit => exact ⟨_,rfl⟩

end States

/-- The rounds that a message of the module is away from the processing unit. -/
def roundsAway : ModuleName → Nat
  | .processingUnit => 4
  | .ioSwitch => 3
  | .matchingUnit => 2
  | .instructionStore => 1
  | .inputModule => 0

section Runs

variable {c : MachineConfig} {image : InstructionStore} {cap : Nat}

theorem TameImage.simulates (himage : TameImage c.overrun c.random image.instructions)
    (htrap : c.trapFlag=false) :
    Transition.RankedSimulation
      (Network.Step (N := machine c) : Machine c cap → Machine c cap → Prop)
      (Dataflow.Step c.overrun c.random image.instructions)
      fun s a n => StandsFor c image s a ∧ n=Network.distance roundsAway s := by
  apply Network.rankedSimulation .processingUnit (source_ne c) roundsAway
  · intro i hi
    cases i <;> first | rfl | exact absurd rfl hi
  · exact fun s t a h ht => h.delivered ht
  · exact fun s t a i env x new out hi h hreact ht => h.round himage hi hreact ht
  · exact fun s t a env x new out h hreact ht => h.work himage htrap hreact ht

theorem Reached.exists_standsFor {s : Machine c cap} (hr : Reached c image s)
    (himage : TameImage c.overrun c.random image.instructions) (htrap : c.trapFlag=false) :
    ∃ a,StandsFor c image s a := by
  obtain ⟨a,n,-,h,-⟩ := (himage.simulates htrap).reachable
    (fun s hs => ⟨_,_,rfl,Started.standsFor hs,rfl⟩) hr
  exact ⟨a,h⟩

theorem TameImage.run_ends (himage : TameImage c.overrun c.random image.instructions)
    (htrap : c.trapFlag=false)
    (hends : ∀ run : Nat → Dataflow,run 0=Dataflow.start c.overrun image.instructions →
      ¬∀ n,Dataflow.Step c.overrun c.random image.instructions (run n) (run (n+1)))
    (run : Nat → Machine c cap) (hstart : Started c image (run 0)) :
    ¬∀ n,Network.Step (N := machine c) (run n) (run (n+1)) :=
  (himage.simulates htrap).run_ends ⟨Started.standsFor hstart,rfl⟩ hends run rfl

/-- A pipeline that cannot go on is deadlocked or has done all that the dataflow machine does. -/
theorem StandsFor.finished {s : Machine c cap} {a : Dataflow} (h : StandsFor c image s a)
    (hr : Reached c image s) (himage : TameImage c.overrun c.random image.instructions)
    (hfinal : ¬∃ t,Network.Step (N := machine c) s t) :
    Network.Deadlocked s ∨ (¬∃ b,Dataflow.Step c.overrun c.random image.instructions a b) ∧
      (↑(s.locals .ioSwitch) : Multiset Output)=a.printed c.behind := by
  obtain hdead | hidle := Network.deadlocked_or_idle (fun i x _ => h.answers himage i x) hfinal
  · exact Or.inl hdead
  · have hrest := Network.held_idle hidle
    exact Or.inr ⟨h.stuck himage hrest,h.printed_eq hr hrest⟩

/-- The five modules do what the dataflow machine does, whatever their interleaving and whatever the
capacity of the queues. They go on for ever only where it can. In every state they have printed a
part of what it prints on a run of its own, and when they come to a stop that is no deadlock they
have printed all that it prints on a run to its end. -/
theorem pipeline_implements_dataflow (c : MachineConfig) (image : InstructionStore) (cap : Nat)
    (htrap : c.trapFlag=false) (himage : TameImage c.overrun c.random image.instructions) :
    let Step := Dataflow.Step c.overrun c.random image.instructions
    let start := Dataflow.start c.overrun image.instructions
    ((∀ run : Nat → Dataflow,run 0=start → ¬∀ n,Step (run n) (run (n+1))) →
      ∀ run : Nat → Machine c cap,Started c image (run 0) →
        ¬∀ n,Network.Step (N := machine c) (run n) (run (n+1))) ∧
    ∀ s : Machine c cap,Reached c image s → ∃ a,Transition.Reachable (· = start) Step a ∧
      (↑(s.locals .ioSwitch) : Multiset Output) ≤ a.printed c.behind ∧
      ((¬∃ t,Network.Step (N := machine c) s t) → Network.Deadlocked s ∨
        (¬∃ b,Step a b) ∧ (↑(s.locals .ioSwitch) : Multiset Output)=a.printed c.behind) := by
  intro Step start
  refine ⟨himage.run_ends htrap,fun s hr => ?_⟩
  obtain ⟨a,h⟩ := hr.exists_standsFor himage htrap
  exact ⟨a,h.reached,h.printed_le hr,h.finished hr himage⟩

end Runs

private def doubleFive : Instruction :=
  ⟨OpcodeType.DUP.bits,createDestination 1 inputOne matchingBoth,
    createDestination 1 inputTwo matchingBoth,bothOutputMarker,5,0,InstructionLiteralType.ONE.bits⟩

/-- x = DUP 5 / y = ADD x x / OUTD y -/
private def addTwice : InstructionStore := ⟨[doubleFive,addition],[]⟩

private def firstFive : TokenType := ⟨createDestination 1 inputOne matchingBoth,5,noTag⟩

private def secondFive : TokenType := ⟨createDestination 1 inputTwo matchingBoth,5,noTag⟩

private def tenToken : TokenType := ⟨outputdDestination,10,noTag⟩

/-- The states of the image, in order. -/
private def addTwiceStates : List (Multiset Operand) :=
  [{.literals 0},.token firstFive::ₘ{.token secondFive},{.token tenToken}]

private theorem singleton_split {x y : Operand} {rest : Multiset Operand} (h : {x}+rest={y}) :
    x=y ∧ rest=0 := by
  have hx : x∈({y} : Multiset Operand) := by
    rw [← h]
    simp
  obtain rfl := Multiset.mem_singleton.mp hx
  exact ⟨rfl,add_eq_left.mp h⟩

/-- The operands of the sum are for the ADD. -/
private theorem five_target {t : TokenType} {place : Nat} {inst : Instruction}
    (ht : Operand.token t∈Operand.token firstFive::ₘ{.token secondFive})
    (hplace : (destinationToAddress t.destination).toNat=place)
    (hinst : addTwice.instructions[place]?=some inst) :
    (t=firstFive ∨ t=secondFive) ∧ place=1 ∧ inst=addition := by
  have hcases : t=firstFive ∨ t=secondFive := by
    obtain h | h := Multiset.mem_cons.mp ht
    · exact Or.inl (Operand.token.inj h)
    · exact Or.inr (Operand.token.inj (Multiset.mem_singleton.mp h))
  obtain rfl : 1=place := by
    obtain rfl | rfl := hcases <;> exact hplace
  exact ⟨hcases,rfl,(Option.some.inj hinst).symm⟩

/-- The state in which the image prints cannot go on. -/
private theorem ten_stays {place : Nat} {inst : Instruction}
    (hplace : (destinationToAddress tenToken.destination).toNat=place)
    (hinst : addTwice.instructions[place]?=some inst) : False := by
  subst hplace
  cases hinst

private theorem addTwice_step {a b : Dataflow} {k : Nat} {x : Multiset Operand}
    (hx : addTwiceStates[k]?=some x) (ha : a.operands=x)
    (hs : Dataflow.Step (fun _ => 0) (fun _ => 0) addTwice.instructions a b) :
    ∃ y,addTwiceStates[k+1]?=some y ∧ b.operands=y := by
  have hk : k < 3 := (List.getElem?_eq_some_iff.mp hx).1
  cases hs with
  | fire consumed rest calls packet env hfiring =>
    change consumed+rest=x at ha
    interval_cases k
    · obtain rfl := Option.some.inj hx
      cases hfiring with
      | both place inst token1 token2 =>
        have hcard := congrArg Multiset.card ha
        simp at hcard
      | single place inst token => cases (singleton_split ha).1
      | literals place inst packet hinst hready =>
        obtain ⟨hplace,rfl⟩ := singleton_split ha
        obtain rfl := Operand.literals.inj hplace
        obtain rfl := Option.some.inj hinst
        obtain rfl := Option.some.inj hready
        exact ⟨_,rfl,rfl⟩
    · obtain rfl := Option.some.inj hx
      cases hfiring with
      | single place inst token hinst hone hplace =>
        have hmem : Operand.token token∈{Operand.token token}+rest := by simp
        rw [ha] at hmem
        obtain ⟨-,-,rfl⟩ := five_target hmem hplace hinst
        obtain hone | hone := hone
        · exact absurd hone (by decide)
        · cases hone
      | literals place inst packet hinst hready =>
        have hmem : Operand.literals place∈{Operand.literals place}+rest := by simp
        rw [ha] at hmem
        simp at hmem
      | both place inst token1 token2 hinst hnone htwo hplace1 hplace2 hinput1 hinput2 =>
        have hmem1 : Operand.token token1∈{.token token1,.token token2}+rest := by simp
        have hmem2 : Operand.token token2∈{.token token1,.token token2}+rest := by simp
        rw [ha] at hmem1 hmem2
        obtain ⟨h1,rfl,rfl⟩ := five_target hmem1 hplace1 hinst
        obtain ⟨h2,-,-⟩ := five_target hmem2 hplace2 hinst
        obtain rfl : token1=firstFive := by
          refine h1.resolve_right ?_
          rintro rfl
          exact absurd hinput1 (by decide)
        obtain rfl : token2=secondFive := by
          refine h2.resolve_left ?_
          rintro rfl
          exact absurd hinput2 (by decide)
        obtain rfl : rest=0 := add_eq_left.mp ha
        exact ⟨_,rfl,rfl⟩
    · obtain rfl := Option.some.inj hx
      cases hfiring with
      | both place inst token1 token2 =>
        have hcard := congrArg Multiset.card ha
        simp at hcard
      | single place inst token hinst hone hplace =>
        obtain rfl := Operand.token.inj (singleton_split ha).1
        exact (ten_stays hplace hinst).elim
      | literals place inst packet => cases (singleton_split ha).1

private theorem addTwice_reached {a : Dataflow}
    (hr : Transition.Reachable (· = Dataflow.start (fun _ => 0) addTwice.instructions)
      (Dataflow.Step (fun _ => 0) (fun _ => 0) addTwice.instructions) a) :
    ∃ (k : Nat) (x : Multiset Operand),addTwiceStates[k]?=some x ∧ a.operands=x := by
  apply hr.invariant
  · intro a ha
    rw [ha]
    exact ⟨0,_,rfl,rfl⟩
  · intro a b h hs
    obtain ⟨k,x,hx,ha⟩ := h
    obtain ⟨y,hy,hb⟩ := addTwice_step hx ha hs
    exact ⟨k+1,y,hy,hb⟩

private theorem addTwice_ends (run : Nat → Dataflow)
    (hzero : run 0=Dataflow.start (fun _ => 0) addTwice.instructions) :
    ¬∀ n,Dataflow.Step (fun _ => 0) (fun _ => 0) addTwice.instructions (run n) (run (n+1)) := by
  intro hrun
  have hstates : ∀ n,∃ x,addTwiceStates[n]?=some x ∧ (run n).operands=x := by
    intro n
    induction n with
    | zero =>
      rw [hzero]
      exact ⟨_,rfl,rfl⟩
    | succ n ih =>
      obtain ⟨x,hx,hops⟩ := ih
      exact addTwice_step hx hops (hrun n)
  obtain ⟨x,hx,-⟩ := hstates 3
  cases hx

private theorem five_fits {d : DestinationType} (haddress : (destinationToAddress d).toNat=1)
    (hmatching : destinationToMatchingFunction d=matchingBoth) :
    DestinationFits (fun _ => 0) addTwice.instructions d := by
  right
  intro inst hinst
  rw [haddress] at hinst
  obtain rfl := Option.some.inj hinst
  exact Or.inr (Or.inr ⟨hmatching,rfl,rfl⟩)

private theorem addTwice_tame :
    TameImage (fun _ => 0) (fun _ => 0) addTwice.instructions where
  room := by decide
  fits := by
    rintro d ⟨inst,hinst,hd⟩
    have hinst : inst=doubleFive ∨ inst=addition := by simpa [addTwice] using hinst
    obtain rfl | rfl := hinst <;> obtain rfl | rfl := hd
    · exact five_fits (by decide) (by decide)
    · exact five_fits (by decide) (by decide)
    · exact Or.inl (by decide)
    · exact Or.inl (by decide)
  internal := by
    intro inst hinst
    have hinst : inst=doubleFive ∨ inst=addition := by simpa [addTwice] using hinst
    obtain rfl | rfl := hinst
    · exact ⟨.DUP,rfl,rfl⟩
    · exact ⟨.ADD,rfl,rfl⟩
  tame := by
    intro a ha
    obtain ⟨k,x,hx,hops⟩ := addTwice_reached ha
    have hk : k < 3 := (List.getElem?_eq_some_iff.mp hx).1
    constructor
    · intro t ht
      rw [hops] at ht
      interval_cases k
      · obtain rfl := Option.some.inj hx
        cases Multiset.mem_singleton.mp ht
      · obtain rfl := Option.some.inj hx
        obtain h | h := Multiset.mem_cons.mp ht
        · rw [Operand.token.inj h]
          exact five_fits (by decide) (by decide)
        · rw [Operand.token.inj (Multiset.mem_singleton.mp h)]
          exact five_fits (by decide) (by decide)
      · obtain rfl := Option.some.inj hx
        rw [Operand.token.inj (Multiset.mem_singleton.mp ht)]
        exact Or.inl (by decide)
    · intro t u hle _ _ _
      rw [hops] at hle
      have hcard := Multiset.card_le_card hle
      interval_cases k
      · obtain rfl := Option.some.inj hx
        simp at hcard
      · obtain rfl := Option.some.inj hx
        have hboth := Multiset.eq_of_le_of_card_le hle (by simp)
        obtain ⟨ht,hu⟩ | ⟨-,rest,hu,ht⟩ := Multiset.cons_eq_cons.mp hboth
        · rw [Operand.token.inj ht,Operand.token.inj (Multiset.singleton_inj.mp hu)]
          decide
        · have hrest : rest=0 := by
            have hcard := congrArg Multiset.card hu
            simpa using hcard
          rw [hrest] at hu ht
          rw [Operand.token.inj (Multiset.singleton_inj.mp hu),
            ← Operand.token.inj (Multiset.singleton_inj.mp ht)]
          decide
      · obtain rfl := Option.some.inj hx
        simp at hcard

/-- Its runs end, and print the sum. -/
theorem pipeline_implements_dataflow_sum :
    (∀ run : Nat → Machine quietConfig 4,Started quietConfig addTwice (run 0) →
      ¬∀ n,Network.Step (N := machine quietConfig) (run n) (run (n+1))) ∧
    ∀ s : Machine quietConfig 4,Reached quietConfig addTwice s →
      (¬∃ t,Network.Step (N := machine quietConfig) s t) →
        Network.Deadlocked s ∨ s.locals .ioSwitch=[.decimal 10] := by
  obtain ⟨hends,hreached⟩ := pipeline_implements_dataflow quietConfig addTwice 4 rfl addTwice_tame
  refine ⟨hends addTwice_ends,fun s hr hfinal => ?_⟩
  obtain ⟨a,ha,-,hend⟩ := hreached s hr
  refine (hend hfinal).imp_right fun h => ?_
  obtain ⟨hstuck,hprinted⟩ := h
  let env : FunctionEnv := ⟨⟨⟨0,0,0⟩,⟨0,0,0⟩,0⟩,0,0⟩
  obtain ⟨k,x,hx,hops⟩ := addTwice_reached ha
  have hk : k < 3 := (List.getElem?_eq_some_iff.mp hx).1
  interval_cases k
  · obtain rfl := Option.some.inj hx
    have hsplit : a.operands={.literals 0}+0 := hops
    exact absurd ⟨_,.of_operands _ env hsplit (.literals 0 doubleFive _ rfl rfl)⟩ hstuck
  · obtain rfl := Option.some.inj hx
    have hsplit : a.operands=.token firstFive::ₘ{.token secondFive}+0 := hops
    exact absurd ⟨_,.of_operands _ env hsplit
      (.both 1 addition firstFive secondFive rfl rfl rfl rfl rfl rfl rfl rfl)⟩ hstuck
  · obtain rfl := Option.some.inj hx
    rw [Dataflow.printed,hops] at hprinted
    exact Multiset.coe_eq_singleton.mp hprinted

end Manchester
