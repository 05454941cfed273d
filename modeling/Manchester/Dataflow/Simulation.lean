import Manchester.Dataflow.Refinement

namespace Manchester

open Framework

section Steps

variable {c : MachineConfig} {image : InstructionStore} {cap : Nat} {s t : Machine c cap}
  {a : Dataflow}

/-- A step that moves tokens only leaves the dataflow machine where it is. -/
theorem Corresponds.moved (h : Corresponds c image s a)
    (htokens : heldTokens t+goneTokens image.instructions t=
      heldTokens s+goneTokens image.instructions s)
    (hpackets : heldPackets t=heldPackets s)
    (hcalls : t.locals .processingUnit=s.locals .processingUnit) : Corresponds c image t a := by
  obtain ⟨⟨consumed,hrel,hops⟩,hsame⟩ := h
  refine ⟨⟨consumed,?_,?_⟩,?_⟩
  · rw [hpackets]
    exact hrel
  · rw [htokens]
    exact hops
  · rw [hcalls]
    exact hsame

theorem Delivered.tokens (h : Network.Delivered (N := machine c) s t)
    (instructions : List Instruction) :
    heldTokens t=heldTokens s ∧ goneTokens instructions t=goneTokens instructions s ∧
      heldPackets t=heldPackets s := by
  simp only [heldTokens,goneTokens,heldPackets,h.held,h.taken,h.locals,and_self]

theorem Delivered.inv (hs : Network.Delivered (N := machine c) s t) (h : PipelineInv c image s) :
    PipelineInv c image t where
  store := (hs.locals _).trans h.store
  table := hs.locals .matchingUnit ▸ h.table
  switched := hs.held .ioSwitch ▸ h.switched
  pairs := hs.held .matchingUnit ▸ h.pairs
  gone := (Delivered.tokens hs image.instructions).2.1 ▸ h.gone

theorem Delivered.corresponds (hs : Network.Delivered (N := machine c) s t)
    (h : Corresponds c image s a) : Corresponds c image t a := by
  obtain ⟨hheld,hgone,hpackets⟩ := Delivered.tokens hs image.instructions
  exact h.moved (by rw [hheld,hgone]) hpackets (hs.locals _)

section Took

variable {i : ModuleName} {x : i.source.Msg} {new : i.Local} {out : List i.Msg}

/-- A module that neither makes nor takes packets leaves them where they are. -/
theorem Took.packets (ht : Network.Took (N := machine c) s t i x new out)
    (hstore : .instructionStore ≠ i) (hstore' : .instructionStore ≠ i.source)
    (hinput : .inputModule ≠ i) (hinput' : .inputModule ≠ i.source) :
    heldPackets t=heldPackets s := by
  have h1 : t.held .instructionStore=s.held .instructionStore := ht.others _ hstore hstore'
  have h2 : t.held .inputModule=s.held .inputModule := ht.others _ hinput hinput'
  rw [heldPackets,heldPackets,h1,h2]

/-- No token leaves where a packet is taken. -/
theorem Took.gone (ht : Network.Took (N := machine c) s t i x new out)
    (instructions : List Instruction) (hunit : .processingUnit ≠ i.source)
    (hswitch : .ioSwitch ≠ i.source) (hmatching : .matchingUnit ≠ i.source) :
    goneTokens instructions t=goneTokens instructions s := by
  have h1 : (t.channel .processingUnit).taken=(s.channel .processingUnit).taken :=
    ht.takenOthers _ hunit
  have h2 : (t.channel .ioSwitch).taken=(s.channel .ioSwitch).taken := ht.takenOthers _ hswitch
  have h3 : (t.channel .matchingUnit).taken=(s.channel .matchingUnit).taken :=
    ht.takenOthers _ hmatching
  simp only [goneTokens,h1,h2,h3]

end Took

section Switch

variable {x : TokenType} {new : List Output} {out : List TokenType}

theorem takeSwitch_held (ht : Network.Took (N := machine c) s t .ioSwitch x new out) :
    {x}+heldTokens t=heldTokens s+↑out := by
  have hsource : s.held .processingUnit=x::ₘt.held .processingUnit := ht.source
  have hself : t.held .ioSwitch=s.held .ioSwitch+↑out := ht.self
  have hpairs : t.held .matchingUnit=s.held .matchingUnit := ht.others _ nofun nofun
  have htable : t.locals .matchingUnit=s.locals .matchingUnit := ht.elsewhere _ nofun
  simp only [heldTokens,hsource,hself,hpairs,htable,← Multiset.singleton_add]
  abel

theorem takeSwitch_gone (ht : Network.Took (N := machine c) s t .ioSwitch x new out)
    (instructions : List Instruction) :
    goneTokens instructions t=goneTokens instructions s+
      ↑([x].filter fun t => isSwitchDestination t.destination) := by
  have htaken : (t.channel .processingUnit).taken=(s.channel .processingUnit).taken++[x] := ht.taken
  have htaken1 : (t.channel .ioSwitch).taken=(s.channel .ioSwitch).taken :=
    ht.takenOthers _ nofun
  have htaken2 : (t.channel .matchingUnit).taken=(s.channel .matchingUnit).taken :=
    ht.takenOthers _ nofun
  simp only [goneTokens,htaken,htaken1,htaken2,List.filter_append,← Multiset.coe_add]
  abel

theorem takeSwitch (ht : Network.Took (N := machine c) s t .ioSwitch x new out)
    (hout : out=if isSwitchDestination x.destination then [] else [x])
    (hinv : PipelineInv c image s) (h : Corresponds c image s a) :
    PipelineInv c image t ∧ Corresponds c image t a := by
  have hgone := takeSwitch_gone ht image.instructions
  have hheld := takeSwitch_held ht
  have hself : t.held .ioSwitch=s.held .ioSwitch+↑out := ht.self
  have hpairs : t.held .matchingUnit=s.held .matchingUnit := ht.others _ nofun nofun
  constructor
  · refine ⟨(ht.elsewhere .instructionStore nofun).trans hinv.store,?_,?_,?_,?_⟩
    · have htable : t.locals .matchingUnit=s.locals .matchingUnit := ht.elsewhere _ nofun
      exact htable ▸ hinv.table
    · intro y hy
      rw [hself,Multiset.mem_add] at hy
      obtain hy | hy := hy
      · exact hinv.switched y hy
      · rw [hout,Multiset.mem_coe] at hy
        split_ifs at hy with hswitch
        · simp at hy
        · simpa [List.mem_singleton.mp hy] using hswitch
    · exact hpairs ▸ hinv.pairs
    · intro y hy
      rw [hgone,Multiset.mem_add] at hy
      obtain hy | hy := hy
      · exact hinv.gone y hy
      · rw [Multiset.mem_coe,List.mem_filter] at hy
        exact Or.inl hy.2
  · refine h.moved ?_ (Took.packets ht nofun nofun nofun nofun) (ht.elsewhere _ nofun)
    apply add_left_cancel (a := ({x} : Multiset TokenType))
    rw [hgone,← add_assoc,hheld]
    by_cases hswitch : isSwitchDestination x.destination=true
    · have hone : [x].filter (fun t => isSwitchDestination t.destination)=[x] := by simp [hswitch]
      rw [hout,if_pos hswitch,hone,Multiset.coe_singleton,Multiset.coe_nil]
      abel
    · have hone : [x].filter (fun t => isSwitchDestination t.destination)=[] := by simp [hswitch]
      rw [hout,if_neg hswitch,hone,Multiset.coe_singleton,Multiset.coe_nil]
      abel

end Switch

theorem takeInput {x : ExecutionPacket} {new : Unit} {out : List ExecutionPacket}
    (ht : Network.Took (N := machine c) s t .inputModule x new out) (hout : out=[x])
    (hinv : PipelineInv c image s) (h : Corresponds c image s a) :
    PipelineInv c image t ∧ Corresponds c image t a := by
  have hsource : s.held .instructionStore=x::ₘt.held .instructionStore := ht.source
  have hself : t.held .inputModule=s.held .inputModule+↑out := ht.self
  have h1 : t.held .processingUnit=s.held .processingUnit := ht.others _ nofun nofun
  have h2 : t.held .ioSwitch=s.held .ioSwitch := ht.others _ nofun nofun
  have h3 : t.held .matchingUnit=s.held .matchingUnit := ht.others _ nofun nofun
  have htable : t.locals .matchingUnit=s.locals .matchingUnit := ht.elsewhere _ nofun
  have hgone := Took.gone ht image.instructions nofun nofun nofun
  constructor
  · exact ⟨(ht.elsewhere .instructionStore nofun).trans hinv.store,htable ▸ hinv.table,
      h2 ▸ hinv.switched,h3 ▸ hinv.pairs,hgone ▸ hinv.gone⟩
  · refine h.moved ?_ ?_ (ht.elsewhere _ nofun)
    · simp only [hgone,heldTokens,h1,h2,h3,htable]
    · rw [heldPackets,heldPackets,hsource,hself,hout,Multiset.coe_singleton,
        ← Multiset.singleton_add]
      abel

section Matching

variable {x : TokenType} {new : TokenWaitingTableType} {out : List ReadyTokenPairType}

theorem readyTokenPair_held (a b : TokenType) :
    (↑(readyTokenPairFromTokens a b).tokens : Multiset TokenType)={a}+{b} := by
  rcases readyTokenPair_tokens a b with he | he <;> rw [he]
  · rfl
  · exact Multiset.cons_swap b a 0

/-- Of a token and those that wait, nothing is lost but a token without a function. -/
theorem Matched.balance {before after : TokenWaitingTableType} (h : Matched before after x out) :
    {x}+before.waiting=after.waiting+(↑out : Multiset ReadyTokenPairType).bind (fun p => ↑p.tokens)+
      (↑([x].filter fun t => ¬Passes t ∧ ¬Pairs t) : Multiset TokenType) := by
  cases h with
  | passed h hw =>
    rw [hw]
    simp [h,ReadyTokenPairType.tokens,-Multiset.singleton_add,add_comm]
  | stored h hw =>
    rw [hw]
    simp [h]
  | paired found h hfound hkey hw =>
    have hkept : [x].filter (fun t => ¬Passes t ∧ ¬Pairs t)=[] := by simp [h]
    rw [hkept,hw,Multiset.coe_singleton,Multiset.singleton_bind,readyTokenPair_held,
      ← Multiset.singleton_add,Multiset.coe_nil]
    abel
  | dropped h hpair hw =>
    rw [hw]
    simp [h,hpair,-Multiset.singleton_add,add_comm]

theorem takeMatching_held (ht : Network.Took (N := machine c) s t .matchingUnit x new out) :
    {x}+heldTokens t+(s.locals .matchingUnit).waiting=
      heldTokens s+new.waiting+(↑out : Multiset ReadyTokenPairType).bind fun p => ↑p.tokens := by
  have hsource : s.held .ioSwitch=x::ₘt.held .ioSwitch := ht.source
  have hself : t.held .matchingUnit=s.held .matchingUnit+↑out := ht.self
  have hother : t.held .processingUnit=s.held .processingUnit := ht.others _ nofun nofun
  have hhere : t.locals .matchingUnit=new := ht.here
  simp only [heldTokens,hsource,hself,hother,hhere,Multiset.add_bind,← Multiset.singleton_add]
  abel

theorem takeMatching_gone (ht : Network.Took (N := machine c) s t .matchingUnit x new out)
    (instructions : List Instruction) :
    goneTokens instructions t=goneTokens instructions s+
      ↑([x].filter fun t => ¬Passes t ∧ ¬Pairs t) := by
  have htaken : (t.channel .ioSwitch).taken=(s.channel .ioSwitch).taken++[x] := ht.taken
  have htaken1 : (t.channel .processingUnit).taken=(s.channel .processingUnit).taken :=
    ht.takenOthers _ nofun
  have htaken2 : (t.channel .matchingUnit).taken=(s.channel .matchingUnit).taken :=
    ht.takenOthers _ nofun
  simp only [goneTokens,htaken,htaken1,htaken2,List.filter_append,← Multiset.coe_add]
  abel

/-- What the unit sends on is ready, if no two tokens that are alike wait. -/
theorem Matched.ready {before after : TokenWaitingTableType} (h : Matched before after x out)
    (hfits : ∀ inst,tokenTarget image.instructions x=some inst →
      TargetFits c.overrun inst (destinationToMatchingFunction x.destination))
    (hdistinct : ∀ found,tokenToKey found=tokenToKey x → Pairs x → Pairs found →
      readyTokenPairFromTokens x found∈out →
      destinationToInput found.destination ≠ destinationToInput x.destination) :
    ∀p∈out,PairReady c.overrun image.instructions p := by
  intro p hp
  cases h with
  | passed h hw =>
    rw [List.mem_singleton.mp hp]
    exact pairReady_single h hfits
  | stored h hw => cases hp
  | paired found h hfound hkey hw =>
    rw [List.mem_singleton.mp hp]
    have hvalid := (validPair_iff found x hkey).mpr (hdistinct found hkey h hfound (by simp))
    apply pairReady_both hvalid
    have haddress : destinationToAddress found.destination=destinationToAddress x.destination :=
      congrArg KeyType.destination hkey
    have htarget : tokenTarget image.instructions (readyTokenPairFromTokens x found).token1=
        tokenTarget image.instructions x := by
      rcases readyTokenPair_tokens x found with he | he <;> rw [he]
      simp only [tokenTarget,haddress]
    intro inst hinst
    rw [htarget] at hinst
    have hfit := hfits inst hinst
    rw [show destinationToMatchingFunction x.destination=matchingBoth from h] at hfit
    exact hfit
  | dropped h hpair hw => cases hp

theorem TargetFits.matched {overrun : TableOverrun} {inst : Instruction}
    (h : TargetFits overrun inst (destinationToMatchingFunction x.destination)) :
    Passes x ∨ Pairs x := by
  obtain ⟨h,-⟩ | ⟨h,-⟩ | ⟨h,-⟩ := h
  · exact Or.inl (Or.inl h)
  · exact Or.inl (Or.inr h)
  · exact Or.inr h

theorem takeMatching (ht : Network.Took (N := machine c) s t .matchingUnit x new out)
    (hmatch : matchToken (s.locals .matchingUnit) x=(new,out))
    (himage : ImageFits c.overrun image.instructions) (horder : Orderly c image t)
    (hinv : PipelineInv c image s) (h : Corresponds c image s a) :
    PipelineInv c image t ∧ Corresponds c image t a := by
  have hsource : s.held .ioSwitch=x::ₘt.held .ioSwitch := ht.source
  have hself : t.held .matchingUnit=s.held .matchingUnit+↑out := ht.self
  have hhere : t.locals .matchingUnit=new := ht.here
  have htaken : (t.channel .ioSwitch).taken=(s.channel .ioSwitch).taken++[x] := ht.taken
  have hgone := takeMatching_gone ht image.instructions
  obtain ⟨hvalid,hmatched⟩ := matchToken_matched hinv.table x
  rw [hmatch] at hvalid hmatched
  have hfits : ∀ inst,tokenTarget image.instructions x=some inst →
      TargetFits c.overrun inst (destinationToMatchingFunction x.destination) := by
    have hswitch := hinv.switched x (by simp [hsource])
    have hfit := himage.destination (horder.runTime x (by simp [htaken]))
    exact fun inst hinst => hfit.target hswitch hinst
  constructor
  · refine ⟨(ht.elsewhere .instructionStore nofun).trans hinv.store,hhere ▸ hvalid,?_,?_,?_⟩
    · intro y hy
      exact hinv.switched y (by simp [hsource,hy])
    · intro p hp
      rw [hself,Multiset.mem_add] at hp
      obtain hp | hp := hp
      · exact hinv.pairs p hp
      · refine hmatched.ready hfits ?_ p hp
        intro found hkey hpair hfound hmem
        -- both tokens are live in the pair that is sent
        have hle : found::ₘ{x} ≤ heldTokens t := by
          have hpair : found::ₘ{x}=↑(readyTokenPairFromTokens x found).tokens := by
            rw [readyTokenPair_held]
            exact Multiset.cons_swap found x 0
          have hbind := Multiset.le_bind
            (f := fun p : ReadyTokenPairType => (↑p.tokens : Multiset TokenType))
            (t.held .matchingUnit) (hself ▸ Multiset.mem_add.mpr (Or.inr hmem))
          rw [hpair]
          exact hbind.trans (Multiset.le_add_left _ _)
        exact horder.distinct found x hle hfound hpair hkey
    · intro y hy
      rw [hgone,Multiset.mem_add] at hy
      obtain hy | hy := hy
      · exact hinv.gone y hy
      · right
        have hy : y=x ∧ ¬Passes y ∧ ¬Pairs y := by simpa using hy
        obtain ⟨rfl,hpass,hpair⟩ := hy
        cases htarget : tokenTarget image.instructions y with
        | none => rfl
        | some inst =>
          obtain hyes | hyes := (hfits inst htarget).matched
          · exact absurd hyes hpass
          · exact absurd hyes hpair
  · refine h.moved ?_ (Took.packets ht nofun nofun nofun nofun) (ht.elsewhere _ nofun)
    have hheld := takeMatching_held ht
    have hbalance := hmatched.balance
    apply add_left_cancel (a := {x}+(s.locals .matchingUnit).waiting)
    calc
      {x}+(s.locals .matchingUnit).waiting+(heldTokens t+goneTokens image.instructions t) =
          {x}+heldTokens t+(s.locals .matchingUnit).waiting+goneTokens image.instructions t := by
        abel
      _ = heldTokens s+goneTokens image.instructions s+
          (new.waiting+(↑out : Multiset ReadyTokenPairType).bind (fun p => ↑p.tokens)+
            ↑([x].filter fun t => ¬Passes t ∧ ¬Pairs t)) := by
        rw [hheld,hgone]
        abel
      _ = {x}+(s.locals .matchingUnit).waiting+
          (heldTokens s+goneTokens image.instructions s) := by
        rw [← hbalance]
        abel

end Matching

section Store

variable {x : ReadyTokenPairType} {new : InstructionStore} {out : List ExecutionPacket}

theorem takeStore_held (ht : Network.Took (N := machine c) s t .instructionStore x new out) :
    heldTokens s=↑x.tokens+heldTokens t ∧ heldPackets t=heldPackets s+↑out := by
  have hsource : s.held .matchingUnit=x::ₘt.held .matchingUnit := ht.source
  have hself : t.held .instructionStore=s.held .instructionStore+↑out := ht.self
  have h1 : t.held .processingUnit=s.held .processingUnit := ht.others _ nofun nofun
  have h2 : t.held .ioSwitch=s.held .ioSwitch := ht.others _ nofun nofun
  have h3 : t.held .inputModule=s.held .inputModule := ht.others _ nofun nofun
  have htable : t.locals .matchingUnit=s.locals .matchingUnit := ht.elsewhere _ nofun
  constructor
  · simp only [heldTokens,hsource,h1,h2,htable,Multiset.cons_bind]
    abel
  · simp only [heldPackets,hself,h3]
    abel

theorem takeStore_gone (ht : Network.Took (N := machine c) s t .instructionStore x new out)
    (instructions : List Instruction) :
    goneTokens instructions t=goneTokens instructions s+
      if (tokenTarget instructions x.token1).isNone then ↑x.tokens else 0 := by
  have htaken : (t.channel .matchingUnit).taken=(s.channel .matchingUnit).taken++[x] := ht.taken
  have htaken1 : (t.channel .processingUnit).taken=(s.channel .processingUnit).taken :=
    ht.takenOthers _ nofun
  have htaken2 : (t.channel .ioSwitch).taken=(s.channel .ioSwitch).taken := ht.takenOthers _ nofun
  simp only [goneTokens,htaken,htaken1,htaken2,List.filter_append,List.flatMap_append,
    ← Multiset.coe_add,List.filter_cons,List.filter_nil,add_assoc]
  split_ifs <;> simp

theorem takeStore {env : StoreEnv}
    (ht : Network.Took (N := machine c) s t .instructionStore x new out)
    (hpair : storePair c.overrun env (s.locals .instructionStore) x=some (new,out))
    (horder : Orderly c image t) (hinv : PipelineInv c image s) (h : Corresponds c image s a) :
    PipelineInv c image t ∧ Corresponds c image t a := by
  have hsource : s.held .matchingUnit=x::ₘt.held .matchingUnit := ht.source
  have hswitch : t.held .ioSwitch=s.held .ioSwitch := ht.others _ nofun nofun
  have htable : t.locals .matchingUnit=s.locals .matchingUnit := ht.elsewhere _ nofun
  have hcalls : t.locals .processingUnit=s.locals .processingUnit := ht.elsewhere _ nofun
  have hhere : t.locals .instructionStore=new := ht.here
  have htaken : (t.channel .matchingUnit).taken=(s.channel .matchingUnit).taken++[x] := ht.taken
  obtain ⟨htokens,hpackets⟩ := takeStore_held ht
  have hgone := takeStore_gone ht image.instructions
  have hpairs : ∀p∈t.held .matchingUnit,PairReady c.overrun image.instructions p := by
    intro p hp
    exact hinv.pairs p (by simp [hsource,hp])
  rw [hinv.store] at hpair
  obtain hnone | ⟨inst,packet,htarget,hfiring,hfire⟩ := hinv.pairs x (by simp [hsource])
  · -- no instruction: the pair is ignored
    have hfirst : tokenTarget image.instructions x.token1=none :=
      hnone _ (by simp [ReadyTokenPairType.tokens])
    rw [storePair_none c.overrun env hfirst,Option.some.injEq,Prod.mk.injEq] at hpair
    obtain ⟨hnew,hout⟩ := hpair
    rw [hfirst,Option.isNone_none,if_pos rfl] at hgone
    constructor
    · refine ⟨hhere.trans hnew.symm,htable ▸ hinv.table,hswitch ▸ hinv.switched,hpairs,?_⟩
      intro y hy
      rw [hgone,Multiset.mem_add] at hy
      obtain hy | hy := hy
      · exact hinv.gone y hy
      · exact Or.inr (hnone y hy)
    · refine h.moved ?_ ?_ hcalls
      · rw [htokens,hgone]
        abel
      · rw [hpackets,← hout,Multiset.coe_nil,add_zero]
  · have hload := horder.noLoad x (by simp [htaken]) inst htarget
    rw [storePair_some c.overrun env htarget hload,hfire,Option.some.injEq,Prod.mk.injEq] at hpair
    obtain ⟨hnew,hout⟩ := hpair
    rw [htarget,Option.isNone_some,if_neg Bool.false_ne_true,add_zero] at hgone
    constructor
    · exact ⟨hhere.trans hnew.symm,htable ▸ hinv.table,hswitch ▸ hinv.switched,hpairs,
        hgone ▸ hinv.gone⟩
    · obtain ⟨⟨consumed,hrel,hops⟩,hsame⟩ := h
      refine ⟨⟨↑(x.tokens.map Operand.token)::ₘconsumed,?_,?_⟩,?_⟩
      · rw [hpackets,← hout,Multiset.coe_singleton,add_comm,Multiset.singleton_add]
        exact .cons hfiring hrel
      · rw [hops,htokens,hgone,Multiset.sum_cons]
        simp only [Multiset.map_add,Multiset.map_coe]
        abel
      · rw [hcalls]
        exact hsame

end Store

section Processing

variable {x : ExecutionPacket} {new : ProcessingState} {out : List TokenType}

theorem takeProcessing_held (ht : Network.Took (N := machine c) s t .processingUnit x new out) :
    heldPackets s=x::ₘheldPackets t ∧ heldTokens t=heldTokens s+↑out := by
  have hsource : s.held .inputModule=x::ₘt.held .inputModule := ht.source
  have hself : t.held .processingUnit=s.held .processingUnit+↑out := ht.self
  have h1 : t.held .instructionStore=s.held .instructionStore := ht.others _ nofun nofun
  have h2 : t.held .ioSwitch=s.held .ioSwitch := ht.others _ nofun nofun
  have h3 : t.held .matchingUnit=s.held .matchingUnit := ht.others _ nofun nofun
  have htable : t.locals .matchingUnit=s.locals .matchingUnit := ht.elsewhere _ nofun
  constructor
  · simp only [heldPackets,hsource,h1,← Multiset.singleton_add]
    abel
  · simp only [heldTokens,hself,h2,h3,htable]
    abel

/-- Without trap mode a round is an evaluation. -/
theorem processPacket_evaluate {random : RandomStream} {env : FunctionEnv} {here : ProcessingState}
    (h : processPacket false random env here x=some (new,out)) :
    evaluate env random here.calls x=(out,new.calls) := by
  have hexited : here.exited=false := by
    cases hexited : here.exited with
    | false => rfl
    | true => simp [processPacket,hexited] at h
  rw [processPacket_plain random env here x hexited] at h
  unfold evaluate
  cases hunit : functionUnit env random here.calls x with
  | none =>
    simp only [hunit,Option.some.injEq,Prod.mk.injEq] at h
    rw [← h.1,← h.2]
  | some result =>
    simp only [hunit,Option.some.injEq,Prod.mk.injEq] at h
    rw [← h.1,← h.2]

/-- A round of the processing unit is a step of the dataflow machine. -/
theorem takeProcessing {env : FunctionEnv}
    (ht : Network.Took (N := machine c) s t .processingUnit x new out)
    (hround : processPacket false c.random env (s.locals .processingUnit) x=some (new,out))
    (hinv : PipelineInv c image s) (h : Corresponds c image s a) :
    PipelineInv c image t ∧ ∃ b,Dataflow.Step c.overrun c.random image.instructions a b ∧
      Corresponds c image t b := by
  have h2 : t.held .ioSwitch=s.held .ioSwitch := ht.others _ nofun nofun
  have h3 : t.held .matchingUnit=s.held .matchingUnit := ht.others _ nofun nofun
  have htable : t.locals .matchingUnit=s.locals .matchingUnit := ht.elsewhere _ nofun
  have hhere : t.locals .processingUnit=new := ht.here
  have hgone := Took.gone ht image.instructions nofun nofun nofun
  obtain ⟨hpackets,htokens⟩ := takeProcessing_held ht
  have hvalue := processPacket_evaluate hround
  constructor
  · exact ⟨(ht.elsewhere .instructionStore nofun).trans hinv.store,htable ▸ hinv.table,
      h2 ▸ hinv.switched,h3 ▸ hinv.pairs,hgone ▸ hinv.gone⟩
  · obtain ⟨⟨consumed,hrel,hops⟩,hcalls⟩ := h
    rw [hpackets] at hrel
    obtain ⟨ops,rest,hfiring,hrest,rfl⟩ := Multiset.rel_cons_left.mp hrel
    have hoperands : a.operands=
        ops+((heldTokens s+goneTokens image.instructions s).map Operand.token+rest.sum) := by
      rw [hops,Multiset.sum_cons]
      abel
    have hstep := Dataflow.Step.of_operands c.random env hoperands hfiring
    rw [hcalls,hvalue] at hstep
    refine ⟨_,hstep,⟨rest,hrest,?_⟩,?_⟩
    · rw [htokens,hgone]
      simp only [Multiset.map_add,Multiset.map_coe]
      abel
    · rw [hhere]

end Processing

end Steps

end Manchester
