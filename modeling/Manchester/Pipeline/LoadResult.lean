import Manchester.Pipeline.FunctionUnit
import Manchester.Pipeline.Issued

namespace Manchester

/-- The code of the file has the two entry points of a main function. -/
def ExportsMain (sephi : Sephi) : Prop :=
  (∃symbol∈sephi.exports,symbol.name=mainArgName) ∧
    ∃symbol∈sephi.exports,symbol.name=mainReturnName

/-- The destinations that the marker of the instruction selects. -/
def Instruction.selected (inst : Instruction) : List DestinationType :=
  inst.destination1::if inst.marker=bothOutputMarker then [inst.destination2] else []

/-- The tokens that bring the result of a LOD: those of the one packet by which the store answers
it, or those of the RTD that main executes with its value and the return location that a token of
the second packet has brought it. -/
inductive LoadResult (env : FunctionEnv) (random : RandomStream) (calls : Nat)
    (round : StoreRound) : DataType → List TokenType → Prop where
  | failed (answer : ExecutionPacket) (result : ExecutionResult) (calls' : Nat)
      (hanswers : round.answers=[answer])
      (hunit : functionUnit env random calls answer=some (result,calls')) :
      LoadResult env random calls round (-1) result.tokens
  | returned (argument handover : ExecutionPacket) (location : TokenType) (rtd : ExecutionPacket)
      (passed result : ExecutionResult) (calls' calls'' : Nat) (value : DataType)
      (hanswers : round.answers=[argument,handover])
      (hpassed : functionUnit env random calls handover=some (passed,calls'))
      (hlocation : passed.tokens=[location])
      (hrtd : rtd.opcode=OpcodeType.RTD.bits) (hvalue : rtd.data1=value)
      (hdata : rtd.data2=location.data) (htag : rtd.tag=location.tag)
      (hunit : functionUnit env random calls' rtd=some (result,calls'')) :
      LoadResult env random calls round value result.tokens

/-- The result comes, and it is the value, once for each destination that the marker selects. -/
def Delivers (env : FunctionEnv) (random : RandomStream) (calls : Nat) (round : StoreRound)
    (inst : Instruction) (value : DataType) : Prop :=
  (∃ tokens,LoadResult env random calls round value tokens) ∧
    ∀ tokens,LoadResult env random calls round value tokens →
      tokens=inst.selected.map fun destination => ⟨destination,value,round.next.token1.tag⟩

theorem findLastExport_isSome (exports : List ExportNode) (name : List UInt8)
    (h : ∃node∈exports,node.name=name) : (findLastExport exports name).isSome := by
  obtain ⟨node,hnode,hname⟩ := h
  rw [findLastExport,List.getLast?_isSome]
  apply List.ne_nil_of_mem (a := node)
  exact List.mem_filter.mpr ⟨hnode,by simp [hname]⟩

theorem newExports_name (store : InstructionStore) (sephi : Sephi) (name : List UInt8)
    (h : ∃symbol∈sephi.exports,symbol.name=name) :
    ∃node∈newExports store sephi,node.name=name := by
  obtain ⟨symbol,hsymbol,hname⟩ := h
  exact ⟨_,List.mem_map_of_mem hsymbol,hname⟩

variable {overrun : TableOverrun} {round : StoreRound} {inst : Instruction}

/-- The answer to a LOD whose load fails. -/
theorem answers_of_failed (hlegal : round.Legal overrun) (htarget : round.target=some inst)
    (hload : inst.opcode=OpcodeType.LOD.bits)
    (hfails : ∀ sephi,¬Loads round.before round.file sephi) :
    round.answers=[loadErrorPacket round.address inst round.next.token1.tag] := by
  cases hlegal.kind with
  | ignored hnone => rw [htarget] at hnone; cases hnone
  | loadFailed inst' htarget' _ info hfile herror =>
    simp [StoreRound.answers,htarget,hload,hfile,herror]
  | loaded inst' _ _ info hfile herror =>
    obtain ⟨sephi,hloads,-⟩ := loadFile_slice _ _ _ _ _ _ hfile herror
    exact absurd hloads (hfails sephi)
  | fired inst' htarget' hne =>
    obtain rfl := Option.some.inj (htarget.symm.trans htarget')
    exact absurd hload hne

/-- The answers to a LOD whose load brings in a main function. -/
theorem answers_of_main (hlegal : round.Legal overrun) (htarget : round.target=some inst)
    (hload : inst.opcode=OpcodeType.LOD.bits) (sephi : Sephi)
    (hloads : Loads round.before round.file sephi) (hmain : ExportsMain sephi) :
    ∃ arg location,round.answers=[arg,dupPacket round.address (inst.destination1.setWidth 64)
      round.next.token1.tag location] := by
  cases hlegal.kind with
  | ignored hnone => rw [htarget] at hnone; cases hnone
  | loadFailed inst' _ _ info hfile herror =>
    rw [loads_error _ _ _ _ _ _ sephi hfile hloads] at herror
    exact absurd herror (by decide)
  | loaded inst' _ _ info hfile herror =>
    have hexports : info.exports=newExports round.before sephi := by
      rw [(loadFile_loads _ _ _ _ _ _ sephi hfile hloads).1,loadedInfo]
    obtain ⟨mainArg,harg⟩ := Option.isSome_iff_exists.mp
      (findLastExport_isSome _ _ (newExports_name round.before sephi _ hmain.1))
    obtain ⟨mainReturn,hreturn⟩ := Option.isSome_iff_exists.mp
      (findLastExport_isSome _ _ (newExports_name round.before sephi _ hmain.2))
    refine ⟨dupPacket round.address (round.next.token2.getD round.env.unsetToken).data
      round.next.token1.tag mainArg.currentDestination,mainReturn.currentDestination,?_⟩
    simp [StoreRound.answers,htarget,hload,hfile,herror,mainPackets,hexports,harg,hreturn]
  | fired inst' htarget' hne =>
    obtain rfl := Option.some.inj (htarget.symm.trans htarget')
    exact absurd hload hne

section Results

variable (env : FunctionEnv) (random : RandomStream) (calls : Nat)

theorem loadResult_failed_iff (value : DataType) (tokens : List TokenType)
    (hanswers : round.answers=[loadErrorPacket round.address inst round.next.token1.tag]) :
    LoadResult env random calls round value tokens ↔ value=-1 ∧
      tokens=inst.selected.map fun destination => ⟨destination,-1,round.next.token1.tag⟩ := by
  obtain ⟨failure,hfailure,htokens⟩ := functionUnit_dup env random calls
    (loadErrorPacket round.address inst round.next.token1.tag) rfl
  have hselected : failure.tokens=
      inst.selected.map fun destination => ⟨destination,-1,round.next.token1.tag⟩ := by
    rw [htokens,Instruction.selected]
    by_cases hboth : inst.marker=bothOutputMarker
    · simp [loadErrorPacket,makePacket,hboth]
    · simp [loadErrorPacket,makePacket,hboth]
  constructor
  · intro h
    cases h with
    | failed answer result calls' hanswers' hunit =>
      obtain rfl := (List.cons.inj (hanswers.symm.trans hanswers')).1
      obtain ⟨rfl,-⟩ := Prod.mk.inj (Option.some.inj (hfailure.symm.trans hunit))
      exact ⟨rfl,hselected⟩
    | returned _ _ _ _ _ _ _ _ _ hanswers' =>
      rw [hanswers] at hanswers'
      cases (List.cons.inj hanswers').2
  · rintro ⟨rfl,rfl⟩
    rw [← hselected]
    exact .failed _ failure calls hanswers hfailure

/-- The RTD of main answers the first destination alone. -/
theorem loadResult_returned_iff (value : DataType) (tokens : List TokenType)
    (arg : ExecutionPacket) (location : DestinationType)
    (hanswers : round.answers=[arg,dupPacket round.address (inst.destination1.setWidth 64)
      round.next.token1.tag location]) :
    LoadResult env random calls round value tokens ↔
      tokens=[⟨inst.destination1,value,round.next.token1.tag⟩] := by
  have hback : (inst.destination1.setWidth 64).setWidth 32=inst.destination1 := by
    simp
  obtain ⟨passed,hpassed,hpassedTokens⟩ := functionUnit_dup env random calls
    (dupPacket round.address (inst.destination1.setWidth 64) round.next.token1.tag location) rfl
  have hone : passed.tokens=
      [⟨location,inst.destination1.setWidth 64,round.next.token1.tag⟩] := hpassedTokens
  constructor
  · intro h
    cases h with
    | failed answer result calls' hanswers' hunit =>
      rw [hanswers] at hanswers'
      cases (List.cons.inj hanswers').2
    | returned argument handover token rtd passed' result calls' calls'' value hanswers' hpassed'
        hlocation hrtd hvalue hdata htag hunit =>
      rw [hanswers] at hanswers'
      obtain rfl := (List.cons.inj (List.cons.inj hanswers').2).1
      obtain ⟨rfl,rfl⟩ := Prod.mk.inj (Option.some.inj (hpassed.symm.trans hpassed'))
      obtain rfl := (List.cons.inj (hone.symm.trans hlocation)).1
      obtain ⟨result',hresult',htokens⟩ := functionUnit_rtd env random calls rtd hrtd
      obtain ⟨rfl,-⟩ := Prod.mk.inj (Option.some.inj (hresult'.symm.trans hunit))
      rw [htokens,hdata,htag,hback,hvalue]
  · rintro rfl
    obtain ⟨result,hresult,htokens⟩ := functionUnit_rtd env random calls
      ⟨value,inst.destination1.setWidth 64,OpcodeType.RTD.bits,round.next.token1.tag,0,0,0,0⟩ rfl
    rw [hback] at htokens
    rw [← htokens]
    exact .returned arg _ _ _ passed result calls calls value hanswers hpassed hone rfl rfl rfl rfl
      hresult

/-- The result of a LOD reaches the destinations that its marker selects, exactly when the load
fails or only one of them is selected: main is given the first destination alone to answer to. -/
theorem lod_result_iff (hlegal : round.Legal overrun) (htarget : round.target=some inst)
    (hload : inst.opcode=OpcodeType.LOD.bits)
    (hmain : ∀ sephi,Loads round.before round.file sephi → ExportsMain sephi) :
    (∀ value,(∃ sephi,Loads round.before round.file sephi) ∨ value=-1 →
        Delivers env random calls round inst value) ↔
      (∀ sephi,¬Loads round.before round.file sephi) ∨ inst.marker ≠ bothOutputMarker := by
  by_cases hloads : ∃ sephi,Loads round.before round.file sephi
  · obtain ⟨sephi,hsephi⟩ := hloads
    obtain ⟨arg,location,hanswers⟩ :=
      answers_of_main hlegal htarget hload sephi hsephi (hmain sephi hsephi)
    have hresult := fun value tokens =>
      loadResult_returned_iff env random calls value tokens arg location hanswers
    constructor
    · intro h
      right
      intro hboth
      have hzero := (h 0 (.inl ⟨sephi,hsephi⟩)).2 _ ((hresult 0 _).mpr rfl)
      rw [Instruction.selected,if_pos hboth] at hzero
      cases (List.cons.inj hzero).2
    · rintro (hfails | hsingle) value -
      · exact absurd hsephi (hfails sephi)
      · refine ⟨⟨_,(hresult value _).mpr rfl⟩,fun tokens htokens => ?_⟩
        rw [(hresult value tokens).mp htokens,Instruction.selected,if_neg hsingle]
        rfl
  · have hfails : ∀ sephi,¬Loads round.before round.file sephi := not_exists.mp hloads
    have hresult := fun value tokens => loadResult_failed_iff env random calls value tokens
      (answers_of_failed hlegal htarget hload hfails)
    refine iff_of_true ?_ (.inl hfails)
    rintro value (hany | rfl)
    · exact absurd hany hloads
    · refine ⟨⟨_,(hresult _ _).mpr ⟨rfl,rfl⟩⟩,fun tokens htokens => ?_⟩
      exact ((hresult _ tokens).mp htokens).2

end Results

/-- A LOD with the given marker. -/
private def lodRecord (marker : MarkerType) : Instruction := ⟨29,32,48,marker,0,0,0⟩

private def quietEnv : FunctionEnv := ⟨⟨⟨0,0,0⟩,⟨0,0,0⟩,0⟩,0,0⟩

/-- A LOD with two consumers, of a file that cannot be opened. -/
private def unopenedRound : StoreRound :=
  ⟨⟨[lodRecord 1],[]⟩,⟨⟨0,0,0⟩,fun _ => none,.clear⟩,⟨⟨0,0x61,7⟩,some ⟨8,1,7⟩⟩,
    ⟨[lodRecord 1],[]⟩,[⟨-1,0,5,7,32,48,0,1⟩]⟩

/-- Two entry points of a main function. -/
private def mainFile : List UInt8 :=
  magicBytes++[0,0,0,0,0,0,2,0]++[0,0,0,0]++mainArgName++List.replicate 238 0++[8,0,0,0]++
    mainReturnName++List.replicate 228 0++List.replicate 40 0

private def mainSephi : Sephi :=
  ⟨[],[],[],[⟨0,mainArgName⟩,⟨8,mainReturnName⟩],[⟨0,0,0,0,0,0,0⟩]⟩

/-- A LOD of that file. -/
private def mainRound (marker : MarkerType) : StoreRound :=
  ⟨⟨[lodRecord marker],[]⟩,⟨⟨0,0,0⟩,fun _ => some mainFile,.clear⟩,⟨⟨0,0x61,7⟩,some ⟨8,1,7⟩⟩,
    ⟨[lodRecord marker,⟨0,16,16,0,0,0,0⟩],[⟨16,mainArgName⟩,⟨24,mainReturnName⟩]⟩,
    [⟨1,0,5,7,16,devNullDestination,0,0⟩,⟨32,0,5,7,24,devNullDestination,0,0⟩]⟩

private theorem mainRound_loads (marker : MarkerType) :
    Loads (mainRound marker).before (mainRound marker).file mainSephi := by
  have hparse : parseSephi mainFile=some mainSephi := by decide +kernel
  have hbind : (mainRound marker).file.bind parseSephi=parseSephi mainFile := by
    rw [show (mainRound marker).file=some mainFile from rfl,Option.bind_some]
  exact ⟨⟨hbind.trans hparse,List.forall_mem_nil _⟩,List.forall_mem_nil _⟩

private theorem mainSephi_exports : ExportsMain mainSephi :=
  ⟨⟨_,.head _,rfl⟩,⟨_,.tail _ (.head _),rfl⟩⟩

/-- Two consumers get the -1 of a load that fails, and a single one the 5 that main returns. -/
theorem lod_result_delivered :
    Delivers quietEnv (fun _ => 0) 0 unopenedRound (lodRecord 1) (-1) ∧
      Delivers quietEnv (fun _ => 0) 0 (mainRound 0) (lodRecord 0) 5 := by
  constructor
  · have hlegal : unopenedRound.Legal (fun _ => 0) := show storePair _ _ _ _=_ by decide +kernel
    have htarget : unopenedRound.target=some (lodRecord 1) := rfl
    have hfails : ∀ sephi,¬Loads unopenedRound.before unopenedRound.file sephi := by
      intro sephi hloads
      cases hloads.1.1
    exact (lod_result_iff quietEnv (fun _ => 0) 0 hlegal htarget rfl
      (fun sephi hloads => absurd hloads (hfails sephi))).mpr (.inl hfails) (-1) (.inr rfl)
  · have hlegal : (mainRound 0).Legal (fun _ => 0) := show storePair _ _ _ _=_ by decide +kernel
    have htarget : (mainRound 0).target=some (lodRecord 0) := rfl
    have hmain : ∀ sephi,Loads (mainRound 0).before (mainRound 0).file sephi →
        ExportsMain sephi := by
      intro sephi hloads
      obtain rfl := (mainRound_loads 0).1.unique hloads.1
      exact mainSephi_exports
    exact (lod_result_iff quietEnv (fun _ => 0) 0 hlegal htarget rfl hmain).mpr
      (.inr (by decide)) 5 (.inl ⟨mainSephi,mainRound_loads 0⟩)

/-- Main returns 0, and the second consumer gets nothing. -/
theorem lod_result_lost :
    (mainRound 1).Legal (fun _ => 0) ∧ (mainRound 1).target=some (lodRecord 1) ∧
      (lodRecord 1).opcode=OpcodeType.LOD.bits ∧
      (∃ sephi,Loads (mainRound 1).before (mainRound 1).file sephi ∧ ExportsMain sephi) ∧
      LoadResult quietEnv (fun _ => 0) 0 (mainRound 1) 0 [⟨32,0,7⟩] ∧
      ¬Delivers quietEnv (fun _ => 0) 0 (mainRound 1) (lodRecord 1) 0 := by
  have hlegal : (mainRound 1).Legal (fun _ => 0) := show storePair _ _ _ _=_ by decide +kernel
  have hanswers : (mainRound 1).answers=[⟨1,0,5,7,16,devNullDestination,0,0⟩,
      dupPacket (mainRound 1).address ((lodRecord 1).destination1.setWidth 64)
        (mainRound 1).next.token1.tag 24] := by decide +kernel
  have hresult := (loadResult_returned_iff quietEnv (fun _ => 0) 0 0 [⟨32,0,7⟩] _ 24 hanswers).mpr
    rfl
  refine ⟨hlegal,rfl,rfl,⟨_,mainRound_loads 1,mainSephi_exports⟩,hresult,?_⟩
  intro h
  exact absurd (h.2 _ hresult) (by decide)

end Manchester
