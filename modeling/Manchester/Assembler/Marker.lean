import Manchester.Assembler.Placement
import Manchester.Pipeline.FunctionUnit
import Manchester.Pipeline.StoreUnit

namespace Manchester

/-- The packets that the store makes of an instruction. A LOD whose load succeeds has no result of
its own: the loaded code gets its return location. -/
inductive Fires (inst : Instruction) : ExecutionPacket → Prop where
  | ready (overrun : TableOverrun) (i : Nat) (packet : ExecutionPacket)
    (h : readyPacket overrun i inst=some packet) : Fires inst packet
  | pair (overrun : TableOverrun) (address : Nat) (token1 token2 : TokenType)
    (packet : ExecutionPacket) (hload : inst.opcode ≠ OpcodeType.LOD.bits)
    (h : packet∈firePair overrun address inst token1 token2) : Fires inst packet
  | loadError (address : Nat) (tag : TagType) (hload : inst.opcode=OpcodeType.LOD.bits) :
    Fires inst (loadErrorPacket address inst tag)

/-- Every firing of the instruction sends its result to `destinations`. -/
def EmitsTo (inst : Instruction) (destinations : List DestinationType) : Prop :=
  ∀ packet,Fires inst packet → ∀ env random calls result calls',
    functionUnit env random calls packet=some (result,calls') →
      result.tokens.map TokenType.destination=destinations

def OpcodeType.choosesOutput : OpcodeType → Bool
  | .BRR | .NTG | .RTD => true
  | _ => false

/-- The destinations that a marker asks for. -/
def markedDestinations (marker : MarkerType) (destination1 destination2 : DestinationType) :
    List DestinationType :=
  destination1::if marker=bothOutputMarker then [destination2] else []

theorem pureResult_destinations (packet : ExecutionPacket) (output : ExecutionResult)
    (value : DataType) (hone : output.marker=oneOutputMarker) :
    (pureResult packet output value).tokens.map TokenType.destination=
      markedDestinations packet.marker packet.destination1 packet.destination2 := by
  have hne : oneOutputMarker ≠ bothOutputMarker := by decide
  by_cases hboth : packet.marker=bothOutputMarker
  · simp [pureResult,ExecutionResult.tokens,markedDestinations,hboth]
  · simp [pureResult,ExecutionResult.tokens,markedDestinations,hboth,hone,hne]

theorem functionUnit_destinations (env : FunctionEnv) (random : RandomStream) (calls calls' : Nat)
    (packet : ExecutionPacket) (o : OpcodeType) (result : ExecutionResult)
    (ho : packet.opcode=o.bits) (hvalue : o.choosesOutput=false)
    (h : functionUnit env random calls packet=some (result,calls')) :
    result.tokens.map TokenType.destination=
      markedDestinations packet.marker packet.destination1 packet.destination2 := by
  unfold functionUnit at h
  rw [ho,OpcodeType.ofBits_bits] at h
  cases o <;> first | (cases hvalue; done) | (cases h; done) | skip
  all_goals
    obtain ⟨rfl,-⟩ := Prod.mk.inj (Option.some.inj h)
    exact pureResult_destinations packet _ _ rfl

/-- Every packet of an instruction has its destinations and its marker, and its opcode unless it
reports that a load has failed. -/
theorem Fires.packet {inst : Instruction} {packet : ExecutionPacket} (h : Fires inst packet) :
    (packet.opcode=inst.opcode ∨ packet.opcode=OpcodeType.DUP.bits) ∧
      packet.destination1=inst.destination1 ∧ packet.destination2=inst.destination2 ∧
        packet.marker=inst.marker := by
  cases h with
  | ready overrun i packet h =>
    unfold readyPacket at h
    split_ifs at h <;> cases h <;> exact ⟨Or.inl rfl,rfl,rfl,rfl⟩
  | pair overrun address token1 token2 packet _ h =>
    unfold firePair at h
    split_ifs at h
    · rw [List.mem_singleton.mp h]
      exact ⟨Or.inl rfl,rfl,rfl,rfl⟩
    · rw [List.mem_singleton.mp h]
      exact ⟨Or.inl rfl,rfl,rfl,rfl⟩
    · cases h
  | loadError address tag _ => exact ⟨Or.inr rfl,rfl,rfl,rfl⟩

theorem emitsTo_marked (inst : Instruction) (o : OpcodeType) (ho : inst.opcode=o.bits)
    (hvalue : o.choosesOutput=false) :
    EmitsTo inst (markedDestinations inst.marker inst.destination1 inst.destination2) := by
  intro packet hfires env random calls result calls' h
  obtain ⟨hopcode,hd1,hd2,hmarker⟩ := hfires.packet
  rw [← hd1,← hd2,← hmarker]
  obtain hopcode | hopcode := hopcode
  · exact functionUnit_destinations env random calls calls' packet o result (hopcode.trans ho)
      hvalue h
  · exact functionUnit_destinations env random calls calls' packet .DUP result hopcode rfl h

namespace Assembler

/-- The instruction numbers are cut to 28 bits, so that this destination is the word zero. -/
def FirstPort (g : Graph) (d : Destination) : Prop :=
  d.input=.INPUT_ONE ∧ ∃ j node,g.instructionNodes[j]?=some d.node ∧ j%2^28=0 ∧
    g.heap[d.node]?=some node ∧ matchingFunction node=.ok matchingOne

/-- The word of a destination in the file. -/
abbrev FileSlot (g : Graph) (slot : Option Destination) (word : DestinationType) : Prop :=
  LoadedSlot g g.instructionNodes 0 slot word

theorem ofNat_createDestination (j input matching : Nat) (hi : input < 2) (hm : matching < 8) :
    BitVec.ofNat 32 (createDestination j input matching)=
      Manchester.createDestination (BitVec.ofNat 32 j) (BitVec.ofNat 32 input)
        (BitVec.ofNat 32 matching) := by
  have hinput : (BitVec.ofNat 32 input).toNat=input := by
    rw [BitVec.toNat_ofNat]
    omega
  have hmatching : (BitVec.ofNat 32 matching).toNat=matching := by
    rw [BitVec.toNat_ofNat]
    omega
  apply BitVec.eq_of_toNat_eq
  rw [Manchester.createDestination_toNat _ _ _ (by omega) (by omega),hinput,hmatching,
    createDestination_mod j input matching hi hm,BitVec.toNat_ofNat,BitVec.toNat_ofNat]
  omega

section Written

variable {g : Graph} {e : Emitted} {exportOrder : List Name}

theorem fileSlot_of_value {slot : Option Destination} {value : Option Nat}
    (h : SlotValue g g.instructionNodes slot value) :
    FileSlot g slot (BitVec.ofNat 32 (value.getD devNullDestination)) := by
  cases slot with
  | none =>
    obtain rfl : value=none := h
    change BitVec.ofNat 32 devNullDestination=Manchester.devNullDestination
    decide
  | some d =>
    obtain ⟨node,hnode,hvalue⟩ := h
    refine ⟨node,hnode,?_⟩
    split_ifs at hvalue ⊢
    · rw [hvalue]
      decide
    · rw [hvalue]
      decide
    · obtain ⟨j,m,hj,hm,rfl⟩ := hvalue
      have hm4 := matchingFunction_lt hm
      refine ⟨j,m,hj,hm,?_⟩
      rw [Nat.zero_add]
      exact ofNat_createDestination j _ m d.input.value_lt (by omega)

theorem firstPort_iff {d : Destination} : FirstPort g d ↔ ZeroSlot g g.instructionNodes d := by
  constructor
  · intro h
    obtain ⟨hinput,j,node,hj,hzero,hnode,hone⟩ := h
    have hon := List.of_mem_filter (List.mem_of_getElem? hj)
    exact ⟨hinput,j,node,hj,hzero,hnode,by simpa [Graph.isInstruction,hnode] using hon,hone⟩
  · intro h
    obtain ⟨hinput,j,node,hj,hzero,hnode,-,hone⟩ := h
    exact ⟨hinput,j,node,hj,hzero,hnode,hone⟩

/-- The records of the file, one for each instruction. -/
theorem serializeInstructions_records {instructions : List AsmInstruction} {bytes : List UInt8}
    (h : serializeInstructions instructions=.ok bytes) :
    readTable readInstruction instructionSize instructions.length bytes 0=
      instructions.map AsmInstruction.record := by
  obtain ⟨-,hread⟩ := readTable_encoded AsmInstruction.toBinary AsmInstruction.record
    readInstruction instructionSize readInstruction_local instructions
    (fun _ _ _ hbytes => AsmInstruction.toBinary_ok hbytes) bytes h
  have hall := hread [] []
  simpa using hall

end Written

/-- In the file an instruction that computes a value has the marker and the destinations of its
node: with two destinations every firing emits to both exactly when the second one is not the
first port of an instruction whose number is a multiple of 2^28, matched by one token. -/
theorem serialize_instructions_marks (input : List Name) (parsed g : Graph)
    (exportOrder : List Name) (e : Emitted) (bytes : List UInt8)
    (hparse : parseCreateIrGraph input=.ok parsed) (hoptimize : optimizeGraph parsed=.ok g)
    (hemit : graphToInstructions g exportOrder=some (.ok e))
    (hbytes : serializeInstructions e.instructions=.ok bytes) (k id : Nat) (node : Node)
    (o : OpcodeType) (hk : g.instructionNodes[k]?=some id) (hnode : g.heap[id]?=some node)
    (hop : node.opcode=.op o) (hvalue : o.choosesOutput=false) :
    ∃ inst w1 w2,
      (readTable readInstruction instructionSize e.instructions.length bytes 0)[k]?=some inst ∧
      FileSlot g node.destination1 w1 ∧ FileSlot g node.destination2 w2 ∧
      (node.destination1=none → node.destination2=none) ∧
      (∀ d2,node.destination2=some d2 →
        (inst.marker=bothOutputMarker ∧ EmitsTo inst [w1,w2] ↔ ¬FirstPort g d2)) ∧
      (node.destination2=none → inst.marker=oneOutputMarker ∧ EmitsTo inst [w1]) := by
  obtain ⟨read,-,hparsed,hg,he,horder,-⟩ := parse_emitted hparse hoptimize hemit
  obtain ⟨ainst,hainst,has⟩ := he.instruction k id node (horder ▸ hk) hnode
  rw [horder] at has
  have hchoose : node.opcode.choosesOutput=false := by
    rw [hop]
    cases o <;> first | rfl | cases hvalue
  obtain ⟨-,hfirst⟩ := hparsed.value_node (hg ▸ hnode) hchoose
  have hopcode : ainst.record.opcode=o.bits := by
    rw [AsmInstruction.record,has.opcode,hop]
    rfl
  have hmarked := emitsTo_marked ainst.record o hopcode hvalue
  have hne : oneOutputMarker ≠ bothOutputMarker := by decide
  have hnodup := horder ▸ he.nodup
  refine ⟨ainst.record,ainst.record.destination1,ainst.record.destination2,?_,
    fileSlot_of_value has.slot1,fileSlot_of_value has.slot2,hfirst,?_,?_⟩
  · rw [serializeInstructions_records hbytes,List.getElem?_map,hainst]
    rfl
  · intro d2 hd2
    rw [firstPort_iff]
    constructor
    · intro hemits hzero
      have hone := has.oneOutput hnodup fun d hd => by
        obtain rfl := Option.some.inj (hd2.symm.trans hd)
        exact hzero
      exact hne (hone.symm.trans hemits.1)
    · intro hzero
      have hboth := has.bothOutputs hnodup hd2 hzero
      rw [markedDestinations,if_pos hboth] at hmarked
      exact ⟨hboth,hmarked⟩
  · intro hd2
    have hone := has.oneOutput hnodup fun d hd => by
      rw [hd2] at hd
      cases hd
    rw [markedDestinations,hone,if_neg hne] at hmarked
    exact ⟨hone,hmarked⟩

theorem serialize_of_file {e : Emitted} {bytes : List UInt8} (h : e.file=.ok bytes) :
    ∃ written,serializeInstructions e.instructions=.ok written := by
  obtain ⟨header,rest,-,h1,-⟩ := concatFields_cons_ok h
  obtain ⟨instructions,rest',hinstructions,-,-⟩ := concatFields_cons_ok h1
  exact ⟨instructions,hinstructions⟩

/-- Two uses of x; the second one goes to the DUP. -/
private def sumLines (lines : List String) : List Name := (["OUTD x"]++lines).map String.toList

/-- The instruction of the sum comes first, so that of the DUP is no first instruction. -/
theorem serialize_instructions_marks_sum :
    ∃ (g : Graph) (e : Emitted) (file bytes : List UInt8) (inst : Instruction)
      (w1 w2 : DestinationType),
      assembleFile (sumLines ["x = ADD 1 2","y = DUP x"]) []=some (g,e,file) ∧
      serializeInstructions e.instructions=.ok bytes ∧
      (readTable readInstruction instructionSize e.instructions.length bytes 0)[0]?=some inst ∧
      FileSlot g (some ⟨2,.INPUT_ONE⟩) w2 ∧ inst.marker=bothOutputMarker ∧
        EmitsTo inst [w1,w2] := by
  have hcheck : (assembleFile (sumLines ["x = ADD 1 2","y = DUP x"]) []).any (fun r =>
      r.1.instructionNodes=[1,2] ∧ (r.1.heap[1]?).map (fun node =>
        (node.opcode,node.destination2))=some (.op .ADD,some ⟨2,.INPUT_ONE⟩))=true := by
    decide +kernel
  obtain ⟨⟨g,e,file⟩,hassemble,hcheck⟩ := (Option.any_eq_true _ _).mp hcheck
  obtain ⟨hnodes,hsum⟩ := of_decide_eq_true hcheck
  obtain ⟨node,hnode,hparts⟩ := Option.map_eq_some_iff.mp hsum
  obtain ⟨hop,hd2⟩ := Prod.mk.inj hparts
  obtain ⟨parsed,hparse,hoptimize,hemit,hfile⟩ := assembleFile_steps hassemble
  obtain ⟨bytes,hbytes⟩ := serialize_of_file hfile
  obtain ⟨inst,w1,w2,hinst,-,hw2,-,hboth,-⟩ := serialize_instructions_marks _ parsed g [] e bytes
    hparse hoptimize hemit hbytes 0 1 node .ADD (by rw [hnodes]; rfl) hnode hop rfl
  have hnot : ¬FirstPort g ⟨2,.INPUT_ONE⟩ := by
    intro ⟨_,j,_,hj,hzero,_⟩
    rw [hnodes] at hj
    match j,hj with
    | 0,hj => cases hj
    | 1,_ => cases hzero
    | j+2,hj => cases hj
  obtain ⟨hmarker,hemits⟩ := (hboth _ hd2).mpr hnot
  exact ⟨g,e,file,bytes,inst,w1,w2,hassemble,hbytes,hinst,hd2 ▸ hw2,hmarker,hemits⟩

/-- The DUP is instruction 0: the sum has two destinations, and its marker says one. -/
theorem serialize_instructions_drops_dup :
    ∃ (g : Graph) (e : Emitted) (file bytes : List UInt8) (node : Node) (inst : Instruction),
      assembleFile (sumLines ["y = DUP x","x = ADD 1 2"]) []=some (g,e,file) ∧
      serializeInstructions e.instructions=.ok bytes ∧
      g.instructionNodes[1]?=some 2 ∧ g.heap[2]?=some node ∧ node.opcode=.op .ADD ∧
      node.destination1=some ⟨0,.INPUT_ONE⟩ ∧ node.destination2=some ⟨1,.INPUT_ONE⟩ ∧
      (readTable readInstruction instructionSize e.instructions.length bytes 0)[1]?=some inst ∧
      inst.marker=oneOutputMarker ∧ EmitsTo inst [inst.destination1] := by
  have hcheck : (assembleFile (sumLines ["y = DUP x","x = ADD 1 2"]) []).any (fun r =>
      r.1.instructionNodes=[1,2] ∧ (r.1.heap[2]?).map (fun node =>
        (node.opcode,node.destination1,node.destination2))=
          some (.op .ADD,some ⟨0,.INPUT_ONE⟩,some ⟨1,.INPUT_ONE⟩) ∧
        (r.2.1.instructions[1]?).map (fun inst => (inst.opcode,inst.marker))=
          some (.op .ADD,0))=true := by
    decide +kernel
  obtain ⟨⟨g,e,file⟩,hassemble,hcheck⟩ := (Option.any_eq_true _ _).mp hcheck
  obtain ⟨hnodes,hsum,hmark⟩ := of_decide_eq_true hcheck
  obtain ⟨node,hnode,hparts⟩ := Option.map_eq_some_iff.mp hsum
  obtain ⟨hop,hparts⟩ := Prod.mk.inj hparts
  obtain ⟨hd1,hd2⟩ := Prod.mk.inj hparts
  obtain ⟨ainst,hainst,hmark⟩ := Option.map_eq_some_iff.mp hmark
  obtain ⟨hadd,hzero⟩ := Prod.mk.inj hmark
  obtain ⟨parsed,-,-,-,hfile⟩ := assembleFile_steps hassemble
  obtain ⟨bytes,hbytes⟩ := serialize_of_file hfile
  have hone : ainst.record.marker=oneOutputMarker := by
    change BitVec.ofNat 8 ainst.marker=_
    rw [hzero]
    rfl
  refine ⟨g,e,file,bytes,node,ainst.record,hassemble,hbytes,by rw [hnodes]; rfl,hnode,hop,hd1,hd2,
    ?_,hone,?_⟩
  · rw [serializeInstructions_records hbytes,List.getElem?_map,hainst]
    rfl
  · have hmarked := emitsTo_marked ainst.record .ADD (by rw [AsmInstruction.record,hadd]; rfl) rfl
    rw [hone] at hmarked
    exact hmarked

end Assembler

end Manchester
