import Manchester.Assembler.Targets
import Manchester.Pipeline.Machine

namespace Manchester

def Instruction.slot (inst : Instruction) : Assembler.DestSlot → DestinationType
  | .destination1 => inst.destination1
  | .destination2 => inst.destination2

/-- The words of an image that name instructions: what the loader moves with the image. -/
inductive ImageWord (sephi : Sephi) : DestinationType → Prop where
  | destination1 (k : Nat) (inst : Instruction) (h : sephi.instructions[k]?=some inst)
    (hconstant : isInList sephi.constants k .FIRST_DESTINATION=false)
    (hdevNull : inst.destination1 ≠ devNullDestination) : ImageWord sephi inst.destination1
  | destination2 (k : Nat) (inst : Instruction) (h : sephi.instructions[k]?=some inst)
    (hconstant : isInList sephi.constants k .SECOND_DESTINATION=false)
    (hdevNull : inst.destination2 ≠ devNullDestination) : ImageWord sephi inst.destination2
  | literal1 (k : Nat) (inst : Instruction) (h : sephi.instructions[k]?=some inst)
    (hlabel : isInList sephi.toFix k .FIRST_LITERAL=true) :
    ImageWord sephi (inst.literal1.setWidth 32)
  | literal2 (k : Nat) (inst : Instruction) (h : sephi.instructions[k]?=some inst)
    (hlabel : isInList sephi.toFix k .SECOND_LITERAL=true) :
    ImageWord sephi (inst.literal2.setWidth 32)
  | exported (symbol : ExportSymbol) (h : symbol∈sephi.exports) :
    ImageWord sephi symbol.localDestination

/-- The words do not depend on the names. -/
theorem ImageWord.mono {sephi sephi' : Sephi} {w : DestinationType} (h : ImageWord sephi w)
    (hinstructions : sephi'.instructions=sephi.instructions)
    (hconstants : sephi'.constants=sephi.constants) (htoFix : sephi'.toFix=sephi.toFix)
    (hexports : ∀symbol∈sephi.exports,∃symbol'∈sephi'.exports,
      symbol'.localDestination=symbol.localDestination) : ImageWord sephi' w := by
  cases h with
  | destination1 k inst hk hconstant hdevNull =>
    exact .destination1 k inst (hinstructions ▸ hk) (hconstants ▸ hconstant) hdevNull
  | destination2 k inst hk hconstant hdevNull =>
    exact .destination2 k inst (hinstructions ▸ hk) (hconstants ▸ hconstant) hdevNull
  | literal1 k inst hk hlabel => exact .literal1 k inst (hinstructions ▸ hk) (htoFix ▸ hlabel)
  | literal2 k inst hk hlabel => exact .literal2 k inst (hinstructions ▸ hk) (htoFix ▸ hlabel)
  | exported symbol hsymbol =>
    obtain ⟨symbol',hsymbol',hsame⟩ := hexports symbol hsymbol
    rw [← hsame]
    exact .exported symbol' hsymbol'

/-- Wherever the instruction is loaded, what the store makes of one token for it does not depend
on what the second token of the pair holds. A load changes destinations and literals. -/
def Alone (inst : Instruction) : Prop :=
  ∀ (overrun : TableOverrun) (env env' : StoreEnv) (store : InstructionStore)
    (loaded : Instruction) (token : TokenType),env.openFile=env'.openFile →
    env.behind=env'.behind →
    loaded.opcode=inst.opcode → loaded.instructionLiteral=inst.instructionLiteral →
    store.instructions[(destinationToAddress token.destination).toNat]?=some loaded →
      storePair overrun env store ⟨token,none⟩=storePair overrun env' store ⟨token,none⟩

/-- The word names an instruction of the image that takes tokens, in the way that it needs. -/
def NamesFit (instructions : List Instruction) (word : DestinationType) : Prop :=
  ∃ inst,instructions[(destinationToAddress word).toNat]?=some inst ∧
    (∀ overrun,TargetFits overrun inst (destinationToMatchingFunction word)) ∧
      inst.instructionLiteral ≠ InstructionLiteralType.TWO.bits ∧
        (destinationToMatchingFunction word ≠ matchingBoth → Alone inst)

def ImageWellAddressed (sephi : Sephi) : Prop :=
  ∀ word,ImageWord sephi word → NamesFit sephi.instructions word

theorem alone_of_fits {inst : Instruction} {matching : BitVec 32}
    (hfits : ∀ overrun,TargetFits overrun inst matching) (hone : matching ≠ matchingBoth)
    (hload : inst.opcode ≠ OpcodeType.LOD.bits) : Alone inst := by
  intro overrun env env' store loaded token _ _ hop hliteral hloaded
  have hfits' : TargetFits overrun loaded matching := by
    have h := hfits overrun
    rw [TargetFits,← hop,← hliteral] at h
    exact h
  have hsingle : matching=matchingOne ∨ matching=matchingAny := by
    obtain ⟨h,-⟩ | ⟨h,-⟩ | ⟨h,-⟩ := hfits'
    · exact Or.inl h
    · exact Or.inr h
    · exact absurd h hone
  have hload' : loaded.opcode ≠ OpcodeType.LOD.bits := by
    rw [hop]
    exact hload
  have hstore : ∀ env : StoreEnv,storePair overrun env store ⟨token,none⟩=some (store,
      firePair overrun (destinationToAddress token.destination).toNat loaded token
        env.unsetToken) := fun env => storePair_some overrun env hloaded hload'
  have hleft := hstore env
  have hright := hstore env'
  rw [firePair_single overrun _ loaded token _ hfits' hsingle] at hleft hright
  exact hleft.trans hright.symm

namespace Assembler

/-- A file without instructions that exports the two names of a main function. -/
def mainFile : Emitted :=
  ⟨[],[],[],[],[],[⟨0,mainArgName⟩,⟨0,mainReturnName⟩]⟩

end Assembler

/-- A LOD hands the word of the second token to the code that it loads. -/
theorem not_alone_of_load {inst : Instruction} (hload : inst.opcode=OpcodeType.LOD.bits) :
    ¬Alone inst := by
  intro halone
  obtain ⟨bytes,hbytes⟩ : ∃ bytes,Assembler.mainFile.file=.ok bytes := by
    cases hfile : Assembler.mainFile.file with
    | ok bytes => exact ⟨bytes,rfl⟩
    | error e =>
      have hok : Assembler.mainFile.file.toOption.isSome=true := by decide +kernel
      simp [hfile,Except.toOption] at hok
  have hparse := Assembler.Emitted.parse_file hbytes (by decide +kernel)
  have hsephi : Assembler.mainFile.sephi=
      ⟨[],[],[],[⟨0,mainArgName⟩,⟨0,mainReturnName⟩],[]⟩ := by decide +kernel
  let exports : List ExportNode := [newExportNode 1 ⟨0,mainArgName⟩,
    newExportNode 1 ⟨0,mainReturnName⟩]
  have hfile : loadFile .clear ⟨[inst],[]⟩ (some bytes) false=
      some (⟨some 1,0,exports,0⟩,⟨[inst],exports⟩) := by
    simp only [loadFile,Option.bind_some,hparse,hsephi]
    simp [resolveReferences,exports]
  let env (word : DataType) : StoreEnv := ⟨⟨0,word,0⟩,fun _ => some bytes,.clear⟩
  have hsame := halone (fun _ => 0) (env 0) (env 1) ⟨[inst],[]⟩ inst ⟨0,0,0⟩ rfl rfl rfl
    rfl rfl
  have hstore : ∀ word : DataType,storePair (fun _ => 0) (env word) ⟨[inst],[]⟩ ⟨⟨0,0,0⟩,none⟩=
      loadProgram (fun _ => 0) (env word) ⟨[inst],[]⟩ 0 inst ⟨0,0,0⟩ ⟨0,word,0⟩ := by
    intro word
    have hzero : (destinationToAddress 0#32).toNat=0 := by decide
    simp [storePair,hzero,hload,env]
  rw [hstore,hstore] at hsame
  obtain ⟨arg,harg⟩ : ∃ arg,findLastExport exports mainArgName=some arg :=
    Option.isSome_iff_exists.mp (by decide +kernel)
  obtain ⟨ret,hret⟩ : ∃ ret,findLastExport exports mainReturnName=some ret :=
    Option.isSome_iff_exists.mp (by decide +kernel)
  simp [loadProgram,env,hfile,mainPackets,harg,hret,dupPacket] at hsame

namespace Assembler

theorem bits_injective {o o' : OpcodeType} (h : o.bits=o'.bits) : o=o' := by
  have hsome : some o=some o' := by rw [← OpcodeType.ofBits_bits,h,OpcodeType.ofBits_bits]
  exact Option.some.inj hsome

/-- The two tables of operand counts differ in MER only. -/
theorem numInputs_machine (overrun : TableOverrun) (o : OpcodeType) :
    numInputs overrun o.bits=if o=.MER then 1 else (Opcode.op o).numInputs := by
  rw [numInputs_opcode]
  cases o <;> rfl

section Records

variable {g : Graph} {order : List Nat} {node : Node} {inst : AsmInstruction}

theorem EmittedAs.instructionLiteral (h : EmittedAs g order node inst) :
    (inst.record.instructionLiteral=InstructionLiteralType.NONE.bits ↔ node.operands.length=0) ∧
      (inst.record.instructionLiteral=InstructionLiteralType.ONE.bits ↔
        node.operands.length=1) ∧
      (inst.record.instructionLiteral=InstructionLiteralType.TWO.bits ↔
        ¬node.operands.length < 2) := by
  have h1 := h.literal_none
  have hkind : inst.record.instructionLiteral=inst.literalType.bits := rfl
  rw [hkind,AsmInstruction.literalType,h.literal2]
  unfold Node.operands
  cases hin1 : node.input1 with
  | none =>
    rw [hin1] at h1
    cases hin2 : node.input2 <;> simp [h1.mpr rfl] <;> decide
  | some arg =>
    have hne : inst.literal1 ≠ none := fun hnone => by simp [h1.mp hnone] at hin1
    cases hin2 : node.input2 <;> simp [hne] <;> decide

theorem EmittedAs.fits_iff (h : EmittedAs g order node inst) {o : OpcodeType}
    (hop : node.opcode=.op o) {m : Nat} (hm : m < 4) :
    ((∀ overrun,TargetFits overrun inst.record (BitVec.ofNat 32 m)) ∧
      inst.record.instructionLiteral ≠ InstructionLiteralType.TWO.bits) ↔ node.Needs m := by
  obtain ⟨hnone,hone,htwo⟩ := h.instructionLiteral
  have hopcode : inst.record.opcode=o.bits := by
    rw [AsmInstruction.record,h.opcode,hop]
    rfl
  have hmer : inst.record.opcode=OpcodeType.MER.bits ↔ node.opcode=.op .MER := by
    rw [hopcode,hop,Opcode.op.injEq]
    exact ⟨bits_injective,fun heq => by rw [heq]⟩
  have hword : ∀ n < 4,(BitVec.ofNat 32 m=BitVec.ofNat 32 n ↔ m=n) := by
    intro n hn
    constructor
    · intro heq
      have hnat := congrArg BitVec.toNat heq
      simp only [BitVec.toNat_ofNat] at hnat
      omega
    · exact fun heq => by rw [heq]
  have hcount : ∀ (overrun : TableOverrun) (n : Nat),node.opcode ≠ .op .MER →
      (numInputs overrun inst.record.opcode=n ↔ node.opcode.numInputs=n) := by
    intro overrun n hne
    rw [hopcode,numInputs_machine,if_neg (fun heq => hne (by rw [hop,heq])),hop]
  have h1 : BitVec.ofNat 32 m=Manchester.matchingOne ↔ m=matchingOne := hword 0 (by decide)
  have h2 : BitVec.ofNat 32 m=Manchester.matchingAny ↔ m=matchingAny := hword 2 (by decide)
  have h3 : BitVec.ofNat 32 m=Manchester.matchingBoth ↔ m=matchingBoth := hword 1 (by decide)
  unfold TargetFits Node.Needs
  simp only [ne_eq,htwo,not_not,h1,h2,h3,hmer,hnone,hone]
  rw [and_comm]
  apply and_congr_right
  intro _
  constructor
  · intro hfits
    obtain ⟨hm1,hne,hsingle⟩ | hany | ⟨hm3,hzero,hdyadic⟩ := hfits fun _ => 0
    · refine Or.inl ⟨hm1,hne,?_⟩
      rw [hcount _ _ hne] at hsingle
      exact hsingle.symm
    · exact Or.inr (Or.inl hany)
    · have hne : node.opcode ≠ .op .MER := by
        intro heq
        rw [hmer.mpr heq] at hdyadic
        exact absurd hdyadic (by decide)
      rw [hcount _ _ hne] at hdyadic
      exact Or.inr (Or.inr ⟨hm3,hdyadic,hne,hzero⟩)
  · intro hneeds overrun
    obtain ⟨hm1,hne,hsingle⟩ | hany | ⟨hm3,hdyadic,hne,hzero⟩ := hneeds
    · refine Or.inl ⟨hm1,hne,?_⟩
      rw [hcount _ _ hne]
      exact hsingle.symm
    · exact Or.inr (Or.inl hany)
    · exact Or.inr (Or.inr ⟨hm3,hzero,(hcount overrun 2 hne).mpr hdyadic⟩)

end Records

/-- A label that the image holds the destination of, as a literal or as an export. -/
def Graph.LabelTaken (g : Graph) (target : Nat) : Prop :=
  (∃id∈g.instructionNodes,∃ node,g.heap[id]?=some node ∧
    g.labelTarget node.input1=some target) ∨ ∃symbol∈g.exports,g.labels symbol=some target

/-- The image has a word for the node: that of a label or of an edge. -/
def Graph.Aimed (g : Graph) (target : Nat) : Prop :=
  g.LabelTaken target ∨ ∃id∈g.instructionNodes,∃ node slot d,g.heap[id]?=some node ∧
    node.slot slot=some d ∧ d.node=target

/-- One operand is left, or the opcode has only one: the node takes tokens that come alone. -/
def Node.TakesOne (node : Node) : Prop :=
  node.opcode ≠ .op .MER ∧ node.operands.length < 2 ∧
    (node.opcode.numInputs=1 ∨ node.operands.length=1)

theorem Node.needs_one_iff (node : Node) : node.Needs matchingOne ↔ node.TakesOne := by
  have hany : matchingOne ≠ matchingAny := by decide
  have hboth : matchingOne ≠ matchingBoth := by decide
  simp only [Node.Needs,Node.TakesOne,hany,hboth,true_and,false_and,or_false]
  exact and_left_comm

/-- A LOD with one operand left takes tokens that come alone, and any other takes pairs. -/
theorem Node.Needs.load_iff {node : Node} {m : Nat} (h : node.Needs m)
    (hlod : node.opcode=.op .LOD) : node.operands.length=1 ↔ m ≠ matchingBoth := by
  have hinputs : node.opcode.numInputs ≠ 1 := by rw [hlod]; decide
  have hmer : node.opcode ≠ .op .MER := by rw [hlod]; decide
  obtain ⟨-,⟨hone,-,halone | halone⟩ | ⟨-,hmer'⟩ | ⟨hboth,-,-,hzero⟩⟩ := h
  · exact absurd halone hinputs
  · refine iff_of_true halone ?_
    rw [hone]
    decide
  · exact absurd hmer' hmer
  · exact iff_of_false (by omega) (not_not_intro hboth)

section Words

variable {g : Graph} {exportOrder : List Name} {e : Emitted} {j id : Nat} {node : Node}

/-- What the word of a node is good for. -/
theorem namesFit_iff (he : EmittedGraph g exportOrder e) (hroom : e.order.length ≤ 2^28)
    {port m : Nat} (hj : e.order[j]?=some id) (hnode : g.heap[id]?=some node) (hport : port < 2)
    (hm : m < 4) :
    NamesFit e.sephi.instructions (BitVec.ofNat 32 (createDestination j port m)) ↔
      node.Needs m ∧ (m ≠ matchingBoth → node.opcode ≠ .op .LOD) := by
  have hlt := (List.getElem?_eq_some_iff.mp hj).1
  have hword := toNat_ofNat_destination j port m (by omega) hport (by omega)
  have haddress : (destinationToAddress (BitVec.ofNat 32 (createDestination j port m))).toNat=j := by
    rw [destinationToAddress_toNat,hword]
    omega
  have hmatching : destinationToMatchingFunction
      (BitVec.ofNat 32 (createDestination j port m))=BitVec.ofNat 32 m := by
    apply BitVec.eq_of_toNat_eq
    rw [destinationToMatchingFunction_toNat,hword,BitVec.toNat_ofNat]
    omega
  obtain ⟨inst,hinst,has⟩ := he.instruction j id node hj hnode
  have hrecord : e.sephi.instructions[j]?=some inst.record := by simp [Emitted.sephi,hinst]
  obtain ⟨o,hop⟩ : ∃ o,node.opcode=.op o := by
    obtain ⟨node',hnode',hspecial⟩ := he.nodes id (List.mem_of_getElem? hj)
    obtain rfl : node=node' := Option.some.inj (hnode.symm.trans hnode')
    cases ho : node.opcode with
    | OUTD | OUTS => simp [ho,Opcode.isSpecial] at hspecial
    | op o => exact ⟨o,rfl⟩
  have hload : inst.record.opcode=OpcodeType.LOD.bits ↔ node.opcode=.op .LOD := by
    rw [AsmInstruction.record,has.opcode,hop,Opcode.op.injEq]
    exact ⟨bits_injective,fun heq => by rw [heq]; rfl⟩
  have hboth : BitVec.ofNat 32 m=Manchester.matchingBoth ↔ m=matchingBoth := by
    constructor
    · intro heq
      have hnat := congrArg BitVec.toNat heq
      have hone : Manchester.matchingBoth.toNat=matchingBoth := by decide
      rw [BitVec.toNat_ofNat,hone] at hnat
      omega
    · exact fun heq => by rw [heq]; rfl
  unfold NamesFit
  rw [haddress,hmatching,ne_eq (BitVec.ofNat 32 m),hboth]
  constructor
  · intro hnames
    obtain ⟨inst',hinst',hfits,htwo,halone⟩ := hnames
    obtain rfl := Option.some.inj (hrecord.symm.trans hinst')
    refine ⟨(has.fits_iff hop hm).mp ⟨hfits,htwo⟩,?_⟩
    intro hne hlod
    exact not_alone_of_load (hload.mpr hlod) (halone hne)
  · intro hfit
    obtain ⟨hneeds,hsingle⟩ := hfit
    obtain ⟨hfits,htwo⟩ := (has.fits_iff hop hm).mpr hneeds
    refine ⟨inst.record,hrecord,hfits,htwo,?_⟩
    intro hne
    exact alone_of_fits hfits (fun h => hne (hboth.mp h))
      fun h => hsingle hne (hload.mp h)

/-- The word that a label stands for in the image. -/
theorem setWidth_label (t : Nat) :
    (literalWord (some (.int (createDestination t Input.INPUT_ONE.value matchingOne)))).setWidth 32=
      BitVec.ofNat 32 (createDestination t Input.INPUT_ONE.value matchingOne) := by
  apply BitVec.eq_of_toNat_eq
  simp only [literalWord,BitVec.toNat_setWidth,BitVec.toNat_ofInt,BitVec.toNat_ofNat]
  omega

theorem emitExports_only {s : EmitState} (symbols : List Name) (exports : List ExportedSymbol)
    (h : emitExports g s symbols=.ok exports) : ∀x∈exports,∃symbol∈symbols,∃ t target,
      g.labels symbol=some target ∧ s.order[t]?=some target ∧
        x=⟨createDestination t Input.INPUT_ONE.value matchingOne,encode symbol⟩ := by
  induction symbols generalizing exports with
  | nil =>
    cases h
    simp
  | cons symbol symbols ih =>
    simp only [emitExports] at h
    split at h
    · rename_i t rest ht hrest
      cases h
      obtain ⟨target,htarget,hidx⟩ := Option.bind_eq_some_iff.mp ht
      intro x hx
      obtain rfl | hx := List.mem_cons.mp hx
      · exact ⟨symbol,by simp,t,target,htarget,nodeToIdx_sound hidx,rfl⟩
      · obtain ⟨other,hother,hrest⟩ := ih rest hrest x hx
        exact ⟨other,by simp [hother],hrest⟩
    · cases h
    · cases h

theorem graphToInstructions_exports (h : graphToInstructions g exportOrder=some (.ok e)) :
    ∀x∈e.exports,∃symbol∈exportOrder,∃ t target,g.labels symbol=some target ∧
      e.order[t]?=some target ∧
        x=⟨createDestination t Input.INPUT_ONE.value matchingOne,encode symbol⟩ := by
  unfold graphToInstructions at h
  split at h
  · cases h
  · cases h
  · split at h
    · cases h
    · rename_i hexports
      cases h
      exact emitExports_only _ _ hexports

/-- The word of a label. -/
abbrev labelWord (j : Nat) : DestinationType :=
  BitVec.ofNat 32 (createDestination j Input.INPUT_ONE.value matchingOne)

/-- An edge to an instruction has the matching function of the assembler. -/
def Graph.EdgeWord (g : Graph) (order : List Nat) (target : Nat) (w : DestinationType) : Prop :=
  ∃id∈order,∃ node slot d receiver j m,g.heap[id]?=some node ∧ node.slot slot=some d ∧
    d.node=target ∧ g.heap[target]?=some receiver ∧ order[j]?=some target ∧
      matchingFunction receiver=.ok m ∧
        w=BitVec.ofNat 32 (createDestination j d.input.value m)

theorem slotWord_cases {slot : Option Destination} {value : Option Nat}
    (h : SlotValue g e.order slot value) (hconstant : ¬AimsAtOutput g slot)
    (hdevNull : BitVec.ofNat 32 (value.getD devNullDestination) ≠ Manchester.devNullDestination) :
    ∃ d receiver j m,slot=some d ∧ g.heap[d.node]?=some receiver ∧ e.order[j]?=some d.node ∧
      matchingFunction receiver=.ok m ∧ BitVec.ofNat 32 (value.getD devNullDestination)=
        BitVec.ofNat 32 (createDestination j d.input.value m) := by
  cases slot with
  | none =>
    obtain rfl : value=none := h
    exact absurd (by decide) hdevNull
  | some d =>
    obtain ⟨receiver,hreceiver,hvalue⟩ := h
    split_ifs at hvalue with houtd houts
    · exact absurd ⟨d,receiver,rfl,hreceiver,by rw [houtd]; rfl⟩ hconstant
    · exact absurd ⟨d,receiver,rfl,hreceiver,by rw [houts]; rfl⟩ hconstant
    · obtain ⟨j,m,hj,hm,rfl⟩ := hvalue
      exact ⟨d,receiver,j,m,rfl,hreceiver,hj,hm,rfl⟩

/-- The node of a record. -/
theorem EmittedGraph.at_record (he : EmittedGraph g exportOrder e) {k : Nat} {inst : Instruction}
    (hk : e.sephi.instructions[k]?=some inst) :
    ∃ id node ainst,e.order[k]?=some id ∧ g.heap[id]?=some node ∧ inst=ainst.record ∧
      EmittedAs g e.order node ainst := by
  have hlt : k < e.order.length := by
    have hk := (List.getElem?_eq_some_iff.mp hk).1
    simpa [Emitted.sephi,he.length] using hk
  have hid := List.getElem?_eq_getElem hlt
  obtain ⟨node,hnode,-⟩ := he.nodes _ (List.mem_of_getElem? hid)
  obtain ⟨ainst,hainst,has⟩ := he.instruction k _ node hid hnode
  refine ⟨_,node,ainst,hid,hnode,?_,has⟩
  simp only [Emitted.sephi,List.getElem?_map,hainst] at hk
  exact (Option.some.inj hk).symm

/-- The words of the image are those of labels and of edges. -/
theorem imageWord_cases (he : EmittedGraph g exportOrder e)
    (hemit : graphToInstructions g exportOrder=some (.ok e)) (horder : e.order=g.instructionNodes)
    (hexports : exportOrder.Perm g.exports) (hsmall : e.order.length < 2^32) {w : DestinationType}
    (h : ImageWord e.sephi w) :
    (∃ target j,g.LabelTaken target ∧ e.order[j]?=some target ∧ w=labelWord j) ∨
      ∃ target,g.EdgeWord e.order target w := by
  cases h with
  | destination1 k inst hk hconstant hdevNull =>
    obtain ⟨id,node,ainst,hid,hnode,rfl,has⟩ := he.at_record hk
    have haims := (isInList_constants he hsmall hid hnode).1
    rw [hconstant] at haims
    obtain ⟨d,receiver,j,m,hd,hreceiver,hj,hm,hw⟩ :=
      slotWord_cases has.slot1 (fun h => by simpa using haims.mpr h) hdevNull
    exact Or.inr ⟨d.node,id,List.mem_of_getElem? hid,node,.destination1,d,receiver,j,m,hnode,hd,
      rfl,hreceiver,hj,hm,hw⟩
  | destination2 k inst hk hconstant hdevNull =>
    obtain ⟨id,node,ainst,hid,hnode,rfl,has⟩ := he.at_record hk
    have haims := (isInList_constants he hsmall hid hnode).2
    rw [hconstant] at haims
    obtain ⟨d,receiver,j,m,hd,hreceiver,hj,hm,hw⟩ :=
      slotWord_cases has.slot2 (fun h => by simpa using haims.mpr h) hdevNull
    exact Or.inr ⟨d.node,id,List.mem_of_getElem? hid,node,.destination2,d,receiver,j,m,hnode,hd,
      rfl,hreceiver,hj,hm,hw⟩
  | literal1 k inst hk hlabel =>
    obtain ⟨id,node,ainst,hid,hnode,rfl,has⟩ := he.at_record hk
    have htaken := (isInList_labels he hsmall hid hnode).1.mp hlabel
    obtain ⟨target,htarget⟩ := Option.isSome_iff_exists.mp htaken
    have hvalue := has.literal1
    rw [LiteralValue,htarget] at hvalue
    obtain ⟨j,hj,hliteral⟩ := hvalue
    refine Or.inl ⟨target,j,Or.inl ⟨id,?_,node,hnode,htarget⟩,hj,?_⟩
    · exact horder ▸ List.mem_of_getElem? hid
    · rw [AsmInstruction.record,hliteral]
      exact setWidth_label j
  | literal2 k inst hk hlabel =>
    obtain ⟨id,node,ainst,hid,hnode,-,-⟩ := he.at_record hk
    rw [(isInList_labels he hsmall hid hnode).2] at hlabel
    cases hlabel
  | exported symbol hsymbol =>
    obtain ⟨x,hx,rfl⟩ := List.mem_map.mp hsymbol
    obtain ⟨name,hname,t,target,hlabel,ht,rfl⟩ := graphToInstructions_exports hemit x hx
    exact Or.inl ⟨target,t,Or.inr ⟨name,hexports.mem_iff.mp hname,hlabel⟩,ht,rfl⟩

theorem labelWord_of_taken (he : EmittedGraph g exportOrder e)
    (horder : e.order=g.instructionNodes) (hexports : exportOrder.Perm g.exports)
    (hsmall : e.order.length < 2^32) {target : Nat} (h : g.LabelTaken target) :
    ∃ j,e.order[j]?=some target ∧ ImageWord e.sephi (labelWord j) := by
  obtain ⟨id,hid,node,hnode,htarget⟩ | ⟨symbol,hsymbol,hlabel⟩ := h
  · obtain ⟨k,hk⟩ := List.mem_iff_getElem?.mp (horder ▸ hid)
    obtain ⟨inst,hinst,has⟩ := he.instruction k id node hk hnode
    have hvalue := has.literal1
    rw [LiteralValue,htarget] at hvalue
    obtain ⟨j,hj,hliteral⟩ := hvalue
    have hrecord : e.sephi.instructions[k]?=some inst.record := by simp [Emitted.sephi,hinst]
    have hword := ImageWord.literal1 k inst.record hrecord
      ((isInList_labels he hsmall hk hnode).1.mpr (by rw [htarget]; rfl))
    rw [AsmInstruction.record,hliteral] at hword
    refine ⟨j,hj,?_⟩
    rw [labelWord,← setWidth_label]
    exact hword
  · obtain ⟨t,target',hlabel',ht,hmem⟩ := he.exports symbol (hexports.mem_iff.mpr hsymbol)
    obtain rfl : target=target' := Option.some.inj (hlabel.symm.trans hlabel')
    have hrecord : ExportedSymbol.record ⟨createDestination t Input.INPUT_ONE.value matchingOne,
        encode symbol⟩∈e.sephi.exports := List.mem_map_of_mem hmem
    have hword := ImageWord.exported _ hrecord
    exact ⟨t,ht,hword⟩

theorem slotValue_instruction {slot : Option Destination} {value : Option Nat} {d : Destination}
    {receiver : Node} (h : SlotValue g e.order slot value) (hd : slot=some d)
    (hreceiver : g.heap[d.node]?=some receiver) (hspecial : receiver.opcode.isSpecial=false) :
    ¬AimsAtOutput g slot ∧ ∃ j m,e.order[j]?=some d.node ∧ matchingFunction receiver=.ok m ∧
      value=some (createDestination j d.input.value m) := by
  subst hd
  obtain ⟨other,hother,hvalue⟩ := h
  obtain rfl : receiver=other := Option.some.inj (hreceiver.symm.trans hother)
  constructor
  · intro ⟨d',other,hsame,hother,hon⟩
    obtain rfl := Option.some.inj hsame
    obtain rfl : receiver=other := Option.some.inj (hreceiver.symm.trans hother)
    simp [hspecial] at hon
  · split_ifs at hvalue with houtd houts
    · simp [houtd,Opcode.isSpecial] at hspecial
    · simp [houts,Opcode.isSpecial] at hspecial
    · exact hvalue

theorem edgeWord_of_slot (he : EmittedGraph g exportOrder e)
    (hroom : e.order.length ≤ 2^28-5) {k : Nat} {slot : DestSlot} {d : Destination}
    {receiver : Node} (hk : e.order[k]?=some id) (hnode : g.heap[id]?=some node)
    (hd : node.slot slot=some d) (hreceiver : g.heap[d.node]?=some receiver)
    (hspecial : receiver.opcode.isSpecial=false) :
    ∃ j m,e.order[j]?=some d.node ∧ matchingFunction receiver=.ok m ∧
      ImageWord e.sephi (BitVec.ofNat 32 (createDestination j d.input.value m)) := by
  have hsmall : e.order.length < 2^32 := by omega
  obtain ⟨inst,hinst,has⟩ := he.instruction k id node hk hnode
  obtain ⟨hconst1,hconst2⟩ := isInList_constants he hsmall hk hnode
  have hrecord : e.sephi.instructions[k]?=some inst.record := by simp [Emitted.sephi,hinst]
  have hne : ∀ {j m : Nat},e.order[j]?=some d.node → matchingFunction receiver=.ok m →
      BitVec.ofNat 32 (createDestination j d.input.value m) ≠ Manchester.devNullDestination := by
    intro j m hj hm
    have hlt := (List.getElem?_eq_some_iff.mp hj).1
    exact createDestination_ne_devNull j _ m (by omega) d.input.value_lt (matchingFunction_lt hm)
  cases slot with
  | destination1 =>
    obtain ⟨hnot,j,m,hj,hm,hvalue⟩ := slotValue_instruction has.slot1 hd hreceiver hspecial
    have hword := ImageWord.destination1 k inst.record hrecord (by simpa [hnot] using hconst1)
    rw [AsmInstruction.record,hvalue] at hword
    exact ⟨j,m,hj,hm,hword (hne hj hm)⟩
  | destination2 =>
    obtain ⟨hnot,j,m,hj,hm,hvalue⟩ := slotValue_instruction has.slot2 hd hreceiver hspecial
    have hword := ImageWord.destination2 k inst.record hrecord (by simpa [hnot] using hconst2)
    rw [AsmInstruction.record,hvalue] at hword
    exact ⟨j,m,hj,hm,hword (hne hj hm)⟩

end Words

theorem imageWord_fileSephi (e : Emitted) (w : DestinationType) :
    ImageWord e.fileSephi w ↔ ImageWord e.sephi w := by
  constructor
  · intro h
    refine h.mono rfl rfl rfl ?_
    intro symbol hsymbol
    obtain ⟨x,hx,rfl⟩ := List.mem_map.mp hsymbol
    exact ⟨x.record,List.mem_map_of_mem hx,rfl⟩
  · intro h
    refine h.mono rfl rfl rfl ?_
    intro symbol hsymbol
    obtain ⟨x,hx,rfl⟩ := List.mem_map.mp hsymbol
    exact ⟨x.fileRecord,List.mem_map_of_mem hx,rfl⟩

theorem imageWellAddressed_fileSephi (e : Emitted) :
    ImageWellAddressed e.fileSephi ↔ ImageWellAddressed e.sephi :=
  forall_congr' fun w => imp_congr (imageWord_fileSephi e w) Iff.rfl

end Assembler

end Manchester
