import Manchester.Assembler.Addressing
import Manchester.Assembler.Carried

namespace Manchester.Assembler

def DestSlot.which : DestSlot → WhichDestination
  | .destination1 => .FIRST_DESTINATION
  | .destination2 => .SECOND_DESTINATION

/-- The port that a word names. -/
def wordInput (word : DestinationType) : Input :=
  if destinationToInput word=inputOne then .INPUT_ONE else .INPUT_TWO

/-- The instruction of a node has in its slot a word that names the instruction of the target. -/
def SlotNames (g : Graph) (instructions : List Instruction) (id : Nat) (slot : DestSlot)
    (target : Nat) (word : DestinationType) : Prop :=
  ∃ (k : Nat) (inst : Instruction),g.instructionNodes[k]?=some id ∧ instructions[k]?=some inst ∧
    inst.slot slot=word ∧ g.instructionNodes[(destinationToAddress word).toNat]?=some target

/-- The ports of the words. A word that names the instruction of a line has the port of an operand
of the line that stands for what the slot carries, and of each definition an operand gets one word
at most. What takes a single token has its first port named: a DUP of the assembler, a label. -/
structure PortsFit (read : IrState) (g : Graph) (sephi : Sephi) : Prop where
  named : ∀ (k : Nat) (inst : Instruction) (slot : DestSlot),sephi.instructions[k]?=some inst →
    isInList sephi.constants k slot.which=false → inst.slot slot ≠ Manchester.devNullDestination →
      ∃ id target,g.instructionNodes[k]?=some id ∧
        SlotNames g sephi.instructions id slot target (inst.slot slot)
  operand : ∀ id slot target word,SlotNames g sephi.instructions id slot target word →
    ¬g.IsCopy target → (∃ p,g.Carries read id slot p) ∧ ∀ p,g.Carries read id slot p →
      ∃ v,p∈read.variableMap v ∧ ⟨target,wordInput word⟩∈uses read.heap v
  once : ∀ id id' slot slot' target word p,SlotNames g sephi.instructions id slot target word →
    SlotNames g sephi.instructions id' slot' target word → ¬g.IsCopy target →
      g.Carries read id slot p → g.Carries read id' slot' p → id=id' ∧ slot=slot'
  copy : ∀ id slot target word,SlotNames g sephi.instructions id slot target word →
    g.IsCopy target → wordInput word=.INPUT_ONE
  label : ∀ (k : Nat) (inst : Instruction),sephi.instructions[k]?=some inst →
    isInList sephi.toFix k .FIRST_LITERAL=true → wordInput (inst.literal1.setWidth 32)=.INPUT_ONE
  exported : ∀symbol∈sephi.exports,wordInput symbol.localDestination=.INPUT_ONE

section Words

variable {g : Graph} {exportOrder : List Name} {e : Emitted} {id target : Nat} {slot : DestSlot}
  {word : DestinationType}

theorem wordInput_createDestination (j m : Nat) (input : Input) (hj : j < 2^28) (hm : m < 4) :
    wordInput (BitVec.ofNat 32 (createDestination j input.value m))=input := by
  have hword := toNat_ofNat_destination j input.value m hj input.value_lt (by omega)
  have hport : (destinationToInput
      (BitVec.ofNat 32 (createDestination j input.value m))).toNat=input.value := by
    have hlt := input.value_lt
    rw [destinationToInput_toNat,hword]
    omega
  have hone : inputOne.toNat=0 := rfl
  rw [wordInput]
  cases input with
  | INPUT_ONE => exact if_pos (BitVec.eq_of_toNat_eq hport)
  | INPUT_TWO =>
    refine if_neg fun heq => ?_
    rw [heq,hone] at hport
    cases hport

theorem address_createDestination (j m : Nat) (input : Input) (hj : j < 2^28) (hm : m < 4) :
    (destinationToAddress (BitVec.ofNat 32 (createDestination j input.value m))).toNat=j := by
  have hlt := input.value_lt
  have hword := toNat_ofNat_destination j input.value m hj hlt (by omega)
  rw [destinationToAddress_toNat,hword]
  omega

theorem EmittedAs.slotWord {node : Node} {ainst : AsmInstruction}
    (h : EmittedAs g e.order node ainst) (slot : DestSlot) :
    ∃ value,SlotValue g e.order (node.slot slot) value ∧
      ainst.record.slot slot=BitVec.ofNat 32 (value.getD devNullDestination) := by
  cases slot with
  | destination1 => exact ⟨_,h.slot1,rfl⟩
  | destination2 => exact ⟨_,h.slot2,rfl⟩

/-- The words that name instructions are those of edges. -/
theorem SlotNames.edge (h : SlotNames g e.sephi.instructions id slot target word)
    (he : EmittedGraph g exportOrder e) (horder : e.order=g.instructionNodes)
    (hroom : e.order.length ≤ 2^28-5) :
    id∈g.nodes ∧ ∃ node,g.heap[id]?=some node ∧
      node.slot slot=some ⟨target,wordInput word⟩ := by
  obtain ⟨k,inst,hk,hinst,rfl,htarget⟩ := h
  rw [← horder] at hk htarget
  have hmem : id∈g.instructionNodes := horder ▸ List.mem_of_getElem? hk
  obtain ⟨node,hnode,-⟩ := he.nodes id (List.mem_of_getElem? hk)
  obtain ⟨ainst,hainst,has⟩ := he.instruction k id node hk hnode
  have hrecord : e.sephi.instructions[k]?=some ainst.record := by simp [Emitted.sephi,hainst]
  obtain rfl : inst=ainst.record := Option.some.inj (hinst.symm.trans hrecord)
  obtain ⟨value,hvalue,hword⟩ := has.slotWord slot
  rw [hword] at htarget ⊢
  have hlt := (List.getElem?_eq_some_iff.mp htarget).1
  refine ⟨List.mem_of_mem_filter hmem,node,hnode,?_⟩
  cases hslot : node.slot slot with
  | none =>
    rw [hslot] at hvalue
    obtain rfl : value=none := hvalue
    have hdev : (destinationToAddress (BitVec.ofNat 32 ((none : Option Nat).getD
        devNullDestination))).toNat=2^28-5 := by decide
    omega
  | some d =>
    rw [hslot] at hvalue
    obtain ⟨receiver,-,hvalue⟩ := hvalue
    split_ifs at hvalue
    · subst hvalue
      have hout : (destinationToAddress (BitVec.ofNat 32 ((some outputdDestination).getD
          devNullDestination))).toNat=2^28-1 := by decide
      omega
    · subst hvalue
      have hout : (destinationToAddress (BitVec.ofNat 32 ((some outputsDestination).getD
          devNullDestination))).toNat=2^28-2 := by decide
      omega
    · obtain ⟨j,m,hj,hm,rfl⟩ := hvalue
      have hjlt := (List.getElem?_eq_some_iff.mp hj).1
      have hm4 := matchingFunction_lt hm
      rw [Option.getD_some,address_createDestination j m d.input (by omega) hm4] at htarget
      obtain rfl : d.node=target := Option.some.inj (hj.symm.trans htarget)
      rw [Option.getD_some,wordInput_createDestination j m d.input (by omega) hm4]

theorem literal_label {node : Node} {ainst : AsmInstruction}
    (has : EmittedAs g e.order node ainst) (htaken : (g.labelTarget node.input1).isSome)
    (hroom : e.order.length ≤ 2^28-5) :
    wordInput (ainst.record.literal1.setWidth 32)=.INPUT_ONE := by
  obtain ⟨target,htarget⟩ := Option.isSome_iff_exists.mp htaken
  have hvalue := has.literal1
  rw [LiteralValue,htarget] at hvalue
  obtain ⟨j,hj,hliteral⟩ := hvalue
  have hlt := (List.getElem?_eq_some_iff.mp hj).1
  rw [AsmInstruction.record,hliteral]
  change wordInput ((literalWord _).setWidth 32)=_
  rw [setWidth_label,wordInput_createDestination j matchingOne .INPUT_ONE (by omega) (by decide)]

/-- The assembler's words have the ports of the operands. -/
theorem Parsed.portsFit {input : List Name} {read : IrState} {parsed : Graph}
    (hparsed : Parsed input read parsed) (hread : readLines .empty input=.ok read)
    (hg : parsed.optimized=g) (he : EmittedGraph g exportOrder e)
    (hemit : graphToInstructions g exportOrder=some (.ok e)) (horder : e.order=g.instructionNodes)
    (hroom : e.order.length ≤ 2^28-5) : PortsFit read g e.sephi := by
  have hsmall : e.order.length < 2^32 := by omega
  have houtputs : OutputsDefined read :=
    readLines_outputs .empty read input (fun p node slot d hnode => by cases hnode) hread
  subst hg
  constructor
  · intro k inst slot hinst hconstant hdevNull
    obtain ⟨id,node,ainst,hid,hnode,rfl,has⟩ := he.at_record hinst
    have hk : parsed.optimized.instructionNodes[k]?=some id := horder ▸ hid
    have haims : ¬AimsAtOutput parsed.optimized (node.slot slot) := by
      intro haims
      obtain ⟨h1,h2⟩ := isInList_constants he hsmall hid hnode
      cases slot with
      | destination1 => exact absurd (h1.mpr haims) ((Bool.not_eq_true _).mpr hconstant)
      | destination2 => exact absurd (h2.mpr haims) ((Bool.not_eq_true _).mpr hconstant)
    obtain ⟨value,hvalue,hword⟩ := has.slotWord slot
    rw [hword] at hdevNull ⊢
    obtain ⟨d,receiver,j,m,hd,hreceiver,hj,hm,hw⟩ := slotWord_cases hvalue haims hdevNull
    have hlt := (List.getElem?_eq_some_iff.mp hj).1
    refine ⟨id,d.node,hk,k,ainst.record,hk,hinst,hword,?_⟩
    rw [hw,address_createDestination j m d.input (by omega) (matchingFunction_lt hm),← horder]
    exact hj
  · intro id slot target word hnames hcopy
    obtain ⟨-,node,hnode,hd⟩ := hnames.edge he horder hroom
    refine ⟨hparsed.carries hnode hd,fun p hp => ?_⟩
    exact hparsed.carried_use houtputs hp hnode hd hcopy
  · intro id id' slot slot' target word p hnames hnames' hcopy hp hp'
    obtain ⟨hid,node,hnode,hd⟩ := hnames.edge he horder hroom
    obtain ⟨hid',node',hnode',hd'⟩ := hnames'.edge he horder hroom
    exact hparsed.carried_once houtputs hp hp' hid hid' hnode hd hnode' hd' hcopy
  · intro id slot target word hnames hcopy
    obtain ⟨-,node,hnode,hd⟩ := hnames.edge he horder hroom
    exact hparsed.copy_input houtputs hnode hd hcopy
  · intro k inst hinst hlabel
    obtain ⟨id,node,ainst,hid,hnode,rfl,has⟩ := he.at_record hinst
    exact literal_label has ((isInList_labels he hsmall hid hnode).1.mp hlabel) hroom
  · intro symbol hsymbol
    obtain ⟨x,hx,rfl⟩ := List.mem_map.mp hsymbol
    obtain ⟨name,-,t,target,-,ht,rfl⟩ := graphToInstructions_exports hemit x hx
    have hlt := (List.getElem?_eq_some_iff.mp ht).1
    exact wordInput_createDestination t matchingOne .INPUT_ONE (by omega) (by decide)

end Words

theorem PortsFit.fileSephi {read : IrState} {g : Graph} {e : Emitted}
    (h : PortsFit read g e.sephi) : PortsFit read g e.fileSephi := by
  refine ⟨h.named,h.operand,h.once,h.copy,h.label,fun symbol hsymbol => ?_⟩
  obtain ⟨x,hx,rfl⟩ := List.mem_map.mp hsymbol
  exact h.exported x.record (List.mem_map_of_mem hx)

/-- The words of an image have the ports of the operands. Besides, they fit what they name exactly
when each label that the image holds stands on an instruction that takes one token, and no LOD that
the image aims at has one operand: it takes a single token, and reads the second one of the
pair. -/
theorem image_words_fit (input : List Name) (parsed g : Graph) (exportOrder : List Name)
    (e : Emitted) (bytes : List UInt8) (hparse : parseCreateIrGraph input=.ok parsed)
    (hoptimize : optimizeGraph parsed=.ok g) (hexports : exportOrder.Perm g.exports)
    (hemit : graphToInstructions g exportOrder=some (.ok e)) (hfile : e.file=.ok bytes)
    (hroom : g.instructionNodes.length ≤ 2^28-5) :
    ∃ read sephi,readLines .empty input=.ok read ∧ parseSephi bytes=some sephi ∧
      PortsFit read g sephi ∧ (ImageWellAddressed sephi ↔
        (∀ target node,g.LabelTaken target → g.heap[target]?=some node → node.TakesOne) ∧
          ∀ target node,g.Aimed target → g.heap[target]?=some node → node.opcode=.op .LOD →
            node.operands.length ≠ 1) := by
  obtain ⟨read,hread,hparsed,hg,he,horder,-⟩ := parse_emitted hparse hoptimize hemit
  rw [← horder] at hroom
  refine ⟨read,e.fileSephi,hread,Emitted.parse_fileSephi hfile,
    (hparsed.portsFit hread hg he hemit horder hroom).fileSephi,?_⟩
  rw [imageWellAddressed_fileSephi]
  have hsmall : e.order.length < 2^32 := by omega
  have hfit : ∀ (j id : Nat) (node : Node) (port m : Nat),e.order[j]?=some id →
      g.heap[id]?=some node → port < 2 → m < 4 → _ :=
    fun j id node port m hj hnode => namesFit_iff he (by omega) hj hnode
  constructor
  · intro hall
    have hlabel : ∀ target node,g.LabelTaken target → g.heap[target]?=some node →
        node.TakesOne ∧ node.opcode ≠ .op .LOD := by
      intro target node htaken hnode
      obtain ⟨j,hj,hword⟩ := labelWord_of_taken he horder hexports hsmall htaken
      obtain ⟨hneeds,hlod⟩ := (hfit j target node 0 matchingOne hj hnode (by decide)
        (by decide)).mp (hall _ hword)
      exact ⟨node.needs_one_iff.mp hneeds,hlod (by decide)⟩
    refine ⟨fun target node htaken hnode => (hlabel target node htaken hnode).1,?_⟩
    intro target node haimed hnode hlod hlength
    obtain htaken | ⟨id,hid,source,slot,d,hsource,hd,rfl⟩ := haimed
    · exact (hlabel target node htaken hnode).2 hlod
    · obtain ⟨k,hk⟩ := List.mem_iff_getElem?.mp (horder ▸ hid)
      obtain ⟨j,m,hj,hm,hword⟩ := edgeWord_of_slot he hroom hk hsource hd hnode
        (by rw [hlod]; rfl)
      obtain ⟨hneeds,hsingle⟩ := (hfit j d.node node _ m hj hnode d.input.value_lt
        (matchingFunction_lt hm)).mp (hall _ hword)
      exact hsingle ((hneeds.load_iff hlod).mp hlength) hlod
  · intro ⟨hlabels,hloads⟩ w hw
    obtain ⟨target,j,htaken,hj,rfl⟩ | ⟨target,id,hid,source,slot,d,node,j,m,hsource,hd,rfl,hnode,
      hj,hm,rfl⟩ := imageWord_cases he hemit horder hexports hsmall hw
    · obtain ⟨node,hnode,-⟩ := he.nodes target (List.mem_of_getElem? hj)
      have htakes := hlabels target node htaken hnode
      have hneeds := node.needs_one_iff.mpr htakes
      refine (hfit j target node _ matchingOne hj hnode (by decide) (by decide)).mpr ⟨hneeds,?_⟩
      intro hne hlod
      exact hloads target node (Or.inl htaken) hnode hlod ((hneeds.load_iff hlod).mpr hne)
    · have hfed := hparsed.edge_fed (hg ▸ hsource) hd (hg ▸ hnode)
      have hneeds := hfed.needs hm
      refine (hfit j d.node node _ m hj hnode d.input.value_lt (matchingFunction_lt hm)).mpr
        ⟨hneeds,?_⟩
      intro hne hlod
      exact hloads d.node node (Or.inr ⟨id,horder ▸ hid,source,slot,d,hsource,hd,rfl⟩) hnode hlod
        ((hneeds.load_iff hlod).mpr hne)

private def callLines : List Name :=
  ["main:","r = ADD x 1","x = DUP main","s = ADD r x","OUTD s","export main"].map String.toList

/-- A label on a sum that has a literal, and a sum of two variables. -/
theorem image_words_fit_call :
    ∃ (g : Graph) (e : Emitted) (bytes : List UInt8) (read : IrState) (sephi : Sephi),
      assembleFile callLines ["main".toList]=some (g,e,bytes) ∧ parseSephi bytes=some sephi ∧
        sephi.toFix.length=1 ∧ sephi.exports.length=1 ∧
        (sephi.instructions[0]?).map Instruction.destination1=
          some (Manchester.createDestination 2 inputOne Manchester.matchingBoth) ∧
        (sephi.instructions[1]?).map Instruction.destination2=
          some (Manchester.createDestination 2 inputTwo Manchester.matchingBoth) ∧
        PortsFit read g sephi ∧ ImageWellAddressed sephi := by
  have hcheck : (assembleFile callLines ["main".toList]).any (fun r =>
      r.1.exports=["main".toList] ∧ r.1.instructionNodes=[0,1,2] ∧
        r.1.labels "main".toList=some 0 ∧ (∀node∈r.1.heap,node.opcode ≠ .op .LOD) ∧
          (r.1.heap.map fun node => (node.opcode,node.input1,node.input2)).take 3=
            [(.op .ADD,some (.int 1),none),(.op .DUP,some (.str "main".toList),none),
              (.op .ADD,none,none)] ∧
          r.2.1.fileSephi.toFix.length=1 ∧ r.2.1.fileSephi.exports.length=1 ∧
          (r.2.1.fileSephi.instructions[0]?).map Instruction.destination1=
            some (Manchester.createDestination 2 inputOne Manchester.matchingBoth) ∧
          (r.2.1.fileSephi.instructions[1]?).map Instruction.destination2=
            some (Manchester.createDestination 2 inputTwo Manchester.matchingBoth))=true := by
    decide +kernel
  obtain ⟨⟨g,e,bytes⟩,hassemble,hcheck⟩ := (Option.any_eq_true _ _).mp hcheck
  obtain ⟨hexports,hnodes,hlabel,hload,hheap,htoFix,hcount,hfirst,hsecond⟩ :=
    of_decide_eq_true hcheck
  obtain ⟨parsed,hparse,hoptimize,hemit,hfile⟩ := assembleFile_steps hassemble
  obtain ⟨read,sephi,-,hsephi,hports,hiff⟩ := image_words_fit callLines parsed g ["main".toList] e
    bytes hparse hoptimize (by rw [hexports]) hemit hfile (by rw [hnodes]; decide)
  have hfile' := Emitted.parse_fileSephi hfile
  obtain rfl : e.fileSephi=sephi := Option.some.inj (hfile'.symm.trans hsephi)
  refine ⟨g,e,bytes,read,_,hassemble,hsephi,htoFix,hcount,hfirst,hsecond,hports,
    hiff.mpr ⟨?_,?_⟩⟩
  · have hinputs : ∀ (k : Nat) (node : Node),k < 3 → g.heap[k]?=some node →
        [(Opcode.op .ADD,some (Arg.int 1),none),(.op .DUP,some (.str "main".toList),none),
          (.op .ADD,none,none)][k]?=some (node.opcode,node.input1,node.input2) := by
      intro k node hk hnode
      rw [← hheap,List.getElem?_take_of_lt hk,List.getElem?_map,hnode,Option.map_some]
    intro target node htaken hnode
    have htarget : target=0 := by
      obtain ⟨id,hid,other,hother,htarget⟩ | ⟨symbol,hsymbol,htarget⟩ := htaken
      · rw [hnodes] at hid
        obtain rfl | rfl | rfl : id=0 ∨ id=1 ∨ id=2 := by simpa using hid
        · have hin := hinputs 0 other (by decide) hother
          simp only [List.getElem?_cons_zero,Option.some.injEq,Prod.mk.injEq] at hin
          rw [← hin.2.1] at htarget
          cases htarget
        · have hin := hinputs 1 other (by decide) hother
          simp only [List.getElem?_cons_succ,List.getElem?_cons_zero,Option.some.injEq,
            Prod.mk.injEq] at hin
          rw [← hin.2.1,Graph.labelTarget,hlabel] at htarget
          exact (Option.some.inj htarget).symm
        · have hin := hinputs 2 other (by decide) hother
          simp only [List.getElem?_cons_succ,List.getElem?_cons_zero,Option.some.injEq,
            Prod.mk.injEq] at hin
          rw [← hin.2.1] at htarget
          cases htarget
      · rw [hexports,List.mem_singleton] at hsymbol
        rw [hsymbol,hlabel] at htarget
        exact (Option.some.inj htarget).symm
    rw [htarget] at hnode
    have hin := hinputs 0 node (by decide) hnode
    simp only [List.getElem?_cons_zero,Option.some.injEq,Prod.mk.injEq] at hin
    simp [Node.TakesOne,Node.operands,← hin.1,← hin.2.1,← hin.2.2]
  · intro target node _ hnode hlod
    exact absurd hlod (hload node (List.mem_of_getElem? hnode))

private def strayLines : List Name :=
  ["main:","r = ADD x y","x = DUP main","y = DUP 3","OUTD r"].map String.toList

/-- The label stands on a sum of two variables. Its word says that one token is enough, so that a
token there is added to what the second one of the pair was before. -/
theorem image_words_stray :
    ∃ (g : Graph) (e : Emitted) (bytes : List UInt8) (sephi : Sephi) (w : DestinationType)
      (inst : Instruction),
      assembleFile strayLines []=some (g,e,bytes) ∧ parseSephi bytes=some sephi ∧
      ImageWord sephi w ∧ sephi.instructions[(destinationToAddress w).toNat]?=some inst ∧
      inst.opcode=OpcodeType.ADD.bits ∧
      inst.instructionLiteral=InstructionLiteralType.NONE.bits ∧
      destinationToMatchingFunction w=Manchester.matchingOne ∧ ¬ImageWellAddressed sephi ∧
      ∀ overrun env data tag,storePair overrun env ⟨sephi.instructions,[]⟩ ⟨⟨w,data,tag⟩,none⟩=
        some (⟨sephi.instructions,[]⟩,[makePacket 0 inst data env.unsetToken.data tag]) := by
  have hcheck : (assembleFile strayLines []).any (fun r =>
      isInList r.2.1.fileSephi.toFix 1 .FIRST_LITERAL=true ∧
        (r.2.1.fileSephi.instructions[1]?).map Instruction.literal1=some 0 ∧
          (r.2.1.fileSephi.instructions[0]?).map
            (fun inst => (inst.opcode,inst.instructionLiteral))=
              some (OpcodeType.ADD.bits,InstructionLiteralType.NONE.bits))=true := by
    decide +kernel
  obtain ⟨⟨g,e,bytes⟩,hassemble,hcheck⟩ := (Option.any_eq_true _ _).mp hcheck
  obtain ⟨hlabel,hliteral,hsum⟩ := of_decide_eq_true hcheck
  obtain ⟨parsed,-,-,-,hfile⟩ := assembleFile_steps hassemble
  obtain ⟨caller,hcaller,hliteral⟩ := Option.map_eq_some_iff.mp hliteral
  obtain ⟨inst,hinst,hparts⟩ := Option.map_eq_some_iff.mp hsum
  obtain ⟨hadd,hnone⟩ := Prod.mk.inj hparts
  have hword := ImageWord.literal1 1 caller hcaller hlabel
  have hzero : caller.literal1.setWidth 32=0#32 := by
    rw [hliteral]
    rfl
  rw [hzero] at hword
  have haddress : (destinationToAddress 0#32).toNat=0 := by decide
  refine ⟨g,e,bytes,e.fileSephi,0#32,inst,hassemble,Emitted.parse_fileSephi hfile,hword,
    by rw [haddress]; exact hinst,hadd,hnone,by decide,?_,?_⟩
  · intro hall
    obtain ⟨inst',hinst',hfits,-⟩ := hall _ hword
    rw [haddress] at hinst'
    obtain rfl : inst=inst' := Option.some.inj (hinst.symm.trans hinst')
    obtain hone | hany := (hfits fun _ => 0).single (Or.inl (by decide))
    · rw [hnone] at hone
      cases hone
    · rw [hadd] at hany
      cases hany
  · intro overrun env data tag
    rw [storePair_some overrun env (by rw [haddress]; exact hinst) (by rw [hadd]; decide)]
    have hdyadic : numInputs overrun inst.opcode=2 := by rw [hadd]; rfl
    simp only [haddress,firePair,hnone,hdyadic,and_self,if_true,Option.getD_none]

end Manchester.Assembler
