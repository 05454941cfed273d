import Manchester.Assembler.Addressing
import Manchester.Assembler.Lines
import Manchester.Pipeline.IoSwitch

namespace Manchester

/-- The operands that the store takes for a pair: those of the packet, or the file name and the
argument of a LOD. -/
def storeOperands (overrun : TableOverrun) (unset : TokenType) (inst : Instruction)
    (next : ReadyTokenPairType) : List (DataType × DataType) :=
  let token2 := next.token2.getD unset
  if inst.opcode=OpcodeType.LOD.bits then [(next.token1.data,token2.data)]
  else (firePair overrun 0 inst next.token1 token2).map fun packet => (packet.data1,packet.data2)

/-- A firing of the instruction with the tokens for its first and its second operand. A token that
waits for another is paired by the matching unit, in either order of arrival. -/
inductive Fired (overrun : TableOverrun) (unset : TokenType) (inst : Instruction) :
    Option TokenType → Option TokenType → DataType → DataType → Prop where
  | ready (i : Nat) (packet : ExecutionPacket) (h : readyPacket overrun i inst=some packet) :
    Fired overrun unset inst none none packet.data1 packet.data2
  | first (token : TokenType) (data1 data2 : DataType)
    (halone : destinationToMatchingFunction token.destination ≠ matchingBoth)
    (h : (data1,data2)∈storeOperands overrun unset inst ⟨token,none⟩) :
    Fired overrun unset inst (some token) none data1 data2
  | second (token : TokenType) (data1 data2 : DataType)
    (halone : destinationToMatchingFunction token.destination ≠ matchingBoth)
    (h : (data1,data2)∈storeOperands overrun unset inst ⟨token,none⟩) :
    Fired overrun unset inst none (some token) data1 data2
  | pair (token1 token2 : TokenType) (next : ReadyTokenPairType) (data1 data2 : DataType)
    (hboth : destinationToMatchingFunction token1.destination=matchingBoth)
    (hnext : next=readyTokenPairFromTokens token1 token2 ∨
      next=readyTokenPairFromTokens token2 token1)
    (h : (data1,data2)∈storeOperands overrun unset inst next) :
    Fired overrun unset inst (some token1) (some token2) data1 data2

/-- What an output line does with a token: the number, or the text at its data. -/
def Assembler.Opcode.prints (behind : List UInt8) (token : TokenType) :
    Assembler.Opcode → Option Output
  | .OUTD => some (.decimal token.data.toInt)
  | .OUTS => some (.string ((tokenMemory behind token).takeWhile (· != 0)))
  | .op _ => none

namespace Assembler

/-- The parts of the instruction in the store that its node decides. -/
structure LoadedAs (g : Graph) (order : List Nat) (start : Nat) (node : Node)
    (inst : Instruction) : Prop where
  opcode : ∀ o,node.opcode=.op o → inst.opcode=o.bits
  literal1 : LoadedLiteral g order start node.input1 inst.literal1
  literal2 : LoadedLiteral g order start node.input2 inst.literal2
  none : inst.instructionLiteral=InstructionLiteralType.NONE.bits ↔ node.operands.length=0
  one : inst.instructionLiteral=InstructionLiteralType.ONE.bits ↔ node.operands.length=1
  two : inst.instructionLiteral=InstructionLiteralType.TWO.bits ↔ ¬node.operands.length < 2
  slot : ∀ slot d,node.slot slot=some d → LoadedSlot g order start (some d) (inst.slot slot)

section Load

variable {g : Graph} {exportOrder : List Name} {e : Emitted} {bytes : List UInt8}
  {store store' : InstructionStore} {info : LoadedCodeInfo} {behind : Behind} {k id : Nat}
  {node : Node}

/-- A reference of the file writes at most a destination. -/
theorem resolveNamed_fileRecord (he : EmittedGraph g exportOrder e) (hg : WellFormed g)
    (exports : List ExportNode) (inst : Instruction) {x : ExternalReference}
    (hx : x∈e.fileSephi.externalReferences) :
    resolveNamed exports k inst x=inst ∨
      ∃ d,resolveNamed exports k inst x=bindDestination d inst := by
  obtain ⟨r,hr,rfl⟩ := List.mem_map.mp hx
  obtain ⟨k',id',symbol,-,-,rfl⟩ := (mem_externs he hg r).mp hr
  have hflags : (externEntry k' symbol).fileRecord.destination.flags=1 := by
    simp [externEntry,ExternalSymbol.fileRecord,UpdateEntry.record,UpdateEntry.combineFlags]
  unfold resolveNamed
  split_ifs
  · split
    · exact Or.inl rfl
    · rename_i result hresult
      right
      rw [hflags]
      exact ⟨result.currentDestination,rfl⟩
  · exact Or.inl rfl

theorem foldl_resolveNamed (he : EmittedGraph g exportOrder e) (hg : WellFormed g)
    (exports : List ExportNode) (inst : Instruction) (refs : List ExternalReference)
    (hrefs : refs⊆e.fileSephi.externalReferences) :
    refs.foldl (resolveNamed exports k) inst=inst ∨
      ∃ d,refs.foldl (resolveNamed exports k) inst=bindDestination d inst := by
  induction refs generalizing inst with
  | nil => exact Or.inl rfl
  | cons x refs ih =>
    have hrest : refs⊆e.fileSephi.externalReferences := fun y hy => hrefs (by simp [hy])
    rw [List.foldl_cons]
    have hfirst : x∈e.fileSephi.externalReferences := hrefs (by simp)
    obtain hx | ⟨d,hd⟩ := resolveNamed_fileRecord he hg exports inst hfirst
    · rw [hx]
      exact ih inst hrest
    · rw [hd]
      right
      obtain h | ⟨d',hd'⟩ := ih (bindDestination d inst) hrest
      · exact ⟨d,h⟩
      · exact ⟨d',hd'⟩

/-- The instruction of a node that is bound to no symbol is not written. -/
theorem foldl_resolveNamed_unbound (he : EmittedGraph g exportOrder e) (hg : WellFormed g)
    (hsmall : e.order.length < 2^32) (hk : e.order[k]?=some id)
    (hfree : ¬∃ symbol,Bound g id symbol) (exports : List ExportNode) (inst : Instruction) :
    e.fileSephi.externalReferences.foldl (resolveNamed exports k) inst=inst := by
  apply foldl_unchanged
  intro x hx inst
  obtain ⟨r,hr,rfl⟩ := List.mem_map.mp hx
  obtain ⟨k',id',symbol,hk',hbound,rfl⟩ := (mem_externs he hg r).mp hr
  have hlt := (List.getElem?_eq_some_iff.mp hk').1
  have hnumber : (externEntry k' symbol).fileRecord.destination.instructionNumber.toNat=k' := by
    change (BitVec.ofNat 32 k').toNat=k'
    rw [BitVec.toNat_ofNat]
    omega
  unfold resolveNamed
  rw [if_neg]
  rw [hnumber]
  intro heq
  subst heq
  obtain rfl : id'=id := Option.some.inj (hk'.symm.trans hk)
  exact hfree ⟨symbol,hbound⟩

/-- A load without an error leaves the relocated record of a node in the store, with what the
references to it write. -/
theorem load_record (he : EmittedGraph g exportOrder e) (hg : WellFormed g)
    (hfile : e.file=.ok bytes)
    (hload : loadFile behind store (some bytes) true=some (info,store')) (herror : info.error=0)
    {ainst : AsmInstruction} (hainst : e.instructions[k]?=some ainst) :
    store'.instructions[store.instructions.length+k]?=
      some (e.fileSephi.externalReferences.foldl (resolveNamed store.exports k)
        (relocateInstruction e.fileSephi (BitVec.ofNat 32 store.instructions.length) true k
          ainst.record)) := by
  obtain ⟨sephi,hloads⟩ := loadFile_ok _ _ _ _ _ _ hload (by simp [herror])
  obtain rfl : sephi=e.fileSephi :=
    Option.some.inj (hloads.1.1.symm.trans (Emitted.parse_fileSephi hfile))
  obtain ⟨-,rfl⟩ := loadFile_loads _ _ _ _ _ _ _ hload hloads
  have hcount : e.fileSephi.instructions.length=e.instructions.length := by
    simp [Emitted.fileSephi]
  have hrecord : e.fileSephi.instructions[k]?=some ainst.record := by
    simp [Emitted.fileSephi,hainst]
  rw [loadedStore,placedStore,List.getElem?_append_right (Nat.le_add_right _ _),
    Nat.add_sub_cancel_left,List.getElem?_mapIdx,hrecord,Option.map_some,
    placedInstruction_inside _ _ _ _ _ hloads.1.2]
  rw [hcount]
  exact List.forall_mem_map.mpr (externs_number_lt he hg)

/-- What a load without an error leaves in the store for a node. -/
theorem load_line (he : EmittedGraph g exportOrder e) (hg : WellFormed g)
    (hfile : e.file=.ok bytes)
    (hroom : store.instructions.length+e.order.length ≤ 2^28-5)
    (hload : loadFile behind store (some bytes) true=some (info,store')) (herror : info.error=0)
    (hk : e.order[k]?=some id) (hnode : g.heap[id]?=some node) :
    ∃ inst,store'.instructions[store.instructions.length+k]?=some inst ∧
      LoadedAs g e.order store.instructions.length node inst := by
  have hsmall : e.order.length < 2^32 := by omega
  obtain ⟨ainst,hainst,has⟩ := he.instruction k id node hk hnode
  obtain ⟨part,hpart⟩ := Emitted.toBinary_ok hfile ainst (List.mem_of_getElem? hainst)
  have hrecord := load_record he hg hfile hload herror hainst
  obtain ⟨new,hnewrecord⟩ : ∃ new,new=relocateInstruction e.fileSephi
    (BitVec.ofNat 32 store.instructions.length) true k ainst.record := ⟨_,rfl⟩
  obtain ⟨⟨o,hop,hopcode⟩,hlit1,hlit2,hdest1,hdest2⟩ :=
    relocate_node he (by rw [he.length]; exact hroom) hk hnode hpart has new hnewrecord
  rw [← hnewrecord] at hrecord
  refine ⟨_,hrecord,?_⟩
  have hsame : new.instructionLiteral=ainst.record.instructionLiteral := by rw [hnewrecord]; rfl
  obtain ⟨hnone,hone,htwo⟩ := has.instructionLiteral
  rw [← hsame] at hnone hone htwo
  have hnew : LoadedAs g e.order store.instructions.length node new := by
    refine ⟨?_,hlit1,hlit2,hnone,hone,htwo,?_⟩
    · intro o' ho'
      rw [hop,Opcode.op.injEq] at ho'
      rw [← ho']
      exact hopcode
    · intro slot d hd
      cases slot with
      | destination1 => exact hd ▸ hdest1
      | destination2 => exact hd ▸ hdest2
  by_cases hbound : ∃ symbol,Bound g id symbol
  · obtain ⟨symbol,ids,hmem,hid⟩ := hbound
    obtain ⟨h1,h2⟩ := hg.bound symbol ids hmem id hid node hnode
    have hslot : ∀ slot,node.slot slot=none := by
      intro slot
      cases slot with
      | destination1 => exact h1
      | destination2 => exact h2
    obtain hsame | ⟨d,hd⟩ := foldl_resolveNamed he hg store.exports new
      e.fileSephi.externalReferences fun _ hx => hx
    · rw [hsame]
      exact hnew
    · rw [hd]
      refine ⟨hnew.opcode,hlit1,hlit2,hnone,hone,htwo,?_⟩
      intro slot d hd
      rw [hslot slot] at hd
      cases hd
  · rw [foldl_resolveNamed_unbound he hg hsmall hk hbound]
    exact hnew

end Load

/-- How an operand gets to the instruction of a line: a variable in a token that an edge to the
operand position brings, a constant with the instruction itself. -/
def Supplies (g : Graph) (order : List Nat) (start id : Nat) (i : Input) (arg : Arg) :
    Option TokenType → Prop
  | none => arg.isConstant g.labels=true
  | some token => arg.isConstant g.labels=false ∧
    LoadedSlot g order start (some ⟨id,i⟩) token.destination

/-- The value of an operand; that of a label is the destination that it was moved to. -/
def OperandValue (g : Graph) (order : List Nat) (start : Nat) (arg : Arg) :
    Option TokenType → DataType → Prop
  | none,w => LoadedLiteral g order start (some arg) w
  | some token,w => w=token.data

/-- Every firing has the value of a as its first operand and that of b as its second one. -/
def InOrder (g : Graph) (order : List Nat) (start id : Nat) (inst : Instruction) (a b : Arg) :
    Prop :=
  ∀ overrun unset token1 token2 data1 data2,Supplies g order start id .INPUT_ONE a token1 →
    Supplies g order start id .INPUT_TWO b token2 →
      Fired overrun unset inst token1 token2 data1 data2 →
        OperandValue g order start a token1 data1 ∧ OperandValue g order start b token2 data2

section Line

variable {g : Graph} {order : List Nat} {start id : Nat}

theorem loadedLiteral_unique (hnodup : order.Nodup) {arg : Arg} {w w' : DataType}
    (h : LoadedLiteral g order start (some arg) w)
    (h' : LoadedLiteral g order start (some arg) w') : w=w' := by
  cases arg with
  | int value => exact Eq.trans h (Eq.symm h')
  | str label =>
    obtain ⟨address,⟨target,j,hlabel,hj,rfl⟩,rfl⟩ := h
    obtain ⟨address',⟨target',j',hlabel',hj',rfl⟩,rfl⟩ := h'
    obtain rfl : target=target' := Option.some.inj (hlabel.symm.trans hlabel')
    have hlt := (List.getElem?_eq_some_iff.mp hj).1
    obtain rfl : j=j' := (List.getElem?_inj hlt hnodup).mp (hj.trans hj'.symm)
    rfl

/-- What the machine reads from the word of an operand position. -/
theorem supplied_word {node : Node} {o : OpcodeType} {i : Input} {w : DestinationType}
    (h : LoadedSlot g order start (some ⟨id,i⟩) w) (hnode : g.heap[id]?=some node)
    (hop : node.opcode=.op o) :
    ∃ m,matchingFunction node=.ok m ∧ destinationToMatchingFunction w=BitVec.ofNat 32 m ∧
      destinationToInput w=BitVec.ofNat 32 i.value := by
  obtain ⟨other,hother,hw⟩ := h
  obtain rfl : node=other := Option.some.inj (hnode.symm.trans hother)
  rw [if_neg (by simp [hop]),if_neg (by simp [hop])] at hw
  obtain ⟨j,m,-,hm,rfl⟩ := hw
  have hm4 := matchingFunction_lt hm
  have hi2 := i.value_lt
  have hmatching : (BitVec.ofNat 32 m).toNat=m := by
    rw [BitVec.toNat_ofNat]
    omega
  have hinput : (BitVec.ofNat 32 i.value).toNat=i.value := by
    rw [BitVec.toNat_ofNat]
    omega
  have hword := Manchester.createDestination_toNat (BitVec.ofNat 32 (start+j))
    (BitVec.ofNat 32 i.value) (BitVec.ofNat 32 m) (by omega) (by omega)
  rw [hmatching,hinput] at hword
  refine ⟨m,hm,?_,?_⟩
  · apply BitVec.eq_of_toNat_eq
    rw [destinationToMatchingFunction_toNat,hword,hmatching]
    omega
  · apply BitVec.eq_of_toNat_eq
    rw [destinationToInput_toNat,hword,hinput]
    omega

theorem exists_supplied {k : Nat} {node : Node} {o : OpcodeType} {m : Nat} (i : Input)
    (hk : order[k]?=some id) (hnode : g.heap[id]?=some node) (hop : node.opcode=.op o)
    (hm : matchingFunction node=.ok m) :
    ∃ w,LoadedSlot g order start (some ⟨id,i⟩) w := by
  refine ⟨Manchester.createDestination (BitVec.ofNat 32 (start+k)) (BitVec.ofNat 32 i.value)
    (BitVec.ofNat 32 m),node,hnode,?_⟩
  rw [if_neg (by simp [hop]),if_neg (by simp [hop])]
  exact ⟨k,m,hk,hm,rfl⟩

/-- The matching unit puts the tokens for the two ports in order. -/
theorem readyTokenPair_ports {token1 token2 : TokenType} {next : ReadyTokenPairType}
    (h1 : destinationToInput token1.destination=inputOne)
    (h2 : destinationToInput token2.destination=inputTwo)
    (hnext : next=readyTokenPairFromTokens token1 token2 ∨
      next=readyTokenPairFromTokens token2 token1) : next=⟨token1,some token2⟩ := by
  have hne : inputTwo ≠ inputOne := by decide
  obtain rfl | rfl := hnext
  · rw [readyTokenPairFromTokens,if_pos h1]
  · rw [readyTokenPairFromTokens,if_neg (by rw [h2]; exact hne)]

/-- The node of a line with two operands, and its loaded instruction. -/
structure TwoOperands (g : Graph) (order : List Nat) (start id : Nat) (node : Node)
    (inst : Instruction) (o : OpcodeType) (a b : Arg) : Prop where
  place : id∈order
  nodup : order.Nodup
  hnode : g.heap[id]?=some node
  opcode : node.opcode=.op o
  dyadic : (Opcode.op o).numInputs=2
  noMerge : o ≠ .MER
  input1 : node.input1=if a.isConstant g.labels then some a
    else if b.isConstant g.labels then some b else none
  input2 : node.input2=if a.isConstant g.labels ∧ b.isConstant g.labels then some b else none
  loaded : LoadedAs g order start node inst

namespace TwoOperands

variable {node : Node} {inst : Instruction} {o : OpcodeType} {a b : Arg}

theorem numInputs (h : TwoOperands g order start id node inst o a b) (overrun : TableOverrun) :
    numInputs overrun inst.opcode=2 := by
  rw [h.loaded.opcode o h.opcode,numInputs_machine,if_neg h.noMerge]
  exact h.dyadic

theorem load_iff (h : TwoOperands g order start id node inst o a b) :
    inst.opcode=OpcodeType.LOD.bits ↔ o=.LOD := by
  rw [h.loaded.opcode o h.opcode]
  exact ⟨bits_injective,fun heq => by rw [heq]⟩

theorem matching (h : TwoOperands g order start id node inst o a b)
    (hfew : node.operands.length < 2) : matchingFunction node=
      .ok (if node.input1=none then matchingBoth else matchingOne) := by
  have htwo : node.opcode.numInputs=2 := h.opcode ▸ h.dyadic
  have hmer : node.opcode ≠ .op .MER := by
    rw [h.opcode]
    exact fun heq => h.noMerge (Opcode.op.inj heq)
  have htruthy : (truthy node.input1 && truthy node.input2)=false := by
    cases h1 : node.input1 with
    | none => rfl
    | some arg =>
      cases h2 : node.input2 with
      | none => simp [truthy]
      | some arg => simp [Node.operands,h1,h2] at hfew
  unfold matchingFunction
  rw [if_neg (by omega),if_pos htwo,htruthy,if_neg (by simp),if_neg hmer]
  by_cases h1 : node.input1=none
  · rw [if_neg (by simp [h1]),if_pos h1]
  · rw [if_pos h1,if_neg h1]

/-- Two constants: the instruction has both with it. -/
theorem inOrder_constants (h : TwoOperands g order start id node inst o a b)
    (ha : a.isConstant g.labels=true) (hb : b.isConstant g.labels=true) :
    InOrder g order start id inst a b := by
  have h1 : node.input1=some a := by rw [h.input1,if_pos ha]
  have h2 : node.input2=some b := by rw [h.input2,if_pos ⟨ha,hb⟩]
  have hliteral := h.loaded.two.mpr (by simp [Node.operands,h1,h2])
  have ha1 : LoadedLiteral g order start (some a) inst.literal1 := h1 ▸ h.loaded.literal1
  have hb2 : LoadedLiteral g order start (some b) inst.literal2 := h2 ▸ h.loaded.literal2
  intro overrun unset token1 token2 data1 data2 hsupply1 hsupply2 hfired
  cases hfired with
  | ready i packet hpacket =>
    rw [readyPacket,if_pos hliteral] at hpacket
    cases hpacket
    exact ⟨ha1,hb2⟩
  | first token _ _ _ _ => simp [Supplies,ha] at hsupply1
  | second token _ _ _ _ => simp [Supplies,hb] at hsupply2
  | pair _ _ _ _ _ _ _ _ => simp [Supplies,ha] at hsupply1

/-- Two variables: the matching unit puts the tokens in order. -/
theorem inOrder_variables (h : TwoOperands g order start id node inst o a b)
    (ha : a.isConstant g.labels=false) (hb : b.isConstant g.labels=false) :
    InOrder g order start id inst a b := by
  have h1 : node.input1=none := by rw [h.input1,ha,hb]; rfl
  have h2 : node.input2=none := by rw [h.input2,ha,hb]; rfl
  have hliteral := h.loaded.none.mpr (by simp [Node.operands,h1,h2])
  intro overrun unset token1 token2 data1 data2 hsupply1 hsupply2 hfired
  cases hfired with
  | ready i packet _ => simp [Supplies,ha] at hsupply1
  | first token _ _ _ _ => simp [Supplies,hb] at hsupply2
  | second token _ _ _ _ => simp [Supplies,ha] at hsupply1
  | pair t1 t2 next _ _ hboth hnext hdata =>
    obtain ⟨-,-,-,hport1⟩ := supplied_word hsupply1.2 h.hnode h.opcode
    obtain ⟨-,-,-,hport2⟩ := supplied_word hsupply2.2 h.hnode h.opcode
    rw [readyTokenPair_ports hport1 hport2 hnext] at hdata
    unfold storeOperands at hdata
    split_ifs at hdata
    · obtain ⟨rfl,rfl⟩ := Prod.mk.inj (List.mem_singleton.mp hdata)
      exact ⟨rfl,rfl⟩
    · have hpacket : firePair overrun 0 inst t1 ((some t2).getD unset)=
          [makePacket 0 inst t1.data t2.data t1.tag] := if_pos ⟨hliteral,h.numInputs overrun⟩
      simp only [hpacket] at hdata
      obtain ⟨rfl,rfl⟩ := Prod.mk.inj (List.mem_singleton.mp hdata)
      exact ⟨rfl,rfl⟩

/-- What the store takes for a token that comes alone. -/
theorem storeOperands_single (h : TwoOperands g order start id node inst o a b)
    (hone : node.operands.length=1) (overrun : TableOverrun) (unset token : TokenType) :
    storeOperands overrun unset inst ⟨token,none⟩=
      [(token.data,if o=.LOD then unset.data else inst.literal1)] := by
  have hliteral := h.loaded.one.mpr hone
  have hnone : inst.instructionLiteral ≠ InstructionLiteralType.NONE.bits := by
    rw [hliteral]
    decide
  unfold storeOperands
  by_cases hlod : o=.LOD
  · rw [if_pos (h.load_iff.mpr hlod),if_pos hlod]
    rfl
  · rw [if_neg fun heq => hlod (h.load_iff.mp heq),if_neg hlod,firePair,
      if_neg fun hboth => hnone hboth.1,if_pos (Or.inl hliteral)]
    rfl

/-- A variable and a constant: the constant is the second operand, but a LOD does not read it. -/
theorem inOrder_second (h : TwoOperands g order start id node inst o a b)
    (ha : a.isConstant g.labels=false) (hb : b.isConstant g.labels=true) :
    InOrder g order start id inst a b ↔ o ≠ .LOD := by
  have h1 : node.input1=some b := by rw [h.input1,ha,hb]; rfl
  have h2 : node.input2=none := by rw [h.input2,ha]; rfl
  have hone : node.operands.length=1 := by simp [Node.operands,h1,h2]
  have hb1 : LoadedLiteral g order start (some b) inst.literal1 := h1 ▸ h.loaded.literal1
  constructor
  · intro horder hlod
    obtain ⟨k,hk⟩ := List.mem_iff_getElem?.mp h.place
    have hm := h.matching (by omega)
    rw [h1,if_neg (by simp)] at hm
    obtain ⟨w,hw⟩ := exists_supplied .INPUT_ONE hk h.hnode h.opcode hm
    obtain ⟨m,hm',hmatching,-⟩ := supplied_word hw h.hnode h.opcode
    obtain rfl := Except.ok.inj (hm.symm.trans hm')
    -- the second operand is what the record held before
    have hfired : Fired (fun _ => 0) ⟨0,inst.literal1+1,0⟩ inst (some ⟨w,0,0⟩) none 0
        (inst.literal1+1) := by
      refine Fired.first _ _ _ (by rw [hmatching]; decide) ?_
      rw [h.storeOperands_single hone,if_pos hlod]
      simp
    have hsupply1 : Supplies g order start id .INPUT_ONE a (some ⟨w,0,0⟩) := ⟨ha,hw⟩
    have hsupply2 : Supplies g order start id .INPUT_TWO b none := hb
    obtain ⟨-,hvalue⟩ := horder _ _ _ _ _ _ hsupply1 hsupply2 hfired
    have hsame := loadedLiteral_unique h.nodup hb1 hvalue
    simp at hsame
  · intro hlod overrun unset token1 token2 data1 data2 hsupply1 hsupply2 hfired
    cases hfired with
    | ready i packet _ => simp [Supplies,ha] at hsupply1
    | second token _ _ _ _ => simp [Supplies,hb] at hsupply2
    | pair _ _ _ _ _ _ _ _ => simp [Supplies,hb] at hsupply2
    | first token _ _ _ hdata =>
      rw [h.storeOperands_single hone,if_neg hlod] at hdata
      obtain ⟨rfl,rfl⟩ := Prod.mk.inj (List.mem_singleton.mp hdata)
      exact ⟨rfl,hb1⟩

/-- A constant and a variable: the token comes first. -/
theorem not_inOrder_first (h : TwoOperands g order start id node inst o a b)
    (ha : a.isConstant g.labels=true) (hb : b.isConstant g.labels=false) :
    ¬InOrder g order start id inst a b := by
  have h1 : node.input1=some a := by rw [h.input1,if_pos ha]
  have h2 : node.input2=none := by rw [h.input2,hb]; simp
  have hone : node.operands.length=1 := by simp [Node.operands,h1,h2]
  intro horder
  obtain ⟨k,hk⟩ := List.mem_iff_getElem?.mp h.place
  have hm := h.matching (by omega)
  rw [h1,if_neg (by simp)] at hm
  obtain ⟨w,hw⟩ := exists_supplied .INPUT_TWO hk h.hnode h.opcode hm
  obtain ⟨m,hm',hmatching,-⟩ := supplied_word hw h.hnode h.opcode
  obtain rfl := Except.ok.inj (hm.symm.trans hm')
  have hfired : Fired (fun _ => 0) ⟨0,inst.literal1,0⟩ inst none (some ⟨w,inst.literal1+1,0⟩)
      (inst.literal1+1) inst.literal1 := by
    refine Fired.second _ _ _ (by rw [hmatching]; decide) ?_
    rw [h.storeOperands_single hone]
    simp
  have hsupply1 : Supplies g order start id .INPUT_ONE a none := ha
  have hsupply2 : Supplies g order start id .INPUT_TWO b (some ⟨w,inst.literal1+1,0⟩) := ⟨hb,hw⟩
  obtain ⟨-,hvalue⟩ := horder _ _ _ _ _ _ hsupply1 hsupply2 hfired
  have hvalue : inst.literal1=inst.literal1+1 := hvalue
  simp at hvalue

theorem inOrder_iff (h : TwoOperands g order start id node inst o a b) :
    InOrder g order start id inst a b ↔
      (a.isConstant g.labels=true → b.isConstant g.labels=true) ∧
        (o=.LOD → a.isConstant g.labels=b.isConstant g.labels) := by
  cases ha : a.isConstant g.labels with
  | true =>
    cases hb : b.isConstant g.labels with
    | true => simp [h.inOrder_constants ha hb]
    | false => simp [h.not_inOrder_first ha hb]
  | false =>
    cases hb : b.isConstant g.labels with
    | true => simp [h.inOrder_second ha hb]
    | false => simp [h.inOrder_variables ha hb]

end TwoOperands

end Line

/-- What an edge brings to an output line is printed, and if the operand is a constant, there is
an edge that can bring it. -/
def Prints (g : Graph) (order : List Nat) (start id : Nat) (instructions : List Instruction)
    (opcode : Opcode) (a : Arg) : Prop :=
  (∀ (k source : Nat) (node : Node) (inst : Instruction) (slot : DestSlot) (d : Destination),
    order[k]?=some source → g.heap[source]?=some node → node.slot slot=some d → d.node=id →
      instructions[start+k]?=some inst → ∀ behind token,token.destination=inst.slot slot →
        printToken behind token=opcode.prints behind token) ∧
  (a.isConstant g.labels=true → ∃source∈order,∃ node slot d,g.heap[source]?=some node ∧
    node.slot slot=some d ∧ d.node=id)

/-- The steps from the lines to a load without an error. -/
structure Loaded (input : List Name) (parsed g : Graph) (exportOrder : List Name) (e : Emitted)
    (bytes : List UInt8) (store store' : InstructionStore) (info : LoadedCodeInfo) : Prop where
  parse : parseCreateIrGraph input=.ok parsed
  optimize : optimizeGraph parsed=.ok g
  emit : graphToInstructions g exportOrder=some (.ok e)
  file : e.file=.ok bytes
  load : ∃ behind,loadFile behind store (some bytes) true=some (info,store')
  ok : info.error=0
  room : store.instructions.length+g.instructionNodes.length ≤ 2^28-5

namespace Loaded

variable {input : List Name} {parsed g : Graph} {exportOrder : List Name} {e : Emitted}
  {bytes : List UInt8} {store store' : InstructionStore} {info : LoadedCodeInfo}

theorem optimized (h : Loaded input parsed g exportOrder e bytes store store' info) :
    ∃ read,readLines .empty input=.ok read ∧ Parsed input read parsed ∧ parsed.optimized=g ∧
      EmittedGraph g exportOrder e ∧ e.order=g.instructionNodes ∧ WellFormed g :=
  parse_emitted h.parse h.optimize h.emit

/-- The instruction that a place of the order has in the store. -/
theorem line (h : Loaded input parsed g exportOrder e bytes store store' info) {k id : Nat}
    {node : Node} (hk : g.instructionNodes[k]?=some id) (hnode : g.heap[id]?=some node) :
    ∃ inst,store'.instructions[store.instructions.length+k]?=some inst ∧
      LoadedAs g g.instructionNodes store.instructions.length node inst := by
  obtain ⟨-,-,-,-,he,horder,hwell⟩ := h.optimized
  obtain ⟨behind,hload⟩ := h.load
  rw [← horder] at hk ⊢
  exact load_line he hwell h.file (by rw [horder]; exact h.room) hload h.ok hk hnode

theorem twoOperands (h : Loaded input parsed g exportOrder e bytes store store' info) {id : Nat}
    {statement : Statement} (hline : (id,statement)∈lineNodes 0 (statements input))
    {o : OpcodeType} {a b : Arg} (hop : statement.opcode=some (.op o))
    (hoperands : statement.operands=[a,b]) (htwo : (Opcode.op o).numInputs=2)
    (hmer : o ≠ .MER) :
    ∃ k inst node,g.instructionNodes[k]?=some id ∧
      store'.instructions[store.instructions.length+k]?=some inst ∧ TwoOperands g
        g.instructionNodes store.instructions.length id node inst o a b := by
  obtain ⟨read,hread,hparsed,hg,he,horder,-⟩ := h.optimized
  obtain ⟨old,node,-,⟨hopcode,hin1,hin2,-⟩,hmem,hnode,hsame,hinputs⟩ :=
    hparsed.line_node hread hline
  rw [hg] at hmem hnode
  rw [hoperands] at hin1 hin2
  have hold : old.opcode=.op o := Option.some.inj (hopcode.symm.trans hop)
  have hlabels : g.labels=read.labels := by
    rw [← hparsed.labels_eq,← hg]
    rfl
  have hplace : id∈g.instructionNodes := by
    refine List.mem_filter.mpr ⟨hmem,?_⟩
    simp [Graph.isInstruction,hnode,hsame,hold,Opcode.isSpecial]
  obtain ⟨h1,h2⟩ := settledInput_two read.labels old a b hin1 hin2 (by rw [hold]; exact htwo)
  obtain ⟨k,hk⟩ := List.mem_iff_getElem?.mp hplace
  obtain ⟨inst,hinst,hloaded⟩ := h.line hk hnode
  refine ⟨k,inst,node,hk,hinst,hplace,horder ▸ he.nodup,hnode,hsame.trans hold,htwo,hmer,?_,?_,
    hloaded⟩
  · rw [hlabels,← h1]
    exact hinputs .INPUT_ONE
  · rw [hlabels,← h2]
    exact hinputs .INPUT_TWO

theorem prints_iff (h : Loaded input parsed g exportOrder e bytes store store' info) {id : Nat}
    {statement : Statement} (hline : (id,statement)∈lineNodes 0 (statements input))
    {opcode : Opcode} {a : Arg} (hop : statement.opcode=some opcode)
    (hspecial : opcode.isSpecial=true) (hoperands : statement.operands=[a]) :
    Prints g g.instructionNodes store.instructions.length id store'.instructions opcode a ↔
      a.isConstant g.labels=false := by
  obtain ⟨read,hread,hparsed,hg,-,-,-⟩ := h.optimized
  obtain ⟨old,node,hold,⟨hopcode,hin1,hin2,-⟩,-,hnode,hsame,-⟩ := hparsed.line_node hread hline
  rw [hg] at hnode
  rw [hoperands] at hin1 hin2
  have hopnode : node.opcode=opcode := by
    rw [hsame]
    exact Option.some.inj (hopcode.symm.trans hop)
  have hlabels : g.labels=read.labels := by
    rw [← hparsed.labels_eq,← hg]
    rfl
  constructor
  · -- only a use of a variable gets an edge
    intro ⟨_,hconstant⟩
    by_contra ha
    obtain ⟨source,hsource,n,slot,d,hn,hd,hid⟩ := hconstant (by simpa using ha)
    obtain ⟨name,huse⟩ | hout | hge := hparsed.edge_cases (hg ▸ hn) hd
    · obtain ⟨used,hused,hoperand⟩ := Option.bind_eq_some_iff.mp huse.operand
      rw [hid,hold] at hused
      obtain rfl := Option.some.inj hused
      cases hinput : d.input with
      | INPUT_ONE =>
        rw [hinput] at hoperand
        have hstr : some a=some (Arg.str name) := hin1.symm.trans hoperand
        obtain rfl := Option.some.inj hstr
        simp [Arg.isConstant,hlabels,huse.isVariable.2] at ha
      | INPUT_TWO =>
        rw [hinput] at hoperand
        cases hin2.symm.trans hoperand
    · rw [hid,IsOutput,hold] at hout
      obtain rfl := Option.some.inj hout
      cases hin1
    · have hlt := (List.getElem?_eq_some_iff.mp hold).1
      omega
  · intro ha
    refine ⟨?_,fun hconstant => by rw [ha] at hconstant; cases hconstant⟩
    intro k source n inst slot d hk hn hd hid hinst behind token htoken
    obtain ⟨inst',hinst',hloaded⟩ := h.line hk hn
    obtain rfl : inst=inst' := Option.some.inj (hinst.symm.trans hinst')
    obtain ⟨other,hother,hword⟩ := hloaded.slot slot d hd
    rw [hid] at hother
    obtain rfl : node=other := Option.some.inj (hnode.symm.trans hother)
    rw [hopnode,← htoken] at hword
    have hne : Manchester.outputsDestination ≠ Manchester.outputdDestination := by decide
    cases opcode with
    | OUTD =>
      rw [if_pos rfl] at hword
      rw [printToken,if_pos hword]
      rfl
    | OUTS =>
      rw [if_neg (by simp),if_pos rfl] at hword
      rw [printToken,if_neg (by rw [hword]; exact hne),if_pos hword]
      rfl
    | op o => simp [Opcode.isSpecial] at hspecial

end Loaded

/-- In a loaded program an instruction with two operands evaluates them in the order of its line
exactly when no constant stands before a variable, and, in a LOD, no constant beside one. An
output line prints its operand exactly when that is a variable. -/
theorem operand_order (input : List Name) (parsed g : Graph) (exportOrder : List Name)
    (e : Emitted) (bytes : List UInt8) (store store' : InstructionStore) (info : LoadedCodeInfo)
    (hloaded : Loaded input parsed g exportOrder e bytes store store' info) (id : Nat)
    (statement : Statement) (hline : (id,statement)∈lineNodes 0 (statements input)) :
    (∀ o a b,statement.opcode=some (.op o) → statement.operands=[a,b] →
      (Opcode.op o).numInputs=2 → o ≠ .MER →
        ∃ k inst,g.instructionNodes[k]?=some id ∧
          store'.instructions[store.instructions.length+k]?=some inst ∧ inst.opcode=o.bits ∧
          (InOrder g g.instructionNodes store.instructions.length id inst a b ↔
            (a.isConstant g.labels=true → b.isConstant g.labels=true) ∧
              (o=.LOD → a.isConstant g.labels=b.isConstant g.labels))) ∧
    ∀ opcode a,statement.opcode=some opcode → opcode.isSpecial=true → statement.operands=[a] →
      (Prints g g.instructionNodes store.instructions.length id store'.instructions opcode a ↔
        a.isConstant g.labels=false) := by
  constructor
  · intro o a b hop hoperands htwo hmer
    obtain ⟨k,inst,node,hk,hinst,htwoOperands⟩ := hloaded.twoOperands hline hop hoperands htwo hmer
    exact ⟨k,inst,hk,hinst,htwoOperands.loaded.opcode o htwoOperands.opcode,
      htwoOperands.inOrder_iff⟩
  · intro opcode a hop hspecial hoperands
    exact hloaded.prints_iff hline hop hspecial hoperands

theorem loaded_of_assembleFile {input exportOrder : List Name} {g : Graph} {e : Emitted}
    {bytes : List UInt8} {store store' : InstructionStore} {info : LoadedCodeInfo}
    (hassemble : assembleFile input exportOrder=some (g,e,bytes))
    (hload : ∃ behind,loadFile behind store (some bytes) true=some (info,store'))
    (hok : info.error=0)
    (hroom : store.instructions.length+g.instructionNodes.length ≤ 2^28-5) :
    ∃ parsed,Loaded input parsed g exportOrder e bytes store store' info := by
  obtain ⟨parsed,hparse,hoptimize,hemit,hfile⟩ := assembleFile_steps hassemble
  exact ⟨parsed,hparse,hoptimize,hemit,hfile,hload,hok,hroom⟩

private def differenceLines : List Name := ["x = DUP 9","r = SUB x 5","OUTD r"].map String.toList

theorem operand_order_difference :
    ∃ (g : Graph) (e : Emitted) (bytes : List UInt8) (info : LoadedCodeInfo)
      (store' : InstructionStore) (inst : Instruction),
      assembleFile differenceLines []=some (g,e,bytes) ∧
      loadFile .clear ⟨[],[]⟩ (some bytes) true=some (info,store') ∧ info.error=0 ∧
      store'.instructions[1]?=some inst ∧ inst.opcode=OpcodeType.SUB.bits ∧
      InOrder g g.instructionNodes 0 1 inst (.str ['x']) (.int 5) ∧
      Prints g g.instructionNodes 0 2 store'.instructions .OUTD (.str ['r']) := by
  have hcheck : (assembleFile differenceLines []).any (fun r => r.1.instructionNodes=[0,1] ∧
      r.1.labels ['r']=none ∧
        (loadFile .clear ⟨[],[]⟩ (some r.2.2) true).any (fun l => l.1.error=0)=true)=true := by
    decide +kernel
  obtain ⟨⟨g,e,bytes⟩,hassemble,hcheck⟩ := (Option.any_eq_true _ _).mp hcheck
  obtain ⟨hnodes,hr,hload⟩ := of_decide_eq_true hcheck
  have hr : g.labels ['r']=none := hr
  obtain ⟨⟨info,store'⟩,hload,hok⟩ := (Option.any_eq_true _ _).mp hload
  have hok : info.error=0 := of_decide_eq_true hok
  obtain ⟨parsed,hloaded⟩ := loaded_of_assembleFile hassemble ⟨_,hload⟩ hok
    (by rw [hnodes]; decide)
  obtain ⟨hsub,-⟩ := operand_order _ _ _ _ _ _ _ _ _ hloaded 1
    (.assign ['r'] (.op .SUB) (.str ['x']) (some (.int 5))) (by decide +kernel)
  obtain ⟨-,hprints⟩ := operand_order _ _ _ _ _ _ _ _ _ hloaded 2
    (.output .OUTD (.str ['r'])) (by decide +kernel)
  obtain ⟨k,inst,hk,hinst,hopcode,horder⟩ := hsub .SUB _ _ rfl rfl rfl (by decide)
  obtain rfl : k=1 := by
    rw [hnodes] at hk
    match k,hk with
    | 0,hk => cases hk
    | 1,_ => rfl
    | k+2,hk => cases hk
  refine ⟨g,e,bytes,info,store',inst,hassemble,hload,hok,hinst,hopcode,horder.mpr ?_,
    (hprints .OUTD _ rfl rfl rfl).mpr ?_⟩
  · simp [Arg.isConstant]
  · simp [Arg.isConstant,hr]

private def swappedLines : List Name :=
  ["b = DUP 7","t, f = BRR 5 b","OUTD t","OUTD 3"].map String.toList

/-- The branch is evaluated with 7 first and 5 second, and the number 3 is never printed. -/
theorem operand_order_swapped :
    ∃ (g : Graph) (e : Emitted) (bytes : List UInt8) (info : LoadedCodeInfo)
      (store' : InstructionStore) (source inst : Instruction),
      assembleFile swappedLines []=some (g,e,bytes) ∧
      loadFile .clear ⟨[],[]⟩ (some bytes) true=some (info,store') ∧ info.error=0 ∧
      store'.instructions[0]?=some source ∧ store'.instructions[1]?=some inst ∧
      inst.opcode=OpcodeType.BRR.bits ∧
      Fired (fun _ => 0) ⟨0,0,0⟩ inst none (some ⟨source.destination1,7,0⟩) 7 5 ∧
      ¬InOrder g g.instructionNodes 0 3 inst (.int 5) (.str ['b']) ∧
      ¬Prints g g.instructionNodes 0 5 store'.instructions .OUTD (.int 3) := by
  have hcheck : (assembleFile swappedLines []).any (fun r => r.1.instructionNodes=[0,3] ∧
      r.1.labels ['b']=none ∧ (loadFile .clear ⟨[],[]⟩ (some r.2.2) true).any (fun l =>
        l.1.error=0 ∧ (l.2.instructions[0]?).map (fun inst =>
          destinationToMatchingFunction inst.destination1)=some Manchester.matchingOne ∧
          (l.2.instructions[1]?).map (fun inst => (inst.literal1,inst.instructionLiteral))=
            some (5,InstructionLiteralType.ONE.bits))=true)=true := by
    decide +kernel
  obtain ⟨⟨g,e,bytes⟩,hassemble,hcheck⟩ := (Option.any_eq_true _ _).mp hcheck
  obtain ⟨hnodes,hb,hload⟩ := of_decide_eq_true hcheck
  have hb : g.labels ['b']=none := hb
  obtain ⟨⟨info,store'⟩,hload,hparts⟩ := (Option.any_eq_true _ _).mp hload
  obtain ⟨hok,hsource,hliteral⟩ := of_decide_eq_true hparts
  obtain ⟨source,hsource,hmatching⟩ := Option.map_eq_some_iff.mp hsource
  obtain ⟨branch,hbranch,hliteral⟩ := Option.map_eq_some_iff.mp hliteral
  obtain ⟨hfive,hone⟩ := Prod.mk.inj hliteral
  obtain ⟨parsed,hloaded⟩ := loaded_of_assembleFile hassemble ⟨_,hload⟩ hok
    (by rw [hnodes]; decide)
  have hline : (3,Statement.branch ['t'] ['f'] (.op .BRR) (.int 5) (some (.str ['b'])))∈
      lineNodes 0 (statements swappedLines) := by decide +kernel
  have hline' : (5,Statement.output .OUTD (.int 3))∈lineNodes 0 (statements swappedLines) := by
    decide +kernel
  obtain ⟨k,inst,node,hk,hinst,htwo⟩ := hloaded.twoOperands hline rfl rfl rfl (by decide)
  obtain rfl : k=1 := by
    rw [hnodes] at hk
    match k,hk with
    | 0,hk => cases hk
    | 1,_ => rfl
    | k+2,hk => cases hk
  have hinst : store'.instructions[1]?=some inst := hinst
  obtain rfl : branch=inst := Option.some.inj (hbranch.symm.trans hinst)
  have hoperands : node.operands.length=1 := htwo.loaded.one.mp hone
  refine ⟨g,e,bytes,info,store',source,branch,hassemble,hload,hok,hsource,hbranch,
    htwo.loaded.opcode _ htwo.opcode,?_,htwo.not_inOrder_first rfl (by simp [Arg.isConstant,hb]),
    ?_⟩
  · refine Fired.second _ _ _ (by rw [hmatching]; decide) ?_
    rw [htwo.storeOperands_single hoperands,hfive]
    simp
  · intro hprints
    have hvariable := (hloaded.prints_iff hline' rfl rfl rfl).mp hprints
    cases hvariable

end Assembler

end Manchester
