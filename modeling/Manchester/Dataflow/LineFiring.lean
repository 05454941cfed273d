import Manchester.Dataflow.Flights

namespace Manchester.Assembler

open Framework Framework.Net

section Places

variable {lines : List Name} {read : IrState} {parsed : Graph} {instructions : List Instruction}

/-- The word of an edge names the place of its node, the port, and the matching function. -/
theorem LineProgram.word (P : LineProgram lines read parsed instructions)
    {d : Destination} {word : DestinationType} {node : Node} {o : OpcodeType}
    (hword : LoadedSlot parsed.optimized parsed.optimized.instructionNodes 0 (some d) word)
    (hnode : parsed.optimized.heap[d.node]?=some node) (hop : node.opcode=.op o) :
    parsed.optimized.instructionNodes[(destinationToAddress word).toNat]?=some d.node ∧
      destinationToInput word=BitVec.ofNat 32 d.input.value ∧
      ∃ m,matchingFunction node=.ok m ∧
        destinationToMatchingFunction word=BitVec.ofNat 32 m := by
  have hroom := P.image.room
  obtain ⟨other,hother,hcases⟩ := hword
  obtain rfl : node=other := Option.some.inj (hnode.symm.trans hother)
  rw [if_neg (by simp [hop]),if_neg (by simp [hop])] at hcases
  obtain ⟨j,m,hj,hm,rfl⟩ := hcases
  have hjlt := (List.getElem?_eq_some_iff.mp hj).1
  have hm4 := matchingFunction_lt hm
  have hi2 := d.input.value_lt
  have hmatching : (BitVec.ofNat 32 m).toNat=m := by
    rw [BitVec.toNat_ofNat]
    omega
  have hinput : (BitVec.ofNat 32 d.input.value).toNat=d.input.value := by
    rw [BitVec.toNat_ofNat]
    omega
  have hnat := Manchester.createDestination_toNat (BitVec.ofNat 32 (0+j))
    (BitVec.ofNat 32 d.input.value) (BitVec.ofNat 32 m) (by omega) (by omega)
  rw [BitVec.toNat_ofNat,hmatching,hinput] at hnat
  refine ⟨?_,?_,m,hm,?_⟩
  · rw [destinationToAddress_toNat,hnat]
    rw [show (16*((0+j)%2^32%2^28)+8*d.input.value+m)/16=j by omega]
    exact hj
  · apply BitVec.eq_of_toNat_eq
    rw [destinationToInput_toNat,hnat,hinput]
    omega
  · apply BitVec.eq_of_toNat_eq
    rw [destinationToMatchingFunction_toNat,hnat,hmatching]
    omega

/-- The place that the destination of a token names. -/
theorem LineProgram.place (P : LineProgram lines read parsed instructions)
    (f : Flight read parsed.optimized) {d : Destination} {node : Node} {o : OpcodeType}
    (hslot : f.slot=some d) (hnode : parsed.optimized.heap[d.node]?=some node)
    (hop : node.opcode=.op o) :
    parsed.optimized.instructionNodes[(destinationToAddress f.token.destination).toNat]?=
        some d.node ∧
      destinationToInput f.token.destination=BitVec.ofNat 32 d.input.value := by
  obtain ⟨hk,hinput,-⟩ := P.word (hslot ▸ f.word) hnode hop
  exact ⟨hk,hinput⟩

/-- A token for an instruction is for the node of it. -/
theorem LineProgram.arrives (P : LineProgram lines read parsed instructions)
    (f : Flight read parsed.optimized) {inst : Instruction}
    (hinst : instructions[(destinationToAddress f.token.destination).toNat]?=some inst) :
    ∃ d node o,f.slot=some d ∧ parsed.optimized.heap[d.node]?=some node ∧ node.opcode=.op o ∧
      parsed.optimized.instructionNodes[(destinationToAddress f.token.destination).toNat]?=
        some d.node ∧
      destinationToInput f.token.destination=BitVec.ofNat 32 d.input.value := by
  have hlt := (List.getElem?_eq_some_iff.mp hinst).1
  rw [P.image.length] at hlt
  have hroom := P.image.room
  have hword := f.word
  cases hslot : f.slot with
  | none =>
    rw [hslot] at hword
    have hnull : f.token.destination=Manchester.devNullDestination := hword
    have haddress : (destinationToAddress Manchester.devNullDestination).toNat=2^28-5 := by decide
    rw [hnull,haddress] at hlt
    omega
  | some d =>
    rw [hslot] at hword
    obtain ⟨node,hnode,hcases⟩ := hword
    cases hop : node.opcode with
    | OUTD =>
      have haddress : (destinationToAddress Manchester.outputdDestination).toNat=2^28-1 := by decide
      rw [if_pos hop] at hcases
      rw [hcases,haddress] at hlt
      omega
    | OUTS =>
      have haddress : (destinationToAddress Manchester.outputsDestination).toNat=2^28-2 := by decide
      rw [if_neg (by simp [hop]),if_pos hop] at hcases
      rw [hcases,haddress] at hlt
      omega
    | op o =>
      obtain ⟨hk,hinput⟩ := P.place f hslot hnode hop
      exact ⟨d,node,o,rfl,hnode,hop,hk,hinput⟩

/-- It is at the operand of a line, or at a DUP of the assembler. -/
theorem Flight.cases {g : Graph} (f : Flight read g) {d : Destination} {node : Node}
    (hslot : f.slot=some d) (hnode : g.heap[d.node]?=some node) :
    (node.forwards=false ∧ f.leaves=[d] ∧ f.relays=0) ∨
      node.forwards=true ∧ ∃ us vs m n,Spreads g.heap node.destination1 us m ∧
        Spreads g.heap node.destination2 vs n ∧ f.leaves=us++vs ∧ f.relays=m+n+1 := by
  have hspreads := f.spreads
  rw [hslot] at hspreads
  generalize f.leaves=leaves at hspreads
  generalize f.relays=relays at hspreads
  cases hspreads with
  | leaf d other hother hstop =>
    obtain rfl : node=other := Option.some.inj (hnode.symm.trans hother)
    exact Or.inl ⟨hstop,rfl,rfl⟩
  | relay d other us vs m n hother hforwards h1 h2 =>
    obtain rfl : node=other := Option.some.inj (hnode.symm.trans hother)
    exact Or.inr ⟨hforwards,us,vs,m,n,h1,h2,rfl,rfl⟩

end Places

theorem DirectOperands.length_le {o : Opcode} {args : List Arg} (h : DirectOperands o args) :
    args.length ≤ 2 := by
  cases h <;> simp

section Lines

variable {lines : List Name} {read : IrState} {parsed : Graph} {instructions : List Instruction}
  {k id L : Nat} {node : Node} {s : Statement} {inst : Instruction} {o : OpcodeType}

/-- The numbers of the line are the literals of the instruction. -/
theorem LineProgram.literals (P : LineProgram lines read parsed instructions)
    (hk : parsed.optimized.instructionNodes[k]?=some id)
    (hnode : parsed.optimized.heap[id]?=some node) (hinst : instructions[k]?=some inst)
    (hline : LineNode lines read parsed.optimized.heap id node L s) {numbers : List Arg}
    (hnumbers : s.operands.filter Arg.isInt=numbers) :
    (inst.instructionLiteral=InstructionLiteralType.NONE.bits ↔ numbers.length=0) ∧
      (inst.instructionLiteral=InstructionLiteralType.ONE.bits ↔ numbers.length=1) ∧
      (inst.instructionLiteral=InstructionLiteralType.TWO.bits ↔ ¬numbers.length < 2) ∧
      (∀ a,numbers[0]?=some (.int a) → inst.literal1=BitVec.ofInt 64 a) ∧
      ∀ a,numbers[1]?=some (.int a) → inst.literal2=BitVec.ofInt 64 a := by
  obtain ⟨hloaded,-⟩ := P.image.loaded k id node inst hk hnode hinst
  have hoperands := operands_direct hline.operands.length_le hline.inputs
  rw [hnumbers] at hoperands
  have h1 := hline.inputs .INPUT_ONE
  have h2 := hline.inputs .INPUT_TWO
  simp only [Node.input,Input.value,hnumbers] at h1 h2
  refine ⟨hoperands ▸ hloaded.none,hoperands ▸ hloaded.one,hoperands ▸ hloaded.two,
    fun a ha => ?_,fun a ha => ?_⟩
  · have hword := hloaded.literal1
    rw [h1,ha] at hword
    exact hword
  · have hword := hloaded.literal2
    rw [h2,ha] at hword
    exact hword

/-- The rule that takes the operands in way w. -/
theorem LineProgram.rule (P : LineProgram lines read parsed instructions)
    {τ α γ : Type} {dom : Domain τ α γ} (hs : (statements lines)[L]?=some s) {w : Nat}
    {wires : List Wire} (hways : (s.ways dom lines L)[w]?=some wires) :
    (L,w)∈segment dom lines 0 lines.length ∧ (net dom lines).reads (L,w)=wires := by
  have hat := (readLines_statementAt P.direct.read L).trans hs
  exact ⟨mem_segment.mpr ⟨s,hat,(List.getElem?_eq_some_iff.mp hways).1⟩,net_reads hat hways⟩

theorem LineProgram.numInputs (P : LineProgram lines read parsed instructions)
    (hk : parsed.optimized.instructionNodes[k]?=some id)
    (hnode : parsed.optimized.heap[id]?=some node) (hinst : instructions[k]?=some inst)
    (hop : node.opcode=.op o) (overrun : TableOverrun) :
    Manchester.numInputs overrun inst.opcode=if o=.MER then 1 else (Opcode.op o).numInputs := by
  obtain ⟨hloaded,-⟩ := P.image.loaded k id node inst hk hnode hinst
  rw [hloaded.opcode o hop,numInputs_machine]

theorem instruction_node {g : Graph} (hk : g.instructionNodes[k]?=some id) :
    ∃ node o,g.heap[id]?=some node ∧ node.opcode=.op o := by
  have hon := List.of_mem_filter (List.mem_of_getElem? hk)
  obtain ⟨node,hnode,hop⟩ := (Option.any_eq_true _ _).mp hon
  cases ho : node.opcode with
  | OUTD | OUTS => simp [ho,Opcode.isSpecial] at hop
  | op o => exact ⟨node,o,hnode,ho⟩

/-- An instruction without literals waits for a token. -/
theorem LineProgram.not_ready (P : LineProgram lines read parsed instructions)
    (hk : parsed.optimized.instructionNodes[k]?=some id)
    (hnode : parsed.optimized.heap[id]?=some node) (hinst : instructions[k]?=some inst)
    (hempty : node.operands=[]) (overrun : TableOverrun) : readyPacket overrun k inst=none := by
  obtain ⟨hloaded,-⟩ := P.image.loaded k id node inst hk hnode hinst
  have hnone := hloaded.none.mpr (by rw [hempty]; rfl)
  unfold readyPacket
  rw [hnone,if_neg (by decide),if_neg]
  rintro ⟨hone,-⟩
  exact absurd hone (by decide)

/-- The operand of the line that a use stands for. -/
theorem LineProgram.operand (P : LineProgram lines read parsed instructions)
    (hline : LineNode lines read parsed.optimized.heap id node L s) {d : Destination}
    (hd : d.node=id) {v : Name} (huse : d∈uses read.heap v) :
    s.operands[d.input.value]?=some (.str v) ∧
      portOf (statements lines) d=
        if node.opcode=.op .MER then ((L,d.input.value),0) else ((L,0),d.input.value) := by
  obtain ⟨s',hs',-,-,hoperand⟩ := P.direct.use_line P.graph.branches huse
  have hL : lineOf (statements lines) d.node=L := by
    rw [hd]
    exact hline.line
  rw [hL,hline.statement] at hs'
  obtain rfl := Option.some.inj hs'
  refine ⟨hoperand,?_⟩
  simp only [portOf,hL,hline.statement,Option.bind_some,hline.opcode,Option.some.injEq]

variable (labels : List Name) (address : Name → DataType)

/-- The rule that an instruction stands for when one token is enough for it. -/
theorem LineProgram.single (P : LineProgram lines read parsed instructions)
    (hk : parsed.optimized.instructionNodes[k]?=some id)
    (hnode : parsed.optimized.heap[id]?=some node) (hinst : instructions[k]?=some inst)
    (hline : LineNode lines read parsed.optimized.heap id node L s) (hop : node.opcode=.op o)
    (hinternal : o.isExternal=false) (overrun : TableOverrun)
    (hone : inst.instructionLiteral=InstructionLiteralType.ONE.bits ∨
      Manchester.numInputs overrun inst.opcode=1) {d : Destination} (hd : d.node=id) {v : Name}
    (huse : d∈uses read.heap v) :
    ∃ w x,portOf (statements lines) d=((L,w),0) ∧
      (L,w)∈segment (machineDomain labels address) lines 0 lines.length ∧
      (net (machineDomain labels address) lines).reads (L,w)=[x] ∧ ∀ c t data slot,
        (machineDomain labels address).sends L c t o [data,inst.literal1] slot=
          (machineDomain labels address).sends L c t o
            (s.values (machineDomain labels address) lines L [data]) slot := by
  have hlabels := P.direct.noLabels
  have hconstant : ∀ x,constant (machineDomain labels address) lines (.str x)=none :=
    constant_str hlabels
  obtain ⟨hoperand,hport⟩ := P.operand hline hd huse
  obtain ⟨-,hliteral,-,hword,-⟩ := P.literals hk hnode hinst hline rfl
  rw [P.numInputs hk hnode hinst hop] at hone
  have hopcode : s.opcode=some (.op o) := hop ▸ hline.opcode
  have hdirect := hline.operands
  rw [hop] at hdirect hport
  generalize hargs : s.operands=args at hdirect hoperand hliteral hword
  cases hdirect with
  | name x hx hsingle =>
    have hwire := operandWire_str hlabels hx L
    have hmer : o ≠ .MER := by
      rintro rfl
      cases hsingle
    have hzero : d.input.value=0 := by
      by_contra hne
      rw [List.getElem?_eq_none (by simp; omega)] at hoperand
      cases hoperand
    rw [if_neg (by simpa using hmer),hzero] at hport
    have hways : (s.ways (machineDomain labels address) lines L)[0]?=some [.name x] := by
      simp [Statement.ways,hargs,hopcode,hmer,hwire,hconstant]
    obtain ⟨hmem,hreads⟩ := P.rule hline.statement hways
    refine ⟨0,.name x,hport,hmem,hreads,fun c t data slot => ?_⟩
    rw [sends_single labels address L c t hinternal (Or.inl hsingle)]
    simp [Statement.values,hargs,hwire,hconstant]
  | number a hsingle =>
    cases hi : d.input <;> rw [hi] at hoperand <;> cases hoperand
  | names x y hx hy hdyadic =>
    have hwire := operandWire_str hlabels hx L
    have hwire' := operandWire_str hlabels hy L
    have hmer : o=.MER := by
      by_contra hmer
      rw [if_neg hmer,hdyadic] at hone
      obtain hone | hone := hone
      · cases hliteral.mp hone
      · cases hone
    subst hmer
    have hways : (s.ways (machineDomain labels address) lines L)[d.input.value]?=
        some [.name v] := by
      cases hi : d.input <;> rw [hi] at hoperand <;> cases hoperand <;>
        simp [Statement.ways,hargs,hopcode,hwire,hwire',Input.value]
    obtain ⟨hmem,hreads⟩ := P.rule hline.statement hways
    rw [if_pos rfl] at hport
    refine ⟨d.input.value,.name v,hport,hmem,hreads,fun c t data slot => ?_⟩
    rw [sends_single labels address L c t hinternal (Or.inr rfl)]
    simp [Statement.values,hargs,hwire,hconstant]
  | nameNumber x b hx hdyadic hmer =>
    have hwire := operandWire_str hlabels hx L
    have hmer : o ≠ .MER := fun heq => hmer (by rw [heq])
    have hzero : d.input.value=0 := by
      cases hi : d.input
      · rfl
      · rw [hi] at hoperand
        cases hoperand
    rw [if_neg (by simpa using hmer),hzero] at hport
    have hways : (s.ways (machineDomain labels address) lines L)[0]?=some [.name x] := by
      simp [Statement.ways,hargs,hopcode,hmer,hwire,hconstant]
    obtain ⟨hmem,hreads⟩ := P.rule hline.statement hways
    refine ⟨0,.name x,hport,hmem,hreads,fun c t data slot => ?_⟩
    have hnumber : (machineDomain labels address).literal b=BitVec.ofInt 64 b := rfl
    rw [hword b rfl]
    simp [Statement.values,hargs,hwire,hconstant,hnumber]
  | numbers a b hdyadic hmer =>
    cases hi : d.input <;> rw [hi] at hoperand <;> cases hoperand

/-- The rule that an instruction stands for when it takes two tokens. -/
theorem LineProgram.both (P : LineProgram lines read parsed instructions)
    (hk : parsed.optimized.instructionNodes[k]?=some id)
    (hnode : parsed.optimized.heap[id]?=some node) (hinst : instructions[k]?=some inst)
    (hline : LineNode lines read parsed.optimized.heap id node L s) (hop : node.opcode=.op o)
    (overrun : TableOverrun)
    (htwo : Manchester.numInputs overrun inst.opcode=2) {d d' : Destination} (hd : d.node=id)
    (hd' : d'.node=id) (hinput : d.input=.INPUT_ONE) (hinput' : d'.input=.INPUT_TWO) {v v' : Name}
    (huse : d∈uses read.heap v) (huse' : d'∈uses read.heap v') :
    ∃ x y,portOf (statements lines) d=((L,0),0) ∧ portOf (statements lines) d'=((L,0),1) ∧
      (L,0)∈segment (machineDomain labels address) lines 0 lines.length ∧
      (net (machineDomain labels address) lines).reads (L,0)=[x,y] ∧ ∀ data data',
        s.values (machineDomain labels address) lines L [data,data']=[data,data'] := by
  have hlabels := P.direct.noLabels
  have hconstant : ∀ x,constant (machineDomain labels address) lines (.str x)=none :=
    constant_str hlabels
  obtain ⟨hoperand,hport⟩ := P.operand hline hd huse
  obtain ⟨hoperand',hport'⟩ := P.operand hline hd' huse'
  rw [P.numInputs hk hnode hinst hop] at htwo
  have hmer : o ≠ .MER := by
    rintro rfl
    cases htwo
  rw [if_neg hmer] at htwo
  have hopcode : s.opcode=some (.op o) := hop ▸ hline.opcode
  have hdirect := hline.operands
  have hmer' : ¬node.opcode=.op .MER := by
    rw [hop]
    simpa using hmer
  rw [if_neg hmer',hinput] at hport
  rw [if_neg hmer',hinput'] at hport'
  rw [hinput] at hoperand
  rw [hinput'] at hoperand'
  rw [hop] at hdirect
  generalize hargs : s.operands=args at hdirect hoperand hoperand'
  cases hdirect with
  | names x y hx hy hdyadic =>
    have hwire := operandWire_str hlabels hx L
    have hwire' := operandWire_str hlabels hy L
    have hways : (s.ways (machineDomain labels address) lines L)[0]?=some [.name x,.name y] := by
      simp [Statement.ways,hargs,hopcode,hmer,hwire,hwire',hconstant]
    obtain ⟨hmem,hreads⟩ := P.rule hline.statement hways
    refine ⟨_,_,hport,hport',hmem,hreads,fun data data' => ?_⟩
    simp [Statement.values,hargs,hwire,hwire',hconstant]
  | name x hx hone => cases hoperand'
  | number a hone => cases hoperand
  | nameNumber x b hx _ _ => cases hoperand'
  | numbers a b _ _ => cases hoperand

/-- The rule that an instruction stands for when it waits for nothing. -/
theorem LineProgram.ready (P : LineProgram lines read parsed instructions)
    (hk : parsed.optimized.instructionNodes[k]?=some id)
    (hnode : parsed.optimized.heap[id]?=some node) (hinst : instructions[k]?=some inst)
    (hline : LineNode lines read parsed.optimized.heap id node L s) (hop : node.opcode=.op o)
    (hinternal : o.isExternal=false) (overrun : TableOverrun) {packet : ExecutionPacket}
    (hready : readyPacket overrun k inst=some packet) :
    (L,0)∈segment (machineDomain labels address) lines 0 lines.length ∧
      (net (machineDomain labels address) lines).reads (L,0)=[.start] ∧
      ∃ data data',packet=makePacket k inst data data' noTag ∧ ∀ u c t slot,
        (machineDomain labels address).sends L c t o [data,data'] slot=
          (machineDomain labels address).sends L c t o
            (s.values (machineDomain labels address) lines L [u]) slot := by
  have hlabels := P.direct.noLabels
  obtain ⟨-,hliteral,htwo,hword,hword'⟩ := P.literals hk hnode hinst hline rfl
  unfold readyPacket at hready
  rw [P.numInputs hk hnode hinst hop] at hready
  have hopcode : s.opcode=some (.op o) := hop ▸ hline.opcode
  have hdirect := hline.operands
  rw [hop] at hdirect
  generalize hargs : s.operands=args at hdirect hliteral htwo hword hword'
  cases hdirect with
  | number a hsingle =>
    have hmer : o ≠ .MER := by
      rintro rfl
      cases hsingle
    have hways : (s.ways (machineDomain labels address) lines L)[0]?=some [.start] := by
      simp [Statement.ways,hargs,hopcode,hmer,List.filterMap_cons]
    obtain ⟨hmem,hreads⟩ := P.rule hline.statement hways
    have hnot : ¬inst.instructionLiteral=InstructionLiteralType.TWO.bits := by
      simp [htwo,List.filter_cons,Arg.isInt]
    have hone : inst.instructionLiteral=InstructionLiteralType.ONE.bits := hliteral.mpr rfl
    rw [if_neg hnot,if_neg hmer,if_pos ⟨hone,hsingle⟩] at hready
    obtain rfl := Option.some.inj hready
    refine ⟨hmem,hreads,_,_,rfl,fun u c t slot => ?_⟩
    have hnumber : (machineDomain labels address).literal a=BitVec.ofInt 64 a := rfl
    rw [sends_single labels address L c t hinternal (Or.inl hsingle),hword a rfl]
    simp [Statement.values,hargs,List.filterMap_cons,hnumber]
  | numbers a b hdyadic hmer =>
    have hmer : o ≠ .MER := fun heq => hmer (by rw [heq])
    have hways : (s.ways (machineDomain labels address) lines L)[0]?=some [.start] := by
      simp [Statement.ways,hargs,hopcode,hmer,List.filterMap_cons]
    obtain ⟨hmem,hreads⟩ := P.rule hline.statement hways
    have hboth : inst.instructionLiteral=InstructionLiteralType.TWO.bits := 
      htwo.mpr (by simp [List.filter_cons,Arg.isInt])
    rw [if_pos hboth] at hready
    obtain rfl := Option.some.inj hready
    refine ⟨hmem,hreads,_,_,rfl,fun u c t slot => ?_⟩
    have hnumber : ∀ a,(machineDomain labels address).literal a=BitVec.ofInt 64 a := fun _ => rfl
    rw [hword a rfl,hword' b rfl]
    simp [Statement.values,hargs,List.filterMap_cons,hnumber]
  | name x hx hsingle | names x y hx hy hdyadic =>
    have hnot : ¬inst.instructionLiteral=InstructionLiteralType.TWO.bits := by
      simp [htwo,Arg.isInt]
    have hnot' : ¬inst.instructionLiteral=InstructionLiteralType.ONE.bits := by
      simp [hliteral,Arg.isInt]
    rw [if_neg hnot,if_neg fun h => hnot' h.1] at hready
    cases hready
  | nameNumber x b hx hdyadic hmer =>
    have hmer : o ≠ .MER := fun heq => hmer (by rw [heq])
    have hnot : ¬inst.instructionLiteral=InstructionLiteralType.TWO.bits := by
      simp [htwo,List.filter_cons,Arg.isInt]
    rw [if_neg hnot,if_neg hmer,if_neg fun h => by omega] at hready
    cases hready

end Lines

end Manchester.Assembler
