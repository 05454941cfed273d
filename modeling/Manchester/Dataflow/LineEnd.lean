import Manchester.Dataflow.LinePrints

namespace Manchester.Assembler

open Framework Framework.Net

section Stuck

variable {lines : List Name} {read : IrState} {parsed : Graph} {instructions : List Instruction}
  {k id L : Nat} {node : Node} {s : Statement} {inst : Instruction} {o : OpcodeType}
  {flights : Multiset (Flight read parsed.optimized)} {ready : Multiset Nat}

/-- Tokens of a state that an instruction can take make a step. -/
theorem step_of_flights {overrun : TableOverrun} {a : Dataflow}
    {taken rest : Multiset (Flight read parsed.optimized)} {packet : ExecutionPacket}
    (random : RandomStream) (env : FunctionEnv)
    (ha : a.operands=operandsOf (taken+rest) ready)
    (hfiring : Manchester.Firing overrun instructions (taken.map fun f => .token f.token) packet) :
    ∃ a',Dataflow.Step overrun random instructions a a' := by
  have hsplit : a.operands=taken.map (fun f => Operand.token f.token)+operandsOf rest ready := by
    rw [ha,operandsOf,operandsOf,Multiset.map_add,add_assoc]
  exact ⟨_,Dataflow.Step.of_operands random env hsplit hfiring⟩

/-- A token before a DUP of the assembler can be passed on. -/
theorem LineProgram.relay_fires (P : LineProgram lines read parsed instructions)
    (overrun : TableOverrun) (f : Flight read parsed.optimized) (hrelays : f.relays ≠ 0) :
    ∃ packet,Manchester.Firing overrun instructions {.token f.token} packet := by
  have hspreads := f.spreads
  cases hslot : f.slot with
  | none =>
    rw [hslot] at hspreads
    generalize f.leaves=leaves at hspreads
    generalize f.relays=relays at hspreads hrelays
    cases hspreads
    exact absurd rfl hrelays
  | some d =>
    have hword := f.word
    rw [hslot] at hword
    obtain ⟨node,hnode,-⟩ := hword
    obtain ⟨-,-,hzero⟩ | ⟨hforwards,-⟩ := f.cases hslot hnode
    · exact absurd hzero hrelays
    obtain ⟨-,hdup,-⟩ | ⟨hstop,-⟩ := P.node_cases hnode
    · obtain ⟨hk,-⟩ := P.place f hslot hnode hdup
      have hlt := (List.getElem?_eq_some_iff.mp hk).1
      rw [← P.image.length] at hlt
      have hinst := List.getElem?_eq_getElem hlt
      have hone : Manchester.numInputs overrun _=1 := P.numInputs hk hnode hinst hdup overrun
      exact ⟨_,.single _ _ _ hinst (Or.inr hone) rfl⟩
    · rw [hforwards] at hstop
      cases hstop

/-- One token is enough for an instruction, or its line reads two wires at once. -/
theorem LineProgram.one_or_two (P : LineProgram lines read parsed instructions)
    (hk : parsed.optimized.instructionNodes[k]?=some id)
    (hnode : parsed.optimized.heap[id]?=some node) (hinst : instructions[k]?=some inst)
    (hline : LineNode lines read parsed.optimized.heap id node L s) (hop : node.opcode=.op o)
    (overrun : TableOverrun) {d : Destination} (hd : d.node=id) {v : Name}
    (huse : d∈uses read.heap v) :
    (inst.instructionLiteral=InstructionLiteralType.ONE.bits ∨
      Manchester.numInputs overrun inst.opcode=1) ∨
    inst.instructionLiteral=InstructionLiteralType.NONE.bits ∧
      Manchester.numInputs overrun inst.opcode=2 ∧ o ≠ .MER ∧
      ∃ x y,x ≠ ['_'] ∧ y ≠ ['_'] ∧ s.operands=[.str x,.str y] := by
  obtain ⟨hoperand,-⟩ := P.operand hline hd huse
  obtain ⟨hnone,hone,-⟩ := P.literals hk hnode hinst hline rfl
  rw [P.numInputs hk hnode hinst hop]
  have hdirect := hline.operands
  rw [hop] at hdirect
  generalize s.operands=args at hdirect hoperand hnone hone
  cases hdirect with
  | name x hx hsingle =>
    left
    right
    split_ifs
    · rfl
    · exact hsingle
  | number a hsingle => cases hi : d.input <;> rw [hi] at hoperand <;> cases hoperand
  | names x y hx hy hdyadic =>
    by_cases hmer : o=.MER
    · left
      right
      rw [if_pos hmer]
    · right
      rw [if_neg hmer]
      exact ⟨hnone.mpr rfl,hdyadic,hmer,x,y,hx,hy,rfl⟩
  | nameNumber x b hx hdyadic hmer =>
    left
    left
    exact hone.mpr rfl
  | numbers a b hdyadic hmer =>
    cases hi : d.input <;> rw [hi] at hoperand <;> cases hoperand

/-- A line reads a wire in each of its ways. -/
theorem DirectOperands.wires_ne_nil {τ α γ : Type} {dom : Domain τ α γ} (hlabels : NoLabels lines)
    {o : Opcode} (ho : s.opcode=some o) (h : DirectOperands o s.operands) {w : Nat}
    {wires : List Wire} (hways : (s.ways dom lines L)[w]?=some wires) : wires ≠ [] := by
  rw [h.ways hlabels ho] at hways
  split_ifs at hways with hmer hnil
  · rw [List.getElem?_map] at hways
    obtain ⟨x,-,rfl⟩ := Option.map_eq_some_iff.mp hways
    simp
  · obtain rfl := List.mem_singleton.mp (List.mem_of_getElem? hways)
    simp
  · obtain rfl := List.mem_singleton.mp (List.mem_of_getElem? hways)
    exact hnil

/-- An operand that the net holds is a token of the machine, or the start of an instruction. -/
theorem LineProgram.held (P : LineProgram lines read parsed instructions) {u : DataType}
    (hrelays : ∀f∈flights,f.relays=0) {r : Nat × Nat} {i : Nat} {t : TagType} {v : DataType}
    (h : (⟨r,i,t,v⟩ : Arrival (Nat × Nat) TagType DataType)∈
      flights.bind (Flight.arrivals (statements lines))+
        ready.map (startArrival (statements lines) parsed.optimized u)) :
    (∃k∈ready,i=0) ∨ ∃f∈flights,∃ d node L s x,f.slot=some d ∧
      parsed.optimized.heap[d.node]?=some node ∧ d∈uses read.heap x ∧
      LineNode lines read parsed.optimized.heap d.node node L s ∧
      portOf (statements lines) d=(r,i) ∧ f.token.tag=t := by
  rw [Multiset.mem_add,Multiset.mem_bind,Multiset.mem_map] at h
  obtain ⟨f,hf,hmem⟩ | ⟨k,hk,heq⟩ := h
  · right
    obtain ⟨-,hleaves⟩ | ⟨d,node,L,s,x,hslot,hleaves,hnode,huse,hline⟩ :=
      P.landed f (hrelays f hf)
    · rw [Flight.arrivals,hleaves] at hmem
      exact absurd hmem (Multiset.notMem_zero _)
    · rw [Flight.arrivals,hleaves,List.map_singleton,Multiset.coe_singleton,
        Multiset.mem_singleton] at hmem
      obtain ⟨rfl,rfl,rfl,rfl⟩ := Arrival.mk.inj hmem
      exact ⟨f,hf,d,node,L,s,x,hslot,hnode,huse,hline,rfl,rfl⟩
  · left
    obtain ⟨-,rfl,-⟩ := Arrival.mk.inj heq
    exact ⟨k,hk,rfl⟩

/-- The same for an operand of one line. -/
theorem LineProgram.held_at (P : LineProgram lines read parsed instructions) {u : DataType}
    (hrelays : ∀f∈flights,f.relays=0) {w i : Nat} {t : TagType} {v : DataType}
    (hs : (statements lines)[L]?=some s)
    (h : (⟨(L,w),i,t,v⟩ : Arrival (Nat × Nat) TagType DataType)∈
      flights.bind (Flight.arrivals (statements lines))+
        ready.map (startArrival (statements lines) parsed.optimized u)) :
    (∃k∈ready,i=0) ∨ ∃f∈flights,∃ d node x,f.slot=some d ∧
      parsed.optimized.heap[d.node]?=some node ∧ d∈uses read.heap x ∧
      LineNode lines read parsed.optimized.heap d.node node L s ∧
      portOf (statements lines) d=((L,w),i) ∧ f.token.tag=t := by
  obtain hstart | ⟨f,hf,d,node,L',s',x,hslot,hnode,huse,hline,hport,htag⟩ := P.held hrelays h
  · exact Or.inl hstart
  · obtain ⟨-,hport'⟩ := P.operand hline rfl huse
    obtain rfl : L'=L := by
      have hfirst := congrArg (fun p => p.1.1) (hport'.symm.trans hport)
      rw [apply_ite (fun p : (Nat × Nat) × Nat => p.1.1),ite_self] at hfirst
      exact hfirst
    obtain rfl := Option.some.inj (hs.symm.trans hline.statement)
    exact Or.inr ⟨f,hf,d,node,x,hslot,hnode,huse,hline,hport,htag⟩

/-- An instruction that waits for nothing can start. -/
theorem start_fires (overrun : TableOverrun) (random : RandomStream) (env : FunctionEnv)
    {a : Dataflow} (hops : a.operands=operandsOf flights ready) (hk : k∈ready)
    (hready : k∈readyAddresses overrun instructions) :
    ∃ a',Dataflow.Step overrun random instructions a a' := by
  obtain ⟨inst,packet,hinst,hpacket⟩ := mem_readyAddresses.mp hready
  obtain ⟨ks,rfl⟩ := Multiset.exists_cons_of_mem hk
  have hsplit : a.operands={Operand.literals k}+operandsOf flights ks := by
    rw [hops,operandsOf,Multiset.map_cons,Multiset.add_cons,Multiset.singleton_add]
    rfl
  exact ⟨_,Dataflow.Step.of_operands random env hsplit (.literals k inst packet hinst hpacket)⟩

/-- Two tokens at the ports of one node can be taken together. -/
theorem LineProgram.pair_fires (P : LineProgram lines read parsed instructions)
    (overrun : TableOverrun) (random : RandomStream) (env : FunctionEnv) {a : Dataflow}
    (hops : a.operands=operandsOf flights ready) {f f' : Flight read parsed.optimized}
    (hf : f∈flights) (hf' : f'∈flights) {d d' : Destination} (hslot : f.slot=some d)
    (hslot' : f'.slot=some d') (hnode : parsed.optimized.heap[d.node]?=some node)
    (hop : node.opcode=.op o) (hid : d'.node=d.node) (hzero : d.input.value=0)
    (hvalue : d'.input.value=1)
    (hinst : instructions[(destinationToAddress f.token.destination).toNat]?=some inst)
    (hnone : inst.instructionLiteral=InstructionLiteralType.NONE.bits)
    (htwo : Manchester.numInputs overrun inst.opcode=2) (htag : f.token.tag=f'.token.tag) :
    ∃ a',Dataflow.Step overrun random instructions a a' := by
  obtain ⟨hk,hinput⟩ := P.place f hslot hnode hop
  obtain ⟨hk',hinput'⟩ := P.place f' hslot' (hid ▸ hnode) hop
  rw [hid] at hk'
  have haddress := (List.getElem?_inj (List.getElem?_eq_some_iff.mp hk').1
    P.image.nodup).mp (hk'.trans hk.symm)
  have hdistinct : f' ≠ f := by
    rintro rfl
    rw [hslot] at hslot'
    obtain rfl := Option.some.inj hslot'
    omega
  obtain ⟨fs,rfl⟩ := Multiset.exists_cons_of_mem hf
  obtain ⟨fs',rfl⟩ :=
    Multiset.exists_cons_of_mem ((Multiset.mem_cons.mp hf').resolve_left hdistinct)
  have hpair : a.operands=operandsOf ({f,f'}+fs') ready := by
    rw [hops,Multiset.insert_eq_cons,Multiset.cons_add,Multiset.singleton_add]
  refine step_of_flights random env hpair
    (.both _ _ f.token f'.token hinst hnone htwo rfl haddress ?_ ?_ htag)
  · rw [hinput,hzero]
    rfl
  · rw [hinput',hvalue]
    rfl

/-- Where a rule of an operation has its operands, the machine has a step. -/
theorem LineProgram.can_fire (P : LineProgram lines read parsed instructions)
    (labels : List Name) (address : Name → DataType) (overrun : TableOverrun)
    (random : RandomStream) (env : FunctionEnv) {u : DataType} {a : Dataflow}
    (hops : a.operands=operandsOf flights ready) (hrelays : ∀f∈flights,f.relays=0)
    (hready : ∀k∈ready,k∈readyAddresses overrun instructions)
    (f : Framework.Firing (Nat × Nat) TagType DataType Choice)
    (hrule : f.rule∈segment (machineDomain labels address) lines 0 lines.length)
    (hlen : f.values.length=((net (machineDomain labels address) lines).reads f.rule).length)
    (hs : (statements lines)[f.rule.1]?=some s) (ho : s.opcode=some (.op o))
    (hheld : ∀x∈Net.operands f,x∈flights.bind (Flight.arrivals (statements lines))+
      ready.map (startArrival (statements lines) parsed.optimized u)) :
    ∃ a',Dataflow.Step overrun random instructions a a' := by
  obtain ⟨⟨L,w⟩,c,t,values⟩ := f
  have hat := (readLines_statementAt P.direct.read L).trans hs
  obtain ⟨s',hs',hw⟩ := mem_segment.mp hrule
  obtain ⟨wires,hways⟩ : ∃ wires,(s'.ways (machineDomain labels address) lines L)[w]?=some wires :=
    ⟨_,List.getElem?_eq_getElem hw⟩
  obtain rfl := Option.some.inj (hs'.symm.trans hat)
  change values.length=_ at hlen
  rw [net_reads hat hways] at hlen
  have hdirect := Statement.isDirect_operands (P.direct.direct _ (List.mem_of_getElem? hs)) ho
  have hne := hdirect.wires_ne_nil P.direct.noLabels ho hways
  cases values with
  | nil => exact absurd (List.eq_nil_of_length_eq_zero hlen.symm) hne
  | cons v vs =>
    obtain ⟨k,hk,-⟩ | ⟨f,hf,d,node,x,hslot,hnode,huse,hline,hport,htag⟩ :=
      P.held_at hrelays hs (hheld ⟨(L,w),0,t,v⟩ (by simp [Net.operands]))
    · exact start_fires overrun random env hops hk (hready k hk)
    have hop : node.opcode=.op o := Option.some.inj (hline.opcode.symm.trans ho)
    obtain ⟨hk,-⟩ := P.place f hslot hnode hop
    have hlt := (List.getElem?_eq_some_iff.mp hk).1
    rw [← P.image.length] at hlt
    have hinst := List.getElem?_eq_getElem hlt
    obtain hone | ⟨hnone,htwo,hmer,y,z,hy,hz,hargs⟩ :=
      P.one_or_two hk hnode hinst hline hop overrun rfl huse
    · obtain ⟨fs,rfl⟩ := Multiset.exists_cons_of_mem hf
      have hsingle : a.operands=operandsOf ({f}+fs) ready := by
        rw [hops,Multiset.singleton_add]
      exact step_of_flights random env hsingle (.single _ _ _ hinst hone rfl)
    · -- the rule has an operand at its other port too
      have hmer' : ¬Opcode.op o=.op .MER := by simpa using hmer
      have hwire := operandWire_str P.direct.noLabels hy L
      have hwire' := operandWire_str P.direct.noLabels hz L
      rw [hdirect.ways P.direct.noLabels ho,if_neg hmer',hargs] at hways
      simp only [List.filterMap_cons,hwire,hwire',List.filterMap_nil,reduceCtorEq,if_false] at hways
      have hwires := List.mem_singleton.mp (List.mem_of_getElem? hways)
      rw [hwires] at hlen
      obtain ⟨v',rfl⟩ : ∃ v',vs=[v'] := List.length_eq_one_iff.mp (by simpa using hlen)
      obtain ⟨_,_,hport0⟩ | ⟨f',hf',d',node',x',hslot',hnode',huse',hline',hother,htag'⟩ :=
        P.held_at hrelays hs (hheld ⟨(L,w),1,t,v'⟩ (by simp [Net.operands]))
      · cases hport0
      have hid : d'.node=d.node := hline'.own.trans hline.own.symm
      rw [hid] at hnode'
      obtain rfl : node=node' := Option.some.inj (hnode.symm.trans hnode')
      obtain ⟨-,hport1⟩ := P.operand hline rfl huse
      obtain ⟨-,hport2⟩ := P.operand hline' rfl huse'
      rw [hop,if_neg hmer'] at hport1 hport2
      exact P.pair_fires overrun random env hops hf hf' hslot hslot' hnode hop hid
        (congrArg Prod.snd (hport1.symm.trans hport))
        (congrArg Prod.snd (hport2.symm.trans hother)) hinst hnone htwo (htag.trans htag'.symm)

end Stuck

/-- What the tokens that the net has made print. -/
def printedBy (behind : List UInt8) (ss : List Statement)
    (m : Net.State Wire (Nat × Nat) TagType DataType) : Multiset Output :=
  m.made.filterMap (tokenPrints behind ss)

/-- The state after the output lines have taken all that they can. -/
def drained (ss : List Statement)
    (N : Net Wire (Nat × Nat) TagType DataType Choice)
    (m : Net.State Wire (Nat × Nat) TagType DataType) :
    Net.State Wire (Nat × Nat) TagType DataType :=
  ⟨m.held.filter fun x => ¬atOutput ss x,
    m.made+N.finalResults default (m.held.filter (atOutput ss))⟩

section Drained

variable {lines : List Name} {read : IrState} {parsed : Graph} {instructions : List Instruction}
  {k id L : Nat} {node : Node} {s : Statement} {inst : Instruction} {o : OpcodeType}
  {flights : Multiset (Flight read parsed.optimized)} {ready : Multiset Nat}
  (labels : List Name) (address : Name → DataType)

/-- An instruction that waits for nothing is no output line. -/
theorem LineProgram.start_no_output (P : LineProgram lines read parsed instructions)
    (overrun : TableOverrun) (u : DataType) (hk : k∈readyAddresses overrun instructions) :
    ¬atOutput (statements lines) (startArrival (statements lines) parsed.optimized u k) := by
  obtain ⟨inst,packet,hinst,hpacket⟩ := mem_readyAddresses.mp hk
  have hlt := (List.getElem?_eq_some_iff.mp hinst).1
  rw [P.image.length] at hlt
  have hid := List.getElem?_eq_getElem hlt
  obtain ⟨node,o,hnode,hop⟩ := instruction_node hid
  obtain ⟨-,-,hempty⟩ | ⟨-,L,s,hline⟩ := P.node_cases hnode
  · rw [P.not_ready hid hnode hinst hempty] at hpacket
    cases hpacket
  · rw [atOutput,startArrival,hid,Option.getD_some,hline.line,hline.statement,Option.bind_some,
      hline.opcode,hop]
    simp [Opcode.isSpecial]

/-- An operand that an output line has waits at its only port. -/
theorem LineProgram.output_arrival (P : LineProgram lines read parsed instructions) {u : DataType}
    {overrun : TableOverrun} (hready : ∀k∈ready,k∈readyAddresses overrun instructions)
    {x : Arrival (Nat × Nat) TagType DataType}
    (hx : x∈flights.bind (Flight.arrivals (statements lines))+
      ready.map (startArrival (statements lines) parsed.optimized u))
    (hout : atOutput (statements lines) x) :
    ∃ L o v,x.rule=(L,0) ∧ x.port=0 ∧ v ≠ ['_'] ∧ o.isSpecial=true ∧
      (statements lines)[L]?=some (.output o (.str v)) := by
  rw [Multiset.mem_add,Multiset.mem_bind,Multiset.mem_map] at hx
  obtain ⟨f,-,hmem⟩ | ⟨k,hk,rfl⟩ := hx
  · obtain ⟨d,hd,rfl⟩ := List.mem_map.mp (Multiset.mem_coe.mp hmem)
    obtain ⟨v,huse⟩ := f.used d hd
    obtain ⟨s,hs,-,-,hoperand⟩ := P.direct.use_line P.graph.branches huse
    have hL : (portOf (statements lines) d).1.1=lineOf (statements lines) d.node := by
      unfold portOf
      split_ifs <;> rfl
    change (((statements lines)[(portOf (statements lines) d).1.1]?).bind _).any _=true at hout
    rw [hL,hs] at hout
    obtain ⟨o,ho,hspecial⟩ := (Option.any_eq_true _ _).mp hout
    obtain ⟨v,hv,rfl⟩ := Statement.isDirect_output (P.direct.direct s (List.mem_of_getElem? hs)) ho
      hspecial
    have hzero : d.input.value=0 := by
      cases hi : d.input
      · rfl
      · rw [hi] at hoperand
        cases hoperand
    have hport : portOf (statements lines) d=((lineOf (statements lines) d.node,0),0) := by
      rw [portOf,hs,hzero]
      split_ifs <;> rfl
    refine ⟨_,o,v,?_,?_,hv,hspecial,hs⟩
    · rw [arrivalAt,hport]
    · rw [arrivalAt,hport]
  · exact absurd hout (P.start_no_output overrun u (hready k hk))

/-- An output line makes a token that nothing reads. -/
theorem LineProgram.output_emits (P : LineProgram lines read parsed instructions) {v : Name}
    {o : Opcode} (hs : (statements lines)[L]?=some (.output o (.str v))) (hv : v ≠ ['_'])
    (hspecial : o.isSpecial=true) :
    let N := net (machineDomain labels address) lines
    (L,0)∈segment (machineDomain labels address) lines 0 lines.length ∧
      (N.reads (L,0)).length=1 ∧ ∀ c t u,N.emits (L,0) c t [u]=[⟨.printed L,t,u⟩] := by
  intro N
  have hlabels := P.direct.noLabels
  have hat := (readLines_statementAt P.direct.read L).trans hs
  have hconstant : constant (machineDomain labels address) lines (.str v)=none :=
    constant_str hlabels v
  have hwire := operandWire_str hlabels hv L
  have hmer : o ≠ .op .MER := by
    rintro rfl
    cases hspecial
  have hways : ((Statement.output o (.str v)).ways (machineDomain labels address) lines L)[0]?=
      some [.name v] := by
    simp [Statement.ways,Statement.operands,Statement.opcode,hmer,hwire,hconstant]
  obtain ⟨hmem,hreads⟩ := P.rule hs hways
  refine ⟨hmem,by rw [hreads]; rfl,fun c t u => ?_⟩
  rw [net_emits hat]
  simp [Statement.emits,Statement.values,Statement.operands,hwire,hconstant]

theorem LineProgram.unread (P : LineProgram lines read parsed instructions) (t : TagType)
    (u : DataType) :
    (net (machineDomain labels address) lines).spawn
      (segment (machineDomain labels address) lines 0 lines.length)
      ↑[(⟨.printed L,t,u⟩ : Token Wire TagType DataType)]=0 := by
  rw [Multiset.eq_zero_iff_forall_notMem]
  rintro ⟨⟨k,w⟩,i,t',u'⟩ hmem
  obtain ⟨hrule,x,hx,htoken⟩ := mem_spawn.mp hmem
  obtain rfl : x=.printed L := (Token.mk.inj (List.mem_singleton.mp (Multiset.mem_coe.mp htoken))).1
  obtain ⟨s,hs,hw⟩ := mem_segment.mp hrule
  obtain ⟨wires,hways⟩ : ∃ wires,(s.ways (machineDomain labels address) lines k)[w]?=some wires :=
    ⟨_,List.getElem?_eq_getElem hw⟩
  rw [net_reads hs hways] at hx
  have hsize : s.size ≠ 0 := by
    intro hzero
    rw [ways_empty hzero] at hw
    cases hw
  obtain ⟨o,ho⟩ := Statement.opcode_of_size hsize
  rw [readLines_statementAt P.direct.read k] at hs
  have hdirect := Statement.isDirect_operands (P.direct.direct s (List.mem_of_getElem? hs)) ho
  have hnames : Wire.printed L∉s.operands.filterMap (operandWire lines k) := by
    intro hmem
    obtain ⟨arg,harg,hwire⟩ := List.mem_filterMap.mp hmem
    cases arg with
    | int a => cases hwire
    | str v =>
      rw [operandWire_str P.direct.noLabels (hdirect.named harg)] at hwire
      cases hwire
  have hmemWires := List.mem_of_getElem? hx
  have hall := List.mem_of_getElem? hways
  rw [hdirect.ways P.direct.noLabels ho] at hall
  split_ifs at hall
  · obtain ⟨y,hy,heq⟩ := List.mem_map.mp hall
    rw [← heq] at hmemWires
    obtain rfl := List.mem_singleton.mp hmemWires
    exact hnames hy
  · rw [List.mem_singleton.mp hall] at hmemWires
    cases List.mem_singleton.mp hmemWires
  · rw [List.mem_singleton.mp hall] at hmemWires
    exact hnames hmemWires

/-- The output lines print what they hold, and nothing more happens. -/
theorem LineProgram.drains (P : LineProgram lines read parsed instructions) {u : DataType}
    {overrun : TableOverrun} {a : Dataflow} {m : Net.State Wire (Nat × Nat) TagType DataType}
    {n : Nat} (h : Mirrors (statements lines) read parsed.optimized
      (readyAddresses overrun instructions) u a m n) (behind : List UInt8) :
    let N := net (machineDomain labels address) lines
    let rules := segment (machineDomain labels address) lines 0 lines.length
    Relation.ReflTransGen (N.Step rules) m (drained (statements lines) N m) ∧
      printedBy behind (statements lines) (drained (statements lines) N m)=
        m.held.filterMap (arrivalPrints behind (statements lines)) := by
  intro N rules
  obtain ⟨flights,ready,-,hready,hheld,-,hmade⟩ := h
  have hemits : ∀x∈m.held.filter (atOutput (statements lines)),
      x.rule∈rules ∧ x.port=0 ∧ (N.reads x.rule).length=1 ∧
        N.emits x.rule default x.tag [x.value]=[⟨.printed x.rule.1,x.tag,x.value⟩] := by
    intro x hx
    obtain ⟨hmem,hout⟩ := Multiset.mem_filter.mp hx
    rw [hheld] at hmem
    obtain ⟨L,o,v,hrule,hport,hv,hspecial,hs⟩ := P.output_arrival hready hmem hout
    obtain ⟨hrules,hlen,hemits⟩ := P.output_emits labels address hs hv hspecial
    rw [hrule]
    exact ⟨hrules,hport,hlen,hemits _ _ _⟩
  constructor
  · have hdrain : Relation.ReflTransGen (N.Step rules) _ _ := Net.drain default
      (m.held.filter fun x => ¬atOutput (statements lines) x) m.made
      (fun x hx => ⟨(hemits x hx).1,(hemits x hx).2.1,(hemits x hx).2.2.1⟩) fun x hx => by
        rw [(hemits x hx).2.2.2]
        exact P.unread labels address _ _
    rw [Multiset.filter_add_not] at hdrain
    exact hdrain
  · have hold : m.made.filterMap (tokenPrints behind (statements lines))=0 := by
      rw [Multiset.filterMap_eq_bind]
      refine (Multiset.bind_congr fun token htoken => ?_).trans (Multiset.bind_zero m.made)
      have hnot := hmade token htoken
      unfold tokenPrints
      cases hw : token.wire with
      | printed L => exact absurd hw (hnot L)
      | start | name _ | label _ => rfl
    rw [printedBy,drained,Multiset.filterMap_add,hold,zero_add,Net.finalResults,
      Multiset.filterMap_bind,← filterMap_atOutput,
      Multiset.filterMap_eq_bind (m.held.filter _)]
    refine Multiset.bind_congr fun x hx => ?_
    rw [(hemits x hx).2.2.2,Multiset.coe_singleton,← Multiset.cons_zero,Multiset.filterMap_cons]
    simp [tokenPrints,arrivalPrints]

end Drained

end Manchester.Assembler
