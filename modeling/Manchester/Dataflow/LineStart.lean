import Manchester.Dataflow.LineRun

namespace Manchester.Assembler

open Framework Framework.Net

theorem mem_readyAddresses {overrun : TableOverrun} {instructions : List Instruction} {k : Nat} :
    k∈readyAddresses overrun instructions ↔ ∃ inst packet,instructions[k]?=some inst ∧
      readyPacket overrun k inst=some packet := by
  simp only [readyAddresses,List.mem_filterMap,Option.map_eq_some_iff]
  constructor
  · rintro ⟨⟨inst,i⟩,hmem,packet,hpacket,rfl⟩
    exact ⟨inst,packet,List.mem_zipIdx_iff_getElem?.mp hmem,hpacket⟩
  · rintro ⟨inst,packet,hinst,hpacket⟩
    exact ⟨(inst,k),List.mem_zipIdx_iff_getElem?.mpr hinst,packet,hpacket,rfl⟩

theorem nodup_readyAddresses (overrun : TableOverrun) (instructions : List Instruction) :
    (readyAddresses overrun instructions).Nodup := by
  have hsub : (readyAddresses overrun instructions).Sublist (instructions.zipIdx.map Prod.snd) := by
    unfold readyAddresses
    generalize instructions.zipIdx=l
    induction l with
    | nil => exact .slnil
    | cons p l ih =>
      rw [List.filterMap_cons]
      cases readyPacket overrun p.2 p.1 with
      | none => exact ih.cons _
      | some packet => exact ih.cons_cons _
  refine List.Nodup.sublist hsub ?_
  rw [List.zipIdx_map_snd]
  exact List.nodup_range'

section Start

variable {lines : List Name} {read : IrState} {parsed : Graph} {instructions : List Instruction}
  {k id L : Nat} {node : Node} {s : Statement} {inst : Instruction} {o : OpcodeType}

/-- A line with an operation of the machine has an instruction. -/
theorem LineProgram.line_instruction (P : LineProgram lines read parsed instructions)
    (hs : (statements lines)[L]?=some s) (hop : s.opcode=some (.op o)) :
    ∃ (k : Nat) (node : Node) (inst : Instruction),
      parsed.optimized.instructionNodes[k]?=some (ownNode (statements lines) L) ∧
      parsed.optimized.heap[ownNode (statements lines) L]?=some node ∧
      instructions[k]?=some inst ∧ node.opcode=.op o ∧
      LineNode lines read parsed.optimized.heap (ownNode (statements lines) L) node L s := by
  have hsize : s.size ≠ 0 := by
    cases s <;> first | (cases hop; done) | simp [Statement.size]
  have hmem := ownNode_mem 0 hs hsize
  rw [Nat.zero_add] at hmem
  obtain ⟨old,node,hold,hisRead,hnodes,hnode,hsame,-⟩ := P.graph.line_node P.direct.read hmem
  have hopcode : node.opcode=.op o := by
    rw [hsame]
    exact Option.some.inj (hisRead.1.symm.trans hop)
  have hplace : ownNode (statements lines) L∈parsed.optimized.instructionNodes := by
    refine List.mem_filter.mpr ⟨hnodes,?_⟩
    simp [Graph.isInstruction,hnode,hopcode,Opcode.isSpecial]
  obtain ⟨k,hk⟩ := List.mem_iff_getElem?.mp hplace
  have hlt := (List.getElem?_eq_some_iff.mp hk).1
  rw [← P.image.length] at hlt
  refine ⟨k,node,_,hk,hnode,List.getElem?_eq_getElem hlt,hopcode,?_⟩
  obtain ⟨hforwards,-⟩ | ⟨-,L',s',hline⟩ := P.node_cases hnode
  · -- the node of a line is none of the assembler's
    obtain ⟨kept,hkept,-,hflag,-⟩ := P.graph.linked.kept _ old hold
    have hget : parsed.heap[ownNode (statements lines) L]?=some kept := by
      rw [P.graph.graph]
      exact hkept
    rw [optimized_node hget] at hnode
    obtain rfl := Option.some.inj hnode
    rw [hisRead.2.2.2] at hflag
    change kept.forwards=true at hforwards
    rw [Node.forwards,hflag,Bool.and_false] at hforwards
    cases hforwards
  · obtain rfl : L'=L := hline.line.symm.trans (lineOf_ownNode hs hsize)
    obtain rfl := Option.some.inj (hs.symm.trans hline.statement)
    exact hline

theorem DirectOperands.named {o : Opcode} {args : List Arg} (h : DirectOperands o args) {x : Name}
    (hx : Arg.str x∈args) : x ≠ ['_'] := by
  cases h with
  | name y hy _ | nameNumber y b hy _ _ =>
    have heq : x=y := by simpa using hx
    rwa [heq]
  | names y z hy hz _ =>
    obtain heq | heq : x=y ∨ x=z := by simpa using hx
    · rwa [heq]
    · rwa [heq]
  | number a _ | numbers a b _ _ => simp at hx

theorem DirectOperands.ne_nil {o : Opcode} {args : List Arg} (h : DirectOperands o args) :
    args ≠ [] := by
  cases h <;> simp

/-- The wire of the start is read by the lines of numbers. -/
theorem DirectOperands.start {τ α γ : Type} {dom : Domain τ α γ} (hlabels : NoLabels lines)
    {o : Opcode} (ho : s.opcode=some o) (h : DirectOperands o s.operands) {w i : Nat}
    {wires : List Wire} (hways : (s.ways dom lines L)[w]?=some wires)
    (hi : wires[i]?=some .start) :
    w=0 ∧ i=0 ∧ wires=[.start] ∧ s.operands ≠ [] ∧ ∀arg∈s.operands,arg.isInt=true := by
  rw [h.ways hlabels ho] at hways
  have hwire : ∀ {x : Name},x ≠ ['_'] → operandWire lines L (.str x)=some (.name x) :=
    fun hx => operandWire_str hlabels hx L
  have hname : Wire.start∉s.operands.filterMap (operandWire lines L) := by
    intro hmem
    obtain ⟨arg,harg,hread⟩ := List.mem_filterMap.mp hmem
    cases arg with
    | int a => cases hread
    | str x =>
      rw [hwire (h.named harg)] at hread
      cases hread
  split_ifs at hways with hmer hnil
  · rw [List.getElem?_map] at hways
    obtain ⟨x,hx,rfl⟩ := Option.map_eq_some_iff.mp hways
    cases i with
    | zero =>
      obtain rfl := Option.some.inj hi
      exact absurd (List.mem_of_getElem? hx) hname
    | succ i => cases hi
  · cases w with
    | succ w => cases hways
    | zero =>
      obtain rfl := Option.some.inj hways
      cases i with
      | succ i => cases hi
      | zero =>
        refine ⟨rfl,rfl,rfl,h.ne_nil,fun arg harg => ?_⟩
        cases arg with
        | int a => rfl
        | str x =>
          rw [List.filterMap_eq_nil_iff] at hnil
          have hnone := hnil _ harg
          rw [hwire (h.named harg)] at hnone
          cases hnone
  · cases w with
    | succ w => cases hways
    | zero =>
      obtain rfl := Option.some.inj hways
      exact absurd (List.mem_of_getElem? hi) hname

/-- A line of numbers has an instruction that waits for nothing. -/
theorem LineProgram.numbers_ready (P : LineProgram lines read parsed instructions)
    (hs : (statements lines)[L]?=some s) {o : Opcode} (ho : s.opcode=some o)
    (hnumbers : ∀arg∈s.operands,arg.isInt=true) (overrun : TableOverrun) :
    ∃k∈readyAddresses overrun instructions,
      parsed.optimized.instructionNodes[k]?=some (ownNode (statements lines) L) := by
  have hdirect := P.direct.direct s (List.mem_of_getElem? hs)
  have hoperands := Statement.isDirect_operands hdirect ho
  obtain ⟨op,rfl⟩ : ∃ op,o=.op op := by
    cases s with
    | assign target opcode input1 input2 =>
      obtain rfl := Option.some.inj ho
      cases opcode with
      | op op => exact ⟨op,rfl⟩
      | OUTD | OUTS => cases hdirect
    | branch t f opcode input test =>
      obtain rfl := Option.some.inj ho
      cases opcode with
      | op op => exact ⟨op,rfl⟩
      | OUTD | OUTS => cases hdirect
    | output opcode input =>
      cases input with
      | int value => cases hdirect
      | str x => cases hnumbers (.str x) List.mem_cons_self
    | blank | unprocessed | label _ | exportSymbol _ | externSymbol _ => cases ho
  obtain ⟨k,node,inst,hk,hnode,hinst,hop,hline⟩ := P.line_instruction hs ho
  obtain ⟨-,hone,htwo,-⟩ := P.literals hk hnode hinst hline rfl
  have hinputs := P.numInputs hk hnode hinst hop overrun
  rw [List.filter_eq_self.mpr hnumbers] at hone htwo
  suffices ∃ packet,readyPacket overrun k inst=some packet by
    obtain ⟨packet,hpacket⟩ := this
    exact ⟨k,mem_readyAddresses.mpr ⟨inst,packet,hinst,hpacket⟩,hk⟩
  unfold readyPacket
  rw [hinputs]
  generalize s.operands=args at hoperands hnumbers hone htwo
  cases hoperands with
  | name x _ _ | names x y _ _ _ | nameNumber x b _ _ _ =>
    cases hnumbers (.str x) List.mem_cons_self
  | number a hsingle =>
    have hmer : op ≠ .MER := by
      rintro rfl
      cases hsingle
    have hliteral := hone.mpr rfl
    rw [if_neg (by rw [hliteral]; decide),if_neg hmer,if_pos ⟨hliteral,hsingle⟩]
    exact ⟨_,rfl⟩
  | numbers a b hdyadic hmer =>
    rw [if_pos (htwo.mpr (by simp))]
    exact ⟨_,rfl⟩

/-- The ports of the start are the instructions that wait for nothing. -/
theorem LineProgram.start_ports (P : LineProgram lines read parsed instructions)
    (labels : List Name) (address : Name → DataType) (overrun : TableOverrun) :
    ((net (machineDomain labels address) lines).ports
        (segment (machineDomain labels address) lines 0 lines.length) .start).Perm
      ((readyAddresses overrun instructions).map fun k =>
        ((lineOf (statements lines) (parsed.optimized.instructionNodes[k]?.getD 0),0),0)) := by
  have hlabels := P.direct.noLabels
  have hplace : ∀k∈readyAddresses overrun instructions,∃ L s o node inst packet,
      instructions[k]?=some inst ∧ readyPacket overrun k inst=some packet ∧
      parsed.optimized.instructionNodes[k]?=some (ownNode (statements lines) L) ∧
      parsed.optimized.heap[ownNode (statements lines) L]?=some node ∧ node.opcode=.op o ∧
      LineNode lines read parsed.optimized.heap (ownNode (statements lines) L) node L s := by
    intro k hk
    obtain ⟨inst,packet,hinst,hpacket⟩ := mem_readyAddresses.mp hk
    have hlt := (List.getElem?_eq_some_iff.mp hinst).1
    rw [P.image.length] at hlt
    have hid := List.getElem?_eq_getElem hlt
    obtain ⟨node,o,hnode,hop⟩ := instruction_node hid
    obtain ⟨-,-,hempty⟩ | ⟨-,L,s,hline⟩ := P.node_cases hnode
    · rw [P.not_ready hid hnode hinst hempty] at hpacket
      cases hpacket
    · have hown := hline.own
      rw [hown] at hid hnode hline
      exact ⟨L,s,o,node,inst,packet,hinst,hpacket,hid,hnode,hop,hline⟩
  refine (List.perm_ext_iff_of_nodup (nodup_ports (nodup_segment _ lines 0 lines.length) _)
    ?_).mpr ?_
  · refine (nodup_readyAddresses overrun instructions).map_on fun k hk k' hk' heq => ?_
    obtain ⟨L,s,o,node,inst,_,hinst,-,hid,-,-,hline⟩ := hplace k hk
    obtain ⟨L',s',o',node',inst',_,-,-,hid',-,-,hline'⟩ := hplace k' hk'
    simp only [hid,hid',Option.getD_some,hline.line,hline'.line,Prod.mk.injEq,and_true] at heq
    subst heq
    have hlt := (List.getElem?_eq_some_iff.mp hinst).1
    rw [P.image.length] at hlt
    exact (List.getElem?_inj hlt P.image.nodup).mp (hid.trans hid'.symm)
  · rintro ⟨⟨L,w⟩,i⟩
    rw [Net.mem_ports,List.mem_map]
    constructor
    · rintro ⟨hmem,hread⟩
      obtain ⟨s,hs,hw⟩ := mem_segment.mp hmem
      have hwires := List.getElem?_eq_getElem hw
      rw [net_reads hs hwires] at hread
      have hsize : s.size ≠ 0 := by
        intro hzero
        rw [ways_empty hzero] at hw
        cases hw
      obtain ⟨o,ho⟩ := Statement.opcode_of_size hsize
      rw [readLines_statementAt P.direct.read L] at hs
      have hdirect := Statement.isDirect_operands (P.direct.direct s (List.mem_of_getElem? hs)) ho
      obtain ⟨rfl,rfl,-,-,hnumbers⟩ := hdirect.start hlabels ho hwires hread
      obtain ⟨k,hk,hid⟩ := P.numbers_ready hs ho hnumbers overrun
      refine ⟨k,hk,?_⟩
      rw [hid,Option.getD_some,lineOf_ownNode hs hsize]
    · rintro ⟨k,hk,heq⟩
      obtain ⟨L',s,o,node,inst,packet,hinst,hpacket,hid,hnode,hop,hline⟩ := hplace k hk
      rw [hid,Option.getD_some,hline.line] at heq
      obtain ⟨hrule,rfl⟩ := Prod.mk.inj heq
      obtain ⟨rfl,rfl⟩ := Prod.mk.inj hrule
      obtain ⟨hinternal,-⟩ := P.internal hline hop
      obtain ⟨hmem,hreads,-⟩ := P.ready labels address hid hnode hinst hline hop hinternal overrun
        hpacket
      exact ⟨hmem,by rw [hreads]; rfl⟩

end Start

end Manchester.Assembler
