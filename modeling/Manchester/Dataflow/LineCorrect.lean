import Manchester.Dataflow.LineEnd

namespace Manchester.Assembler

open Framework Framework.Net

section Program

variable {lines : List Name} {read : IrState} {parsed : Graph} {instructions : List Instruction}
  (labels : List Name) (address : Name → DataType)

theorem LineProgram.start_mirrors (P : LineProgram lines read parsed instructions)
    (overrun : TableOverrun) (u : DataType) :
    Mirrors (statements lines) read parsed.optimized (readyAddresses overrun instructions) u
      (Dataflow.start overrun instructions)
      ((net (machineDomain labels address) lines).start
        (segment (machineDomain labels address) lines 0 lines.length) [⟨.start,noTag,u⟩]) 0 := by
  refine ⟨0,↑(readyAddresses overrun instructions),?_,fun k hk => hk,?_,rfl,?_⟩
  · rw [operandsOf,Multiset.map_zero,zero_add]
    rfl
  · have hports := P.start_ports labels address overrun
    have hmap := hports.map fun p =>
      (⟨p.1,p.2,noTag,u⟩ : Arrival (Nat × Nat) TagType DataType)
    rw [List.map_map] at hmap
    rw [Multiset.zero_bind,zero_add,Net.start,spawn,Multiset.coe_singleton,
      Multiset.singleton_bind]
    exact Multiset.coe_eq_coe.mpr hmap
  · intro token htoken k
    obtain rfl := List.mem_singleton.mp (Multiset.mem_coe.mp htoken)
    simp

/-- No token prints anything that no operand of the net prints, and without DUPs it is the same. -/
theorem LineProgram.printed (P : LineProgram lines read parsed instructions) {u : DataType}
    {overrun : TableOverrun} {a : Dataflow} {m : Net.State Wire (Nat × Nat) TagType DataType}
    {n : Nat} (h : Mirrors (statements lines) read parsed.optimized
      (readyAddresses overrun instructions) u a m n) (behind : List UInt8) :
    a.printed behind ≤ m.held.filterMap (arrivalPrints behind (statements lines)) ∧
      (n=0 → a.printed behind=m.held.filterMap (arrivalPrints behind (statements lines))) := by
  obtain ⟨flights,ready,hops,hready,hheld,rfl,-⟩ := h
  let one : Flight read parsed.optimized → Multiset Output := fun f =>
    ((printToken behind f.token).map singleton).getD 0
  let all : Flight read parsed.optimized → Multiset Output := fun f =>
    (f.arrivals (statements lines)).filterMap (arrivalPrints behind (statements lines))
  have hleft : a.printed behind=flights.bind one := by
    have hnone : (ready.map Operand.literals).filterMap (Operand.printed behind)=0 := by
      rw [Multiset.filterMap_map,Multiset.filterMap_eq_bind]
      exact Multiset.bind_zero ready
    rw [Dataflow.printed,hops,operandsOf,Multiset.filterMap_add,hnone,add_zero,
      Multiset.filterMap_map,Multiset.filterMap_eq_bind]
    rfl
  have hright : m.held.filterMap (arrivalPrints behind (statements lines))=flights.bind all := by
    have hnone : (ready.map (startArrival (statements lines) parsed.optimized u)).filterMap
        (arrivalPrints behind (statements lines))=0 := by
      rw [Multiset.filterMap_map,Multiset.filterMap_eq_bind]
      refine (Multiset.bind_congr fun k hk => ?_).trans (Multiset.bind_zero ready)
      rw [Function.comp_apply,
        arrivalPrints_none behind (P.start_no_output overrun u (hready k hk))]
      rfl
    rw [hheld,Multiset.filterMap_add,hnone,add_zero,Multiset.filterMap_bind]
  rw [hleft,hright]
  constructor
  · refine bind_le_bind fun f _ => ?_
    obtain ⟨-,hsame⟩ | ⟨-,hnone⟩ := P.flight_prints f behind
    · exact hsame.le
    · have hzero : one f=0 := by
        change ((printToken behind f.token).map singleton).getD 0=0
        rw [hnone]
        rfl
      rw [hzero]
      exact Multiset.zero_le _
  · intro hsum
    refine Multiset.bind_congr fun f hf => ?_
    obtain ⟨-,hsame⟩ | ⟨hrelays,-⟩ := P.flight_prints f behind
    · exact hsame
    · obtain ⟨fs,rfl⟩ := Multiset.exists_cons_of_mem hf
      rw [Multiset.map_cons,Multiset.sum_cons] at hsum
      omega

/-- Where the machine cannot go on, the net cannot either once everything is printed. -/
theorem LineProgram.stuck (P : LineProgram lines read parsed instructions) {u : DataType}
    {overrun : TableOverrun} {random : RandomStream} (env : FunctionEnv) {a : Dataflow}
    {m : Net.State Wire (Nat × Nat) TagType DataType} {n : Nat}
    (h : Mirrors (statements lines) read parsed.optimized (readyAddresses overrun instructions) u
      a m n) (hstuck : ¬∃ a',Dataflow.Step overrun random instructions a a') :
    let N := net (machineDomain labels address) lines
    n=0 ∧ N.Stuck (segment (machineDomain labels address) lines 0 lines.length)
      (drained (statements lines) N m) := by
  intro N
  obtain ⟨flights,ready,hops,hready,hheld,rfl,-⟩ := h
  have hrelays : ∀f∈flights,f.relays=0 := by
    intro f hf
    by_contra hmore
    obtain ⟨packet,hfiring⟩ := P.relay_fires overrun f hmore
    obtain ⟨fs,rfl⟩ := Multiset.exists_cons_of_mem hf
    have hsingle : a.operands=operandsOf ({f}+fs) ready := by
      rw [hops,Multiset.singleton_add]
    exact hstuck (step_of_flights random env hsingle hfiring)
  refine ⟨Multiset.sum_eq_zero fun x hx => ?_,?_⟩
  · obtain ⟨f,hf,rfl⟩ := Multiset.mem_map.mp hx
    exact hrelays f hf
  · rintro ⟨m',hstep⟩
    generalize hd : drained (statements lines) N m=d at hstep
    cases hstep with
    | fire f rest made hrule hlen =>
      have hfilter : m.held.filter (fun x => ¬atOutput (statements lines) x)=
          ↑(Net.operands f)+rest := congrArg Net.State.held hd
      have hoperand : ∀x∈Net.operands f,x∈m.held ∧ ¬atOutput (statements lines) x := by
        intro x hx
        apply Multiset.mem_filter.mp
        rw [hfilter]
        exact Multiset.mem_add.mpr (Or.inl hx)
      obtain ⟨s,hs,hw⟩ := mem_segment.mp hrule
      obtain ⟨wires,hways⟩ : ∃ wires,
          (s.ways (machineDomain labels address) lines f.rule.1)[f.rule.2]?=some wires :=
        ⟨_,List.getElem?_eq_getElem hw⟩
      have hsize : s.size ≠ 0 := by
        intro hzero
        rw [ways_empty hzero] at hw
        cases hw
      obtain ⟨o,ho⟩ := Statement.opcode_of_size hsize
      have hlength : f.values.length=wires.length := by
        rw [hlen]
        exact congrArg List.length (net_reads hs hways)
      rw [readLines_statementAt P.direct.read f.rule.1] at hs
      have hdirect := Statement.isDirect_operands (P.direct.direct s (List.mem_of_getElem? hs)) ho
      have hne := hdirect.wires_ne_nil P.direct.noLabels ho hways
      obtain ⟨v,vs,hvalues⟩ := List.exists_cons_of_ne_nil (l := f.values) fun hnil =>
        hne (List.eq_nil_of_length_eq_zero (by rw [← hlength,hnil]; rfl))
      obtain ⟨-,hnot⟩ := hoperand ⟨f.rule,0,f.tag,v⟩ (by simp [Net.operands,hvalues])
      cases o with
      | OUTD | OUTS =>
        apply hnot
        simp [atOutput,hs,ho,Opcode.isSpecial]
      | op o =>
        refine hstuck (P.can_fire labels address overrun random env hops hrelays hready f hrule hlen
          hs ho (u := u) fun x hx => ?_)
        rw [← hheld]
        exact (hoperand x hx).1

/-- The states of the machine mirror states that the net comes to. -/
theorem LineProgram.exists_mirrors (P : LineProgram lines read parsed instructions)
    (overrun : TableOverrun) (random : RandomStream) (u : DataType) {a : Dataflow}
    (ha : Transition.Reachable (· = Dataflow.start overrun instructions)
      (Dataflow.Step overrun random instructions) a) :
    ∃ m n,(net (machineDomain labels address) lines).Reachable
      (segment (machineDomain labels address) lines 0 lines.length) [⟨.start,noTag,u⟩] m ∧
      Mirrors (statements lines) read parsed.optimized (readyAddresses overrun instructions) u
        a m n := by
  refine (P.simulates labels address random overrun u).reachable (fun s hs => ?_) ha
  rw [hs]
  exact ⟨_,0,rfl,P.start_mirrors labels address overrun u⟩

theorem LineProgram.run_ends (P : LineProgram lines read parsed instructions)
    (overrun : TableOverrun) (random : RandomStream) (u : DataType)
    (hends : ∀ run : Nat → Net.State Wire (Nat × Nat) TagType DataType,
      run 0=(net (machineDomain labels address) lines).start
        (segment (machineDomain labels address) lines 0 lines.length) [⟨.start,noTag,u⟩] →
      ¬∀ n,(net (machineDomain labels address) lines).Step
        (segment (machineDomain labels address) lines 0 lines.length) (run n) (run (n+1)))
    (run : Nat → Dataflow) (hzero : run 0=Dataflow.start overrun instructions) :
    ¬∀ n,Dataflow.Step overrun random instructions (run n) (run (n+1)) :=
  (P.simulates labels address random overrun u).run_ends
    (P.start_mirrors labels address overrun u) hends run hzero

/-- What the tokens of a state print has been printed in some run of the net, and where nothing can
fire any more it is all that the net has printed in a run to its end. -/
theorem LineProgram.exists_printed (P : LineProgram lines read parsed instructions)
    (overrun : TableOverrun) (random : RandomStream) (behind : List UInt8) (u : DataType)
    {a : Dataflow} (ha : Transition.Reachable (· = Dataflow.start overrun instructions)
      (Dataflow.Step overrun random instructions) a) :
    ∃ m,(net (machineDomain labels address) lines).Reachable
      (segment (machineDomain labels address) lines 0 lines.length) [⟨.start,noTag,u⟩] m ∧
      a.printed behind ≤ printedBy behind (statements lines) m ∧
      ((¬∃ a',Dataflow.Step overrun random instructions a a') →
        (net (machineDomain labels address) lines).Stuck
          (segment (machineDomain labels address) lines 0 lines.length) m ∧
        a.printed behind=printedBy behind (statements lines) m) := by
  obtain ⟨m,n,hm,hmirrors⟩ := P.exists_mirrors labels address overrun random u ha
  obtain ⟨hdrain,hprinted⟩ := P.drains labels address hmirrors behind
  obtain ⟨hle,heq⟩ := P.printed hmirrors behind
  refine ⟨_,hm.many hdrain,hprinted.symm ▸ hle,fun hstuck => ?_⟩
  let env : FunctionEnv := ⟨⟨⟨0,0,0⟩,⟨0,0,0⟩,0⟩,0,0⟩
  obtain ⟨hzero,hnet⟩ := P.stuck labels address env hmirrors hstuck
  exact ⟨hnet,(heq hzero).trans hprinted.symm⟩

end Program

section Main

variable {input exportOrder : List Name} {parsed g : Graph} {e : Emitted} {bytes : List UInt8}
  {store' : InstructionStore} {info : LoadedCodeInfo}

/-- The word zero is a destination of the first instruction. -/
theorem not_firstPort {id : Nat} {d : Destination} (hroom : g.instructionNodes.length ≤ 2^28)
    (hfirst : g.instructionNodes[0]?=some id) (hd : d.node ≠ id) : ¬FirstPort g d := by
  rintro ⟨-,j,node,hj,hzero,-⟩
  have hlt := (List.getElem?_eq_some_iff.mp hj).1
  obtain rfl : j=0 := by omega
  exact hd (Option.some.inj (hj.symm.trans hfirst))

theorem filter_range_zero {p : Nat → Bool} {n : Nat} (h : 0∈(List.range n).filter p) :
    ((List.range n).filter p)[0]?=some 0 := by
  obtain ⟨hmem,hp⟩ := List.mem_filter.mp h
  obtain ⟨n,rfl⟩ := Nat.exists_eq_succ_of_ne_zero (Nat.ne_of_gt (List.mem_range.mp hmem))
  rw [List.range_succ_eq_map,List.filter_cons_of_pos hp]
  rfl

/-- Nothing leads to the first instruction if its line is a number. -/
theorem Loaded.first_free
    (hloaded : Loaded input parsed g exportOrder e bytes ⟨[],[]⟩ store' info)
    (hfirst : ∀ line rest,input=line::rest →
      ∃ x a,decodeLine line=.ok (.assign x (.op .DUP) (.int a) none))
    (id : Nat) (node : Node) (d : Destination) (hnode : g.heap[id]?=some node)
    (hd : node.destination2=some d) : ¬FirstPort g d := by
  obtain ⟨read,hread,hparsed,rfl,-⟩ := hloaded.optimized
  cases input with
  | nil =>
    have hparse := hloaded.parse
    cases hparse
    cases hnode
  | cons line rest =>
    obtain ⟨x,a,hdecode⟩ := hfirst line rest rfl
    have hstatements : statements (line::rest)=
        .assign x (.op .DUP) (.int a) none::statements rest := by
      rw [statements,List.filterMap_cons,hdecode]
      rfl
    have hline : (0,Statement.assign x (.op .DUP) (.int a) none)∈
        lineNodes 0 (statements (line::rest)) := by
      rw [hstatements]
      exact ownNode_mem 0 (k := 0) rfl (by simp [Statement.size])
    obtain ⟨old,first,hold,hisRead,hmem,hget,hopcode,-⟩ := hparsed.line_node hread hline
    have hop : first.opcode=.op .DUP :=
      hopcode.trans (Option.some.inj hisRead.1).symm
    have hzero : parsed.optimized.instructionNodes[0]?=some 0 := by
      have hplace : 0∈parsed.optimized.instructionNodes := by
        refine List.mem_filter.mpr ⟨hmem,?_⟩
        simp [Graph.isInstruction,hget,hop,Opcode.isSpecial]
      have hnodes : parsed.nodes=List.range parsed.heap.length := by rw [hparsed.graph]
      rw [Graph.instructionNodes,Graph.optimized,Graph.without,hnodes,List.filter_filter] at hplace ⊢
      exact filter_range_zero hplace
    have hroom := hloaded.room
    rw [List.length_nil,Nat.zero_add] at hroom
    refine not_firstPort (hroom.trans (by decide)) hzero fun heq => ?_
    have hslot : node.slot .destination2=some d := hd
    obtain ⟨v,huse⟩ | hout | hge := hparsed.edge_cases hnode hslot
    · obtain ⟨used,hused,hinput⟩ := Option.bind_eq_some_iff.mp huse.operand
      rw [heq,hold] at hused
      obtain rfl := Option.some.inj hused
      cases hi : d.input with
      | INPUT_ONE =>
        rw [hi] at hinput
        cases hisRead.2.1.symm.trans hinput
      | INPUT_TWO =>
        rw [hi] at hinput
        cases hisRead.2.2.1.symm.trans hinput
    · rw [heq,IsOutput,hold] at hout
      obtain rfl := Option.some.inj hout
      cases hisRead.2.2.2
    · have hlt := (List.getElem?_eq_some_iff.mp hold).1
      omega

/-- The image of direct lines that is loaded into an empty store. -/
theorem Loaded.lineProgram
    (hloaded : Loaded input parsed g exportOrder e bytes ⟨[],[]⟩ store' info)
    (hdirect : ∀s∈statements input,s.isDirect=true)
    (hfew : ∀ v,v ≠ ['_'] → definitionCount input v ≤ 1 ∨ useCount input v ≤ 3)
    (hsecond : ∀ (id : Nat) (node : Node) (d : Destination),g.heap[id]?=some node →
      node.destination2=some d → ¬FirstPort g d) :
    ∃ read,LineProgram input read parsed store'.instructions := by
  obtain ⟨read,hread,hparsed,rfl,-⟩ := hloaded.optimized
  have hlines : DirectLines input read := ⟨hread,hdirect⟩
  have hexterns : parsed.externalReferences=[] := by
    have hnone := hlines.externs hparsed
    rw [← hparsed.shape.externalReferences] at hnone
    rw [hparsed.graph,hnone]
    rfl
  exact ⟨read,hlines,hparsed,hfew,hloaded.image hexterns,hsecond⟩

end Main

end Manchester.Assembler
