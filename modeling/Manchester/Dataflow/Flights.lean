import Manchester.Assembler.LineProgram
import Manchester.Assembler.Sends

namespace Manchester.Assembler

open Framework Framework.Net

/-- A token of the machine, the uses of a variable that it is for and the DUPs of the assembler that
it passes on its way there. -/
structure Flight (read : IrState) (g : Graph) where
  token : TokenType
  slot : Option Destination
  leaves : List Destination
  relays : Nat
  word : LoadedSlot g g.instructionNodes 0 slot token.destination
  spreads : Spreads g.heap slot leaves relays
  used : ∀d∈leaves,∃ v,d∈uses read.heap v

/-- The operand of the net at a port that stands for an operand position. -/
def arrivalAt (ss : List Statement) (t : TagType) (v : DataType) (d : Destination) :
    Arrival (Nat × Nat) TagType DataType :=
  ⟨(portOf ss d).1,(portOf ss d).2,t,v⟩

def Flight.arrivals {read : IrState} {g : Graph} (ss : List Statement) (f : Flight read g) :
    Multiset (Arrival (Nat × Nat) TagType DataType) :=
  ↑(f.leaves.map (arrivalAt ss f.token.tag f.token.data))

/-- The operands that all the tokens of a destination become. -/
def arrivalsOf (ss : List Statement) (results : List (TagType × DataType))
    (leaves : List Destination) : Multiset (Arrival (Nat × Nat) TagType DataType) :=
  (results : Multiset (TagType × DataType)).bind fun r => ↑(leaves.map (arrivalAt ss r.1 r.2))

theorem arrivalsOf_append (ss : List Statement) (results : List (TagType × DataType))
    (us vs : List Destination) :
    arrivalsOf ss results (us++vs)=arrivalsOf ss results us+arrivalsOf ss results vs := by
  simp only [arrivalsOf,List.map_append,← Multiset.coe_add,Multiset.bind_add]

theorem arrivalsOf_nil (ss : List Statement) (results : List (TagType × DataType)) :
    arrivalsOf ss results []=0 := by
  simp [arrivalsOf]

section Spawn

variable {lines : List Name} {read : IrState} {parsed : Graph} {instructions : List Instruction}
  {dom : Domain TagType DataType Choice}

/-- The tokens for a name become operands at all its uses. -/
theorem LineProgram.spawn_target (P : LineProgram lines read parsed instructions) (x : Name)
    (results : List (TagType × DataType)) :
    (net dom lines).spawn (segment dom lines 0 lines.length)
        ↑(results.flatMap fun r =>
          (targetWires x).map fun w => (⟨w,r.1,r.2⟩ : Token Wire TagType DataType))=
      arrivalsOf (statements lines) results (reached read x) := by
  unfold targetWires reached arrivalsOf
  by_cases hx : x=['_']
  · simp [hx,spawn]
  · simp only [if_neg hx,List.map_cons,List.map_nil,spawn]
    rw [← List.map_eq_flatMap,← Multiset.map_coe,Multiset.bind_map]
    refine Multiset.bind_congr fun r _ => ?_
    have hperm : ((net dom lines).ports (segment dom lines 0 lines.length) (.name x)).Perm _ :=
      P.direct.ports_perm P.graph.branches x
    rw [Net.arrivals]
    have hmap := hperm.map fun p => (⟨p.1,p.2,r.1,r.2⟩ : Arrival (Nat × Nat) TagType DataType)
    rw [List.map_map] at hmap
    exact Multiset.coe_eq_coe.mpr hmap

theorem reached_used {v : Name} {d : Destination} (h : d∈reached read v) :
    ∃ v,d∈uses read.heap v := by
  unfold reached at h
  split_ifs at h
  · cases h
  · exact ⟨v,h⟩

theorem spawn_append (N : Net Wire (Nat × Nat) TagType DataType Choice) (rules : List (Nat × Nat))
    (ks ks' : List (Token Wire TagType DataType)) :
    N.spawn rules ↑(ks++ks')=N.spawn rules ↑ks+N.spawn rules ↑ks' := by
  rw [← Multiset.coe_add,spawn,Multiset.add_bind]
  rfl

theorem LineProgram.internal (P : LineProgram lines read parsed instructions) {id L : Nat}
    {node : Node} {s : Statement} {o : OpcodeType}
    (hline : LineNode lines read parsed.optimized.heap id node L s) (hop : node.opcode=.op o) :
    o.isExternal=false ∧ o ≠ .RTD :=
  Statement.isDirect_internal (P.direct.direct s (List.mem_of_getElem? hline.statement))
    (hop ▸ hline.opcode)

/-- What a line makes becomes operands wherever its node leads. -/
theorem LineProgram.spawn_emits (P : LineProgram lines read parsed instructions) {id L : Nat}
    {node : Node} {s : Statement} {o : OpcodeType}
    (hline : LineNode lines read parsed.optimized.heap id node L s) (hop : node.opcode=.op o) :
    ∃ us1 us2 m n,Spreads parsed.optimized.heap node.destination1 us1 m ∧
      Spreads parsed.optimized.heap node.destination2 us2 n ∧
      (∀d∈us1++us2,∃ v,d∈uses read.heap v) ∧ ∀ c t vals,
        (∀token∈s.emits dom L c t vals,∃ x,token.wire=.name x) ∧
        (net dom lines).spawn (segment dom lines 0 lines.length) ↑(s.emits dom L c t vals)=
          arrivalsOf (statements lines) (dom.sends L c t o vals .destination1) us1+
            arrivalsOf (statements lines) (dom.sends L c t o vals .destination2) us2 := by
  have hdirect := P.direct.direct s (List.mem_of_getElem? hline.statement)
  have hopcode : s.opcode=some (.op o) := by
    rw [← hop]
    exact hline.opcode
  obtain ⟨-,hreturn⟩ := Statement.isDirect_internal hdirect hopcode
  have hleads := hline.leads
  have hwires : ∀ {x : Name} {w : Wire},w∈targetWires x → ∃ x,w=.name x := by
    intro x w hw
    unfold targetWires at hw
    split_ifs at hw
    · cases hw
    · exact ⟨x,List.mem_singleton.mp hw⟩
  cases s with
  | assign target opcode input1 input2 =>
    obtain rfl : opcode=.op o := Option.some.inj hopcode
    simp only [Statement.isDirect,Bool.and_eq_true,Bool.not_eq_true'] at hdirect
    obtain ⟨⟨-,hvalue⟩,-⟩ := hdirect
    obtain ⟨us1,us2,m,n,h1,h2,hus⟩ := hleads
    refine ⟨us1,us2,m,n,h1,h2,fun d hd => reached_used (hus ▸ hd),
      fun c t vals => ⟨fun token htoken => ?_,?_⟩⟩
    · obtain (htarget | htarget) | ⟨rfl,-⟩ := dom.outputs_wire L c t o _ _ _ token htoken
      · exact hwires htarget
      · cases htarget
      · exact absurd rfl hreturn
    · rw [Statement.emits,dom.outputs_sends L c t hreturn,
        dom.sends_both L c t (choosesOutput_op hvalue),spawn_append,P.spawn_target,← hus,
        arrivalsOf_append]
      simp [spawn]
  | branch trueOutput falseOutput opcode input test =>
    obtain rfl : opcode=.op o := Option.some.inj hopcode
    obtain ⟨m,n,h1,h2⟩ := hleads
    refine ⟨_,_,m,n,h1,h2,
      fun d hd => (List.mem_append.mp hd).elim reached_used reached_used,
      fun c t vals => ⟨fun token htoken => ?_,?_⟩⟩
    · obtain (htarget | htarget) | ⟨rfl,-⟩ := dom.outputs_wire L c t o _ _ _ token htoken
      · exact hwires htarget
      · exact hwires htarget
      · exact absurd rfl hreturn
    · rw [Statement.emits,dom.outputs_sends L c t hreturn,spawn_append,P.spawn_target,
        P.spawn_target]
  | output opcode input =>
    obtain rfl : opcode=.op o := Option.some.inj hopcode
    cases input <;> simp [Statement.isDirect,Opcode.isSpecial] at hdirect
  | blank | unprocessed | label _ | exportSymbol _ | externSymbol _ => cases hopcode

end Spawn

section Flights

variable {read : IrState} {g : Graph} {slot : Option Destination} {word : DestinationType}
  {leaves : List Destination} {relays : Nat}

/-- The tokens that a packet has for one of its destinations. -/
theorem exists_flights (ss : List Statement) (hword : LoadedSlot g g.instructionNodes 0 slot word)
    (hspreads : Spreads g.heap slot leaves relays) (hused : ∀d∈leaves,∃ v,d∈uses read.heap v)
    (results : List (TagType × DataType)) :
    ∃ new : List (Flight read g),new.map Flight.token=results.map (fun r => ⟨word,r.2,r.1⟩) ∧
      (↑new : Multiset (Flight read g)).bind (Flight.arrivals ss)=arrivalsOf ss results leaves ∧
      (new.map Flight.relays).sum=results.length*relays := by
  refine ⟨results.map fun r => ⟨⟨word,r.2,r.1⟩,slot,leaves,relays,hword,hspreads,hused⟩,?_,?_,?_⟩
  · simp [Function.comp_def]
  · rw [← Multiset.map_coe,Multiset.bind_map]
    rfl
  · simp [Function.comp_def]

variable {lines : List Name} {parsed : Graph} {instructions : List Instruction}

/-- The result tokens of an instruction get to what the destinations of its node lead to. -/
theorem LineProgram.flights (P : LineProgram lines read parsed instructions) {k id : Nat}
    {node : Node} {inst : Instruction} {o : OpcodeType}
    (hk : parsed.optimized.instructionNodes[k]?=some id)
    (hnode : parsed.optimized.heap[id]?=some node) (hinst : instructions[k]?=some inst)
    (hop : node.opcode=.op o) (hinternal : o.isExternal=false) (hreturn : o ≠ .RTD)
    {us1 us2 : List Destination} {m n : Nat}
    (h1 : Spreads parsed.optimized.heap node.destination1 us1 m)
    (h2 : Spreads parsed.optimized.heap node.destination2 us2 n)
    (hused : ∀d∈us1++us2,∃ v,d∈uses read.heap v) (labels : List Name)
    (address : Name → DataType) (env : FunctionEnv) (random : RandomStream)
    (calls L place : Nat) (data1 data2 : DataType) (tag : TagType) :
    ∃ c,∃ new : List (Flight read parsed.optimized),
      let results := (machineDomain labels address).sends L c tag o [data1,data2]
      (evaluate env random calls (makePacket place inst data1 data2 tag)).1=
        new.map Flight.token ∧
      (↑new : Multiset (Flight read parsed.optimized)).bind (Flight.arrivals (statements lines))=
        arrivalsOf (statements lines) (results .destination1) us1+
          arrivalsOf (statements lines) (results .destination2) us2 ∧
      (new.map Flight.relays).sum ≤
        (results .destination1).length*m+(results .destination2).length*n := by
  obtain ⟨hloaded,hslots,hone,hboth⟩ := P.image.loaded k id node inst hk hnode hinst
  obtain ⟨c,hc⟩ := evaluate_sends random labels address env calls L
    (makePacket place inst data1 data2 tag) (hloaded.opcode o hop) hinternal hreturn
  have hmarker : (makePacket place inst data1 data2 tag).marker=inst.marker := rfl
  rw [hmarker] at hc
  obtain ⟨first,hfirst,hfirst',hfirst''⟩ := exists_flights (statements lines)
    (hslots .destination1) h1 (fun d hd => hused d (List.mem_append_left _ hd))
    ((machineDomain labels address).sends L c tag o [data1,data2] .destination1)
  refine ⟨c,?_⟩
  split_ifs at hc with hmarked
  · obtain ⟨second,hsecond,hsecond',hsecond''⟩ := exists_flights (statements lines)
      (hslots .destination2) h2 (fun d hd => hused d (List.mem_append_right _ hd))
      ((machineDomain labels address).sends L c tag o [data1,data2] .destination2)
    refine ⟨first++second,?_,?_,?_⟩
    · rw [hc,List.map_append,hfirst,hsecond]
      rfl
    · rw [← Multiset.coe_add,Multiset.add_bind,hfirst',hsecond']
    · rw [List.map_append,List.sum_append,hfirst'',hsecond'']
  · -- the marker leaves out only a destination that there is not
    have hnone : node.destination2=none := by
      by_contra hsome
      obtain ⟨d,hd⟩ := Option.ne_none_iff_exists'.mp hsome
      exact hmarked (Or.inr (Or.inr (hboth d hd (P.second id node d hnode hd))))
    rw [hnone] at h2
    cases h2
    refine ⟨first,?_,?_,?_⟩
    · rw [hc,List.append_nil,hfirst]
      rfl
    · rw [hfirst',arrivalsOf_nil,add_zero]
    · rw [hfirst'',Nat.mul_zero,Nat.add_zero]

end Flights

end Manchester.Assembler
