import Manchester.Dataflow.LineFiring
import Manchester.Framework.Drain
import Manchester.Framework.Ranked

namespace Manchester.Assembler

open Framework Framework.Net

section Operands

variable {read : IrState} {g : Graph} {flights : Multiset (Flight read g)} {ready : Multiset Nat}
  {rest : Multiset Operand}

/-- What a collection of tokens and of instructions that wait for nothing is. -/
def operandsOf (flights : Multiset (Flight read g)) (ready : Multiset Nat) : Multiset Operand :=
  flights.map (fun f => Operand.token f.token)+ready.map Operand.literals

theorem operandsOf_token {t : TokenType} (h : {Operand.token t}+rest=operandsOf flights ready) :
    ∃ f fs,flights=f::ₘfs ∧ f.token=t ∧ rest=operandsOf fs ready := by
  have hmem : Operand.token t∈operandsOf flights ready := by
    rw [← h]
    simp
  obtain ⟨f,hf,heq⟩ : ∃f∈flights,f.token=t := by
    simpa [operandsOf] using hmem
  obtain ⟨fs,rfl⟩ := Multiset.exists_cons_of_mem hf
  refine ⟨f,fs,rfl,heq,add_left_cancel (a := {Operand.token t}) ?_⟩
  rw [h,operandsOf,Multiset.map_cons,heq,Multiset.singleton_add,Multiset.cons_add]
  rfl

theorem operandsOf_literals {k : Nat} (h : {Operand.literals k}+rest=operandsOf flights ready) :
    ∃ ks,ready=k::ₘks ∧ rest=operandsOf flights ks := by
  have hmem : Operand.literals k∈operandsOf flights ready := by
    rw [← h]
    simp
  have hk : k∈ready := by
    simpa [operandsOf] using hmem
  obtain ⟨ks,rfl⟩ := Multiset.exists_cons_of_mem hk
  refine ⟨ks,rfl,add_left_cancel (a := {Operand.literals k}) ?_⟩
  rw [h,operandsOf,Multiset.map_cons,Multiset.singleton_add,Multiset.add_cons]
  rfl

theorem operandsOf_add (new : List (Flight read g)) (flights : Multiset (Flight read g))
    (ready : Multiset Nat) :
    ↑((new.map Flight.token).map Operand.token)+operandsOf flights ready=
      operandsOf ((↑new : Multiset (Flight read g))+flights) ready := by
  rw [operandsOf,operandsOf,Multiset.map_add,add_assoc,List.map_map]
  rfl

end Operands

/-- The operand of the net for an instruction that waits for nothing. -/
def startArrival (ss : List Statement) (g : Graph) (u : DataType) (k : Nat) :
    Arrival (Nat × Nat) TagType DataType :=
  ⟨(lineOf ss (g.instructionNodes[k]?.getD 0),0),0,noTag,u⟩

/-- The tokens of the machine are those that the net holds, but that some still have n DUPs before
them. What output lines will print waits in both. The instructions that have still to start are
among those that waited for nothing. -/
def Mirrors (ss : List Statement) (read : IrState) (g : Graph) (waiting : List Nat) (u : DataType)
    (a : Dataflow) (m : Net.State Wire (Nat × Nat) TagType DataType) (n : Nat) : Prop :=
  ∃ (flights : Multiset (Flight read g)) (ready : Multiset Nat),
    a.operands=operandsOf flights ready ∧ (∀k∈ready,k∈waiting) ∧
    m.held=flights.bind (Flight.arrivals ss)+ready.map (startArrival ss g u) ∧
    n=(flights.map Flight.relays).sum ∧ ∀token∈m.made,∀ k,token.wire ≠ .printed k

section Steps

variable {lines : List Name} {read : IrState} {parsed : Graph} {instructions : List Instruction}
  {k id L : Nat} {node : Node} {s : Statement} {inst : Instruction} {o : OpcodeType}
  (labels : List Name) (address : Name → DataType) (env : FunctionEnv) (random : RandomStream)

/-- The tokens that an instruction makes are those that its line makes. -/
theorem LineProgram.fires_line (P : LineProgram lines read parsed instructions)
    (hk : parsed.optimized.instructionNodes[k]?=some id)
    (hnode : parsed.optimized.heap[id]?=some node) (hinst : instructions[k]?=some inst)
    (hline : LineNode lines read parsed.optimized.heap id node L s) (hop : node.opcode=.op o)
    (w calls : Nat) (data data' : DataType) (tag : TagType) (vals : List DataType)
    (hsends : ∀ c t slot,(machineDomain labels address).sends L c t o [data,data'] slot=
      (machineDomain labels address).sends L c t o
        (s.values (machineDomain labels address) lines L vals) slot) :
    ∃ (c : Choice) (new : List (Flight read parsed.optimized)),
      (evaluate env random calls (makePacket k inst data data' tag)).1=new.map Flight.token ∧
      let results := (net (machineDomain labels address) lines).results ⟨(L,w),c,tag,vals⟩
      (net (machineDomain labels address) lines).spawn
          (segment (machineDomain labels address) lines 0 lines.length) ↑results=
        (↑new : Multiset (Flight read parsed.optimized)).bind (Flight.arrivals (statements lines)) ∧
      ∀token∈results,∃ x,token.wire=.name x := by
  obtain ⟨hinternal,hreturn⟩ := P.internal hline hop
  obtain ⟨us1,us2,m,n,h1,h2,hused,hspawn⟩ := P.spawn_emits hline hop
  obtain ⟨c,new,htokens,harrivals,-⟩ := P.flights hk hnode hinst hop hinternal hreturn h1 h2 hused
    labels address env random calls L k data data' tag
  have hat := (readLines_statementAt P.direct.read L).trans hline.statement
  obtain ⟨hnames,hheld⟩ := hspawn c tag (s.values (machineDomain labels address) lines L vals)
  refine ⟨c,new,htokens,?_,?_⟩
  · rw [results,net_emits hat,hheld,harrivals,hsends,hsends]
  · rw [results,net_emits hat]
    exact hnames

/-- A DUP of the assembler passes its token on. -/
theorem LineProgram.relays (P : LineProgram lines read parsed instructions)
    (hk : parsed.optimized.instructionNodes[k]?=some id)
    (hnode : parsed.optimized.heap[id]?=some node) (hinst : instructions[k]?=some inst)
    (hop : node.opcode=.op .DUP) {us vs : List Destination} {m n : Nat}
    (h1 : Spreads parsed.optimized.heap node.destination1 us m)
    (h2 : Spreads parsed.optimized.heap node.destination2 vs n)
    (hused : ∀d∈us++vs,∃ v,d∈uses read.heap v) (calls : Nat) (data data' : DataType)
    (tag : TagType) :
    ∃ new : List (Flight read parsed.optimized),
      (evaluate env random calls (makePacket k inst data data' tag)).1=new.map Flight.token ∧
      (↑new : Multiset (Flight read parsed.optimized)).bind (Flight.arrivals (statements lines))=
        ↑((us++vs).map (arrivalAt (statements lines) tag data)) ∧
      (new.map Flight.relays).sum ≤ m+n := by
  obtain ⟨c,new,htokens,harrivals,hsum⟩ := P.flights hk hnode hinst hop rfl (by simp) h1 h2 hused
    [] (fun _ => 0) env random calls 0 k data data' tag
  have hsends : ∀ slot,(machineDomain [] fun _ => 0).sends 0 c tag .DUP [data,data'] slot=
      [(tag,data)] := by
    intro slot
    cases slot <;> rfl
  rw [hsends,hsends] at harrivals hsum
  refine ⟨new,htokens,?_,by simpa using hsum⟩
  rw [harrivals,← arrivalsOf_append,arrivalsOf,Multiset.coe_singleton,Multiset.singleton_bind]

/-- What the net holds where the machine has these tokens, and these instructions have still to
start. -/
structure Mirrored (ss : List Statement) (read : IrState) (g : Graph) (waiting : List Nat)
    (u : DataType) (flights : Multiset (Flight read g)) (ready : Multiset Nat)
    (m : Net.State Wire (Nat × Nat) TagType DataType) : Prop where
  starts : ∀k∈ready,k∈waiting
  held : m.held=flights.bind (Flight.arrivals ss)+ready.map (startArrival ss g u)
  made : ∀token∈m.made,∀ k,token.wire ≠ .printed k

/-- The machine after a packet, beside whose operands it had the rest. -/
def fired (env : FunctionEnv) (random : RandomStream) (calls : Nat) (packet : ExecutionPacket)
    (rest : Multiset Operand) : Dataflow :=
  ⟨↑((evaluate env random calls packet).1.map Operand.token)+rest,
    (evaluate env random calls packet).2⟩

section Firings

variable {f f' : Flight read parsed.optimized} {fs : Multiset (Flight read parsed.optimized)}
  {ready : Multiset Nat} {m : Net.State Wire (Nat × Nat) TagType DataType} {d d' : Destination}
  {waiting : List Nat} {u : DataType} {calls : Nat}

/-- The net follows a packet with a firing of the line, if it holds the operands for that. -/
theorem LineProgram.follows_line (P : LineProgram lines read parsed instructions)
    (hk : parsed.optimized.instructionNodes[k]?=some id)
    (hnode : parsed.optimized.heap[id]?=some node) (hinst : instructions[k]?=some inst)
    (hline : LineNode lines read parsed.optimized.heap id node L s) (hop : node.opcode=.op o)
    (vals : List DataType) {w : Nat} {data data' : DataType} {tag : TagType}
    (hrule : (L,w)∈segment (machineDomain labels address) lines 0 lines.length)
    (hlen : vals.length=((net (machineDomain labels address) lines).reads (L,w)).length)
    (hsends : ∀ c t slot,(machineDomain labels address).sends L c t o [data,data'] slot=
      (machineDomain labels address).sends L c t o
        (s.values (machineDomain labels address) lines L vals) slot)
    (hheld : ∀ c : Choice,m.held=↑(Net.operands ⟨(L,w),c,tag,vals⟩)+
      (fs.bind (Flight.arrivals (statements lines))+
        ready.map (startArrival (statements lines) parsed.optimized u)))
    (hready : ∀k∈ready,k∈waiting) (hmade : ∀token∈m.made,∀ k,token.wire ≠ .printed k) :
    ∃ m' n,(net (machineDomain labels address) lines).Step
        (segment (machineDomain labels address) lines 0 lines.length) m m' ∧
      Mirrors (statements lines) read parsed.optimized waiting u
        (fired env random calls (makePacket k inst data data' tag) (operandsOf fs ready)) m' n := by
  obtain ⟨c,new,htokens,hspawn,hnames⟩ := P.fires_line labels address env random hk hnode hinst
    hline hop w calls data data' tag vals hsends
  refine ⟨_,_,Step.of_held _ hrule hlen (hheld c),↑new+fs,ready,?_,hready,?_,rfl,?_⟩
  · rw [fired,htokens]
    exact operandsOf_add new fs ready
  · rw [hspawn,Multiset.add_bind,add_assoc]
  · intro token htoken k
    rw [Multiset.mem_add] at htoken
    obtain htoken | htoken := htoken
    · exact hmade token htoken k
    · obtain ⟨x,hx⟩ := hnames token htoken
      rw [hx]
      simp

/-- A token at the operand of a line. -/
theorem LineProgram.follows_single (P : LineProgram lines read parsed instructions)
    (overrun : TableOverrun)
    (h : Mirrored (statements lines) read parsed.optimized waiting u (f::ₘfs) ready m)
    (hk : parsed.optimized.instructionNodes[k]?=some d.node)
    (hnode : parsed.optimized.heap[d.node]?=some node) (hinst : instructions[k]?=some inst)
    (hline : LineNode lines read parsed.optimized.heap d.node node L s) (hop : node.opcode=.op o)
    (hone : inst.instructionLiteral=InstructionLiteralType.ONE.bits ∨
      Manchester.numInputs overrun inst.opcode=1) (hleaves : f.leaves=[d]) :
    ∃ m' n,(net (machineDomain labels address) lines).Step
        (segment (machineDomain labels address) lines 0 lines.length) m m' ∧
      Mirrors (statements lines) read parsed.optimized waiting u
        (fired env random calls (makePacket k inst f.token.data inst.literal1 f.token.tag)
          (operandsOf fs ready)) m' n := by
  obtain ⟨v,huse⟩ := f.used d (by rw [hleaves]; exact List.mem_cons_self)
  obtain ⟨hinternal,-⟩ := P.internal hline hop
  obtain ⟨w,x,hport,hmem,hreads,hsends⟩ := P.single labels address hk hnode hinst hline hop
    hinternal overrun hone rfl huse
  refine P.follows_line labels address env random hk hnode hinst hline hop [f.token.data] hmem
    (by rw [hreads]; rfl) (fun c t slot => hsends c t _ slot) ?_ h.starts h.made
  intro c
  have hoperands : (↑(Net.operands ⟨(L,w),c,f.token.tag,[f.token.data]⟩) :
      Multiset _)=f.arrivals (statements lines) := by
    simp [Net.operands,Flight.arrivals,hleaves,arrivalAt,hport]
  rw [hoperands,h.held,Multiset.cons_bind,add_assoc]

/-- Two tokens at the operands of a line, in the order of the ports. -/
theorem LineProgram.follows_both (P : LineProgram lines read parsed instructions)
    (overrun : TableOverrun)
    (h : Mirrored (statements lines) read parsed.optimized waiting u (f::ₘf'::ₘfs) ready m)
    (hk : parsed.optimized.instructionNodes[k]?=some d.node)
    (hnode : parsed.optimized.heap[d.node]?=some node) (hinst : instructions[k]?=some inst)
    (hline : LineNode lines read parsed.optimized.heap d.node node L s) (hop : node.opcode=.op o)
    (htwo : Manchester.numInputs overrun inst.opcode=2) (hd' : d'.node=d.node)
    (hone : d.input=.INPUT_ONE) (hother : d'.input=.INPUT_TWO) (hleaves : f.leaves=[d])
    (hleaves' : f'.leaves=[d']) (htag : f.token.tag=f'.token.tag) :
    ∃ m' n,(net (machineDomain labels address) lines).Step
        (segment (machineDomain labels address) lines 0 lines.length) m m' ∧
      Mirrors (statements lines) read parsed.optimized waiting u
        (fired env random calls (makePacket k inst f.token.data f'.token.data f.token.tag)
          (operandsOf fs ready)) m' n := by
  obtain ⟨v,huse⟩ := f.used d (by rw [hleaves]; exact List.mem_cons_self)
  obtain ⟨v',huse'⟩ := f'.used d' (by rw [hleaves']; exact List.mem_cons_self)
  obtain ⟨x,y,hport,hport',hmem,hreads,hvalues⟩ := P.both labels address hk hnode hinst hline
    hop overrun htwo rfl hd' hone hother huse huse'
  refine P.follows_line labels address env random hk hnode hinst hline hop
    [f.token.data,f'.token.data] hmem (by rw [hreads]; rfl) (fun c t slot => by rw [hvalues]) ?_
    h.starts h.made
  intro c
  have hoperands : (↑(Net.operands ⟨(L,0),c,f.token.tag,[f.token.data,f'.token.data]⟩) :
      Multiset _)=f.arrivals (statements lines)+f'.arrivals (statements lines) := by
    simp [Net.operands,Flight.arrivals,hleaves,hleaves',arrivalAt,hport,hport',htag]
    rfl
  rw [hoperands,h.held,Multiset.cons_bind,Multiset.cons_bind]
  ac_rfl

/-- An instruction that waits for nothing. -/
theorem LineProgram.follows_ready (P : LineProgram lines read parsed instructions)
    (overrun : TableOverrun)
    (h : Mirrored (statements lines) read parsed.optimized waiting u fs (k::ₘready) m)
    (hk : parsed.optimized.instructionNodes[k]?=some id)
    (hnode : parsed.optimized.heap[id]?=some node) (hinst : instructions[k]?=some inst)
    (hline : LineNode lines read parsed.optimized.heap id node L s) (hop : node.opcode=.op o)
    {packet : ExecutionPacket} (hpacket : readyPacket overrun k inst=some packet) :
    ∃ m' n,(net (machineDomain labels address) lines).Step
        (segment (machineDomain labels address) lines 0 lines.length) m m' ∧
      Mirrors (statements lines) read parsed.optimized waiting u
        (fired env random calls packet (operandsOf fs ready)) m' n := by
  obtain ⟨hinternal,-⟩ := P.internal hline hop
  obtain ⟨hmem,hreads,data,data',rfl,hsends⟩ := P.ready labels address hk hnode hinst hline hop
    hinternal overrun hpacket
  refine P.follows_line labels address env random hk hnode hinst hline hop [u] hmem
    (by rw [hreads]; rfl) (fun c t slot => hsends u c t slot) ?_
    (fun k hk => h.starts k (Multiset.mem_cons_of_mem hk)) h.made
  intro c
  have hoperands : (↑(Net.operands ⟨(L,0),c,noTag,[u]⟩) : Multiset _)=
      {startArrival (statements lines) parsed.optimized u k} := by
    simp [Net.operands,startArrival,hk,hline.line]
  rw [hoperands,h.held,Multiset.map_cons,← Multiset.singleton_add]
  ac_rfl

/-- A token at a DUP of the assembler: the net stays where it is. -/
theorem LineProgram.follows_relay (P : LineProgram lines read parsed instructions)
    (h : Mirrored (statements lines) read parsed.optimized waiting u (f::ₘfs) ready m)
    (hk : parsed.optimized.instructionNodes[k]?=some id)
    (hnode : parsed.optimized.heap[id]?=some node) (hinst : instructions[k]?=some inst)
    (hop : node.opcode=.op .DUP) {us vs : List Destination} {m1 m2 : Nat}
    (h1 : Spreads parsed.optimized.heap node.destination1 us m1)
    (h2 : Spreads parsed.optimized.heap node.destination2 vs m2) (hleaves : f.leaves=us++vs)
    (hrelays : f.relays=m1+m2+1) :
    ∃ n < ((f::ₘfs).map Flight.relays).sum,
      Mirrors (statements lines) read parsed.optimized waiting u
        (fired env random calls (makePacket k inst f.token.data inst.literal1 f.token.tag)
          (operandsOf fs ready)) m n := by
  have hused : ∀d∈us++vs,∃ v,d∈uses read.heap v := hleaves ▸ f.used
  obtain ⟨new,htokens,harrivals,hsum⟩ := P.relays env random hk hnode hinst hop h1 h2 hused calls
    f.token.data inst.literal1 f.token.tag
  refine ⟨((↑new+fs).map Flight.relays).sum,?_,↑new+fs,ready,?_,h.starts,?_,rfl,h.made⟩
  · rw [Multiset.map_add,Multiset.map_cons,Multiset.sum_add,Multiset.sum_cons,hrelays,
      Multiset.map_coe,Multiset.sum_coe]
    omega
  · rw [fired,htokens]
    exact operandsOf_add new fs ready
  · rw [h.held,Multiset.cons_bind,Multiset.add_bind,harrivals,Flight.arrivals,hleaves]

end Firings

theorem input_of_word {d : Destination} {input : BitVec 32}
    (h : input=BitVec.ofNat 32 d.input.value) :
    (input=inputOne → d.input=.INPUT_ONE) ∧ (input=inputTwo → d.input=.INPUT_TWO) := by
  cases hi : d.input with
  | INPUT_ONE =>
    rw [hi] at h
    subst h
    exact ⟨fun _ => rfl,fun h => absurd h (by decide)⟩
  | INPUT_TWO =>
    rw [hi] at h
    subst h
    exact ⟨fun h => absurd h (by decide),fun _ => rfl⟩

/-- The machine with the image of the program is simulated by the net of its lines: a firing of
an instruction is one of its line, and a DUP of the assembler is no step. -/
theorem LineProgram.simulates (P : LineProgram lines read parsed instructions)
    (overrun : TableOverrun) (u : DataType) :
    Transition.RankedSimulation (Dataflow.Step overrun random instructions)
      ((net (machineDomain labels address) lines).Step
        (segment (machineDomain labels address) lines 0 lines.length))
      (Mirrors (statements lines) read parsed.optimized (readyAddresses overrun instructions)
        u) := by
  intro a b m n hR hstep
  obtain ⟨flights,ready,hops,hready,hheld,rfl,hmade⟩ := hR
  cases hstep with
  | fire consumed rest calls packet env hfiring =>
    change consumed+rest=operandsOf flights ready at hops
    cases hfiring with
    | single place inst token hinst hone hplace =>
      obtain ⟨f,fs,rfl,rfl,rfl⟩ := operandsOf_token hops
      subst hplace
      obtain ⟨d,node,o,hslot,hnode,hop,hk,-⟩ := P.arrives f hinst
      obtain ⟨hstop,hleaves,-⟩ | ⟨hforwards,us,vs,m1,m2,h1,h2,hleaves,hrelays⟩ :=
        f.cases hslot hnode
      · obtain ⟨hforwards,-⟩ | ⟨-,L,s,hline⟩ := P.node_cases hnode
        · rw [hstop] at hforwards
          cases hforwards
        exact Or.inr (P.follows_single labels address env random overrun ⟨hready,hheld,hmade⟩ hk
          hnode hinst hline hop hone hleaves)
      · obtain ⟨-,hdup,-⟩ | ⟨hstop,-⟩ := P.node_cases hnode
        · exact Or.inl (P.follows_relay env random ⟨hready,hheld,hmade⟩ hk hnode hinst hdup h1 h2
            hleaves hrelays)
        · rw [hforwards] at hstop
          cases hstop
    | both place inst token1 token2 hinst hnone htwo hplace1 hplace2 hinput1 hinput2 htag =>
      rw [Multiset.insert_eq_cons,← Multiset.singleton_add,add_assoc] at hops
      obtain ⟨f,fs',rfl,rfl,hsecond⟩ := operandsOf_token hops
      obtain ⟨f',fs,rfl,rfl,rfl⟩ := operandsOf_token hsecond
      subst hplace1
      obtain ⟨d,node,o,hslot,hnode,hop,hk,hinput⟩ := P.arrives f hinst
      rw [← hplace2] at hinst
      obtain ⟨d',node',o',hslot',hnode',-,hk',hinput'⟩ := P.arrives f' hinst
      rw [hplace2] at hinst hk'
      have hd' : d'.node=d.node := Option.some.inj (hk'.symm.trans hk)
      obtain ⟨hforwards,hdup,-⟩ | ⟨hstop,L,s,hline⟩ := P.node_cases hnode
      · rw [P.numInputs hk hnode hinst hdup] at htwo
        cases htwo
      -- both tokens are at operands of the line
      obtain ⟨-,hleaves,-⟩ | ⟨hforwards,-⟩ := f.cases hslot hnode
      · obtain ⟨-,hleaves',-⟩ | ⟨hforwards,-⟩ := f'.cases hslot' (hd' ▸ hnode)
        · exact Or.inr (P.follows_both labels address env random overrun ⟨hready,hheld,hmade⟩ hk
            hnode hinst hline hop htwo hd' ((input_of_word hinput).1 hinput1)
            ((input_of_word hinput').2 hinput2) hleaves hleaves' htag)
        · rw [hstop] at hforwards
          cases hforwards
      · rw [hstop] at hforwards
        cases hforwards
    | literals place inst packet hinst hpacket =>
      obtain ⟨ks,rfl,rfl⟩ := operandsOf_literals hops
      have hlt := (List.getElem?_eq_some_iff.mp hinst).1
      rw [P.image.length] at hlt
      have hk := List.getElem?_eq_getElem hlt
      obtain ⟨node,o,hnode,hop⟩ := instruction_node hk
      obtain ⟨-,hdup,hempty⟩ | ⟨hstop,L,s,hline⟩ := P.node_cases hnode
      · rw [P.not_ready hk hnode hinst hempty] at hpacket
        cases hpacket
      exact Or.inr (P.follows_ready labels address env random overrun ⟨hready,hheld,hmade⟩ hk
        hnode hinst hline hop hpacket)

end Steps

end Manchester.Assembler
