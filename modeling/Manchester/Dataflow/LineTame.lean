import Manchester.Dataflow.LineCorrect
import Manchester.Dataflow.PipelineEnd

namespace Manchester.Assembler

open Framework Framework.Net

section Words

variable {lines : List Name} {read : IrState} {parsed : Graph} {instructions : List Instruction}

/-- The matching function of a node that is used fits its instruction. -/
theorem LineProgram.node_fits (P : LineProgram lines read parsed instructions) {k id m : Nat}
    {node : Node} {inst : Instruction} (hk : parsed.optimized.instructionNodes[k]?=some id)
    (hnode : parsed.optimized.heap[id]?=some node) (hinst : instructions[k]?=some inst)
    (hm : matchingFunction node=.ok m) (overrun : TableOverrun)
    (hused : node.forwards=true ∨ ∃ d v,d.node=id ∧ d∈uses read.heap v) :
    TargetFits overrun inst (BitVec.ofNat 32 m) := by
  obtain ⟨other,o,hother,hop⟩ := instruction_node hk
  obtain rfl : node=other := Option.some.inj (hnode.symm.trans hother)
  obtain ⟨hloaded,-⟩ := P.image.loaded k id node inst hk hnode hinst
  have hinputs := P.numInputs hk hnode hinst hop overrun
  have hbits := hloaded.opcode o hop
  have hmer : o ≠ .MER → inst.opcode ≠ OpcodeType.MER.bits := by
    intro hne heq
    exact hne (bits_injective (hbits.symm.trans heq))
  -- an instruction with one operand
  have hone : node.opcode.numInputs=1 → TargetFits overrun inst (BitVec.ofNat 32 m) := by
    intro hsingle
    rw [matchingFunction,if_pos hsingle] at hm
    obtain rfl := Except.ok.inj hm
    have hne : o ≠ .MER := by
      rintro rfl
      rw [hop] at hsingle
      cases hsingle
    rw [if_neg hne,← hop,hsingle] at hinputs
    exact Or.inl ⟨rfl,hmer hne,Or.inr hinputs⟩
  obtain ⟨-,hdup,-⟩ | ⟨hstop,L,s,hline⟩ := P.node_cases hnode
  · exact hone (by rw [hdup]; rfl)
  · obtain hforwards | ⟨d,v,hd,huse⟩ := hused
    · rw [hstop] at hforwards
      cases hforwards
    obtain ⟨hoperand,-⟩ := P.operand hline hd huse
    have h1 := hline.inputs .INPUT_ONE
    have h2 := hline.inputs .INPUT_TWO
    obtain ⟨hnoneIff,honeIff,-⟩ := P.literals hk hnode hinst hline rfl
    have hdirect := hline.operands
    generalize hargs : s.operands=args at hdirect hoperand h1 h2 hnoneIff honeIff
    cases hdirect with
    | name x hx hsingle => exact hone hsingle
    | number a hsingle => exact hone hsingle
    | names x y hx hy hdyadic =>
      have hnone1 : node.input1=none := h1
      have hnone2 : node.input2=none := h2
      rw [matchingFunction,if_neg (by omega),if_pos hdyadic,hnone1,hnone2,if_neg (by decide)] at hm
      by_cases hmerge : o=.MER
      · subst hmerge
        rw [hop,if_pos rfl] at hm
        obtain rfl := Except.ok.inj hm
        exact Or.inr (Or.inl ⟨rfl,hbits⟩)
      · rw [hop,if_neg (by simpa using hmerge),if_neg (by simp)] at hm
        obtain rfl := Except.ok.inj hm
        rw [if_neg hmerge,← hop,hdyadic] at hinputs
        exact Or.inr (Or.inr ⟨rfl,hnoneIff.mpr rfl,hinputs⟩)
    | nameNumber x b hx hdyadic hmerge =>
      have hsome1 : node.input1=some (.int b) := h1
      have hnone2 : node.input2=none := h2
      rw [matchingFunction,if_neg (by omega),if_pos hdyadic,hsome1,hnone2,
        if_neg (by simp [truthy]),if_neg hmerge,if_pos (by simp)] at hm
      obtain rfl := Except.ok.inj hm
      have hne : o ≠ .MER := by
        rintro rfl
        exact hmerge hop
      exact Or.inl ⟨rfl,hmer hne,Or.inl (honeIff.mpr rfl)⟩
    | numbers a b hdyadic hmerge =>
      cases hi : d.input <;> rw [hi] at hoperand <;> cases hoperand

/-- A word is for the switch, or that of an edge to an instruction. -/
theorem LineProgram.word_cases (P : LineProgram lines read parsed instructions)
    {slot : Option Destination} {word : DestinationType}
    (hword : LoadedSlot parsed.optimized parsed.optimized.instructionNodes 0 slot word) :
    isSwitchDestination word=true ∨ ∃ d node m,slot=some d ∧
      parsed.optimized.heap[d.node]?=some node ∧ matchingFunction node=.ok m ∧
      destinationToMatchingFunction word=BitVec.ofNat 32 m ∧
      parsed.optimized.instructionNodes[(destinationToAddress word).toNat]?=some d.node ∧
      destinationToInput word=BitVec.ofNat 32 d.input.value := by
  cases slot with
  | none =>
    left
    rw [show word=Manchester.devNullDestination from hword]
    rfl
  | some d =>
    have hloaded := hword
    obtain ⟨node,hnode,hcases⟩ := hword
    cases hop : node.opcode with
    | OUTD =>
      rw [if_pos hop] at hcases
      left
      rw [hcases]
      rfl
    | OUTS =>
      rw [if_neg (by simp [hop]),if_pos hop] at hcases
      left
      rw [hcases]
      rfl
    | op o =>
      obtain ⟨hk,hinput,m,hm,hmatching⟩ := P.word hloaded hnode hop
      exact Or.inr ⟨d,node,m,rfl,hnode,hm,hmatching,hk,hinput⟩

/-- The word of an edge to a use or to a DUP of the assembler fits. -/
theorem LineProgram.word_fits (P : LineProgram lines read parsed instructions)
    {slot : Option Destination} {word : DestinationType} (overrun : TableOverrun)
    (hword : LoadedSlot parsed.optimized parsed.optimized.instructionNodes 0 slot word)
    (hused : ∀ d node,slot=some d → parsed.optimized.heap[d.node]?=some node →
      node.forwards=true ∨ ∃ v,d∈uses read.heap v) :
    DestinationFits overrun instructions word := by
  refine (P.word_cases hword).imp_right fun h => ?_
  obtain ⟨d,node,m,hslot,hnode,hm,hmatching,hk,-⟩ := h
  intro inst hinst
  rw [hmatching]
  refine P.node_fits hk hnode hinst hm overrun ((hused d node hslot hnode).imp_right fun h => ?_)
  obtain ⟨v,huse⟩ := h
  exact ⟨d,v,rfl,huse⟩

theorem LineProgram.image_fits (P : LineProgram lines read parsed instructions)
    (overrun : TableOverrun) : ImageFits overrun instructions := by
  rintro word ⟨inst,hinst,hword⟩
  obtain ⟨k,hk⟩ := List.mem_iff_getElem?.mp hinst
  have hlt := (List.getElem?_eq_some_iff.mp hk).1
  rw [P.image.length] at hlt
  have hid := List.getElem?_eq_getElem hlt
  obtain ⟨source,o,hsource,-⟩ := instruction_node hid
  obtain ⟨-,hslots,-⟩ := P.image.loaded k _ source inst hid hsource hk
  obtain ⟨slot,rfl⟩ : ∃ slot,word=inst.slot slot := by
    obtain rfl | rfl := hword
    · exact ⟨.destination1,rfl⟩
    · exact ⟨.destination2,rfl⟩
  refine P.word_fits overrun (hslots slot) fun d node hd hnode => ?_
  obtain ⟨v,huse⟩ | hbetween := P.graph.edge_cases hsource hd
  · exact Or.inr ⟨v,mem_uses.mpr (Option.bind_eq_some_iff.mp huse.operand)⟩
  · exact Or.inl (P.forwards hnode hbetween)

theorem LineProgram.flight_fits (P : LineProgram lines read parsed instructions)
    (f : Flight read parsed.optimized) (overrun : TableOverrun) :
    DestinationFits overrun instructions f.token.destination := by
  refine P.word_fits overrun f.word fun d node hslot hnode => ?_
  obtain ⟨-,hleaves,-⟩ | ⟨hforwards,-⟩ := f.cases hslot hnode
  · exact Or.inr (f.used d (by rw [hleaves]; exact List.mem_cons_self))
  · exact Or.inl hforwards

/-- A token that waits for a partner is at an operand of a line. -/
theorem LineProgram.flight_pairs (P : LineProgram lines read parsed instructions)
    (f : Flight read parsed.optimized) (hpairs : Pairs f.token) :
    ∃ d,f.leaves=[d] ∧
      parsed.optimized.instructionNodes[(destinationToAddress f.token.destination).toNat]?=
        some d.node ∧
      destinationToInput f.token.destination=BitVec.ofNat 32 d.input.value := by
  obtain hswitch | ⟨d,node,m,hslot,hnode,hm,hmatching,hk,hinput⟩ := P.word_cases f.word
  · rw [hpairs.not_switch] at hswitch
    cases hswitch
  refine ⟨d,?_,hk,hinput⟩
  obtain ⟨-,hleaves,-⟩ | ⟨hforwards,-⟩ := f.cases hslot hnode
  · exact hleaves
  · -- a DUP passes each token on alone
    obtain ⟨-,hdup,-⟩ | ⟨hstop,-⟩ := P.node_cases hnode
    · rw [matchingFunction,if_pos (by rw [hdup]; rfl)] at hm
      obtain rfl := Except.ok.inj hm
      exact absurd (Or.inl hmatching) hpairs.not_passes
    · rw [hforwards] at hstop
      cases hstop

/-- What mirrors a state of the net is tame if no two operands of that state are alike. -/
theorem LineProgram.tame (P : LineProgram lines read parsed instructions) {overrun : TableOverrun}
    {w : DataType} {a : Dataflow} {m : Net.State Wire (Nat × Nat) TagType DataType} {n : Nat}
    (h : Mirrors (statements lines) read parsed.optimized (readyAddresses overrun instructions) w
      a m n)
    (hdistinct : ∀ x y : Arrival (Nat × Nat) TagType DataType,x::ₘ{y} ≤ m.held → x.rule=y.rule →
      x.port=y.port → x.tag ≠ y.tag) : a.Tame overrun instructions := by
  obtain ⟨flights,ready,hops,-,hheld,-,-⟩ := h
  constructor
  · intro t ht
    obtain ⟨rest,hrest⟩ := Multiset.exists_cons_of_mem ht
    rw [hops,← Multiset.singleton_add] at hrest
    obtain ⟨f,-,-,rfl,-⟩ := operandsOf_token hrest.symm
    exact P.flight_fits f overrun
  · intro t u hle hpairs hpairs' hkey hinput
    obtain ⟨rest,hrest⟩ := Multiset.le_iff_exists_add.mp hle
    rw [hops,← Multiset.singleton_add,add_assoc] at hrest
    obtain ⟨f,fs',rfl,rfl,hsecond⟩ := operandsOf_token hrest.symm
    obtain ⟨f',fs,rfl,rfl,-⟩ := operandsOf_token hsecond
    obtain ⟨d,hleaves,hk,hport⟩ := P.flight_pairs f hpairs
    obtain ⟨d',hleaves',hk',hport'⟩ := P.flight_pairs f' hpairs'
    obtain ⟨htag,haddress⟩ := KeyType.mk.inj hkey
    rw [← haddress] at hk'
    have hnode : d.node=d'.node := Option.some.inj (hk.symm.trans hk')
    have hsame : d.input=d'.input := by
      rw [hport,hport'] at hinput
      cases hi : d.input <;> cases hi' : d'.input <;> rw [hi,hi'] at hinput <;>
        first | rfl | exact absurd hinput (by decide)
    obtain ⟨id,i⟩ := d
    obtain ⟨id',i'⟩ := d'
    obtain rfl : id=id' := hnode
    obtain rfl : i=i' := hsame
    -- both would be operands of the net at one port
    refine hdistinct (arrivalAt (statements lines) f.token.tag f.token.data ⟨id,i⟩)
      (arrivalAt (statements lines) f'.token.tag f'.token.data ⟨id,i⟩) ?_ rfl rfl htag
    rw [hheld,Multiset.cons_bind,Multiset.cons_bind,Flight.arrivals,Flight.arrivals,hleaves,hleaves',
      ← add_assoc,add_assoc,List.map_singleton,List.map_singleton,Multiset.coe_singleton,
      Multiset.coe_singleton,← Multiset.singleton_add]
    exact Multiset.le_add_right _ _

theorem LineProgram.internal_image (P : LineProgram lines read parsed instructions) :
    ∀inst∈instructions,IsInternal inst.opcode := by
  intro inst hinst
  obtain ⟨k,hk⟩ := List.mem_iff_getElem?.mp hinst
  have hlt := (List.getElem?_eq_some_iff.mp hk).1
  rw [P.image.length] at hlt
  have hid := List.getElem?_eq_getElem hlt
  obtain ⟨node,o,hnode,hop⟩ := instruction_node hid
  obtain ⟨hloaded,-⟩ := P.image.loaded k _ node inst hid hnode hk
  refine ⟨o,by rw [hloaded.opcode o hop,OpcodeType.ofBits_bits],?_⟩
  obtain ⟨-,hdup,-⟩ | ⟨-,L,s,hline⟩ := P.node_cases hnode
  · obtain rfl : o=.DUP := Opcode.op.inj (hop.symm.trans hdup)
    rfl
  · exact (P.internal hline hop).1

/-- The image of lines whose net makes each token once is tame. -/
theorem LineProgram.tameImage (P : LineProgram lines read parsed instructions)
    (overrun : TableOverrun) (random : RandomStream) (w : DataType) {known : Wire → Prop}
    {K Q : Flow Wire TagType DataType}
    (hpiece : (net (machineDomain [] fun _ => 0) lines).Piece
      (segment (machineDomain [] fun _ => 0) lines 0 lines.length) known K Q)
    (hinit : Net.Carries [(⟨.start,noTag,w⟩ : Token Wire TagType DataType)] K) :
    TameImage overrun random instructions where
  room := P.image.length.trans_le P.image.room
  fits := P.image_fits overrun
  internal := P.internal_image
  tame := by
    intro a ha
    obtain ⟨m,n,hm,hmirrors⟩ := P.exists_mirrors [] (fun _ => 0) overrun random w ha
    exact P.tame hmirrors fun x y hle hrule hport =>
      hpiece.held_distinct hinit (nodup_segment _ _ _ _) hm hle hrule hport

end Words

end Manchester.Assembler
