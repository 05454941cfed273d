import Manchester.Dataflow.LineStart
import Mathlib.Data.Multiset.Bind

namespace Manchester

namespace Assembler

open Framework Framework.Net

/-- What line L prints of a value. -/
def linePrints (behind : List UInt8) (ss : List Statement) (L : Nat) (t : TagType) (v : DataType) :
    Option Output :=
  ((ss[L]?).bind Statement.opcode).bind fun o => o.prints behind ⟨0,v,t⟩

def tokenPrints (behind : List UInt8) (ss : List Statement)
    (token : Token Wire TagType DataType) : Option Output :=
  match token.wire with
  | .printed L => linePrints behind ss L token.tag token.value
  | _ => none

def arrivalPrints (behind : List UInt8) (ss : List Statement)
    (a : Arrival (Nat × Nat) TagType DataType) : Option Output :=
  linePrints behind ss a.rule.1 a.tag a.value

/-- The operands of output lines. -/
def atOutput (ss : List Statement) (a : Arrival (Nat × Nat) TagType DataType) : Prop :=
  ((ss[a.rule.1]?).bind Statement.opcode).any Opcode.isSpecial=true

instance (ss : List Statement) : DecidablePred (atOutput ss) :=
  fun _ => inferInstanceAs (Decidable (_=true))

theorem linePrints_output (behind : List UInt8) {ss : List Statement} {L : Nat} {s : Statement}
    {o : Opcode} (hs : ss[L]?=some s) (ho : s.opcode=some o) (t : TagType) (v : DataType) :
    linePrints behind ss L t v=o.prints behind ⟨0,v,t⟩ := by
  simp [linePrints,hs,ho]

theorem arrivalPrints_none (behind : List UInt8) {ss : List Statement}
    {a : Arrival (Nat × Nat) TagType DataType} (h : ¬atOutput ss a) :
    arrivalPrints behind ss a=none := by
  unfold arrivalPrints linePrints
  unfold atOutput at h
  cases hop : (ss[a.rule.1]?).bind Statement.opcode with
  | none => rfl
  | some o =>
    rw [hop] at h
    cases o with
    | op o => rfl
    | OUTD | OUTS => exact absurd rfl h

/-- Only the operands of output lines print. -/
theorem filterMap_atOutput (behind : List UInt8) (ss : List Statement)
    (held : Multiset (Arrival (Nat × Nat) TagType DataType)) :
    (held.filter (atOutput ss)).filterMap (arrivalPrints behind ss)=
      held.filterMap (arrivalPrints behind ss) := by
  induction held using Multiset.induction with
  | empty => rfl
  | cons a held ih =>
    by_cases ha : atOutput ss a
    · rw [Multiset.filter_cons_of_pos _ ha,Multiset.filterMap_cons,Multiset.filterMap_cons,ih]
    · rw [Multiset.filter_cons_of_neg _ ha,ih,Multiset.filterMap_cons_none _ _
        (arrivalPrints_none behind ha)]

section Flights

variable {lines : List Name} {read : IrState} {parsed : Graph} {instructions : List Instruction}
  {L : Nat} {s : Statement} {o : OpcodeType}

/-- A direct line that is no operation of the machine prints its operand. -/
theorem Statement.isDirect_output {s : Statement} {o : Opcode} (h : s.isDirect=true)
    (ho : s.opcode=some o) (hspecial : o.isSpecial=true) :
    ∃ x,x ≠ ['_'] ∧ s=.output o (.str x) := by
  cases s with
  | assign target opcode input1 input2 =>
    obtain rfl := Option.some.inj ho
    cases opcode with
    | op o => cases hspecial
    | OUTD | OUTS => cases h
  | branch t f opcode input test =>
    obtain rfl := Option.some.inj ho
    cases opcode with
    | op o => cases hspecial
    | OUTD | OUTS => cases h
  | output opcode input =>
    obtain rfl := Option.some.inj ho
    have hoperands := Statement.isDirect_operands h rfl
    cases input with
    | int value => cases h
    | str x => exact ⟨x,hoperands.named List.mem_cons_self,rfl⟩
  | blank | unprocessed | label _ | exportSymbol _ | externSymbol _ => cases ho

/-- The tokens of the machine that are not for an output print nothing. -/
theorem printToken_place {token : TokenType}
    (h : (destinationToAddress token.destination).toNat ≤ 2^28-5) (behind : List UInt8) :
    printToken behind token=none := by
  have hd : (destinationToAddress Manchester.outputdDestination).toNat=2^28-1 := by decide
  have hs : (destinationToAddress Manchester.outputsDestination).toNat=2^28-2 := by decide
  rw [printToken,if_neg,if_neg]
  · intro heq
    rw [heq,hs] at h
    omega
  · intro heq
    rw [heq,hd] at h
    omega

/-- A token with no DUP before it has arrived at a line; with its node, the line is known. -/
theorem LineProgram.landed (P : LineProgram lines read parsed instructions)
    (f : Flight read parsed.optimized) (hrelays : f.relays=0) :
    (f.slot=none ∧ f.leaves=[]) ∨ ∃ d node L s v,f.slot=some d ∧ f.leaves=[d] ∧
      parsed.optimized.heap[d.node]?=some node ∧ d∈uses read.heap v ∧
      LineNode lines read parsed.optimized.heap d.node node L s := by
  cases hslot : f.slot with
  | none =>
    have hspreads := f.spreads
    rw [hslot] at hspreads
    generalize f.leaves=leaves at hspreads
    generalize f.relays=relays at hspreads
    cases hspreads
    exact Or.inl ⟨rfl,rfl⟩
  | some d =>
    right
    have hword := f.word
    rw [hslot] at hword
    obtain ⟨node,hnode,-⟩ := hword
    obtain ⟨hstop,hleaves,-⟩ | ⟨-,us,vs,m,n,-,-,-,hmore⟩ := f.cases hslot hnode
    · obtain ⟨hforwards,-⟩ | ⟨-,L,s,hline⟩ := P.node_cases hnode
      · rw [hstop] at hforwards
        cases hforwards
      · obtain ⟨v,huse⟩ := f.used d (by rw [hleaves]; exact List.mem_cons_self)
        exact ⟨d,node,L,s,v,rfl,hleaves,hnode,huse,hline⟩
    · omega

/-- The word of a token for an output line is that of the output. -/
theorem LineProgram.prints (P : LineProgram lines read parsed instructions)
    (f : Flight read parsed.optimized) {d : Destination} {node : Node} (hslot : f.slot=some d)
    (hnode : parsed.optimized.heap[d.node]?=some node) (behind : List UInt8) :
    printToken behind f.token=node.opcode.prints behind ⟨0,f.token.data,f.token.tag⟩ := by
  cases hop : node.opcode with
  | op o =>
    obtain ⟨hk,-⟩ := P.place f hslot hnode hop
    have hlt := (List.getElem?_eq_some_iff.mp hk).1
    exact printToken_place (hlt.le.trans P.image.room) behind
  | OUTD | OUTS =>
    have hword := f.word
    rw [hslot] at hword
    obtain ⟨other,hother,hcases⟩ := hword
    obtain rfl : node=other := Option.some.inj (hnode.symm.trans hother)
    have hne : Manchester.outputsDestination ≠ Manchester.outputdDestination := by decide
    simp only [hop,if_true,reduceCtorEq,if_false] at hcases
    simp [printToken,hcases,hne,Opcode.prints,tokenMemory]

/-- A token prints what the operands that it becomes print, or is still before a DUP. -/
theorem LineProgram.flight_prints (P : LineProgram lines read parsed instructions)
    (f : Flight read parsed.optimized) (behind : List UInt8) :
    (f.relays=0 ∧ ((printToken behind f.token).map singleton).getD 0=
      (f.arrivals (statements lines)).filterMap (arrivalPrints behind (statements lines))) ∨
    f.relays ≠ 0 ∧ printToken behind f.token=none := by
  by_cases hrelays : f.relays=0
  · left
    refine ⟨hrelays,?_⟩
    obtain ⟨hslot,hleaves⟩ | ⟨d,node,L,s,v,hslot,hleaves,hnode,huse,hline⟩ := P.landed f hrelays
    · have hword := f.word
      rw [hslot] at hword
      have hnull : f.token.destination=Manchester.devNullDestination := hword
      rw [printToken_place (by rw [hnull]; decide) behind,Flight.arrivals,hleaves]
      rfl
    · have hprints := P.prints f hslot hnode behind
      obtain ⟨-,hport⟩ := P.operand hline rfl huse
      have hL : (portOf (statements lines) d).1.1=L := by
        rw [hport]
        split_ifs <;> rfl
      have harrival : arrivalPrints behind (statements lines)
          (arrivalAt (statements lines) f.token.tag f.token.data d)=printToken behind f.token := by
        rw [arrivalPrints,arrivalAt,hL,linePrints_output behind hline.statement hline.opcode,hprints]
      rw [Flight.arrivals,hleaves,List.map_singleton,Multiset.coe_singleton,
        ← Multiset.cons_zero,Multiset.filterMap_cons,harrival]
      simp
  · right
    refine ⟨hrelays,?_⟩
    have hspreads := f.spreads
    cases hslot : f.slot with
    | none =>
      rw [hslot] at hspreads
      generalize f.leaves=leaves at hspreads
      generalize f.relays=relays at hspreads hrelays
      cases hspreads
      exact absurd rfl hrelays
    | some d =>
      have hword := f.word
      rw [hslot] at hword
      obtain ⟨node,hnode,-⟩ := hword
      obtain ⟨-,-,hzero⟩ | ⟨hforwards,-⟩ := f.cases hslot hnode
      · exact absurd hzero hrelays
      · obtain ⟨-,hdup,-⟩ | ⟨hstop,-⟩ := P.node_cases hnode
        · rw [P.prints f hslot hnode,hdup]
          rfl
        · rw [hforwards] at hstop
          cases hstop

end Flights

end Assembler

end Manchester
