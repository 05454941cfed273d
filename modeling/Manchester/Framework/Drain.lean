import Manchester.Framework.Net

namespace Framework

theorem bind_le_bind {α β : Type} {s : Multiset α} {f g : α → Multiset β}
    (h : ∀a∈s,f a ≤ g a) : s.bind f ≤ s.bind g := by
  induction s using Multiset.induction with
  | empty => simp
  | cons a s ih =>
    rw [Multiset.cons_bind,Multiset.cons_bind]
    exact add_le_add (h a (Multiset.mem_cons_self a s))
      (ih fun b hb => h b (Multiset.mem_cons_of_mem hb))

namespace Net

variable {ν ρ τ α γ : Type} [DecidableEq ν] {N : Net ν ρ τ α γ} {rules : List ρ}

/-- A rule fires in any state that holds its operands. -/
theorem Step.of_held {s : State ν ρ τ α} (f : Firing ρ τ α γ) {rest : Multiset (Arrival ρ τ α)}
    (hrule : f.rule∈rules) (hlen : f.values.length=(N.reads f.rule).length)
    (hheld : s.held=↑(operands f)+rest) :
    N.Step rules s ⟨N.spawn rules ↑(N.results f)+rest,s.made+↑(N.results f)⟩ := by
  obtain ⟨held,made⟩ := s
  change held=_ at hheld
  rw [hheld]
  exact .fire f rest made hrule hlen

/-- The results of rules that take one operand each, whatever else is held. -/
def finalResults (N : Net ν ρ τ α γ) (c : γ) (outs : Multiset (Arrival ρ τ α)) :
    Multiset (Token ν τ α) :=
  outs.bind fun a => ↑(N.emits a.rule c a.tag [a.value])

/-- The operands of rules whose results nothing reads are used up one after the other. -/
theorem drain (c : γ) {outs : Multiset (Arrival ρ τ α)} (rest : Multiset (Arrival ρ τ α))
    (made : Multiset (Token ν τ α))
    (hone : ∀a∈outs,a.rule∈rules ∧ a.port=0 ∧ (N.reads a.rule).length=1)
    (hunread : ∀a∈outs,N.spawn rules ↑(N.emits a.rule c a.tag [a.value])=0) :
    Relation.ReflTransGen (N.Step rules) ⟨outs+rest,made⟩
      ⟨rest,made+finalResults N c outs⟩ := by
  induction outs using Multiset.induction generalizing made with
  | empty =>
    rw [finalResults,Multiset.zero_bind,add_zero,zero_add]
  | cons a outs ih =>
    obtain ⟨hrule,hport,hlen⟩ := hone a (Multiset.mem_cons_self a outs)
    let f : Firing ρ τ α γ := ⟨a.rule,c,a.tag,[a.value]⟩
    have hoperands : operands f=[a] := by
      obtain ⟨rule,port,tag,value⟩ := a
      change port=0 at hport
      subst hport
      rfl
    have hheld : (⟨a::ₘouts+rest,made⟩ : State ν ρ τ α).held=↑(operands f)+(outs+rest) := by
      rw [hoperands,Multiset.coe_singleton,Multiset.singleton_add]
      exact Multiset.cons_add a outs rest
    have hfirst : N.Step rules ⟨a::ₘouts+rest,made⟩
        ⟨outs+rest,made+↑(N.emits a.rule c a.tag [a.value])⟩ := by
      have hstep := Step.of_held f hrule hlen.symm hheld
      have hspawn : N.spawn rules ↑(N.results f)=0 := hunread a (Multiset.mem_cons_self a outs)
      rw [hspawn,zero_add] at hstep
      exact hstep
    have hrest := ih (made+↑(N.emits a.rule c a.tag [a.value]))
      (fun b hb => hone b (Multiset.mem_cons_of_mem hb))
      fun b hb => hunread b (Multiset.mem_cons_of_mem hb)
    rw [add_assoc] at hrest
    rw [finalResults,Multiset.cons_bind]
    exact .head hfirst hrest

end Net

end Framework
