import Manchester.Assembler.Firing
import Manchester.Assembler.Emit
import Manchester.Dataflow.Abstract

namespace Manchester.Assembler

open Framework

variable {τ α γ : Type}

/-- Tag and value of the tokens for one of the two destinations. -/
def Domain.sends (dom : Domain τ α γ) (k : Nat) (c : γ) (t : τ) (o : OpcodeType) (values : List α)
    (slot : DestSlot) : List (τ × α) :=
  (dom.outputs k c t o (if slot=.destination1 then [.start] else [])
    (if slot=.destination2 then [.start] else []) values).map fun token => (token.tag,token.value)

theorem Domain.outputs_sends (dom : Domain τ α γ) (k : Nat) (c : γ) (t : τ) {o : OpcodeType}
    (hreturn : o ≠ .RTD) (first second : List Wire) (values : List α) :
    dom.outputs k c t o first second values=
      ((dom.sends k c t o values .destination1).flatMap fun r => first.map fun x => ⟨x,r.1,r.2⟩)++
        (dom.sends k c t o values .destination2).flatMap fun r =>
          second.map fun x => ⟨x,r.1,r.2⟩ := by
  cases values with
  | nil => rfl
  | cons a rest =>
    cases o
    case RTD => exact absurd rfl hreturn
    case BRR =>
      simp only [sends,outputs]
      cases dom.truth (rest.headD a) <;> simp
    case NTG => simp [sends,outputs]
    all_goals
      simp only [sends,outputs]
      split <;> simp

/-- A result that chooses no destination goes to both. -/
theorem Domain.sends_both (dom : Domain τ α γ) (k : Nat) (c : γ) (t : τ) {o : OpcodeType}
    (hvalue : (Opcode.op o).choosesOutput=false) (values : List α) :
    dom.sends k c t o values .destination2=dom.sends k c t o values .destination1 := by
  cases values with
  | nil => rfl
  | cons a rest =>
    cases o <;> first | (cases hvalue; done) | skip
    all_goals simp [sends,outputs]

/-- An instruction with one operand does not look at the second word of its packet. -/
theorem sends_single (labels : List Name) (address : Name → DataType) (k : Nat) (c : Choice)
    (t : TagType) {o : OpcodeType} (hinternal : o.isExternal=false)
    (hone : (Opcode.op o).numInputs=1 ∨ o=.MER) (a b : DataType) (slot : DestSlot) :
    (machineDomain labels address).sends k c t o [a,b] slot=
      (machineDomain labels address).sends k c t o [a] slot := by
  cases o <;> first | (cases hinternal; done) | (exact absurd hone (by decide)) | skip
  all_goals rfl

section Evaluation

variable (random : RandomStream) (labels : List Name) (address : Name → DataType)

/-- The function unit, slot by slot. -/
theorem evaluate_sends (env : FunctionEnv) (calls k : Nat) (packet : ExecutionPacket)
    {o : OpcodeType} (hopcode : packet.opcode=o.bits) (hinternal : o.isExternal=false)
    (hreturn : o ≠ .RTD) :
    ∃ c,(evaluate env random calls packet).1=
      (((machineDomain labels address).sends k c packet.tag o [packet.data1,packet.data2]
        .destination1).map fun r => ⟨packet.destination1,r.2,r.1⟩)++
      if o=.BRR ∨ o=.NTG ∨ packet.marker=bothOutputMarker then
        ((machineDomain labels address).sends k c packet.tag o [packet.data1,packet.data2]
          .destination2).map fun r => ⟨packet.destination2,r.2,r.1⟩
      else [] := by
  obtain ⟨result,calls',hresult,htokens⟩ := functionUnit_outputs labels address env random calls k 0
    packet o hopcode hinternal hreturn .start (.printed 0) (by simp)
  refine ⟨⟨newTagArea (random calls),0⟩,?_⟩
  rw [evaluate,hresult]
  change result.tokens=_
  rw [htokens,Domain.outputs_sends _ _ _ _ hreturn]
  have hflat : ∀ (l : List (TagType × DataType)) (x : Wire),
      (l.flatMap fun r => [x].map fun x => (⟨x,r.1,r.2⟩ : Token Wire TagType DataType))=
        l.map fun r => ⟨x,r.1,r.2⟩ := fun _ _ => List.map_eq_flatMap.symm
  split_ifs
  · rw [hflat,hflat]
    simp [Function.comp_def]
  · rw [hflat]
    simp [Function.comp_def]

end Evaluation

end Manchester.Assembler
