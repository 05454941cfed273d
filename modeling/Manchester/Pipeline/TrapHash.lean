import Manchester.Framework.Xorshift
import Manchester.Pipeline.Trap

namespace Manchester

/-- The upper half of a destination is empty, so that the shift by 33 gives nothing. -/
theorem hash_destination (d : DestinationType) :
    hash (d.setWidth 64)=(d^^^(d <<< 11)).setWidth 64 := by
  have hzero : (d.setWidth 64) >>> 33=0#64 := by
    apply BitVec.eq_of_toNat_eq
    rw [BitVec.toNat_ushiftRight,Nat.shiftRight_eq_div_pow,BitVec.toNat_setWidth_of_le (by decide)]
    exact Nat.div_eq_of_lt (Nat.lt_trans d.isLt (by decide))
  have hshift : ((d.setWidth 64) <<< 11).setWidth 32=d <<< 11 := by
    apply BitVec.eq_of_getLsbD_eq
    intro i hi
    simp [hi]
  have hcut : ((d.setWidth 64)^^^((d.setWidth 64) <<< 11)).setWidth 32=d^^^(d <<< 11) := by
    rw [BitVec.setWidth_xor,hshift,BitVec.setWidth_setWidth_of_le d (by decide),BitVec.setWidth_eq]
  rw [hash,hzero,BitVec.zero_xor,hcut]

theorem hash_destination_inj (a b : DestinationType) :
    hash (a.setWidth 64)=hash (b.setWidth 64) ↔ a=b := by
  constructor
  · intro h
    apply Xorshift.left_injective (k := 11) (by decide)
    have hwide : (a^^^(a <<< 11)).setWidth 64=(b^^^(b <<< 11)).setWidth 64 := by
      rwa [hash_destination,hash_destination] at h
    have hback := congrArg (BitVec.setWidth 32) hwide
    rwa [BitVec.setWidth_setWidth_of_le _ (by decide),BitVec.setWidth_setWidth_of_le _ (by decide),
      BitVec.setWidth_eq,BitVec.setWidth_eq] at hback
  · rintro rfl
    rfl

/-- Different destinations have different hashes: what the trap code gets about two tokens is the
same only where their sources are, and where they go to the same place. -/
theorem trap_hash_injective :
    (∀ a b : DestinationType,hash (a.setWidth 64)=hash (b.setWidth 64) ↔ a=b) ∧
    ∀ (random random' : RandomStream) (input input' : DestinationType) (token token' : TokenType)
      (s s' : ProcessingState),
      (((singleStepToken random input token s).2.map TokenType.data)[0]?=
          ((singleStepToken random' input' token' s').2.map TokenType.data)[0]? ↔ input=input') ∧
      (((singleStepToken random input token s).2.map TokenType.data)[1]?=
          ((singleStepToken random' input' token' s').2.map TokenType.data)[1]? ↔
        token.destination=token'.destination) := by
  refine ⟨hash_destination_inj,?_⟩
  intro random random' input input' token token' s s'
  rw [singleStepToken_sent,singleStepToken_sent]
  constructor
  · rw [← hash_destination_inj input input']
    exact Option.some_inj
  · rw [← hash_destination_inj token.destination token'.destination]
    exact Option.some_inj

-- Wider words do collide.
example : hash (2^32)=hash 0 := by decide

end Manchester
