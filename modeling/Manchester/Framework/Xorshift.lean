import Mathlib.Data.Nat.Bitwise
import Mathlib.Logic.Function.Basic

namespace Xorshift

variable {w k : Nat}

/-- From the lowest bit up: a bit is told apart from one that is known already. -/
theorem left_injective (hk : 0 < k) : Function.Injective fun x : BitVec w => x^^^(x <<< k) := by
  intro x y h
  apply BitVec.eq_of_getLsbD_eq
  intro i hi
  induction i using Nat.strongRecOn with
  | ind i ih =>
    have hbit : (x^^^(x <<< k)).getLsbD i=(y^^^(y <<< k)).getLsbD i :=
      congrArg (BitVec.getLsbD · i) h
    rw [BitVec.getLsbD_xor,BitVec.getLsbD_xor,BitVec.getLsbD_shiftLeft,
      BitVec.getLsbD_shiftLeft] at hbit
    by_cases hlow : i < k
    · simpa [hlow] using hbit
    · rw [ih (i-k) (by omega) (by omega)] at hbit
      exact Bool.xor_left_inj.mp hbit

/-- Words of two widths whose joins agree in the narrow one, and that agree in the bits that are
shifted out, agree. What the wide one has above is shifted down, so it has nothing there. -/
theorem right_agree {v : Nat} (hk : 0 < k) (x : BitVec v) (y : BitVec w)
    (hjoin : ∀ i < w,(x^^^(x >>> k)).getLsbD i=(y^^^(y >>> k)).getLsbD i)
    (hlow : ∀ i < k,x.getLsbD i=y.getLsbD i) :
    (∀ i < w,x.getLsbD i=y.getLsbD i) ∧ ∀ i,w ≤ i → i < w+k → x.getLsbD i=false := by
  have hbits : ∀ i < w+k,x.getLsbD i=y.getLsbD i := by
    intro i
    induction i using Nat.strongRecOn with
    | ind i ih =>
      intro hi
      by_cases hlt : i < k
      · exact hlow i hlt
      · have hbit := hjoin (i-k) (by omega)
        have hback : k+(i-k)=i := by omega
        rw [BitVec.getLsbD_xor,BitVec.getLsbD_xor,BitVec.getLsbD_ushiftRight,
          BitVec.getLsbD_ushiftRight,ih (i-k) (by omega) (by omega),hback] at hbit
        exact Bool.xor_right_inj.mp hbit
  refine ⟨fun i hi => hbits i (by omega),?_⟩
  intro i hge hi
  rw [hbits i hi,BitVec.getLsbD_of_ge y i hge]

theorem nat_xor_le_add (a b : Nat) : a^^^b ≤ a+b := by
  induction a using Nat.strongRecOn generalizing b with
  | ind a ih =>
    by_cases hzero : a=0
    · subst hzero
      rw [Nat.zero_xor]
      exact Nat.le_add_left b 0
    · have hhalf := ih (a/2) (by omega) (b/2)
      have hdiv : (a^^^b)/2=a/2^^^b/2 := Nat.xor_div_two
      have hmod : (a^^^b)%2=(a+b)%2 := Nat.xor_mod_two_eq
      omega

theorem toNat_right_le (x : BitVec w) (k : Nat) :
    (x^^^(x >>> k)).toNat ≤ x.toNat+x.toNat/2^k := by
  rw [BitVec.toNat_xor,BitVec.toNat_ushiftRight,Nat.shiftRight_eq_div_pow]
  exact nat_xor_le_add _ _

theorem le_toNat_right (x : BitVec w) (k : Nat) :
    x.toNat ≤ (x^^^(x >>> k)).toNat+x.toNat/2^k := by
  rw [BitVec.toNat_xor,BitVec.toNat_ushiftRight,Nat.shiftRight_eq_div_pow]
  have hle := nat_xor_le_add (x.toNat^^^x.toNat/2^k) (x.toNat/2^k)
  rwa [Nat.xor_assoc,Nat.xor_self,Nat.xor_zero] at hle

end Xorshift
