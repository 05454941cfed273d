import Mathlib.Data.Finset.Card
import Mathlib.Data.Finset.Range
import Mathlib.Data.Nat.ModEq
import Mathlib.Data.Nat.Prime.Basic
import Mathlib.Tactic.Ring

namespace Probing

/-- The bucket of a probe. Each step is one longer than the step before. -/
def place (n start : Nat) : Nat → Nat
  | 0 => start%n
  | k+1 => (place n start k+(k+1))%n

theorem place_lt {n : Nat} (hn : 0 < n) (start k : Nat) : place n start k < n := by
  cases k <;> exact Nat.mod_lt _ hn

/-- Twice the way from the first bucket is the product of two neighbours. -/
theorem two_mul_place (n start k : Nat) : 2*place n start k ≡ 2*start+k*(k+1) [MOD 2*n] := by
  induction k with
  | zero =>
    rw [place,Nat.zero_mul,Nat.add_zero]
    exact (Nat.mod_modEq start n).mul_left' 2
  | succ k ih =>
    have hmod := (Nat.mod_modEq (place n start k+(k+1)) n).mul_left' 2
    have hnext : 2*start+(k+1)*(k+1+1)=2*start+k*(k+1)+2*(k+1) := by ring
    rw [hnext]
    refine hmod.trans ?_
    rw [Nat.mul_add]
    exact ih.add_right _

/-- Of the factors j-i and i+j+1 one is odd and both are below the modulus. -/
theorem eq_of_product {m i j : Nat} (hj : j < 2^m) (hij : i ≤ j)
    (hdvd : 2^(m+1) ∣ (j-i)*(i+j+1)) : i=j := by
  have hpow : 2^(m+1)=2*2^m := Nat.pow_succ'
  by_contra hne
  have hodd : (j-i)%2=1 ∨ (i+j+1)%2=1 := by omega
  obtain hodd | hodd := hodd
  · have hcoprime : (2^(m+1)).Coprime (j-i) :=
      Nat.Coprime.pow_left _ (Nat.coprime_two_left.mpr (Nat.odd_iff.mpr hodd))
    have hle := Nat.le_of_dvd (by omega) (hcoprime.dvd_of_dvd_mul_left hdvd)
    omega
  · have hcoprime : (2^(m+1)).Coprime (i+j+1) :=
      Nat.Coprime.pow_left _ (Nat.coprime_two_left.mpr (Nat.odd_iff.mpr hodd))
    have hle := Nat.le_of_dvd (by omega) (hcoprime.dvd_of_dvd_mul_right hdvd)
    omega

/-- As many probes as there are buckets come to different ones. -/
theorem place_injective {m start i j : Nat} (hi : i < 2^m) (hj : j < 2^m)
    (h : place (2^m) start i=place (2^m) start j) : i=j := by
  have hsame : 2*start+i*(i+1) ≡ 2*start+j*(j+1) [MOD 2^(m+1)] := by
    rw [Nat.pow_succ']
    have hleft := two_mul_place (2^m) start i
    rw [h] at hleft
    exact hleft.symm.trans (two_mul_place (2^m) start j)
  have hproducts := hsame.add_left_cancel'
  have hfactor : ∀ a b : Nat,a ≤ b → b*(b+1)-a*(a+1)=(b-a)*(a+b+1) := by
    intro a b hab
    obtain ⟨d,rfl⟩ := Nat.exists_eq_add_of_le hab
    have hexpand : (a+d)*(a+d+1)=a*(a+1)+d*(a+(a+d)+1) := by ring
    rw [hexpand,Nat.add_sub_cancel_left,Nat.add_sub_cancel_left]
  rcases Nat.le_total i j with hij | hij
  · have hle : i*(i+1) ≤ j*(j+1) := Nat.mul_le_mul hij (by omega)
    have hdvd := (Nat.modEq_iff_dvd' hle).mp hproducts
    rw [hfactor i j hij] at hdvd
    exact eq_of_product hj hij hdvd
  · have hle : j*(j+1) ≤ i*(i+1) := Nat.mul_le_mul hij (by omega)
    have hdvd := (Nat.modEq_iff_dvd' hle).mp hproducts.symm
    rw [hfactor j i hij] at hdvd
    exact (eq_of_product hi hij hdvd).symm

/-- So they come to every bucket. -/
theorem exists_place {m : Nat} (start : Nat) {b : Nat} (hb : b < 2^m) :
    ∃ k < 2^m,place (2^m) start k=b := by
  have hmaps : ∀ k∈Finset.range (2^m),place (2^m) start k∈Finset.range (2^m) := fun k _ =>
    Finset.mem_range.mpr (place_lt (Nat.two_pow_pos m) start k)
  have hsurj := Finset.surj_on_of_inj_on_of_card_le (fun k _ => place (2^m) start k) hmaps
    (fun i j hi hj h => place_injective (Finset.mem_range.mp hi) (Finset.mem_range.mp hj) h)
    le_rfl b (Finset.mem_range.mpr hb)
  obtain ⟨k,hk,rfl⟩ := hsurj
  exact ⟨k,Finset.mem_range.mp hk,rfl⟩

/-- The probes stop at a bucket, and at none before. -/
theorem exists_first {m : Nat} (start : Nat) {P : Nat → Prop} (h : ∃ b < 2^m,P b) :
    ∃ k < 2^m,P (place (2^m) start k) ∧ ∀ j < k,¬P (place (2^m) start j) := by
  classical
  obtain ⟨b,hb,hstop⟩ := h
  obtain ⟨k,hk,rfl⟩ := exists_place start hb
  have hexists : ∃ k,P (place (2^m) start k) := ⟨k,hstop⟩
  exact ⟨Nat.find hexists,Nat.lt_of_le_of_lt (Nat.find_le hstop) hk,Nat.find_spec hexists,
    fun j hj => Nat.find_min hexists hj⟩

/-- The probes come to a bucket, and every bucket before it is full. -/
def Reaches (full : Nat → Prop) (n start b : Nat) : Prop :=
  ∃ k < n,place n start k=b ∧ ∀ j < k,full (place n start j)

theorem Reaches.mono {full full' : Nat → Prop} {n start b : Nat} (h : Reaches full n start b)
    (hfull : ∀ i < n,full i → full' i) : Reaches full' n start b := by
  obtain ⟨k,hk,hplace,hbefore⟩ := h
  exact ⟨k,hk,hplace,fun j hj => hfull _ (place_lt (by omega) start j) (hbefore j hj)⟩

/-- How many of the first n buckets are of a kind. -/
def count (n : Nat) (P : Nat → Prop) [DecidablePred P] : Nat :=
  ((Finset.range n).filter P).card

section Count

variable {n b : Nat} {P Q : Nat → Prop} [DecidablePred P] [DecidablePred Q]

theorem count_congr (h : ∀ i < n,P i ↔ Q i) : count n P=count n Q :=
  congrArg Finset.card (Finset.filter_congr fun i hi => h i (Finset.mem_range.mp hi))

theorem count_le (n : Nat) (P : Nat → Prop) [DecidablePred P] : count n P ≤ n :=
  (Finset.card_filter_le _ _).trans_eq (Finset.card_range n)

theorem count_mono (h : ∀ i < n,P i → Q i) : count n P ≤ count n Q := by
  refine Finset.card_le_card fun i hi => ?_
  obtain ⟨hrange,hkind⟩ := Finset.mem_filter.mp hi
  exact Finset.mem_filter.mpr ⟨hrange,h i (Finset.mem_range.mp hrange) hkind⟩

/-- One bucket more. -/
theorem count_insert (hb : b < n) (hnot : ¬P b) (h : ∀ i < n,Q i ↔ i=b ∨ P i) :
    count n Q=count n P+1 := by
  have hinsert : (Finset.range n).filter Q=insert b ((Finset.range n).filter P) := by
    ext i
    simp only [Finset.mem_filter,Finset.mem_range,Finset.mem_insert]
    constructor
    · rintro ⟨hi,hkind⟩
      exact ((h i hi).mp hkind).imp_right fun hk => ⟨hi,hk⟩
    · rintro (rfl | ⟨hi,hkind⟩)
      · exact ⟨hb,(h i hb).mpr (Or.inl rfl)⟩
      · exact ⟨hi,(h i hi).mpr (Or.inr hkind)⟩
  rw [count,hinsert,Finset.card_insert_of_notMem (by simp [hnot])]
  rfl

/-- With fewer than all there is another one. -/
theorem exists_not_of_count_lt (h : count n P < n) : ∃ i < n,¬P i := by
  by_contra hall
  push Not at hall
  have hfull : (Finset.range n).filter P=Finset.range n :=
    Finset.filter_true_of_mem fun i hi => hall i (Finset.mem_range.mp hi)
  rw [count,hfull,Finset.card_range] at h
  exact Nat.lt_irrefl n h

end Count

end Probing
