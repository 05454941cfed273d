import Manchester.Framework.Xorshift
import Mathlib.Data.Nat.ModEq
import Mathlib.Data.Nat.Prime.Basic
import Mathlib.Tactic.NormNum

namespace OneAtATime

variable {v w k : Nat}

def spread (k : Nat) (x : BitVec w) : BitVec w := x+(x <<< k)

def fold (k : Nat) (x : BitVec w) : BitVec w := x^^^(x >>> k)

/-- The next byte. -/
def mix (h c : BitVec w) : BitVec w := fold 6 (spread 10 (h+c))

def finish (h : BitVec w) : BitVec w := spread 15 (fold 11 (spread 3 h))

def mixAll (h : BitVec w) (bs : List UInt8) : BitVec w :=
  bs.foldl (fun h b => mix h (BitVec.ofNat w b.toNat)) h

def hash (w : Nat) (bs : List UInt8) : BitVec w := finish (mixAll 0 bs)

theorem mixAll_cons (h : BitVec w) (b : UInt8) (bs : List UInt8) :
    mixAll h (b::bs)=mixAll (mix h (BitVec.ofNat w b.toNat)) bs := rfl

theorem mixAll_snoc (h : BitVec w) (bs : List UInt8) (b : UInt8) :
    mixAll h (bs++[b])=mix (mixAll h bs) (BitVec.ofNat w b.toNat) := by
  rw [mixAll,List.foldl_append]
  rfl

theorem toNat_spread (x : BitVec w) (k : Nat) :
    (spread k x).toNat=x.toNat*(2^k+1)%2^w := by
  have hsum : x.toNat*(2^k+1)=x.toNat+x.toNat*2^k := by rw [Nat.mul_succ,Nat.add_comm]
  rw [spread,BitVec.toNat_add,BitVec.toNat_shiftLeft,Nat.shiftLeft_eq,hsum]
  exact Nat.add_mod_mod _ _ _

theorem spread_setWidth (hle : w ≤ v) (x : BitVec v) (k : Nat) :
    (spread k x).setWidth w=spread k (x.setWidth w) := by
  apply BitVec.eq_of_toNat_eq
  rw [BitVec.toNat_setWidth,toNat_spread,toNat_spread,BitVec.toNat_setWidth,
    Nat.mod_mod_of_dvd _ (Nat.pow_dvd_pow 2 hle),Nat.mod_mul_mod]

/-- A power of two and one is odd. -/
theorem spread_injective (hk : 0 < k) : Function.Injective (@spread w k) := by
  intro x y h
  have hodd : Nat.Coprime (2^w) (2^k+1) := by
    apply Nat.Coprime.pow_left
    rw [Nat.coprime_two_left,Nat.odd_iff]
    have heven := Nat.pow_mod 2 k 2
    rw [Nat.mod_self,Nat.zero_pow hk] at heven
    omega
  have hnat : x.toNat*(2^k+1) ≡ y.toNat*(2^k+1) [MOD 2^w] := by
    have heq := congrArg BitVec.toNat h
    rwa [toNat_spread,toNat_spread] at heq
  have hcancel := Nat.ModEq.cancel_right_of_coprime hodd hnat
  apply BitVec.eq_of_toNat_eq
  rwa [Nat.ModEq,Nat.mod_eq_of_lt x.isLt,Nat.mod_eq_of_lt y.isLt] at hcancel

theorem toNat_fold_of_eq {x : BitVec v} {y : BitVec w} (h : x.toNat=y.toNat) (k : Nat) :
    (fold k x).toNat=(fold k y).toNat := by
  rw [fold,fold,BitVec.toNat_xor,BitVec.toNat_xor,BitVec.toNat_ushiftRight,
    BitVec.toNat_ushiftRight,h]

theorem toNat_spread_of_eq {x : BitVec v} {y : BitVec w} (h : x.toNat=y.toNat)
    (hv : x.toNat*(2^k+1) < 2^v) (hw : x.toNat*(2^k+1) < 2^w) :
    (spread k x).toNat=(spread k y).toNat := by
  rw [toNat_spread,toNat_spread,← h,Nat.mod_eq_of_lt hv,Nat.mod_eq_of_lt hw]

section Mix

variable {x : BitVec v} {y : BitVec w} {b : UInt8}

theorem toNat_add_byte (x : BitVec w) (b : UInt8) (h : (x.toNat+b.toNat)*1025 < 2^w) :
    (x+BitVec.ofNat w b.toNat).toNat=x.toNat+b.toNat := by
  rw [BitVec.toNat_add,BitVec.toNat_ofNat,Nat.add_mod_mod,Nat.mod_eq_of_lt (by omega)]

theorem toNat_mix_of_eq (h : x.toNat=y.toNat) (hv : (x.toNat+b.toNat)*1025 < 2^v)
    (hw : (x.toNat+b.toNat)*1025 < 2^w) :
    (mix x (BitVec.ofNat v b.toNat)).toNat=(mix y (BitVec.ofNat w b.toNat)).toNat := by
  have hx := toNat_add_byte x b hv
  have hy := toNat_add_byte y b (by rwa [← h])
  apply toNat_fold_of_eq
  apply toNat_spread_of_eq
  · rw [hx,hy,h]
  · rwa [hx]
  · rwa [hx]

theorem toNat_spread_byte (hv : (x.toNat+b.toNat)*1025 < 2^v) :
    (spread 10 (x+BitVec.ofNat v b.toNat)).toNat=(x.toNat+b.toNat)*1025 := by
  rw [toNat_spread,toNat_add_byte x b hv]
  exact Nat.mod_eq_of_lt hv

theorem toNat_mix_le (hv : (x.toNat+b.toNat)*1025 < 2^v) :
    (mix x (BitVec.ofNat v b.toNat)).toNat ≤
      (x.toNat+b.toNat)*1025+(x.toNat+b.toNat)*1025/64 := by
  have hle := Xorshift.toNat_right_le (spread 10 (x+BitVec.ofNat v b.toNat)) 6
  rwa [toNat_spread_byte hv] at hle

theorem le_toNat_mix (hv : (x.toNat+b.toNat)*1025 < 2^v) :
    (x.toNat+b.toNat)*1025 ≤
      (mix x (BitVec.ofNat v b.toNat)).toNat+(x.toNat+b.toNat)*1025/64 := by
  have hle := Xorshift.le_toNat_right (spread 10 (x+BitVec.ofNat v b.toNat)) 6
  rwa [toNat_spread_byte hv] at hle

theorem finish_of_eq (h : x.toNat=y.toNat) (hle : w ≤ v) (hsmall : x.toNat*9 < 2^w) :
    (finish x).setWidth w=finish y := by
  have hpow : 2^w ≤ 2^v := Nat.pow_le_pow_right (by decide) hle
  have hspread : (spread 3 x).toNat=(spread 3 y).toNat :=
    toNat_spread_of_eq h (Nat.lt_of_lt_of_le hsmall hpow) hsmall
  have hfold := toNat_fold_of_eq hspread 11
  rw [finish,spread_setWidth hle,finish]
  congr 1
  apply BitVec.eq_of_toNat_eq
  rw [BitVec.toNat_setWidth,hfold,Nat.mod_eq_of_lt (fold 11 (spread 3 y)).isLt]

end Mix

theorem mix_zero : mix (0 : BitVec w) (BitVec.ofNat w (0 : UInt8).toNat)=0 := by
  simp [mix,spread,fold]

/-- Zeros in front are not seen. -/
theorem hash_dropWhile (w : Nat) (bs : List UInt8) : hash w (bs.dropWhile (· == 0))=hash w bs := by
  induction bs with
  | nil => rfl
  | cons b bs ih =>
    by_cases hb : b=0
    · subst hb
      rw [List.dropWhile_cons_of_pos rfl,ih,hash,hash,mixAll_cons,mix_zero]
    · rw [List.dropWhile_cons_of_neg (by simpa using hb)]

section Few

variable {a b c : UInt8}

theorem mixAll_one (hv : 32 ≤ v) (hw : 32 ≤ w) (a : UInt8) :
    (mixAll (0 : BitVec v) [a]).toNat=(mixAll (0 : BitVec w) [a]).toNat ∧
      (mixAll (0 : BitVec v) [a]).toNat ≤ 300000 ∧
      (a ≠ 0 → 1000 ≤ (mixAll (0 : BitVec v) [a]).toNat) := by
  have ha := a.toNat_lt
  have hpv : 2^32 ≤ 2^v := Nat.pow_le_pow_right (by decide) hv
  have hpw : 2^32 ≤ 2^w := Nat.pow_le_pow_right (by decide) hw
  have hzero : (0 : BitVec v).toNat=0 := BitVec.toNat_zero
  have hsame : (0 : BitVec v).toNat=(0 : BitVec w).toNat := rfl
  have hmix := @toNat_mix_of_eq v w 0 0 a hsame (by omega) (by omega)
  have hle := @toNat_mix_le v 0 a (by omega)
  have hge := @le_toNat_mix v 0 a (by omega)
  rw [hzero] at hle hge
  refine ⟨hmix,?_,?_⟩
  · show (mix (0 : BitVec v) (BitVec.ofNat v a.toNat)).toNat ≤ 300000
    omega
  · intro hne
    have hpos : a.toNat ≠ 0 := fun heq => hne (UInt8.toNat_inj.mp heq)
    show 1000 ≤ (mix (0 : BitVec v) (BitVec.ofNat v a.toNat)).toNat
    omega

/-- The state after two bytes is below `2^32/9`. -/
theorem mixAll_two (hv : 32 ≤ v) (hw : 32 ≤ w) (a b : UInt8) :
    (mixAll (0 : BitVec v) [a,b]).toNat=(mixAll (0 : BitVec w) [a,b]).toNat ∧
      (mixAll (0 : BitVec v) [a,b]).toNat ≤ 400000000 ∧
      (a ≠ 0 → 1000000 ≤ (mixAll (0 : BitVec v) [a,b]).toNat) := by
  have hb := b.toNat_lt
  have hpv : 2^32 ≤ 2^v := Nat.pow_le_pow_right (by decide) hv
  have hpw : 2^32 ≤ 2^w := Nat.pow_le_pow_right (by decide) hw
  obtain ⟨hsame,hmost,hleast⟩ := mixAll_one hv hw a
  have hmix := @toNat_mix_of_eq v w _ _ b hsame (by omega) (by omega)
  have hle := @toNat_mix_le v (mixAll 0 [a]) b (by omega)
  have hge := @le_toNat_mix v (mixAll 0 [a]) b (by omega)
  refine ⟨hmix,?_,?_⟩
  · show (mix (mixAll (0 : BitVec v) [a]) (BitVec.ofNat v b.toNat)).toNat ≤ 400000000
    omega
  · intro hne
    have hstart := hleast hne
    show 1000000 ≤ (mix (mixAll (0 : BitVec v) [a]) (BitVec.ofNat v b.toNat)).toNat
    omega

/-- Of at most two bytes the hash in wide registers has the hash in narrow ones at its end. -/
theorem hash_narrow (hw : 32 ≤ w) (hle : w ≤ v) {bs : List UInt8} (hbs : bs.length ≤ 2) :
    (hash v bs).setWidth w=hash w bs := by
  have hpw : 2^32 ≤ 2^w := Nat.pow_le_pow_right (by decide) hw
  match bs,hbs with
  | [],_ =>
    have hzero : (0 : BitVec v).toNat=0 := BitVec.toNat_zero
    exact finish_of_eq rfl hle (by show (0 : BitVec v).toNat*9 < 2^w; omega)
  | [a],_ =>
    obtain ⟨hsame,hmost,-⟩ := mixAll_one (Nat.le_trans hw hle) hw a
    exact finish_of_eq hsame hle (by omega)
  | [a,b],_ =>
    obtain ⟨hsame,hmost,-⟩ := mixAll_two (Nat.le_trans hw hle) hw a b
    exact finish_of_eq hsame hle (by omega)

end Few

theorem fold_agree {x : BitVec v} {y : BitVec w} {n : Nat} (h : ∀ i < n+k,x.getLsbD i=y.getLsbD i) :
    ∀ i < n,(fold k x).getLsbD i=(fold k y).getLsbD i := by
  intro i hi
  rw [fold,fold,BitVec.getLsbD_xor,BitVec.getLsbD_xor,BitVec.getLsbD_ushiftRight,
    BitVec.getLsbD_ushiftRight,h i (by omega),h (k+i) (by omega)]

theorem setWidth_eq_iff {n : Nat} (x : BitVec v) (y : BitVec w) :
    x.setWidth n=y.setWidth n ↔ ∀ i < n,x.getLsbD i=y.getLsbD i := by
  constructor
  · intro h i hi
    have hbit := congrArg (BitVec.getLsbD · i) h
    simpa [hi] using hbit
  · intro h
    apply BitVec.eq_of_getLsbD_eq
    intro i hi
    simp [hi,h i hi]

theorem lt_of_bits {x n k : Nat} (hx : x < 2^(n+k))
    (hbits : ∀ i,n ≤ i → i < n+k → x.testBit i=false) : x < 2^n := by
  apply Nat.lt_pow_two_of_testBit
  intro i hi
  by_cases hlt : i < n+k
  · exact hbits i hi hlt
  · have hpow : 2^(n+k) ≤ 2^i := Nat.pow_le_pow_right (by decide) (by omega)
    exact Nat.testBit_lt_two_pow (Nat.lt_of_lt_of_le hx hpow)

/-- Where the sum before the last right shift has outgrown the narrow register, and the states
agree in the bits that are shifted out, the hashes differ. -/
theorem finish_differs {x : BitVec v} {y : BitVec w} (hw : 11 ≤ w) (hle : w ≤ v)
    (hagree : x.setWidth 11=y.setWidth 11) (hlarge : 2^w ≤ x.toNat*9)
    (hsmall : x.toNat*9 < 2^(w+11)) (hv : w+11 ≤ v) : (finish x).setWidth w ≠ finish y := by
  intro h
  rw [finish,finish,spread_setWidth hle] at h
  have hfold := spread_injective (by decide) h
  have hjoin := (setWidth_eq_iff _ _).mp (hfold.trans (BitVec.setWidth_eq _).symm)
  have hlow : (spread 3 x).setWidth 11=(spread 3 y).setWidth 11 := by
    rw [spread_setWidth (by omega),spread_setWidth (by omega),hagree]
  have hhigh := (Xorshift.right_agree (by decide) (spread 3 x) (spread 3 y) hjoin
    ((setWidth_eq_iff _ _).mp hlow)).2
  have hvalue : (spread 3 x).toNat=x.toNat*9 := by
    rw [toNat_spread]
    exact Nat.mod_eq_of_lt (Nat.lt_of_lt_of_le hsmall (Nat.pow_le_pow_right (by decide) hv))
  have hlt : (spread 3 x).toNat < 2^w := lt_of_bits (by rwa [hvalue]) hhigh
  omega

/-- Of three bytes that do not begin with a zero the hashes differ. -/
theorem hash_differs {a : UInt8} (ha : a ≠ 0) (b c : UInt8) :
    (hash 64 [a,b,c]).setWidth 32 ≠ hash 32 [a,b,c] := by
  have hc := c.toNat_lt
  obtain ⟨hsame,hmost,hleast⟩ := @mixAll_two 64 32 (by decide) (by decide) a b
  have hstart := hleast ha
  have hle := @toNat_mix_le 64 (mixAll 0 [a,b]) c (by omega)
  have hge := @le_toNat_mix 64 (mixAll 0 [a,b]) c (by omega)
  have hsum : ((mixAll (0 : BitVec 64) [a,b]+BitVec.ofNat 64 c.toNat)).setWidth 32=
      mixAll (0 : BitVec 32) [a,b]+BitVec.ofNat 32 c.toNat := by
    apply BitVec.eq_of_toNat_eq
    rw [BitVec.toNat_setWidth,toNat_add_byte _ _ (by omega),BitVec.toNat_add,BitVec.toNat_ofNat,
      Nat.add_mod_mod,hsame]
  have hspread := congrArg (spread 10) hsum
  rw [← spread_setWidth (by decide)] at hspread
  have hagree : (mix (mixAll (0 : BitVec 64) [a,b]) (BitVec.ofNat 64 c.toNat)).setWidth 11=
      (mix (mixAll (0 : BitVec 32) [a,b]) (BitVec.ofNat 32 c.toNat)).setWidth 11 := by
    apply (setWidth_eq_iff _ _).mpr
    apply fold_agree
    intro i hi
    rw [← hspread,BitVec.getLsbD_setWidth]
    simp
    omega
  apply finish_differs (by decide) (by decide) hagree
  · show 2^32 ≤ (mix (mixAll (0 : BitVec 64) [a,b]) (BitVec.ofNat 64 c.toNat)).toNat*9
    omega
  · show (mix (mixAll (0 : BitVec 64) [a,b]) (BitVec.ofNat 64 c.toNat)).toNat*9 < 2^(32+11)
    omega
  · decide

/-- Of more bytes they may be the same again by chance. -/
example : (hash 64 [1,13,231,85,28,168,141,0]).setWidth 32=hash 32 [1,13,231,85,28,168,141,0] := by
  decide

end OneAtATime
