import Mathlib.Algebra.Order.Ring.Nat
import Mathlib.Tactic.Ring

namespace Bytes

variable {α β : Type*}

def slice (bs : List α) (off len : Nat) : List α := (bs.drop off).take len

/-- The buffer after a copy of `new` to offset `off`. -/
def overwrite (bs : List α) (off : Nat) (new : List α) : List α :=
  bs.take off++new++bs.drop (off+new.length)

theorem getElem?_slice (bs : List α) (off len i : Nat) :
    (slice bs off len)[i]?=if i < len then bs[off+i]? else none := by
  rw [slice,List.getElem?_take]
  split_ifs
  · rw [List.getElem?_drop]
  · rfl

theorem slice_slice (bs : List α) (off len pos n : Nat) (h : pos+n ≤ len) :
    slice (slice bs off len) pos n=slice bs (off+pos) n := by
  apply List.ext_getElem?
  intro i
  rw [getElem?_slice,getElem?_slice,getElem?_slice]
  by_cases hi : i < n
  · rw [if_pos hi,if_pos hi,if_pos (by omega),Nat.add_assoc]
  · rw [if_neg hi,if_neg hi]

theorem slice_add (bs : List α) (off m n : Nat) :
    slice bs off (m+n)=slice bs off m++slice bs (off+m) n := by
  rw [slice,slice,slice,List.take_add,List.drop_drop]

/-- Pieces are equal when their bytes are. -/
theorem slice_eq_iff (as bs : List α) (off len : Nat) :
    slice as off len=slice bs off len ↔ ∀ i < len,as[off+i]?=bs[off+i]? := by
  constructor
  · intro h i hi
    have hget := congrArg (fun l : List α => l[i]?) h
    simp only [getElem?_slice,if_pos hi] at hget
    exact hget
  · intro h
    apply List.ext_getElem?
    intro i
    rw [getElem?_slice,getElem?_slice]
    by_cases hi : i < len
    · rw [if_pos hi,if_pos hi,h i hi]
    · rw [if_neg hi,if_neg hi]

theorem drop_slice (bs : List α) (off pos n : Nat) :
    (slice bs off (pos+n)).drop pos=slice bs (off+pos) n := by
  rw [slice,slice,List.drop_take,List.drop_drop,Nat.add_sub_cancel_left]

theorem length_overwrite (bs new : List α) (off : Nat) (h : off+new.length ≤ bs.length) :
    (overwrite bs off new).length=bs.length := by
  simp only [overwrite,List.length_append,List.length_take,List.length_drop]
  omega

theorem getElem?_overwrite (bs new : List α) (off i : Nat) (h : off+new.length ≤ bs.length) :
    (overwrite bs off new)[i]?=
      if off ≤ i ∧ i < off+new.length then new[i-off]? else bs[i]? := by
  have ht : (bs.take off).length=off := by rw [List.length_take]; omega
  rw [overwrite,List.append_assoc]
  by_cases h1 : i < off
  · rw [List.getElem?_append_left (by omega),List.getElem?_take,if_pos h1,if_neg (by omega)]
  · rw [List.getElem?_append_right (by omega),ht]
    by_cases h2 : i < off+new.length
    · rw [List.getElem?_append_left (by omega),if_pos ⟨by omega,h2⟩]
    · rw [List.getElem?_append_right (by omega),List.getElem?_drop,if_neg (by omega)]
      congr 1
      omega

theorem slice_overwrite_self (bs new : List α) (off : Nat) (h : off+new.length ≤ bs.length) :
    slice (overwrite bs off new) off new.length=new := by
  apply List.ext_getElem?
  intro i
  rw [getElem?_slice,getElem?_overwrite bs new off _ h]
  by_cases hi : i < new.length
  · rw [if_pos hi,if_pos (by omega),Nat.add_sub_cancel_left]
  · rw [if_neg hi,List.getElem?_eq_none (by omega)]

/-- A copy leaves the pieces that do not meet it alone. -/
theorem slice_overwrite_disjoint (bs new : List α) (off pos len : Nat)
    (h : off+new.length ≤ bs.length) (hd : pos+len ≤ off ∨ off+new.length ≤ pos) :
    slice (overwrite bs off new) pos len=slice bs pos len := by
  apply List.ext_getElem?
  intro i
  rw [getElem?_slice,getElem?_slice,getElem?_overwrite bs new off _ h]
  by_cases hi : i < len
  · rw [if_pos hi,if_pos hi,if_neg (by omega)]
  · rw [if_neg hi,if_neg hi]

theorem slice_append_left (as bs : List α) (off len : Nat) (h : off+len ≤ as.length) :
    slice (as++bs) off len=slice as off len := by
  apply List.ext_getElem?
  intro i
  rw [getElem?_slice,getElem?_slice]
  by_cases hi : i < len
  · rw [if_pos hi,if_pos hi,List.getElem?_append_left (by omega)]
  · rw [if_neg hi,if_neg hi]

theorem slice_append_right (as bs : List α) (off len : Nat) :
    slice (as++bs) (as.length+off) len=slice bs off len := by
  apply List.ext_getElem?
  intro i
  rw [getElem?_slice,getElem?_slice,List.getElem?_append_right (by omega)]
  congr 2
  omega

theorem length_flatMap (enc : α → List β) (n : Nat) (xs : List α)
    (h : ∀x∈xs,(enc x).length=n) : (xs.flatMap enc).length=n*xs.length := by
  induction xs with
  | nil => simp
  | cons x xs ih =>
    have hx := h x (by simp)
    have ht := ih (fun y hy => h y (by simp [hy]))
    rw [List.flatMap_cons,List.length_append,hx,ht,List.length_cons]
    ring

/-- Record i of a table is found at offset n*i. -/
theorem slice_flatMap (enc : α → List β) (n : Nat) (xs : List α)
    (h : ∀x∈xs,(enc x).length=n) (i : Nat) (hi : i < xs.length) :
    slice (xs.flatMap enc) (n*i) n=enc xs[i] := by
  induction xs generalizing i with
  | nil => simp at hi
  | cons x xs ih =>
    have hx := h x (by simp)
    rw [List.flatMap_cons]
    cases i with
    | zero =>
      rw [Nat.mul_zero,slice_append_left _ _ _ _ (by omega)]
      simp [slice,← hx]
    | succ i =>
      have ht := ih (fun y hy => h y (by simp [hy])) i (by simpa using hi)
      have hoff : n*(i+1)=(enc x).length+n*i := by rw [hx]; ring
      rw [hoff,slice_append_right,ht]
      rfl

def toNatLE : List UInt8 → Nat
  | [] => 0
  | b::bs => b.toNat+256*toNatLE bs

def ofNatLE : Nat → Nat → List UInt8
  | 0,_ => []
  | w+1,n => UInt8.ofNat n::ofNatLE w (n/256)

@[simp] theorem length_ofNatLE (w n : Nat) : (ofNatLE w n).length=w := by
  induction w generalizing n with
  | zero => rfl
  | succ w ih => simp [ofNatLE,ih]

theorem toNatLE_ofNatLE (w n : Nat) : toNatLE (ofNatLE w n)=n%256^w := by
  induction w generalizing n with
  | zero => simp [ofNatLE,toNatLE,Nat.mod_one]
  | succ w ih =>
    have hb : (UInt8.ofNat n).toNat=n%256 := by simp
    rw [ofNatLE,toNatLE,ih,hb,pow_succ',Nat.mod_mul]

theorem toNatLE_lt (bs : List UInt8) : toNatLE bs < 256^bs.length := by
  induction bs with
  | nil => simp [toNatLE]
  | cons b bs ih =>
    have hb := b.toNat_lt
    rw [toNatLE,List.length_cons,pow_succ]
    omega

theorem toNatLE_append (as bs : List UInt8) :
    toNatLE (as++bs)=toNatLE as+256^as.length*toNatLE bs := by
  induction as with
  | nil => simp [toNatLE]
  | cons a as ih =>
    rw [List.cons_append,toNatLE,ih,toNatLE,List.length_cons,pow_succ]
    ring

/-- Writing a number back gives its bytes, and zeros where there are none. -/
theorem ofNatLE_toNatLE (bs : List UInt8) (k : Nat) :
    ofNatLE (bs.length+k) (toNatLE bs)=bs++List.replicate k 0 := by
  induction bs with
  | nil =>
    rw [List.length_nil,Nat.zero_add,toNatLE,List.nil_append]
    induction k with
    | zero => rfl
    | succ k ih => rw [ofNatLE,Nat.zero_div,ih,List.replicate_succ]; rfl
  | cons b bs ih =>
    have hb := b.toNat_lt
    have hdiv : (b.toNat+256*toNatLE bs)/256=toNatLE bs := by omega
    have hhead : UInt8.ofNat (b.toNat+256*toNatLE bs)=b := by
      apply UInt8.toNat_inj.mp
      simp
    rw [List.length_cons,Nat.add_right_comm,ofNatLE,toNatLE,hdiv,hhead,ih]
    rfl

/-- The digits from a position on. -/
theorem toNatLE_div (bs : List UInt8) (i : Nat) : toNatLE bs/256^i=toNatLE (bs.drop i) := by
  induction i generalizing bs with
  | zero => simp
  | succ i ih =>
    cases bs with
    | nil => simp [toNatLE]
    | cons b bs =>
      have hb := b.toNat_lt
      have hdiv : (b.toNat+256*toNatLE bs)/256=toNatLE bs := by omega
      rw [toNatLE,pow_succ',← Nat.div_div_eq_div_mul,hdiv,ih,List.drop_succ_cons]

theorem ofNat_toNatLE_head (bs : List UInt8) : UInt8.ofNat (toNatLE bs)=bs.headD 0 := by
  cases bs with
  | nil => rfl
  | cons b bs =>
    apply UInt8.toNat_inj.mp
    simp [toNatLE]

theorem getElem?_ofNatLE (w n i : Nat) :
    (ofNatLE w n)[i]?=if i < w then some (UInt8.ofNat (n/256^i)) else none := by
  induction w generalizing n i with
  | zero => simp [ofNatLE]
  | succ w ih =>
    cases i with
    | zero => simp [ofNatLE]
    | succ i =>
      rw [ofNatLE,List.getElem?_cons_succ,ih,Nat.div_div_eq_div_mul,← pow_succ']
      simp

theorem toNatLE_replicate_zero (k : Nat) : toNatLE (List.replicate k 0)=0 := by
  induction k with
  | zero => rfl
  | succ k ih => simp [List.replicate_succ,toNatLE,ih]

/-- Strings of one length are told apart by their numbers. -/
theorem toNatLE_inj {as bs : List UInt8} (h : as.length=bs.length) :
    toNatLE as=toNatLE bs ↔ as=bs := by
  have hback : ∀ cs,ofNatLE cs.length (toNatLE cs)=cs := by
    intro cs
    simpa using ofNatLE_toNatLE cs 0
  constructor
  · intro heq
    rw [← hback as,← hback bs,h,heq]
  · rintro rfl
    rfl

end Bytes
