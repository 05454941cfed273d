import Manchester.Framework.Bytes
import Manchester.Pipeline.InputModule

namespace Manchester.Os

theorem toNat_small {k : Nat} (hk : k < 2^63) : (BitVec.ofNat 64 k).toNat=k := by
  rw [BitVec.toNat_ofNat]
  omega

theorem toInt_small {k : Nat} (hk : k < 2^63) : (BitVec.ofNat 64 k).toInt=k := by
  rw [BitVec.toInt_eq_toNat_cond,toNat_small hk]
  omega

theorem ofNat_eq_iff {j k : Nat} (hj : j < 2^63) (hk : k < 2^63) :
    BitVec.ofNat 64 j=BitVec.ofNat 64 k ↔ j=k := by
  rw [← BitVec.toNat_inj,toNat_small hj,toNat_small hk]

theorem slt_small {j k : Nat} (hj : j < 2^63) (hk : k < 2^63) :
    (BitVec.ofNat 64 j).slt (BitVec.ofNat 64 k)=decide (j < k) := by
  rw [BitVec.slt,toInt_small hj,toInt_small hk]
  simp

theorem sle_small {j k : Nat} (hj : j < 2^63) (hk : k < 2^63) :
    (BitVec.ofNat 64 j).sle (BitVec.ofNat 64 k)=decide (j ≤ k) := by
  rw [BitVec.sle,toInt_small hj,toInt_small hk]
  simp

theorem beq_small {j k : Nat} (hj : j < 2^63) (hk : k < 2^63) :
    (BitVec.ofNat 64 j==BitVec.ofNat 64 k)=decide (j=k) := by
  rw [beq_eq_decide]
  exact decide_eq_decide.mpr (ofNat_eq_iff hj hk)

theorem ofNat_add_one (k : Nat) : BitVec.ofNat 64 k+1#64=BitVec.ofNat 64 (k+1) :=
  (BitVec.ofNat_add k 1).symm

theorem boolData_and (a b : Bool) : boolData a&&&boolData b=boolData (a && b) := by
  cases a <;> cases b <;> rfl

theorem boolData_or (a b : Bool) : boolData a|||boolData b=boolData (a || b) := by
  cases a <;> cases b <;> rfl

theorem boolData_bne_zero (a : Bool) : (boolData a != 0#64)=a := by
  cases a <;> rfl

/-- The byte at a position, the lowest first; there are zeros behind the word. -/
def byteAt (w : DataType) (i : Nat) : UInt8 := UInt8.ofNat (w.toNat/256^i)

def ofByte (b : UInt8) : DataType := BitVec.ofNat 64 b.toNat

def pack (bs : List UInt8) : DataType := BitVec.ofNat 64 (Bytes.toNatLE bs)

theorem toNat_pack {bs : List UInt8} (h : bs.length ≤ 8) :
    (pack bs).toNat=Bytes.toNatLE bs := by
  have hlt := Bytes.toNatLE_lt bs
  have hpow : 256^bs.length ≤ 256^8 := Nat.pow_le_pow_right (by decide) h
  rw [pack,BitVec.toNat_ofNat,Nat.mod_eq_of_lt (by omega)]

/-- Shifting down to a byte and cutting the rest off. -/
theorem shiftRight_and (w : DataType) (i : Nat) : (w >>> (8*i))&&&0xff#64=ofByte (byteAt w i) := by
  apply BitVec.eq_of_toNat_eq
  have hmask : (0xff#64).toNat=2^8-1 := by decide
  have hpow : 2^(8*i)=256^i := by rw [Nat.pow_mul]
  have hbyte : (byteAt w i).toNat=w.toNat/256^i%256 := by simp [byteAt]
  rw [BitVec.toNat_and,hmask,Nat.and_two_pow_sub_one_eq_mod,BitVec.toNat_ushiftRight,
    Nat.shiftRight_eq_div_pow,hpow,ofByte,toNat_small (by omega),hbyte]

theorem ofByte_eq_iff (a b : UInt8) : ofByte a=ofByte b ↔ a=b := by
  have ha := a.toNat_lt
  have hb := b.toNat_lt
  rw [ofByte,ofByte,ofNat_eq_iff (by omega) (by omega),UInt8.toNat_inj]

theorem ofByte_slt (a b : UInt8) : (ofByte a).slt (ofByte b)=decide (a < b) := by
  have ha := a.toNat_lt
  have hb := b.toNat_lt
  rw [ofByte,ofByte,slt_small (by omega) (by omega)]
  rfl

theorem byteAt_pack {bs : List UInt8} (h : bs.length ≤ 8) (i : Nat) :
    byteAt (pack bs) i=bs.getD i 0 := by
  rw [byteAt,toNat_pack h,Bytes.toNatLE_div,Bytes.ofNat_toNatLE_head]
  cases hget : bs[i]? with
  | none =>
    have hle := List.getElem?_eq_none_iff.mp hget
    rw [List.drop_eq_nil_of_le hle,List.getD_eq_getElem?_getD,hget]
    rfl
  | some b =>
    obtain ⟨hi,hb⟩ := List.getElem?_eq_some_iff.mp hget
    rw [List.drop_eq_getElem_cons hi,List.getD_eq_getElem?_getD,hget,hb]
    rfl

/-- The first `m` bytes of a word. -/
def firstBytes (w : DataType) (m : Nat) : List UInt8 := (List.range m).map (byteAt w)

theorem length_firstBytes (w : DataType) (m : Nat) : (firstBytes w m).length=m := by
  rw [firstBytes,List.length_map,List.length_range]

theorem firstBytes_succ (w : DataType) (m : Nat) :
    firstBytes w (m+1)=firstBytes w m++[byteAt w m] := by
  rw [firstBytes,firstBytes,List.range_succ,List.map_append,List.map_singleton]

theorem firstBytes_eq (w : DataType) (m : Nat) : firstBytes w m=Bytes.ofNatLE m w.toNat := by
  apply List.ext_getElem?
  intro i
  rw [Bytes.getElem?_ofNatLE,firstBytes,List.getElem?_map]
  split_ifs with hi
  · rw [List.getElem?_range hi]
    rfl
  · rw [List.getElem?_eq_none (by simpa using hi),Option.map_none]

theorem toNat_pack_firstBytes (w : DataType) {m : Nat} (hm : m ≤ 8) :
    (pack (firstBytes w m)).toNat=w.toNat%256^m := by
  rw [toNat_pack (by rwa [length_firstBytes]),firstBytes_eq,Bytes.toNatLE_ofNatLE]

theorem firstBytes_pack {bs : List UInt8} (h : bs.length ≤ 8) :
    firstBytes (pack bs) bs.length=bs := by
  apply List.ext_getElem
  · rw [length_firstBytes]
  · intro i _ hi
    simp only [firstBytes,List.getElem_map,List.getElem_range]
    rw [byteAt_pack h,List.getD_eq_getElem _ _ hi]

theorem pack_singleton (b : UInt8) : pack [b]=ofByte b := by
  simp [pack,ofByte,Bytes.toNatLE]

/-- Two strings are joined by shifting the second one behind the first one. -/
theorem pack_append {as bs : List UInt8} (h : as.length+bs.length ≤ 8) :
    pack as^^^(pack bs <<< (8*as.length))=pack (as++bs) := by
  have hlow := Bytes.toNatLE_lt as
  have hhigh := Bytes.toNatLE_lt (as++bs)
  have hpow : 256^(as++bs).length ≤ 256^8 := by
    rw [List.length_append]
    exact Nat.pow_le_pow_right (by decide) h
  have hbase : 2^(8*as.length)=256^as.length := by rw [Nat.pow_mul]
  rw [Bytes.toNatLE_append] at hhigh
  apply BitVec.eq_of_toNat_eq
  rw [BitVec.toNat_xor,BitVec.toNat_shiftLeft,toNat_pack (by omega),toNat_pack (by omega),
    toNat_pack (by rwa [List.length_append]),Bytes.toNatLE_append,Nat.shiftLeft_eq,hbase,
    Nat.mul_comm (Bytes.toNatLE bs),Nat.mod_eq_of_lt (by omega),Nat.xor_comm,← hbase,
    mul_two_pow_xor _ _ _ (by rwa [hbase]),Nat.add_comm]

theorem pack_snoc {bs : List UInt8} (h : bs.length < 8) (b : UInt8) :
    (ofByte b <<< (8*bs.length))^^^pack bs=pack (bs++[b]) := by
  rw [← pack_append (by rw [List.length_singleton]; omega),pack_singleton,BitVec.xor_comm]

theorem pack_cons {bs : List UInt8} (h : bs.length < 8) (b : UInt8) :
    ofByte b^^^(pack bs <<< 8)=pack (b::bs) := by
  have happend : (pack [b])^^^(pack bs <<< 8)=pack (b::bs) :=
    @pack_append [b] bs (by rw [List.length_singleton]; omega)
  rwa [pack_singleton] at happend

/-- Zeros at the end are not seen. -/
theorem pack_append_zeros (bs : List UInt8) (k : Nat) :
    pack (bs++List.replicate k 0)=pack bs := by
  rw [pack,Bytes.toNatLE_append,Bytes.toNatLE_replicate_zero,Nat.mul_zero,Nat.add_zero,pack]

def strLength (w : DataType) : Nat := (packedName w).length

theorem getElem?_bytes (w : DataType) (i : Nat) :
    (Bytes.ofNatLE 8 w.toNat)[i]?=if i < 8 then some (byteAt w i) else none :=
  Bytes.getElem?_ofNatLE 8 w.toNat i

theorem strLength_eq (w : DataType) :
    strLength w=(Bytes.ofNatLE 8 w.toNat).findIdx (! · != 0) := by
  rw [strLength,packedName,List.takeWhile_eq_take_findIdx_not,List.length_take]
  exact Nat.min_eq_left List.findIdx_le_length

theorem strLength_le (w : DataType) : strLength w ≤ 8 := by
  have hle := (@List.takeWhile_sublist _ (Bytes.ofNatLE 8 w.toNat) (· != 0)).length_le
  rwa [Bytes.length_ofNatLE] at hle

theorem byteAt_ne_zero {w : DataType} {i : Nat} (hi : i < strLength w) : byteAt w i ≠ 0 := by
  have hle := strLength_le w
  have hget := getElem?_bytes w i
  rw [if_pos (by omega)] at hget
  obtain ⟨hlt,hb⟩ := List.getElem?_eq_some_iff.mp hget
  rw [strLength_eq] at hi
  have hnot := List.not_of_lt_findIdx hi
  rw [hb] at hnot
  simpa using hnot

theorem byteAt_strLength {w : DataType} (h : strLength w < 8) : byteAt w (strLength w)=0 := by
  have hget := getElem?_bytes w (strLength w)
  rw [if_pos h] at hget
  obtain ⟨hlt,hb⟩ := List.getElem?_eq_some_iff.mp hget
  have hfound : (Bytes.ofNatLE 8 w.toNat).findIdx (! · != 0) <
      (Bytes.ofNatLE 8 w.toNat).length := by rwa [← strLength_eq]
  have hzero := @List.findIdx_getElem _ _ _ hfound
  simp only [← strLength_eq,hb] at hzero
  simpa using hzero

theorem bytes_pack {bs : List UInt8} (h : bs.length ≤ 8) :
    Bytes.ofNatLE 8 (pack bs).toNat=bs++List.replicate (8-bs.length) 0 := by
  have hrest := Bytes.ofNatLE_toNatLE bs (8-bs.length)
  rwa [Nat.add_sub_cancel' h,← toNat_pack h] at hrest

theorem strLength_pack {bs : List UInt8} (h : bs.length ≤ 8) (hne : 0∉bs) :
    strLength (pack bs)=bs.length := by
  have hall : ∀b∈bs,(b != 0)=true := by
    intro b hb
    rw [bne_iff_ne]
    rintro rfl
    exact hne hb
  rw [strLength,packedName,bytes_pack h,List.takeWhile_append_of_pos hall,List.takeWhile_replicate]
  simp

end Manchester.Os
