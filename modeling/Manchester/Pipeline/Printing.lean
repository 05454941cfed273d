import Manchester.Assembler.Emit
import Manchester.Pipeline.InputModule
import Manchester.Pipeline.IoSwitch

namespace Manchester

open Assembler (Name encode)

/-- Reading on to a zero byte stops inside the first piece, or just behind it, exactly when there
is a zero byte in it or the next one is zero. -/
theorem takeWhile_append_eq_iff (word rest : List UInt8) (b : UInt8) :
    (word++b::rest).takeWhile (· != 0)=word.takeWhile (· != 0) ↔ 0∈word ∨ b=0 := by
  induction word with
  | nil =>
    by_cases hb : b=0
    · simp [hb]
    · simp [hb]
  | cons a word ih =>
    by_cases ha : a=0
    · simp [ha]
    · have hne : (0 : UInt8) ≠ a := fun h => ha h.symm
      have hkeep : ∀ l,(a::l).takeWhile (· != 0)=a::l.takeWhile (· != 0) := by simp [ha]
      rw [List.cons_append,hkeep,hkeep,List.cons.injEq,and_iff_right rfl,ih,List.mem_cons,
        or_iff_right hne]

theorem printToken_outputs (behind : List UInt8) (data tag : BitVec 64) :
    printToken behind ⟨outputsDestination,data,tag⟩=
      some (.string ((tokenMemory behind ⟨outputsDestination,data,tag⟩).takeWhile (· != 0))) := by
  have hne : outputsDestination ≠ outputdDestination := by decide
  rw [printToken,if_neg hne,if_pos rfl]

/-- The bytes of the data are printed and no more: one of them is zero, or the lowest byte of the
tag is. -/
theorem printToken_data_iff (behind : List UInt8) (data tag : BitVec 64) :
    printToken behind ⟨outputsDestination,data,tag⟩=some (.string (packedName data)) ↔
      0∈Bytes.ofNatLE 8 data.toNat ∨ tag.toNat%256=0 := by
  have hlow : UInt8.ofNat tag.toNat=0 ↔ tag.toNat%256=0 := by
    rw [← UInt8.toNat_inj]
    simp
  have hmemory : tokenMemory behind ⟨outputsDestination,data,tag⟩=
      Bytes.ofNatLE 8 data.toNat++UInt8.ofNat tag.toNat::
        (Bytes.ofNatLE 7 (tag.toNat/256)++behind) := by
    rw [tokenMemory,List.append_assoc]
    rfl
  rw [printToken_outputs,hmemory,packedName,Option.some.injEq,Output.string.injEq,
    takeWhile_append_eq_iff,hlow]

/-- ASCII text without NUL. -/
def IsPlainText (piece : Name) : Prop := ∀c∈piece,0 < c.toNat ∧ c.toNat < 128

theorem mem_toChunks_go {α : Type} (n : Nat) (hn : 0 < n) (text xs : List α) (piece : Array α)
    (done : Array (List α)) (hxs : xs ⊆ text) (hpiece : piece.toList ⊆ text ∧ piece.size ≤ n)
    (hdone : ∀l∈done.toList,l ⊆ text ∧ l.length ≤ n) :
    ∀l∈List.toChunks.go n xs piece done,l ⊆ text ∧ l.length ≤ n := by
  induction xs generalizing piece done with
  | nil =>
    intro l hl
    rw [List.toChunks.go,Array.toList_push,List.mem_append,List.mem_singleton] at hl
    obtain hl | rfl := hl
    · exact hdone l hl
    · exact hpiece
  | cons x xs ih =>
    obtain ⟨hx,hxs⟩ := List.cons_subset.mp hxs
    rw [List.toChunks.go]
    split_ifs with hfull
    · apply ih _ _ hxs
      · simpa [hx] using Nat.succ_le_of_lt hn
      · intro l hl
        rw [Array.toList_push,List.mem_append,List.mem_singleton] at hl
        obtain hl | rfl := hl
        · exact hdone l hl
        · exact hpiece
    · apply ih _ _ hxs _ hdone
      have hne : piece.size ≠ n := by simpa using hfull
      rw [Array.toList_push,Array.size_push,List.append_subset]
      exact ⟨⟨hpiece.1,by simpa using hx⟩,by omega⟩

theorem mem_toChunks {α : Type} (n : Nat) (hn : 0 < n) (text : List α) :
    ∀l∈text.toChunks n,l ⊆ text ∧ l.length ≤ n := by
  intro l hl
  cases text with
  | nil => simp [List.toChunks] at hl
  | cons x xs =>
    rw [List.toChunks] at hl
    · exact mem_toChunks_go n hn (x::xs) xs #[x] #[] (List.subset_cons_self x xs)
        ⟨by simp,by simpa using Nat.succ_le_of_lt hn⟩ (by simp) l hl
    · omega

/-- The word that OUTS gets for a piece of a text. -/
def pieceWord (piece : Name) : DataType := BitVec.ofNat 64 (Bytes.toNatLE (encode piece))

theorem encode_ascii (piece : Name) (h : IsPlainText piece) :
    encode piece=piece.map fun c => UInt8.ofNat c.toNat := by
  induction piece with
  | nil => rfl
  | cons c piece ih =>
    obtain ⟨-,hlt⟩ := h c (by simp)
    have hsize : c.utf8Size=1 := by
      rw [Char.utf8Size_eq_one_iff,UInt32.le_iff_toNat_le]
      exact Nat.le_of_lt_succ hlt
    have hhead : String.utf8EncodeChar c=[UInt8.ofNat c.toNat] :=
      String.utf8EncodeChar_eq_singleton hsize
    have htail := ih fun d hd => h d (by simp [hd])
    rw [encode] at htail ⊢
    rw [List.flatMap_cons,hhead,htail]
    rfl

/-- The bytes of the word are those of the piece, and zeros. -/
theorem pieceWord_bytes (piece : Name) (h : IsPlainText piece) (hlen : piece.length ≤ 8) :
    Bytes.ofNatLE 8 (pieceWord piece).toNat=
      encode piece++List.replicate (8-piece.length) 0 := by
  have hbytes : (encode piece).length=piece.length := by
    rw [encode_ascii piece h,List.length_map]
  have hlt : Bytes.toNatLE (encode piece) < 2^64 := by
    calc
      Bytes.toNatLE (encode piece) < 256^(encode piece).length := Bytes.toNatLE_lt _
      _ ≤ 256^8 := Nat.pow_le_pow_right (by decide) (by omega)
      _ = 2^64 := rfl
  have hback := Bytes.ofNatLE_toNatLE (encode piece) (8-piece.length)
  rw [hbytes,Nat.add_sub_cancel' hlen] at hback
  rw [pieceWord,BitVec.toNat_ofNat,Nat.mod_eq_of_lt hlt,hback]

theorem not_mem_encode (piece : Name) (h : IsPlainText piece) : (0 : UInt8)∉encode piece := by
  rw [encode_ascii piece h,List.mem_map]
  rintro ⟨c,hc,hzero⟩
  obtain ⟨hpos,hlt⟩ := h c hc
  have hnat := congrArg UInt8.toNat hzero
  rw [UInt8.toNat_ofNat',UInt8.toNat_zero] at hnat
  omega

theorem packedName_pieceWord (piece : Name) (h : IsPlainText piece) (hlen : piece.length ≤ 8) :
    packedName (pieceWord piece)=encode piece := by
  have hall : ∀b∈encode piece,(fun x : UInt8 => x != 0) b=true := by
    intro b hb
    have hne : b ≠ 0 := fun hzero => not_mem_encode piece h (hzero ▸ hb)
    simp [hne]
  rw [packedName,pieceWord_bytes piece h hlen,List.takeWhile_append_of_pos hall]
  cases 8-piece.length with
  | zero => simp
  | succ k => simp [List.replicate_succ]

/-- The switch prints of a token for OUTS its data alone, whatever its tag, exactly when the data
has a zero byte or the lowest byte of the tag is zero. A piece of a text that is shorter than
eight characters is always printed as it is, one of eight only in the second case. -/
theorem outputs_print_data_iff (behind : List UInt8) :
    (∀ data tag,printToken behind ⟨outputsDestination,data,tag⟩=some (.string (packedName data)) ↔
      0∈Bytes.ofNatLE 8 data.toNat ∨ tag.toNat%256=0) ∧
    ∀ text piece tag,IsPlainText text → piece∈text.toChunks 8 →
      (printToken behind ⟨outputsDestination,pieceWord piece,tag⟩=some (.string (encode piece)) ↔
        piece.length < 8 ∨ tag.toNat%256=0) := by
  refine ⟨printToken_data_iff behind,?_⟩
  intro text piece tag htext hpiece
  obtain ⟨hsubset,hlen⟩ := mem_toChunks 8 (by decide) text piece hpiece
  have h : IsPlainText piece := fun c hc => htext c (hsubset hc)
  rw [← packedName_pieceWord piece h hlen,printToken_data_iff,pieceWord_bytes piece h hlen,
    List.mem_append,or_iff_right (not_mem_encode piece h),List.mem_replicate,and_iff_left rfl]
  refine or_congr_left ?_
  omega

theorem outputs_print_data_short :
    printToken [1] ⟨outputsDestination,pieceWord "ab".toList,0x500000001⟩=
      some (.string (encode "ab".toList)) := by
  have htext : IsPlainText "ab".toList := by
    intro c hc
    have hchars : c∈['a','b'] := by simpa using hc
    simp only [List.mem_cons,List.not_mem_nil,or_false] at hchars
    obtain rfl | rfl := hchars <;> decide
  exact ((outputs_print_data_iff [1]).2 "ab".toList "ab".toList 0x500000001 htext
    (by decide +kernel)).mpr (by decide +kernel)

/-- The tag of the first round of a loop. -/
theorem outputs_print_tag :
    printToken [] ⟨outputsDestination,pieceWord "abcdefgh".toList,1⟩ ≠
      some (.string (packedName (pieceWord "abcdefgh".toList))) := by
  decide +kernel

end Manchester
