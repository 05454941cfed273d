import Manchester.Strip.Rename

namespace Manchester.Strip

open Interning

def numExternal (content : List UInt8) : Nat := (readHeader content).numExternalRef.toNat
def numExported (content : List UInt8) : Nat := (readHeader content).numExported.toNat

-- The 256 bytes of a name, and the name as the loader reads it.

def externalField (content : List UInt8) (k : Nat) : List UInt8 :=
  Bytes.slice content (startExternal content+externalSize*k+8) 256
def exportField (content : List UInt8) (l : Nat) : List UInt8 :=
  Bytes.slice content (startExported content+exportSize*l+4) 256

def externalName (content : List UInt8) (k : Nat) : List UInt8 :=
  readName content (startExternal content+externalSize*k+8)
def exportName (content : List UInt8) (l : Nat) : List UInt8 :=
  readName content (startExported content+exportSize*l+4)

def fieldName (field : List UInt8) : List UInt8 := (field.take 255).takeWhile (· != 0)

theorem readName_eq (content : List UInt8) (off : Nat) :
    readName content off=fieldName (Bytes.slice content off 256) := by
  rw [readName,fieldName,Bytes.slice,Bytes.slice,List.take_take]
  rfl

theorem externalName_eq (content : List UInt8) (k : Nat) :
    externalName content k=fieldName (externalField content k) := readName_eq _ _

theorem exportName_eq (content : List UInt8) (l : Nat) :
    exportName content l=fieldName (exportField content l) := readName_eq _ _

/-- The names are those that the loader finds in the tables. -/
theorem parseSephi_names (content : List UInt8) (sephi : Sephi)
    (h : parseSephi content=some sephi) :
    sephi.externalReferences.map ExternalReference.name=
        (List.range (numExternal content)).map (externalName content) ∧
      sephi.exports.map ExportSymbol.name=
        (List.range (numExported content)).map (exportName content) := by
  simp only [parseSephi] at h
  split_ifs at h with hsmall hmagic htables hrest
  obtain rfl := Option.some.inj h
  have hstart : startExternal content=sephiHeaderSize+
      destinationToUpdateSize*(readHeader content).numConstant.toNat+
        destinationToUpdateSize*(readHeader content).numToFix.toNat := by
    rw [startExternal,Nat.mul_comm _ destinationToUpdateSize,Nat.mul_comm _ destinationToUpdateSize]
    rfl
  have hexported : startExported content=startExternal content+
      externalReferenceSize*(readHeader content).numExternalRef.toNat := by
    rw [startExported,Nat.mul_comm]
    rfl
  constructor
  · rw [← hstart]
    simp only [readTable,List.map_map]
    rfl
  · rw [← hstart,← hexported]
    simp only [readTable,List.map_map]
    rfl

@[simp] theorem packName_length (name : List UInt8) : (packName name).length=256 := by
  simp only [packName,List.length_append,List.length_take,List.length_replicate]
  omega

theorem packName_of_length (name : List UInt8) (h : name.length=256) : packName name=name := by
  rw [packName,h,List.take_of_length_le (by omega)]
  simp

/-- A short name without zeros is read back. -/
theorem fieldName_packName (name : List UInt8) (hlength : name.length ≤ 255)
    (hzero : ∀b∈name,b ≠ 0) : fieldName (packName name)=name := by
  have hcut : name.take 256=name := List.take_of_length_le (by omega)
  have htake : (packName name).take 255=name++List.replicate (255-name.length) 0 := by
    rw [packName,hcut,List.take_append,List.take_of_length_le hlength,List.take_replicate]
    congr 2
    omega
  have hall : ∀b∈name,(b != 0)=true := fun b hb => by simpa using hzero b hb
  rw [fieldName,htake,List.takeWhile_append_of_pos hall]
  cases 255-name.length <;> simp

section Layout

variable {content : List UInt8} (c : List UInt8 → List UInt8)

theorem externals_length : (externals content).length=numExternal content := by
  simp [externals,numExternal]

theorem exports_length : (exports content).length=numExported content := by
  simp [exports,numExported]

theorem slice_length (content : List UInt8) (off len : Nat) (h : off+len ≤ content.length) :
    (Bytes.slice content off len).length=len := by
  rw [Bytes.slice,List.length_take,List.length_drop]
  omega

theorem external_fits {k : Nat} (hk : k < numExternal content) :
    startExternal content+externalSize*k+externalSize ≤ startExported content := by
  rw [numExternal] at hk
  rw [startExported]
  simp only [externalSize]
  omega

theorem export_fits {l : Nat} (hl : l < numExported content) :
    startExported content+exportSize*l+exportSize ≤ endExported content := by
  rw [numExported] at hl
  rw [endExported]
  simp only [exportSize]
  omega

theorem startExported_le (content : List UInt8) :
    startExported content ≤ endExported content := Nat.le_add_right _ _

theorem startExternal_le (content : List UInt8) :
    startExternal content ≤ startExported content := Nat.le_add_right _ _

theorem renameExternal_length (h : WellFormed content) :
    ∀e∈externals content,(renameExternal c e).length=externalSize := by
  intro e he
  obtain ⟨k,hk,rfl⟩ := List.mem_map.mp he
  have hfits := external_fits (List.mem_range.mp hk)
  have hend : startExported content ≤ content.length := Nat.le_trans (startExported_le content) h
  have hlength := slice_length content (startExternal content+externalSize*k)
    externalSize (by omega)
  rw [renameExternal,packExternal,List.length_append,List.length_append,packName_length,
    List.length_take,hlength]
  rfl

theorem renameExport_length (h : WellFormed content) :
    ∀e∈exports content,(renameExport c e).length=exportSize := by
  intro e he
  obtain ⟨l,hl,rfl⟩ := List.mem_map.mp he
  have hfits := export_fits (List.mem_range.mp hl)
  have hlength := slice_length content (startExported content+exportSize*l)
    exportSize (Nat.le_trans hfits h)
  rw [renameExport,packExport,List.length_append,packName_length,List.length_take,hlength]
  rfl

/-- The parts of a renamed file have the sizes of those of the file. -/
theorem rename_parts (h : WellFormed content) :
    (content.take (startExternal content)).length=startExternal content ∧
      ((externals content).flatMap (renameExternal c)).length=
        startExported content-startExternal content ∧
      ((exports content).flatMap (renameExport c)).length=
        endExported content-startExported content := by
  have hend : endExported content ≤ content.length := h
  have hle1 := startExternal_le content
  have hle2 := startExported_le content
  refine ⟨?_,?_,?_⟩
  · rw [List.length_take]
    omega
  · rw [Bytes.length_flatMap _ _ _ (renameExternal_length c h),externals_length,startExported,
      Nat.add_sub_cancel_left,Nat.mul_comm]
    rfl
  · rw [Bytes.length_flatMap _ _ _ (renameExport_length c h),exports_length,endExported,
      Nat.add_sub_cancel_left,Nat.mul_comm]
    rfl

theorem rename_length (h : WellFormed content) : (rename c content).length=content.length := by
  obtain ⟨h1,h2,h3⟩ := rename_parts c h
  have hend : endExported content ≤ content.length := h
  have hle1 := startExternal_le content
  have hle2 := startExported_le content
  rw [rename,List.length_append,List.length_append,List.length_append,h1,h2,h3,List.length_drop]
  omega

theorem slice_rename_head (h : WellFormed content) (off len : Nat)
    (hfits : off+len ≤ startExternal content) :
    Bytes.slice (rename c content) off len=Bytes.slice content off len := by
  obtain ⟨h1,-,-⟩ := rename_parts c h
  rw [rename,List.append_assoc,List.append_assoc,Bytes.slice_append_left _ _ _ _ (by omega)]
  conv_rhs => rw [← List.take_append_drop (startExternal content) content]
  rw [Bytes.slice_append_left _ _ _ _ (by omega)]

theorem slice_rename_external (h : WellFormed content) {k : Nat} (hk : k < numExternal content) :
    Bytes.slice (rename c content) (startExternal content+externalSize*k) externalSize=
      renameExternal c
        (Bytes.slice content (startExternal content+externalSize*k) externalSize) := by
  obtain ⟨h1,h2,-⟩ := rename_parts c h
  have hfits := external_fits hk
  have hskip := Bytes.slice_append_right (content.take (startExternal content))
    ((externals content).flatMap (renameExternal c)++((exports content).flatMap (renameExport c)++
      content.drop (endExported content))) (externalSize*k) externalSize
  rw [h1] at hskip
  rw [rename,List.append_assoc,List.append_assoc,hskip,Bytes.slice_append_left _ _ _ _ (by omega),
    Bytes.slice_flatMap _ _ _ (renameExternal_length c h) k (by rw [externals_length]; exact hk)]
  simp [externals]

theorem slice_rename_export (h : WellFormed content) {l : Nat} (hl : l < numExported content) :
    Bytes.slice (rename c content) (startExported content+exportSize*l) exportSize=
      renameExport c (Bytes.slice content (startExported content+exportSize*l) exportSize) := by
  obtain ⟨h1,h2,h3⟩ := rename_parts c h
  have hfits := export_fits hl
  have hle := startExternal_le content
  have hskip := Bytes.slice_append_right (content.take (startExternal content)++
    (externals content).flatMap (renameExternal c)) ((exports content).flatMap (renameExport c)++
      content.drop (endExported content)) (exportSize*l) exportSize
  rw [List.length_append,h1,h2,Nat.add_sub_cancel' hle] at hskip
  rw [rename,List.append_assoc (content.take (startExternal content)++_),hskip,
    Bytes.slice_append_left _ _ _ _ (by omega),
    Bytes.slice_flatMap _ _ _ (renameExport_length c h) l (by rw [exports_length]; exact hl)]
  simp [exports]

theorem getElem?_rename_tail (h : WellFormed content) (p : Nat) (hp : endExported content ≤ p) :
    (rename c content)[p]?=content[p]? := by
  obtain ⟨h1,h2,h3⟩ := rename_parts c h
  have hle1 := startExternal_le content
  have hle2 := startExported_le content
  obtain ⟨q,rfl⟩ := Nat.exists_eq_add_of_le hp
  have hlength : (content.take (startExternal content)++
      (externals content).flatMap (renameExternal c)++
        (exports content).flatMap (renameExport c)).length=endExported content := by
    rw [List.length_append,List.length_append,h1,h2,h3]
    omega
  rw [rename,List.getElem?_append_right (by omega),hlength,Nat.add_sub_cancel_left,
    List.getElem?_drop]

theorem readHeader_rename (h : WellFormed content) :
    readHeader (rename c content)=readHeader content := by
  have hhead : ∀ off len,off+len ≤ 16 →
      Bytes.slice (rename c content) off len=Bytes.slice content off len := by
    intro off len hfits
    apply slice_rename_head c h
    rw [startExternal,headerSize]
    omega
  simp only [readHeader,readWord,hhead 0 8 (by decide),hhead 8 (16/8) (by decide),
    hhead 10 (16/8) (by decide),hhead 12 (16/8) (by decide),hhead 14 (16/8) (by decide)]

/-- The tables of a renamed file are where they were. -/
theorem rename_offsets (h : WellFormed content) :
    startExternal (rename c content)=startExternal content ∧
      startExported (rename c content)=startExported content ∧
      endExported (rename c content)=endExported content ∧
      numExternal (rename c content)=numExternal content ∧
      numExported (rename c content)=numExported content := by
  have hheader := readHeader_rename c h
  simp only [endExported,startExported,startExternal,numExternal,numExported,hheader,and_self]

theorem drop_external (k : Nat) :
    (Bytes.slice content (startExternal content+externalSize*k) externalSize).drop 8=
      externalField content k := Bytes.drop_slice _ _ 8 256

theorem drop_export (l : Nat) :
    (Bytes.slice content (startExported content+exportSize*l) exportSize).drop 4=
      exportField content l := Bytes.drop_slice _ _ 4 256

theorem drop_packName (head name : List UInt8) (n : Nat) (h : head.length=n) :
    (head++packName name).drop n=packName name := by
  rw [← h,List.drop_left]

/-- A reference of the renamed file has the new name of its old one. -/
theorem externalField_rename (h : WellFormed content) {k : Nat} (hk : k < numExternal content) :
    externalField (rename c content) k=packName (c (externalField content k)) := by
  have hfits := external_fits hk
  have hend : startExported content ≤ content.length := Nat.le_trans (startExported_le content) h
  have hlength := slice_length content (startExternal content+externalSize*k)
    externalSize (by omega)
  have hhead : ((Bytes.slice content (startExternal content+externalSize*k) externalSize).take 5++
      [0,0,0]).length=8 := by
    rw [List.length_append,List.length_take,hlength]
    rfl
  rw [← drop_external,(rename_offsets c h).1,slice_rename_external c h hk,renameExternal,
    packExternal,drop_external,drop_packName _ _ _ hhead]

/-- An export of the renamed file has its old name, if main is called by it, and otherwise the
new name of its old one. -/
theorem exportField_rename (h : WellFormed content) {l : Nat} (hl : l < numExported content) :
    exportField (rename c content) l=
      if isMain (exportField content l) then exportField content l
      else packName (c (exportField content l)) := by
  have hfits := export_fits hl
  have hlength := slice_length content (startExported content+exportSize*l)
    exportSize (Nat.le_trans hfits h)
  have hhead : ((Bytes.slice content (startExported content+exportSize*l) exportSize).take
      4).length=4 := by
    rw [List.length_take,hlength]
    rfl
  have hfield : (exportField content l).length=256 := by
    rw [← drop_export,List.length_drop,hlength]
    rfl
  rw [← drop_export,(rename_offsets c h).2.1,slice_rename_export c h hl,renameExport,packExport,
    drop_export,drop_packName _ _ _ hhead]
  split_ifs
  · exact packName_of_length _ hfield
  · rfl

/-- The byte is in the field of a name. -/
def IsNameByte (content : List UInt8) (p : Nat) : Prop :=
  (∃ k < numExternal content,startExternal content+externalSize*k+8 ≤ p ∧
      p < startExternal content+externalSize*k+externalSize) ∨
    ∃ l < numExported content,startExported content+exportSize*l+4 ≤ p ∧
      p < startExported content+exportSize*l+exportSize

/-- The three bytes behind the flags of a reference. -/
def padding (content : List UInt8) (k : Nat) : List UInt8 :=
  Bytes.slice content (startExternal content+externalSize*k+5) 3

theorem external_head_iff (h : WellFormed content) {k : Nat} (hk : k < numExternal content) :
    Bytes.slice (rename c content) (startExternal content+externalSize*k) 8=
        Bytes.slice content (startExternal content+externalSize*k) 8 ↔
      padding content k=[0,0,0] := by
  have hfits := external_fits hk
  have hend : startExported content ≤ content.length := Nat.le_trans (startExported_le content) h
  have hlength := slice_length content (startExternal content+externalSize*k) 5
    (by simp only [externalSize] at hfits ⊢; omega)
  have htake : (Bytes.slice content (startExternal content+externalSize*k) externalSize).take 5=
      Bytes.slice content (startExternal content+externalSize*k) 5 := by
    rw [Bytes.slice,List.take_take]
    rfl
  have hnew : Bytes.slice (rename c content) (startExternal content+externalSize*k) 8=
      Bytes.slice content (startExternal content+externalSize*k) 5++[0,0,0] := by
    have hslice := Bytes.slice_slice (rename c content) (startExternal content+externalSize*k)
      externalSize 0 8 (by decide)
    rw [Nat.add_zero] at hslice
    rw [← hslice,slice_rename_external c h hk,renameExternal,packExternal,htake,
      Bytes.slice_append_left _ _ _ _ (by rw [List.length_append,hlength]; rfl),Bytes.slice,
      List.drop_zero,List.take_of_length_le (by rw [List.length_append,hlength]; rfl)]
  rw [hnew,Bytes.slice_add content _ 5 3,List.append_cancel_left_eq]
  exact eq_comm

theorem export_head (h : WellFormed content) {l : Nat} (hl : l < numExported content) :
    Bytes.slice (rename c content) (startExported content+exportSize*l) 4=
      Bytes.slice content (startExported content+exportSize*l) 4 := by
  have hfits := export_fits hl
  have hend : endExported content ≤ content.length := h
  have hlength := slice_length content (startExported content+exportSize*l) 4
    (by simp only [exportSize] at hfits ⊢; omega)
  have htake : (Bytes.slice content (startExported content+exportSize*l) exportSize).take 4=
      Bytes.slice content (startExported content+exportSize*l) 4 := by
    rw [Bytes.slice,List.take_take]
    rfl
  have hslice := Bytes.slice_slice (rename c content) (startExported content+exportSize*l)
    exportSize 0 4 (by decide)
  rw [Nat.add_zero] at hslice
  rw [← hslice,slice_rename_export c h hl,renameExport,packExport,htake,
    Bytes.slice_append_left _ _ _ _ (by rw [hlength]),Bytes.slice,List.drop_zero,
    List.take_of_length_le (by rw [hlength])]

/-- A renamed file differs only in its names exactly when its references are padded with zeros. -/
theorem rename_bytes_iff (h : WellFormed content) :
    (∀ p,¬IsNameByte content p → (rename c content)[p]?=content[p]?) ↔
      ∀ k < numExternal content,padding content k=[0,0,0] := by
  constructor
  · intro hbytes k hk
    rw [← external_head_iff c h hk,Bytes.slice_eq_iff]
    intro i hi
    apply hbytes
    have hfits := external_fits hk
    rintro (⟨k',-,hlow,hhigh⟩ | ⟨l,-,hlow,-⟩)
    · simp only [externalSize] at hlow hhigh
      omega
    · simp only [externalSize] at hfits hlow
      omega
  · intro hpadding p hp
    by_cases hhead : p < startExternal content
    · have hslice := slice_rename_head c h p 1 (by omega)
      exact (Bytes.slice_eq_iff _ _ p 1).mp hslice 0 (by decide)
    by_cases hexternal : p < startExported content
    · -- the record that the byte is in, and its place there
      obtain ⟨q,hq⟩ := Nat.exists_eq_add_of_le (Nat.le_of_not_lt hhead)
      have hdiv := Nat.div_add_mod q externalSize
      have hmod := Nat.mod_lt q (show 0 < externalSize by decide)
      have hk : q/externalSize < numExternal content := by
        rw [startExported,hq] at hexternal
        rw [numExternal]
        exact Nat.div_lt_of_lt_mul (by rw [Nat.mul_comm]; omega)
      have hlow : q%externalSize < 8 := by
        by_contra hname
        exact hp (.inl ⟨_,hk,by omega,by omega⟩)
      have hslice := (external_head_iff c h hk).mpr (hpadding _ hk)
      have hbyte := (Bytes.slice_eq_iff _ _ _ _).mp hslice (q%externalSize) hlow
      rwa [Nat.add_assoc,hdiv,← hq] at hbyte
    by_cases hexport : p < endExported content
    · obtain ⟨q,hq⟩ := Nat.exists_eq_add_of_le (Nat.le_of_not_lt hexternal)
      have hdiv := Nat.div_add_mod q exportSize
      have hmod := Nat.mod_lt q (show 0 < exportSize by decide)
      have hl : q/exportSize < numExported content := by
        rw [endExported,hq] at hexport
        rw [numExported]
        exact Nat.div_lt_of_lt_mul (by rw [Nat.mul_comm]; omega)
      have hlow : q%exportSize < 4 := by
        by_contra hname
        exact hp (.inr ⟨_,hl,by omega,by omega⟩)
      have hbyte := (Bytes.slice_eq_iff _ _ _ _).mp (export_head c h hl) (q%exportSize) hlow
      rwa [Nat.add_assoc,hdiv,← hq] at hbyte
    · exact getElem?_rename_tail c h p (Nat.le_of_not_lt hexport)

end Layout

theorem counterName_digit (i : Nat) : ∀b∈counterName i,48 ≤ b.toNat ∧ b.toNat ≤ 57 := by
  intro b hb
  obtain ⟨c,hc,rfl⟩ := List.mem_map.mp hb
  have hdigit := Nat.isDigit_of_mem_toDigits (by decide) (by decide) hc
  simp only [Char.isDigit,Bool.and_eq_true,decide_eq_true_eq] at hdigit
  have hlow : 48 ≤ c.toNat := hdigit.1
  have hhigh : c.toNat ≤ 57 := hdigit.2
  rw [UInt8.toNat_ofNat']
  omega

theorem counterName_injective : Function.Injective counterName := by
  have hback : ∀ i,(counterName i).map (fun b => Char.ofNat b.toNat)=Nat.toDigits 10 i := by
    intro i
    rw [counterName,List.map_map]
    conv_rhs => rw [← List.map_id (Nat.toDigits 10 i)]
    apply List.map_congr_left
    intro c hc
    have hbyte := counterName_digit i _ (List.mem_map_of_mem hc)
    have hdigit := Nat.isDigit_of_mem_toDigits (by decide) (by decide) hc
    simp only [Char.isDigit,Bool.and_eq_true,decide_eq_true_eq] at hdigit
    have hhigh : c.toNat ≤ 57 := hdigit.2
    have hword : (UInt8.ofNat c.toNat).toNat=c.toNat := by
      rw [UInt8.toNat_ofNat']
      omega
    show Char.ofNat (UInt8.ofNat c.toNat).toNat=c
    rw [hword,Char.ofNat_toNat]
  intro i j h
  have hdigits := (hback i).symm.trans ((congrArg _ h).trans (hback j))
  rw [← Nat.ofDigitChars_ten_toDigits (n := i),hdigits,Nat.ofDigitChars_ten_toDigits]

theorem counterName_length (i : Nat) (h : i < 10^255) : (counterName i).length ≤ 255 := by
  rw [counterName,List.length_map]
  exact (Nat.length_toDigits_le_iff (by decide) (by decide)).mpr h

/-- A number that fits is read back from its field. -/
theorem fieldName_counterName (i : Nat) (h : i < 10^255) :
    fieldName (packName (counterName i))=counterName i := by
  apply fieldName_packName _ (counterName_length i h)
  rintro b hb rfl
  exact absurd (counterName_digit i 0 hb).1 (by decide)

/-- The names of main start with an underscore, so that no number is one. -/
theorem isMain_head (field : List UInt8) (h : isMain field=true) :
    ∃ rest,field=0x5f::rest := by
  simp only [isMain,Bool.or_eq_true,List.isPrefixOf_iff_prefix] at h
  have harg : mainArgName=0x5f::mainArgName.tail := by decide
  have hreturn : mainReturnName=0x5f::mainReturnName.tail := by decide
  obtain ⟨rest,rfl⟩ | ⟨rest,rfl⟩ := h
  · rw [harg]
    exact ⟨_,rfl⟩
  · rw [hreturn]
    exact ⟨_,rfl⟩

theorem counterName_ne_main (i : Nat) (field : List UInt8) (h : isMain field=true) :
    counterName i ≠ fieldName field := by
  obtain ⟨rest,rfl⟩ := isMain_head field h
  have hhead : fieldName (0x5f::rest)=0x5f::(rest.take 254).takeWhile (· != 0) := by
    rw [fieldName,List.take_succ_cons,List.takeWhile_cons_of_pos (by decide)]
  rw [hhead]
  intro heq
  have hdigit := counterName_digit i 0x5f (by rw [heq]; exact List.mem_cons_self)
  exact absurd hdigit.2 (by decide)

/-- A field with one of the names of main is left alone. -/
theorem isMain_of_fieldName (field : List UInt8)
    (h : fieldName field=mainArgName ∨ fieldName field=mainReturnName) : isMain field=true := by
  have hext : fieldName field <+: field :=
    (List.takeWhile_prefix _).trans (List.take_prefix _ _)
  rw [isMain,Bool.or_eq_true,List.isPrefixOf_iff_prefix,List.isPrefixOf_iff_prefix]
  obtain h | h := h
  · exact .inl (h ▸ hext)
  · exact .inr (h ▸ hext)

/-- What the stripper keeps: which references and exports have one name, the names by which main
is called, and all bytes that are not in the field of a name. -/
structure PreservesLinking (files stripped : List (List UInt8)) : Prop where
  count : stripped.length=files.length
  names : ∀ (i j : Nat) (f g f' g' : List UInt8),files[i]?=some f → files[j]?=some g →
    stripped[i]?=some f' → stripped[j]?=some g' → ∀ k < numExternal f,∀ l < numExported g,
      (externalName f' k=exportName g' l ↔ externalName f k=exportName g l)
  main : ∀ (i : Nat) (f f' : List UInt8),files[i]?=some f → stripped[i]?=some f' →
    ∀ l < numExported f,exportName f l=mainArgName ∨ exportName f l=mainReturnName →
      exportName f' l=exportName f l
  bytes : ∀ (i : Nat) (f f' : List UInt8),files[i]?=some f → stripped[i]?=some f' →
    f'.length=f.length ∧ ∀ p,¬IsNameByte f p → f'[p]?=f[p]?

/-- A reference and an export with one name have it in the same 256 bytes, and main is not called
by it; the bytes between the flags and the name of a reference are zeros. -/
structure Strippable (files : List (List UInt8)) : Prop where
  names : ∀f∈files,∀g∈files,∀ k < numExternal f,∀ l < numExported g,
    externalName f k=exportName g l →
      isMain (exportField g l)=false ∧ externalField f k=exportField g l
  padding : ∀f∈files,∀ k < numExternal f,padding f k=[0,0,0]

theorem externalField_mem_asks (content : List UInt8) {k : Nat} (hk : k < numExternal content) :
    externalField content k∈asks content := by
  apply List.mem_append_left
  refine List.mem_flatMap.mpr ⟨_,List.mem_map_of_mem (List.mem_range.mpr hk),?_⟩
  rw [asksExternal,drop_external]
  exact List.mem_singleton_self _

theorem exportField_mem_asks (content : List UInt8) {l : Nat} (hl : l < numExported content)
    (hmain : isMain (exportField content l)=false) : exportField content l∈asks content := by
  apply List.mem_append_right
  refine List.mem_flatMap.mpr ⟨_,List.mem_map_of_mem (List.mem_range.mpr hl),?_⟩
  rw [asksExport,drop_export,hmain]
  exact List.mem_singleton_self _

theorem asks_length (content : List UInt8) : (asks content).length < 2^17 := by
  have hexternal := (readHeader content).numExternalRef.isLt
  have hexported := (readHeader content).numExported.isLt
  have hone : ((externals content).flatMap asksExternal).length=numExternal content := by
    rw [← externals_length,Bytes.length_flatMap asksExternal 1 _ (fun _ _ => rfl),Nat.one_mul]
  have htwo : ((exports content).flatMap asksExport).length ≤ numExported content := by
    rw [← exports_length,List.length_flatMap]
    have hle : ∀ l : List (List UInt8),(l.map fun e => (asksExport e).length).sum ≤ l.length := by
      intro l
      induction l with
      | nil => simp
      | cons e l ih =>
        have he : (asksExport e).length ≤ 1 := by
          rw [asksExport]
          split_ifs <;> simp
        simp only [List.map_cons,List.sum_cons,List.length_cons]
        omega
    exact hle _
  rw [asks,List.length_append,hone]
  rw [numExternal]
  rw [numExported] at htwo
  omega

theorem asks_length_files (files : List (List UInt8)) :
    (files.flatMap asks).length ≤ files.length*2^17 := by
  induction files with
  | nil => simp
  | cons f files ih =>
    have hf := asks_length f
    rw [List.flatMap_cons,List.length_append,List.length_cons]
    omega

section Keys

variable {keys : List (List UInt8)}

theorem numbering_read (hcount : keys.length ≤ 10^255) {field : List UInt8} (hmem : field∈keys) :
    fieldName (packName (numbering counterName keys field))=numbering counterName keys field := by
  obtain ⟨i,hi,hname⟩ := numbering_of_mem counterName hmem
  rw [hname]
  exact fieldName_counterName i (Nat.lt_of_lt_of_le hi hcount)

/-- The names of a reference and of an export after the renaming. -/
theorem names_rename_iff (hcount : keys.length ≤ 10^255) {f g : List UInt8}
    (hf : WellFormed f) (hg : WellFormed g) (hfkeys : asks f ⊆ keys) (hgkeys : asks g ⊆ keys)
    {k l : Nat} (hk : k < numExternal f)
    (hl : l < numExported g) :
    externalName (rename (numbering counterName keys) f) k=
        exportName (rename (numbering counterName keys) g) l ↔
      isMain (exportField g l)=false ∧ externalField f k=exportField g l := by
  have hkey := hfkeys (externalField_mem_asks f hk)
  rw [externalName_eq,exportName_eq,externalField_rename _ hf hk,exportField_rename _ hg hl,
    numbering_read hcount hkey]
  cases hmain : isMain (exportField g l) with
  | true =>
    rw [if_pos rfl]
    constructor
    · exact fun h => absurd h (counterName_ne_main _ _ hmain)
    · exact fun h => absurd h.1 (by decide)
  | false =>
    have hlkey := hgkeys (exportField_mem_asks g hl hmain)
    rw [if_neg (by decide),numbering_read hcount hlkey,
      numbering_inj counterName (fun i _ j _ h => counterName_injective h) hkey hlkey]
    exact (and_iff_right rfl).symm

end Keys

theorem exportName_rename_main (c : List UInt8 → List UInt8) {f : List UInt8} (h : WellFormed f)
    {l : Nat} (hl : l < numExported f)
    (hname : exportName f l=mainArgName ∨ exportName f l=mainReturnName) :
    exportName (rename c f) l=exportName f l := by
  rw [exportName_eq] at hname
  rw [exportName_eq,exportName_eq,exportField_rename c h hl,
    if_pos (isMain_of_fieldName _ hname)]

/-- The stripper preserves the linking of SEPHI files exactly when they are strippable. -/
theorem strip_preserves_iff (files : List (List UInt8)) (hsephi : ∀f∈files,(parseSephi f).isSome)
    (hcount : files.length < 2^63) :
    (∃ stripped,strip files=some stripped ∧ PreservesLinking files stripped) ↔
      Strippable files := by
  have hwell : ∀f∈files,WellFormed f := fun f hf => wellFormed_of_parse f (hsephi f hf)
  obtain ⟨keys,hlength,hkeys,-,hstrip⟩ := strip_renames files hwell
  have hsmall : keys.length ≤ 10^255 := by
    have hall := asks_length_files files
    calc
      keys.length ≤ files.length*2^17 := Nat.le_trans hlength hall
      _ ≤ 2^63*2^17 := Nat.mul_le_mul_right _ (Nat.le_of_lt hcount)
      _ ≤ 10^255 := by norm_num
  have hget : ∀ (i : Nat) (f' : List UInt8),
      (files.map (rename (numbering counterName keys)))[i]?=some f' →
        ∀ f,files[i]?=some f → f'=rename (numbering counterName keys) f := by
    intro i f' hf' f hf
    rw [List.getElem?_map,hf] at hf'
    exact (Option.some.inj hf').symm
  have hnames := fun f (hf : f∈files) g (hg : g∈files) k (hk : k < numExternal f) l
      (hl : l < numExported g) => names_rename_iff hsmall (hwell f hf) (hwell g hg) (hkeys f hf)
        (hkeys g hg) hk hl
  constructor
  · rintro ⟨stripped,hout,hpreserves⟩
    obtain rfl := Option.some.inj (hstrip.symm.trans hout)
    constructor
    · intro f hf g hg k hk l hl hname
      obtain ⟨i,hi⟩ := List.mem_iff_getElem?.mp hf
      obtain ⟨j,hj⟩ := List.mem_iff_getElem?.mp hg
      have hkept := hpreserves.names i j f g _ _ hi hj (by rw [List.getElem?_map,hi]; rfl)
        (by rw [List.getElem?_map,hj]; rfl) k hk l hl
      exact (hnames f hf g hg k hk l hl).mp (hkept.mpr hname)
    · intro f hf k hk
      obtain ⟨i,hi⟩ := List.mem_iff_getElem?.mp hf
      have hbytes := (hpreserves.bytes i f _ hi (by rw [List.getElem?_map,hi]; rfl)).2
      exact (rename_bytes_iff _ (hwell f hf)).mp hbytes k hk
  · intro hstrippable
    refine ⟨_,hstrip,List.length_map _,?_,?_,?_⟩
    · intro i j f g f' g' hi hj hi' hj' k hk l hl
      obtain rfl := hget i f' hi' f hi
      obtain rfl := hget j g' hj' g hj
      have hf := List.mem_of_getElem? hi
      have hg := List.mem_of_getElem? hj
      rw [hnames f hf g hg k hk l hl]
      constructor
      · intro hfield
        rw [externalName_eq,exportName_eq,hfield.2]
      · exact hstrippable.names f hf g hg k hk l hl
    · intro i f f' hi hi' l hl hname
      obtain rfl := hget i f' hi' f hi
      exact exportName_rename_main _ (hwell f (List.mem_of_getElem? hi)) hl hname
    · intro i f f' hi hi'
      obtain rfl := hget i f' hi' f hi
      have hf := List.mem_of_getElem? hi
      exact ⟨rename_length _ (hwell f hf),
        (rename_bytes_iff _ (hwell f hf)).mpr (hstrippable.padding f hf)⟩

private def nameField (name : List UInt8) : List UInt8 := name++List.replicate (256-name.length) 0

/-- A file that refers to "x" and exports it. -/
private def linkFile : List UInt8 :=
  magicBytes++[0,0,0,0,1,0,1,0]++[0,0,0,0,1,0,0,0]++nameField [0x78]++[0,0,0,0]++nameField [0x78]

theorem strip_preserves_link :
    ∃ stripped,strip [linkFile]=some stripped ∧ PreservesLinking [linkFile] stripped := by
  have hexternal : numExternal linkFile=1 := by decide +kernel
  have hexported : numExported linkFile=1 := by decide +kernel
  refine (strip_preserves_iff [linkFile] ?_ (by decide)).mpr ⟨?_,?_⟩
  · simp only [List.mem_singleton,forall_eq]
    decide +kernel
  · simp only [List.mem_singleton,forall_eq,hexternal,hexported,Nat.lt_one_iff]
    intro _
    decide +kernel
  · simp only [List.mem_singleton,forall_eq,hexternal,Nat.lt_one_iff]
    decide +kernel

/-- A file that refers to the argument of main, and one that exports it. -/
private def referFile (name : List UInt8) : List UInt8 :=
  magicBytes++[0,0,0,0,1,0,0,0]++[0,0,0,0,1,0,0,0]++nameField name

private def argumentFile : List UInt8 :=
  magicBytes++[0,0,0,0,0,0,1,0]++[0,0,0,0]++nameField mainArgName

/-- The reference is renamed to 0 and the export is not. -/
theorem strip_loses_main :
    (parseSephi (referFile mainArgName)).isSome ∧ (parseSephi argumentFile).isSome ∧
      strip [referFile mainArgName,argumentFile]=some [referFile [0x30],argumentFile] ∧
      externalName (referFile mainArgName) 0=exportName argumentFile 0 ∧
      ¬PreservesLinking [referFile mainArgName,argumentFile] [referFile [0x30],argumentFile] := by
  refine ⟨by decide +kernel,by decide +kernel,by decide +kernel,by decide +kernel,?_⟩
  intro h
  have hkept := h.names 0 1 _ _ _ _ rfl rfl rfl rfl 0 (by decide +kernel) 0 (by decide +kernel)
  have hbefore : externalName (referFile mainArgName) 0=exportName argumentFile 0 := by
    decide +kernel
  exact absurd (hkept.mpr hbefore) (by decide +kernel)

end Manchester.Strip
