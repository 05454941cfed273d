import Manchester.Framework.Interning
import Manchester.Loader.Sephi
import Manchester.Pipeline.StoreUnit

namespace Manchester.Strip

open Interning

-- The stripper: it renames the symbols of SEPHI files to numbers.

def headerSize : Nat := 16
def externalSize : Nat := 264
def exportSize : Nat := 260

abbrev Mapping := Table (List UInt8) (List UInt8)

/-- The number as text. -/
def counterName (i : Nat) : List UInt8 := (Nat.toDigits 10 i).map fun c => UInt8.ofNat c.toNat

/-- A string in a field of 256 bytes: cut, or filled up with zeros. -/
def packName (name : List UInt8) : List UInt8 := name.take 256++List.replicate (256-name.length) 0

/-- Records of one size; none is the error of `struct`. -/
def iterUnpack (size : Nat) (buffer : List UInt8) : Option (List (List UInt8)) :=
  if buffer.length%size ≠ 0 then none
  else some ((List.range (buffer.length/size)).map fun i => Bytes.slice buffer (size*i) size)

/-- The record of an external reference with a new name. The three bytes behind its flags are
packed as zeros. -/
def packExternal (entry name : List UInt8) : List UInt8 := entry.take 5++[0,0,0]++packName name

def packExport (entry name : List UInt8) : List UInt8 := entry.take 4++packName name

def stripExternal (mapping : Mapping) (entry : List UInt8) : List UInt8 × Mapping :=
  let (newName,mapping) := mapping.intern counterName (entry.drop 8)
  (packExternal entry newName,mapping)

/-- The names by which a LOD calls a program start with one of these. -/
def isMain (name : List UInt8) : Bool :=
  mainArgName.isPrefixOf name || mainReturnName.isPrefixOf name

def stripExport (mapping : Mapping) (entry : List UInt8) : List UInt8 × Mapping :=
  if isMain (entry.drop 4) then (packExport entry (entry.drop 4),mapping)
  else
    let (newName,mapping) := mapping.intern counterName (entry.drop 4)
    (packExport entry newName,mapping)

def startExternal (content : List UInt8) : Nat :=
  headerSize+(readHeader content).numConstant.toNat*destinationToUpdateSize+
    (readHeader content).numToFix.toNat*destinationToUpdateSize

def startExported (content : List UInt8) : Nat :=
  startExternal content+(readHeader content).numExternalRef.toNat*externalSize

def endExported (content : List UInt8) : Nat :=
  startExported content+(readHeader content).numExported.toNat*exportSize

/-- One round of the loop over the files. -/
def stripFile (mapping : Mapping) (content : List UInt8) : Option (List UInt8 × Mapping) :=
  if content.length < headerSize then none
  else
    match iterUnpack externalSize (Bytes.slice content (startExternal content)
        (startExported content-startExternal content)) with
    | none => none
    | some externals =>
      let (newExternal,mapping) := mapTable stripExternal mapping externals
      match iterUnpack exportSize (Bytes.slice content (startExported content)
          (endExported content-startExported content)) with
      | none => none
      | some exports =>
        let (newExport,mapping) := mapTable stripExport mapping exports
        some (content.take (startExternal content)++newExternal.flatten++newExport.flatten++
          content.drop (endExported content),mapping)

def stripFrom (mapping : Mapping) : List (List UInt8) → Option (List (List UInt8))
  | [] => some []
  | content::contents =>
    match stripFile mapping content with
    | none => none
    | some (newContent,mapping) => (stripFrom mapping contents).map fun rest => newContent::rest

/-- The contents of the files after the run. The files are different ones. -/
def strip (files : List (List UInt8)) : Option (List (List UInt8)) := stripFrom Table.empty files

/-- The records of the two tables. -/
def externals (content : List UInt8) : List (List UInt8) :=
  (List.range (readHeader content).numExternalRef.toNat).map fun k =>
    Bytes.slice content (startExternal content+externalSize*k) externalSize

def exports (content : List UInt8) : List (List UInt8) :=
  (List.range (readHeader content).numExported.toNat).map fun k =>
    Bytes.slice content (startExported content+exportSize*k) exportSize

def renameExternal (c : List UInt8 → List UInt8) (entry : List UInt8) : List UInt8 :=
  packExternal entry (c (entry.drop 8))

def renameExport (c : List UInt8 → List UInt8) (entry : List UInt8) : List UInt8 :=
  packExport entry (if isMain (entry.drop 4) then entry.drop 4 else c (entry.drop 4))

/-- The file under a renaming of its symbols. -/
def rename (c : List UInt8 → List UInt8) (content : List UInt8) : List UInt8 :=
  content.take (startExternal content)++(externals content).flatMap (renameExternal c)++
    (exports content).flatMap (renameExport c)++content.drop (endExported content)

-- The names that are looked up in the mapping.

def asksExternal (entry : List UInt8) : List (List UInt8) := [entry.drop 8]

def asksExport (entry : List UInt8) : List (List UInt8) :=
  if isMain (entry.drop 4) then [] else [entry.drop 4]

def asks (content : List UInt8) : List (List UInt8) :=
  (externals content).flatMap asksExternal++(exports content).flatMap asksExport

/-- The two tables lie in the file. -/
def WellFormed (content : List UInt8) : Prop := endExported content ≤ content.length

theorem wellFormed_of_parse (content : List UInt8) (h : (parseSephi content).isSome) :
    WellFormed content := by
  obtain ⟨sephi,hsephi⟩ := Option.isSome_iff_exists.mp h
  simp only [parseSephi] at hsephi
  split_ifs at hsephi with hsmall hmagic htables hrest
  simp only [not_or,Nat.not_lt] at htables
  have hend := htables.2.2.2.2
  simp only [sephiHeaderSize,destinationToUpdateSize,externalReferenceSize,exportSymbolSize] at hend
  simp only [WellFormed,endExported,startExported,startExternal,headerSize,externalSize,exportSize,
    destinationToUpdateSize]
  omega

theorem iterUnpack_slice (size n off : Nat) (content : List UInt8) (hsize : 0 < size)
    (h : off+n*size ≤ content.length) :
    iterUnpack size (Bytes.slice content off (n*size))=
      some ((List.range n).map fun k => Bytes.slice content (off+size*k) size) := by
  have hlength : (Bytes.slice content off (n*size)).length=n*size := by
    rw [Bytes.slice,List.length_take,List.length_drop]
    omega
  rw [iterUnpack,hlength,if_neg (by simp),Nat.mul_div_cancel _ hsize]
  congr 1
  apply List.map_congr_left
  intro k hk
  have hfits : size*k+size ≤ n*size := by
    have hle : k+1 ≤ n := List.mem_range.mp hk
    calc
      size*k+size = (k+1)*size := by ring
      _ ≤ n*size := Nat.mul_le_mul_right size hle
  rw [Bytes.slice_slice _ _ _ _ _ hfits]

theorem stripExternal_renames (entry : List UInt8) :
    Renames counterName stripExternal renameExternal asksExternal entry := by
  intro t keys ht
  obtain ⟨keys',hext,hlength,hmem,ht',hname⟩ :=
    Table.intern_numbers counterName ht (entry.drop 8)
  refine ⟨keys',hext,hlength,by simpa [asksExternal] using hmem,ht',fun later hlater => ?_⟩
  show packExternal entry (t.intern counterName (entry.drop 8)).1=_
  rw [hname,← numbering_of_prefix counterName hlater hmem]
  rfl

theorem stripExport_renames (entry : List UInt8) :
    Renames counterName stripExport renameExport asksExport entry := by
  intro t keys ht
  by_cases hmain : isMain (entry.drop 4)=true
  · simp only [stripExport,asksExport,renameExport,if_pos hmain]
    exact ⟨keys,List.prefix_rfl,Nat.le_refl _,List.nil_subset _,ht,fun _ _ => trivial⟩
  · obtain ⟨keys',hext,hlength,hmem,ht',hname⟩ :=
      Table.intern_numbers counterName ht (entry.drop 4)
    simp only [stripExport,asksExport,renameExport,if_neg hmain]
    refine ⟨keys',hext,hlength,by simpa using hmem,ht',fun later hlater => ?_⟩
    rw [hname,← numbering_of_prefix counterName hlater hmem]

/-- A file whose tables are complete is stripped, and what comes out is the file renamed by the
numbering of all names in the end. -/
theorem stripFile_renames (content : List UInt8) (h : WellFormed content) (t : Mapping)
    (keys : List (List UInt8)) (ht : Numbers counterName t keys) :
    ∃ keys' out t',keys <+: keys' ∧ keys'.length ≤ keys.length+(asks content).length ∧
      asks content ⊆ keys' ∧ stripFile t content=some (out,t') ∧ Numbers counterName t' keys' ∧
        ∀ later,keys' <+: later → out=rename (numbering counterName later) content := by
  obtain ⟨keys1,hext1,hlength1,hsub1,ht1,hout1⟩ :=
    Renames.list counterName (externals content) (fun e _ => stripExternal_renames e) t keys ht
  obtain ⟨keys2,hext2,hlength2,hsub2,ht2,hout2⟩ :=
    Renames.list counterName (exports content) (fun e _ => stripExport_renames e) _ keys1 ht1
  have hexternals : iterUnpack externalSize (Bytes.slice content (startExternal content)
      (startExported content-startExternal content))=some (externals content) := by
    have hcount : startExported content-startExternal content=
        (readHeader content).numExternalRef.toNat*externalSize := by
      rw [startExported,Nat.add_sub_cancel_left]
    rw [hcount]
    apply iterUnpack_slice _ _ _ _ (by decide)
    rw [WellFormed,endExported,startExported] at h
    omega
  have hexports : iterUnpack exportSize (Bytes.slice content (startExported content)
      (endExported content-startExported content))=some (exports content) := by
    have hcount : endExported content-startExported content=
        (readHeader content).numExported.toNat*exportSize := by
      rw [endExported,Nat.add_sub_cancel_left]
    rw [hcount]
    exact iterUnpack_slice _ _ _ _ (by decide) h
  have hheader : ¬content.length < headerSize := by
    rw [WellFormed,endExported,startExported,startExternal] at h
    omega
  let first := mapTable stripExternal t (externals content)
  let second := mapTable stripExport first.2 (exports content)
  refine ⟨keys2,content.take (startExternal content)++first.1.flatten++second.1.flatten++
    content.drop (endExported content),second.2,hext1.trans hext2,?_,?_,?_,ht2,
    fun later hlater => ?_⟩
  · rw [asks,List.length_append]
    omega
  · exact List.append_subset.mpr ⟨List.Subset.trans hsub1 hext2.subset,hsub2⟩
  · simp only [stripFile,if_neg hheader,hexternals,hexports]
    rfl
  · have hfirst : first.1=(externals content).map (renameExternal (numbering counterName later)) :=
      hout1 later (hext2.trans hlater)
    have hsecond : second.1=(exports content).map (renameExport (numbering counterName later)) :=
      hout2 later hlater
    rw [hfirst,hsecond]
    rfl

theorem stripFrom_renames (files : List (List UInt8)) (h : ∀f∈files,WellFormed f) (t : Mapping)
    (keys : List (List UInt8)) (ht : Numbers counterName t keys) :
    ∃ keys',keys <+: keys' ∧ keys'.length ≤ keys.length+(files.flatMap asks).length ∧
      (∀f∈files,asks f ⊆ keys') ∧ keys'.Nodup ∧
        stripFrom t files=some (files.map (rename (numbering counterName keys'))) := by
  induction files generalizing t keys with
  | nil => exact ⟨keys,List.prefix_rfl,by simp,by simp,ht.nodup,rfl⟩
  | cons f files ih =>
    obtain ⟨keys1,out,t1,hext1,hlength1,hsub1,hstrip,ht1,hout⟩ :=
      stripFile_renames f (h f (by simp)) t keys ht
    obtain ⟨keys2,hext2,hlength2,hsub2,hnodup,hrest⟩ :=
      ih (fun g hg => h g (by simp [hg])) t1 keys1 ht1
    refine ⟨keys2,hext1.trans hext2,?_,?_,hnodup,?_⟩
    · rw [List.flatMap_cons,List.length_append]
      omega
    · exact List.forall_mem_cons.mpr ⟨List.Subset.trans hsub1 hext2.subset,hsub2⟩
    · simp only [stripFrom,hstrip,hrest,Option.map_some,List.map_cons]
      rw [hout keys2 hext2]

/-- The whole run is one renaming of all files, by the numbering of their names. -/
theorem strip_renames (files : List (List UInt8)) (h : ∀f∈files,WellFormed f) :
    ∃ keys,keys.length ≤ (files.flatMap asks).length ∧ (∀f∈files,asks f ⊆ keys) ∧ keys.Nodup ∧
      strip files=some (files.map (rename (numbering counterName keys))) := by
  obtain ⟨keys,-,hlength,hsub,hnodup,hstrip⟩ :=
    stripFrom_renames files h Table.empty [] (numbers_empty counterName)
  exact ⟨keys,by simpa using hlength,hsub,hnodup,hstrip⟩

end Manchester.Strip
