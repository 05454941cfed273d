import Manchester.Assembler.Encoding
import Manchester.Assembler.Worklist
import Manchester.Loader.Placed

namespace Manchester.Assembler

theorem createDestination_mod (addr input matching : Nat) (hi : input < 2) (hm : matching < 8) :
    createDestination addr input matching=(16*addr+8*input+matching)%2^32 := by
  have h1 : (addr <<< 1) ^^^ input=2^1*addr+input := by
    rw [Nat.shiftLeft_eq,Nat.mul_comm]
    exact mul_two_pow_xor addr input 1 hi
  have h2 : ((2^1*addr+input) <<< 3) ^^^ matching=2^3*(2^1*addr+input)+matching := by
    rw [Nat.shiftLeft_eq,Nat.mul_comm]
    exact mul_two_pow_xor _ matching 3 hm
  rw [createDestination,h1,h2]
  omega

theorem createDestination_eq (addr input matching : Nat) (ha : addr < 2^28) (hi : input < 2)
    (hm : matching < 8) : createDestination addr input matching=16*addr+8*input+matching := by
  rw [createDestination_mod addr input matching hi hm]
  omega

theorem toNat_ofNat_destination (addr input matching : Nat) (ha : addr < 2^28) (hi : input < 2)
    (hm : matching < 8) :
    (BitVec.ofNat 32 (createDestination addr input matching)).toNat=16*addr+8*input+matching := by
  rw [createDestination_eq addr input matching ha hi hm,BitVec.toNat_ofNat]
  omega

/-- The loader moves an address of the assembler by the start of the load. -/
theorem increment_createDestination (start j input matching : Nat) (hj : start+j < 2^28)
    (hi : input < 2) (hm : matching < 4) :
    incrementDestinationAddress (BitVec.ofNat 32 (createDestination j input matching))
      (BitVec.ofNat 32 start)=
        Manchester.createDestination (BitVec.ofNat 32 (start+j)) (BitVec.ofNat 32 input)
          (BitVec.ofNat 32 matching) := by
  have hword := toNat_ofNat_destination j input matching (by omega) hi (by omega)
  have hsmall : ∀ n,n < 2^28 → (BitVec.ofNat 32 n).toNat=n := by
    intro n hn
    rw [BitVec.toNat_ofNat]
    omega
  apply BitVec.eq_of_toNat_eq
  rw [incrementDestinationAddress,createDestination_toNat _ _ _ (destinationToInput_lt _)
    (Nat.lt_trans (destinationToMatchingFunction_lt _) (by decide)),
    createDestination_toNat _ _ _ (by rw [hsmall _ (by omega)]; exact hi)
      (by rw [hsmall _ (by omega)]; omega),
    destinationToInput_toNat,destinationToMatchingFunction_toNat,BitVec.toNat_add,
    destinationToAddress_toNat,hword,hsmall _ (by omega : start < 2^28),hsmall _ hj,
    hsmall _ (by omega : input < 2^28),hsmall _ (by omega : matching < 2^28)]
  omega

theorem createDestination_ne_devNull (j input matching : Nat) (hj : j < 2^28-5) (hi : input < 2)
    (hm : matching < 4) :
    BitVec.ofNat 32 (createDestination j input matching) ≠ Manchester.devNullDestination := by
  intro h
  have hword := toNat_ofNat_destination j input matching (by omega) hi (by omega)
  have hdev : Manchester.devNullDestination.toNat=16*(2^28-5) := by decide
  rw [h,hdev] at hword
  omega

theorem matchingFunction_lt {node : Node} {m : Nat} (h : matchingFunction node=.ok m) : m < 4 := by
  unfold matchingFunction matchingOne matchingAny matchingBoth at h
  split_ifs at h <;> cases h <;> decide

theorem Input.value_lt (i : Input) : i.value < 2 := by
  cases i <;> decide

theorem isInList_iff (entries : List UpdateEntry) (hsmall : ∀x∈entries,x.instructionNum < 2^32)
    (k : Nat) (which : WhichDestination) :
    isInList (entries.map UpdateEntry.record) k which=true ↔
      ∃x∈entries,x.instructionNum=k ∧ which.flag (BitVec.ofNat 8 x.combineFlags)=true := by
  have hnum : ∀x∈entries,x.record.instructionNumber.toNat=x.instructionNum := by
    intro x hx
    rw [UpdateEntry.record,BitVec.toNat_ofNat]
    exact Nat.mod_eq_of_lt (hsmall x hx)
  simp only [isInList,List.any_map,List.any_eq_true,Function.comp_apply,Bool.and_eq_true,
    beq_iff_eq]
  constructor
  · intro hlisted
    obtain ⟨x,hx,hk,hflag⟩ := hlisted
    exact ⟨x,hx,(hnum x hx).symm.trans hk,hflag⟩
  · intro hlisted
    obtain ⟨x,hx,hk,hflag⟩ := hlisted
    exact ⟨x,hx,(hnum x hx).trans hk,hflag⟩

/-- A destination slot aims at OUTD or OUTS. -/
def AimsAtOutput (g : Graph) (slot : Option Destination) : Prop :=
  ∃ d node,slot=some d ∧ g.heap[d.node]?=some node ∧ node.opcode.isSpecial=true

theorem mem_slotConstants (g : Graph) (k : Nat) (node : Node) (dest : DestSlot) (x : UpdateEntry) :
    x∈slotConstants g k node dest ↔ AimsAtOutput g (node.slot dest) ∧ x=constantEntry k dest := by
  unfold slotConstants AimsAtOutput
  cases node.slot dest with
  | none => simp
  | some d =>
    cases hr : g.heap[d.node]? with
    | none => simp [hr]
    | some receiver =>
      by_cases hop : receiver.opcode.isSpecial=true <;> simp [hr,hop]

section Tables

variable {g : Graph} {exportOrder : List Name} {e : Emitted} {k id : Nat} {node : Node}

theorem isInList_constants (he : EmittedGraph g exportOrder e) (hsmall : e.order.length < 2^32)
    (hk : e.order[k]?=some id) (hnode : g.heap[id]?=some node) :
    (isInList e.sephi.constants k .FIRST_DESTINATION=true ↔ AimsAtOutput g node.destination1) ∧
      (isInList e.sephi.constants k .SECOND_DESTINATION=true ↔
        AimsAtOutput g node.destination2) := by
  have hmem : ∀ x,x∈e.constants ↔ ∃ k id node,e.order[k]?=some id ∧ g.heap[id]?=some node ∧
      ((AimsAtOutput g node.destination1 ∧ x=constantEntry k .destination1) ∨
        AimsAtOutput g node.destination2 ∧ x=constantEntry k .destination2) := by
    intro x
    rw [he.constants,mem_perNode]
    simp only [constantsOf,List.mem_append,mem_slotConstants]
    rfl
  have hnum : ∀x∈e.constants,x.instructionNum < 2^32 := by
    intro x hx
    obtain ⟨k,id,node,hk,-,(⟨-,rfl⟩ | ⟨-,rfl⟩)⟩ := (hmem x).mp hx
    all_goals exact Nat.lt_trans (List.getElem?_eq_some_iff.mp hk).1 hsmall
  have hsame : ∀ (id' : Nat) (node' : Node),e.order[k]?=some id' → g.heap[id']?=some node' →
      node'=node := by
    intro id' node' hk' hnode'
    obtain rfl : id=id' := Option.some.inj (hk.symm.trans hk')
    exact Option.some.inj (hnode'.symm.trans hnode)
  constructor
  · rw [Emitted.sephi,isInList_iff _ hnum]
    constructor
    · intro hlisted
      obtain ⟨x,hx,hxk,hflag⟩ := hlisted
      obtain ⟨k',id',node',hk',hnode',(⟨haims,rfl⟩ | ⟨-,rfl⟩)⟩ := (hmem x).mp hx
      · obtain rfl : k'=k := hxk
        exact hsame id' node' hk' hnode' ▸ haims
      · exact absurd hflag (by simp [constantEntry,UpdateEntry.combineFlags,WhichDestination.flag,
          Flags.isFirstDestination])
    · intro haims
      exact ⟨_,(hmem _).mpr ⟨k,id,node,hk,hnode,Or.inl ⟨haims,rfl⟩⟩,rfl,by
        simp [constantEntry,UpdateEntry.combineFlags,WhichDestination.flag,
          Flags.isFirstDestination]⟩
  · rw [Emitted.sephi,isInList_iff _ hnum]
    constructor
    · intro hlisted
      obtain ⟨x,hx,hxk,hflag⟩ := hlisted
      obtain ⟨k',id',node',hk',hnode',(⟨-,rfl⟩ | ⟨haims,rfl⟩)⟩ := (hmem x).mp hx
      · exact absurd hflag (by simp [constantEntry,UpdateEntry.combineFlags,WhichDestination.flag,
          Flags.isSecondDestination])
      · obtain rfl : k'=k := hxk
        exact hsame id' node' hk' hnode' ▸ haims
    · intro haims
      exact ⟨_,(hmem _).mpr ⟨k,id,node,hk,hnode,Or.inr ⟨haims,rfl⟩⟩,rfl,by
        simp [constantEntry,UpdateEntry.combineFlags,WhichDestination.flag,
          Flags.isSecondDestination]⟩

theorem isInList_labels (he : EmittedGraph g exportOrder e) (hsmall : e.order.length < 2^32)
    (hk : e.order[k]?=some id) (hnode : g.heap[id]?=some node) :
    (isInList e.sephi.toFix k .FIRST_LITERAL=true ↔ (g.labelTarget node.input1).isSome) ∧
      isInList e.sephi.toFix k .SECOND_LITERAL=false := by
  have hmem : ∀ x,x∈e.labels ↔ ∃ k id node,e.order[k]?=some id ∧ g.heap[id]?=some node ∧
      (g.labelTarget node.input1).isSome ∧ x=⟨k,false,false,true,false⟩ := by
    intro x
    rw [he.labels,mem_perNode]
    refine exists_congr fun k => exists_congr fun id => exists_congr fun node =>
      and_congr_right fun _ => and_congr_right fun _ => ?_
    unfold labelsOf
    cases g.labelTarget node.input1 <;> simp
  have hnum : ∀x∈e.labels,x.instructionNum < 2^32 := by
    intro x hx
    obtain ⟨k,id,node,hk,-,-,rfl⟩ := (hmem x).mp hx
    exact Nat.lt_trans (List.getElem?_eq_some_iff.mp hk).1 hsmall
  constructor
  · rw [Emitted.sephi,isInList_iff _ hnum]
    constructor
    · intro hlisted
      obtain ⟨x,hx,hxk,_⟩ := hlisted
      obtain ⟨k',id',node',hk',hnode',hlabel,rfl⟩ := (hmem x).mp hx
      obtain rfl : k'=k := hxk
      obtain rfl : id=id' := Option.some.inj (hk.symm.trans hk')
      obtain rfl : node=node' := Option.some.inj (hnode.symm.trans hnode')
      exact hlabel
    · intro hlabel
      exact ⟨_,(hmem _).mpr ⟨k,id,node,hk,hnode,hlabel,rfl⟩,rfl,by
        simp [UpdateEntry.combineFlags,WhichDestination.flag,Flags.isFirstLiteral]⟩
  · rw [← Bool.not_eq_true,Emitted.sephi,isInList_iff _ hnum]
    intro hlisted
    obtain ⟨x,hx,_,hflag⟩ := hlisted
    obtain ⟨k',id',node',-,-,-,rfl⟩ := (hmem x).mp hx
    exact absurd hflag (by simp [UpdateEntry.combineFlags,WhichDestination.flag,
      Flags.isSecondLiteral])

end Tables

/-- The external symbol that a node is bound to. -/
def Bound (g : Graph) (id : Nat) (symbol : Name) : Prop :=
  ∃ ids,(symbol,ids)∈g.externalReferences ∧ id∈ids

theorem nodesToExtern_iff {g : Graph} (hg : WellFormed g) (id : Nat) (symbol : Name) :
    g.nodesToExtern id=some symbol ↔ Bound g id symbol := by
  have hmem : ∀ entry,entry∈g.externalReferences.filter (fun e => e.2.contains id) ↔
      entry∈g.externalReferences ∧ id∈entry.2 := by simp [List.mem_filter]
  constructor
  · intro h
    obtain ⟨⟨_,ids⟩,hlast,rfl⟩ := Option.map_eq_some_iff.mp h
    obtain ⟨hin,hid⟩ := (hmem _).mp (List.mem_of_getLast? hlast)
    exact ⟨ids,hin,hid⟩
  · intro ⟨ids,hin,hid⟩
    have hne := List.ne_nil_of_mem ((hmem (symbol,ids)).mpr ⟨hin,hid⟩)
    obtain ⟨hin',hid'⟩ := (hmem _).mp (List.getLast_mem hne)
    rw [Graph.nodesToExtern,List.getLast?_eq_getLast_of_ne_nil hne,Option.map_some,
      hg.single _ symbol _ ids id hin' hin hid' hid]

theorem foldl_unchanged {α β : Type} (f : β → α → β) (xs : List α) (h : ∀x∈xs,∀ b,f b x=b) (b : β) :
    xs.foldl f b=b := by
  induction xs with
  | nil => rfl
  | cons x xs ih =>
    rw [List.foldl_cons,h x (by simp)]
    exact ih fun y hy => h y (by simp [hy])

/-- Steps that change nothing or settle the value leave a settled value alone. -/
theorem foldl_settled {α β : Type} (f : β → α → β) (settle : β → β) (xs : List α)
    (htwice : ∀ b,settle (settle b)=settle b)
    (h : ∀x∈xs,(∀ b,f b x=b) ∨ ∀ b,f b x=settle b) (b : β) :
    xs.foldl f (settle b)=settle b := by
  induction xs with
  | nil => rfl
  | cons x xs ih =>
    have hx : f (settle b) x=settle b := by
      obtain hx | hx := h x (by simp)
      · exact hx _
      · rw [hx,htwice]
    rw [List.foldl_cons,hx]
    exact ih fun y hy => h y (by simp [hy])

theorem foldl_settles {α β : Type} (f : β → α → β) (settle : β → β) (xs : List α)
    (htwice : ∀ b,settle (settle b)=settle b)
    (h : ∀x∈xs,(∀ b,f b x=b) ∨ ∀ b,f b x=settle b) (hsome : ∃x∈xs,∀ b,f b x=settle b) (b : β) :
    xs.foldl f b=settle b := by
  induction xs with
  | nil => simp at hsome
  | cons x xs ih =>
    have hrest : ∀y∈xs,(∀ b,f b y=b) ∨ ∀ b,f b y=settle b := fun y hy => h y (by simp [hy])
    have hsettle : (∀ b,f b x=settle b) → (x::xs).foldl f b=settle b := by
      intro hx
      rw [List.foldl_cons,hx]
      exact foldl_settled f settle xs htwice hrest b
    obtain ⟨y,hy,hysettle⟩ := hsome
    obtain rfl | hy := List.mem_cons.mp hy
    · exact hsettle hysettle
    · obtain hx | hx := h x (by simp)
      · rw [List.foldl_cons,hx]
        exact ih hrest ⟨y,hy,hysettle⟩
      · exact hsettle hx

/-- The reference of the file that binds instruction k to a symbol. -/
def externEntry (k : Nat) (symbol : Name) : ExternalSymbol :=
  ⟨⟨k,true,false,false,false⟩,encode symbol⟩

def bindDestination (current : DestinationType) (inst : Instruction) : Instruction :=
  {inst with destination1 := current}

theorem resolveNamed_externEntry (exports : List ExportNode) (k k' : Nat) (symbol : Name)
    (result : ExportNode) (hk : k' < 2^32)
    (hfind : findExport exports (cString (encode symbol))=some result) (inst : Instruction) :
    resolveNamed exports k inst (externEntry k' symbol).record=
      if k'=k then bindDestination result.currentDestination inst else inst := by
  have hnum : (externEntry k' symbol).record.destination.instructionNumber.toNat=k' := by
    change (BitVec.ofNat 32 k').toNat=k'
    rw [BitVec.toNat_ofNat,Nat.mod_eq_of_lt hk]
  have hname : (externEntry k' symbol).record.name=cString (encode symbol) := rfl
  have hflags : (externEntry k' symbol).record.destination.flags=1 := by
    simp [externEntry,ExternalSymbol.record,UpdateEntry.record,UpdateEntry.combineFlags]
  simp only [resolveNamed,hnum,hname,hfind,hflags]
  rfl

section References

variable {g : Graph} {exportOrder : List Name} {e : Emitted} {exports : List ExportNode}
  {k id : Nat}

theorem mem_externs (he : EmittedGraph g exportOrder e) (hg : WellFormed g) (r : ExternalSymbol) :
    r∈e.externalReferences ↔
      ∃ k id symbol,e.order[k]?=some id ∧ Bound g id symbol ∧ r=externEntry k symbol := by
  rw [he.externs,mem_perNode]
  constructor
  · intro ⟨k,id,node,hk,hnode,hr⟩
    unfold externsOf at hr
    split at hr
    · simp at hr
    · rename_i symbol hsymbol
      exact ⟨k,id,symbol,hk,(nodesToExtern_iff hg id symbol).mp hsymbol,List.mem_singleton.mp hr⟩
  · rintro ⟨k,id,symbol,hk,hbound,rfl⟩
    obtain ⟨node,hnode,-⟩ := he.nodes id (List.mem_of_getElem? hk)
    refine ⟨k,id,node,hk,hnode,?_⟩
    simp [externsOf,(nodesToExtern_iff hg id symbol).mpr hbound,externEntry]

/-- The references are to instructions of the file. -/
theorem externs_number_lt (he : EmittedGraph g exportOrder e) (hg : WellFormed g) :
    ∀r∈e.externalReferences,
      r.destinationToUpdate.record.instructionNumber.toNat < e.instructions.length := by
  intro r hr
  obtain ⟨k,id,symbol,hk,-,rfl⟩ := (mem_externs he hg r).mp hr
  have hlt := (List.getElem?_eq_some_iff.mp hk).1
  rw [he.length]
  change (BitVec.ofNat 32 k).toNat < _
  rw [BitVec.toNat_ofNat]
  exact Nat.lt_of_le_of_lt (Nat.mod_le _ _) hlt

/-- The references leave an instruction alone unless its node is bound; then its first destination
is that of the symbol. -/
theorem resolve_externs (he : EmittedGraph g exportOrder e) (hg : WellFormed g)
    (hsmall : e.order.length < 2^32)
    (hknown : ∀r∈e.externalReferences,(findExport exports (cString r.name)).isSome)
    (hk : e.order[k]?=some id) (inst : Instruction) :
    ((¬∃ symbol,Bound g id symbol) →
      e.sephi.externalReferences.foldl (resolveNamed exports k) inst=inst) ∧
      ∀ symbol,Bound g id symbol → ∃ result,
        findExport exports (cString (encode symbol))=some result ∧
          e.sephi.externalReferences.foldl (resolveNamed exports k) inst=
            bindDestination result.currentDestination inst := by
  have hentry : ∀x∈e.sephi.externalReferences,∃ k' id' symbol result,e.order[k']?=some id' ∧
      Bound g id' symbol ∧ findExport exports (cString (encode symbol))=some result ∧
        ∀ inst,resolveNamed exports k inst x=
          if k'=k then bindDestination result.currentDestination inst else inst := by
    intro x hx
    obtain ⟨r,hr,rfl⟩ := List.mem_map.mp hx
    obtain ⟨k',id',symbol,hk',hbound,rfl⟩ := (mem_externs he hg r).mp hr
    obtain ⟨result,hresult⟩ := Option.isSome_iff_exists.mp (hknown _ hr)
    have hlt := Nat.lt_trans (List.getElem?_eq_some_iff.mp hk').1 hsmall
    exact ⟨k',id',symbol,result,hk',hbound,hresult,
      resolveNamed_externEntry exports k k' symbol result hlt hresult⟩
  constructor
  · intro hfree
    apply foldl_unchanged
    intro x hx inst
    obtain ⟨k',id',symbol,result,hk',hbound,-,hresolve⟩ := hentry x hx
    have hne : k' ≠ k := by
      rintro rfl
      obtain rfl : id'=id := Option.some.inj (hk'.symm.trans hk)
      exact hfree ⟨symbol,hbound⟩
    rw [hresolve,if_neg hne]
  · intro symbol hbound
    have hmem := (mem_externs he hg (externEntry k symbol)).mpr ⟨k,id,symbol,hk,hbound,rfl⟩
    obtain ⟨result,hresult⟩ := Option.isSome_iff_exists.mp (hknown _ hmem)
    have hresult : findExport exports (cString (encode symbol))=some result := hresult
    refine ⟨result,hresult,?_⟩
    have hlt := Nat.lt_trans (List.getElem?_eq_some_iff.mp hk).1 hsmall
    apply foldl_settles _ (bindDestination result.currentDestination)
    · exact fun _ => rfl
    · intro x hx
      obtain ⟨k',id',symbol',result',hk',hbound',hfind',hresolve⟩ := hentry x hx
      by_cases hkk : k'=k
      · right
        intro b
        subst hkk
        obtain rfl : id'=id := Option.some.inj (hk'.symm.trans hk)
        obtain ⟨ids,hin,hid⟩ := hbound
        obtain ⟨ids',hin',hid'⟩ := hbound'
        obtain rfl := hg.single symbol symbol' ids ids' id' hin hin' hid hid'
        obtain rfl : result'=result := Option.some.inj (hfind'.symm.trans hresult)
        rw [hresolve,if_pos rfl]
      · left
        intro b
        rw [hresolve,if_neg hkk]
    · refine ⟨(externEntry k symbol).record,List.mem_map_of_mem hmem,fun b => ?_⟩
      rw [resolveNamed_externEntry exports k k symbol result hlt hresult,if_pos rfl]

end References

/-- The word that stands for a destination once node j of `order` is at `start+j`. -/
def LoadedSlot (g : Graph) (order : List Nat) (start : Nat) (slot : Option Destination)
    (word : DestinationType) : Prop :=
  match slot with
  | none => word=Manchester.devNullDestination
  | some d => ∃ node,g.heap[d.node]?=some node ∧
      if node.opcode=.OUTD then word=Manchester.outputdDestination
      else if node.opcode=.OUTS then word=Manchester.outputsDestination
      else ∃ j m,order[j]?=some d.node ∧ matchingFunction node=.ok m ∧
        word=Manchester.createDestination (BitVec.ofNat 32 (start+j))
          (BitVec.ofNat 32 d.input.value) (BitVec.ofNat 32 m)

/-- The destination that stands for a label. -/
def LoadedLabel (g : Graph) (order : List Nat) (start : Nat) (label : Name)
    (word : DestinationType) : Prop :=
  ∃ target j,g.labels label=some target ∧ order[j]?=some target ∧
    word=Manchester.createDestination (BitVec.ofNat 32 (start+j)) inputOne Manchester.matchingOne

def LoadedLiteral (g : Graph) (order : List Nat) (start : Nat) (input : Option Arg)
    (word : DataType) : Prop :=
  match input with
  | none => word=0
  | some (.int value) => word=BitVec.ofInt 64 value
  | some (.str label) => ∃ address,LoadedLabel g order start label address ∧
      word=address.setWidth 64

/-- The word of the destination in the file is zero: instruction 0, as far as the number is not cut
to 28 bits, its first port, matched by one token. -/
def ZeroSlot (g : Graph) (order : List Nat) (d : Destination) : Prop :=
  d.input=.INPUT_ONE ∧ ∃ j node,order[j]?=some d.node ∧ j%2^28=0 ∧ g.heap[d.node]?=some node ∧
    node.opcode.isSpecial=false ∧ matchingFunction node=.ok matchingOne

/-- How many literals the node has. -/
def Node.literalType (node : Node) : InstructionLiteralType :=
  match node.operands.length with
  | 0 => .NONE
  | 1 => .ONE
  | _ => .TWO

/-- The instruction in the store is the one that the node of the graph asks for. A second
destination whose word is zero does not count in the marker. -/
structure LoadedNode (g : Graph) (order : List Nat) (exports : List ExportNode) (start id : Nat)
    (node : Node) (inst : Instruction) : Prop where
  opcode : ∃ o,node.opcode=.op o ∧ inst.opcode=o.bits
  literal1 : LoadedLiteral g order start node.input1 inst.literal1
  literal2 : LoadedLiteral g order start node.input2 inst.literal2
  destination1 : (¬∃ symbol,Bound g id symbol) →
    LoadedSlot g order start node.destination1 inst.destination1
  destination2 : LoadedSlot g order start node.destination2 inst.destination2
  binding : ∀ symbol,Bound g id symbol → ∃ result,
    findExport exports (cString (encode symbol))=some result ∧
      inst.destination1=result.currentDestination
  instructionLiteral : inst.instructionLiteral=node.literalType.bits
  oneOutput : (∀ d,node.destination2=some d → ZeroSlot g order d) → inst.marker=oneOutputMarker
  bothOutputs : ∀ d,node.destination2=some d → ¬ZeroSlot g order d →
    inst.marker=bothOutputMarker

theorem createDestination_zero_iff (j input matching : Nat) (hi : input < 2) (hm : matching < 8) :
    createDestination j input matching=0 ↔ j%2^28=0 ∧ input=0 ∧ matching=0 := by
  rw [createDestination_mod j input matching hi hm]
  omega

section Records

variable {g : Graph} {order : List Nat} {node : Node} {inst : AsmInstruction}

/-- The word zero stands for one destination. -/
theorem slotValue_zeroSlot_iff {d : Destination} {value : Option Nat}
    (h : SlotValue g order (some d) value) (hnodup : order.Nodup) :
    value.getD 0=0 ↔ ZeroSlot g order d := by
  obtain ⟨node,hnode,hvalue⟩ := h
  have hspecial : ZeroSlot g order d → node.opcode.isSpecial=false := by
    intro hport
    obtain ⟨-,-,node',-,-,hnode',hop,-⟩ := hport
    obtain rfl : node=node' := Option.some.inj (hnode.symm.trans hnode')
    exact hop
  split_ifs at hvalue with houtd houts
  · rw [hvalue]
    refine iff_of_false (by decide) fun hport => ?_
    have hon := hspecial hport
    simp [houtd,Opcode.isSpecial] at hon
  · rw [hvalue]
    refine iff_of_false (by decide) fun hport => ?_
    have hon := hspecial hport
    simp [houts,Opcode.isSpecial] at hon
  · obtain ⟨j,m,hj,hm,rfl⟩ := hvalue
    have hm4 := matchingFunction_lt hm
    have hop : node.opcode.isSpecial=false := by
      cases ho : node.opcode with
      | OUTD => exact absurd ho houtd
      | OUTS => exact absurd ho houts
      | op o => rfl
    rw [Option.getD_some,createDestination_zero_iff j _ m d.input.value_lt (by omega)]
    constructor
    · intro h
      obtain ⟨hzero,hinput,hmatching⟩ := h
      refine ⟨?_,j,node,hj,hzero,hnode,hop,by rw [hm,hmatching]; rfl⟩
      cases hd : d.input with
      | INPUT_ONE => rfl
      | INPUT_TWO => simp [hd,Input.value] at hinput
    · intro h
      obtain ⟨hinput,j',node',hj',hzero,hnode',-,hone⟩ := h
      obtain rfl : node=node' := Option.some.inj (hnode.symm.trans hnode')
      have hlt := (List.getElem?_eq_some_iff.mp hj).1
      obtain rfl : j=j' := (List.getElem?_inj hlt hnodup).mp (hj.trans hj'.symm)
      refine ⟨hzero,by rw [hinput]; rfl,?_⟩
      rw [hm] at hone
      exact Except.ok.inj hone

theorem EmittedAs.literal_none (h : EmittedAs g order node inst) :
    inst.literal1=none ↔ node.input1=none := by
  have hvalue := h.literal1
  unfold LiteralValue at hvalue
  split at hvalue
  · rw [hvalue]
  · rename_i target htarget
    obtain ⟨j,-,hliteral⟩ := hvalue
    refine iff_of_false (by simp [hliteral]) ?_
    intro hnone
    simp [hnone,Graph.labelTarget] at htarget

theorem EmittedAs.literalType (h : EmittedAs g order node inst) :
    inst.literalType=node.literalType := by
  have h1 := h.literal_none
  rw [AsmInstruction.literalType,h.literal2,Node.literalType]
  unfold Node.operands
  cases hin1 : node.input1 with
  | none =>
    rw [hin1] at h1
    cases node.input2 <;> simp [h1.mpr rfl]
  | some arg =>
    have hne : inst.literal1 ≠ none := fun hnone => by simp [h1.mp hnone] at hin1
    cases node.input2 <;> simp [hne]

theorem EmittedAs.oneOutput (h : EmittedAs g order node inst) (hnodup : order.Nodup)
    (hzero : ∀ d,node.destination2=some d → ZeroSlot g order d) :
    inst.record.marker=oneOutputMarker := by
  have hslot := h.slot2
  have hvalue : inst.destination2.getD 0=0 := by
    cases hd : node.destination2 with
    | none =>
      rw [hd] at hslot
      have hnone : inst.destination2=none := hslot
      rw [hnone]
      rfl
    | some d =>
      rw [hd] at hslot
      exact (slotValue_zeroSlot_iff hslot hnodup).mpr (hzero d hd)
  change BitVec.ofNat 8 inst.marker=_
  rw [AsmInstruction.marker,if_neg (by simpa using hvalue)]
  rfl

theorem EmittedAs.bothOutputs (h : EmittedAs g order node inst) (hnodup : order.Nodup)
    {d : Destination} (hd : node.destination2=some d) (hzero : ¬ZeroSlot g order d) :
    inst.record.marker=bothOutputMarker := by
  have hslot := h.slot2
  rw [hd] at hslot
  change BitVec.ofNat 8 inst.marker=_
  rw [AsmInstruction.marker,if_pos fun hvalue =>
    hzero ((slotValue_zeroSlot_iff hslot hnodup).mp hvalue)]
  rfl

end Records

section Relocation

variable {g : Graph} {order : List Nat} {start k : Nat}

theorem relocate_slot {table : List DestinationToUpdate} {which : WhichDestination}
    {slot : Option Destination} {value : Option Nat} (hroom : start+order.length ≤ 2^28-5)
    (hvalue : SlotValue g order slot value)
    (htable : isInList table k which=true ↔ AimsAtOutput g slot) :
    LoadedSlot g order start slot (relocateDestination table (BitVec.ofNat 32 start) k which
      (BitVec.ofNat 32 (value.getD devNullDestination))) := by
  cases slot with
  | none =>
    obtain rfl : value=none := hvalue
    have hdev : BitVec.ofNat 32 ((none : Option Nat).getD devNullDestination)=
        Manchester.devNullDestination := by decide
    simp only [LoadedSlot,relocateDestination,hdev]
    split_ifs <;> simp_all
  | some d =>
    obtain ⟨node,hnode,hvalue⟩ := hvalue
    have haims : AimsAtOutput g (some d) ↔ node.opcode.isSpecial=true := by
      simp [AimsAtOutput,hnode]
    rw [haims] at htable
    refine ⟨node,hnode,?_⟩
    split_ifs at hvalue ⊢ with houtd houts
    · subst hvalue
      rw [relocateDestination,if_pos (htable.mpr (by rw [houtd]; rfl))]
      decide
    · subst hvalue
      rw [relocateDestination,if_pos (htable.mpr (by rw [houts]; rfl))]
      decide
    · obtain ⟨j,m,hj,hm,rfl⟩ := hvalue
      have hlt := (List.getElem?_eq_some_iff.mp hj).1
      have hmlt := matchingFunction_lt hm
      have hilt := d.input.value_lt
      have hnot : ¬isInList table k which=true := by
        rw [htable]
        simp [Opcode.isSpecial,houtd,houts]
      refine ⟨j,m,hj,hm,?_⟩
      simp only [relocateDestination,Option.getD_some]
      rw [if_neg hnot,if_pos (createDestination_ne_devNull j _ m (by omega) hilt hmlt)]
      exact increment_createDestination start j _ m (by omega) hilt hmlt

theorem relocate_label {target j : Nat} (hroom : start+order.length ≤ 2^28-5)
    (hj : order[j]?=some target) :
    incrementLiteral (literalWord (some (.int (createDestination j Input.INPUT_ONE.value
      matchingOne)))) (BitVec.ofNat 32 start)=
        (Manchester.createDestination (BitVec.ofNat 32 (start+j)) inputOne
          Manchester.matchingOne).setWidth 64 := by
  have hlt := (List.getElem?_eq_some_iff.mp hj).1
  have hinc := increment_createDestination start j 0 0 (by omega) (by decide) (by decide)
  have hword : (literalWord (some (.int (createDestination j Input.INPUT_ONE.value
      matchingOne)))).setWidth 32=BitVec.ofNat 32 (createDestination j 0 0) := by
    apply BitVec.eq_of_toNat_eq
    simp only [literalWord,BitVec.toNat_setWidth,BitVec.toNat_ofInt,BitVec.toNat_ofNat,
      Input.value,matchingOne]
    omega
  rw [incrementLiteral,hword,hinc]
  rfl

/-- A literal that has been packed is no label. -/
theorem relocate_literal {table : List DestinationToUpdate} {which : WhichDestination}
    {input literal : Option Arg} {bytes : List UInt8} (hroom : start+order.length ≤ 2^28-5)
    (hvalue : LiteralValue g order input literal) (hpack : packLiteral literal=.ok bytes)
    (htable : isInList table k which=true ↔ (g.labelTarget input).isSome) :
    LoadedLiteral g order start input
      (relocateLiteral table (BitVec.ofNat 32 start) k which (literalWord literal)) := by
  unfold LiteralValue at hvalue
  cases htarget : g.labelTarget input with
  | some target =>
    rw [htarget] at hvalue htable
    obtain ⟨j,hj,rfl⟩ := hvalue
    obtain ⟨label,rfl,hlabel⟩ : ∃ label,input=some (.str label) ∧ g.labels label=some target := by
      unfold Graph.labelTarget at htarget
      split at htarget
      · exact ⟨_,rfl,htarget⟩
      · cases htarget
    rw [relocateLiteral,if_pos (htable.mpr rfl),relocate_label hroom hj]
    exact ⟨_,⟨target,j,hlabel,hj,rfl⟩,rfl⟩
  | none =>
    rw [htarget] at hvalue htable
    subst hvalue
    rw [relocateLiteral,if_neg (by simp [htable])]
    cases literal with
    | none => rfl
    | some arg =>
      cases arg with
      | int value => rfl
      | str label => cases hpack

end Relocation

/-- What the packing of an instruction says about its literals. -/
theorem AsmInstruction.toBinary_literals {inst : AsmInstruction} {bytes : List UInt8}
    (h : inst.toBinary=.ok bytes) :
    (∃ first,packLiteral inst.literal1=.ok first) ∧
      ∃ second,packLiteral inst.literal2=.ok second := by
  obtain ⟨parts,hparts,-⟩ := concatFields_ok _ _ h
  have hfield : ∀ field∈[packLiteral inst.literal1,packLiteral inst.literal2],
      ∃ part,field=.ok part := by
    intro field hfield
    have hmem : field∈parts.map Except.ok := by
      rw [← hparts]
      simp only [List.mem_cons,List.not_mem_nil,or_false] at hfield ⊢
      tauto
    obtain ⟨part,-,hpart⟩ := List.mem_map.mp hmem
    exact ⟨part,hpart.symm⟩
  exact ⟨hfield _ (by simp),hfield _ (by simp)⟩

theorem Emitted.toBinary_ok {e : Emitted} {bytes : List UInt8} (h : e.file=.ok bytes) :
    ∀inst∈e.instructions,∃ part,inst.toBinary=.ok part := by
  obtain ⟨header,rest,-,h1,-⟩ := concatFields_cons_ok h
  obtain ⟨instructions,rest',hinstructions,-,-⟩ := concatFields_cons_ok h1
  obtain ⟨parts,hparts,-⟩ := concatFields_ok _ _ hinstructions
  intro inst hinst
  have hmem : inst.toBinary∈parts.map Except.ok := hparts ▸ List.mem_map_of_mem hinst
  obtain ⟨part,-,hpart⟩ := List.mem_map.mp hmem
  exact ⟨part,hpart.symm⟩

section Load

variable {g : Graph} {exportOrder : List Name} {e : Emitted} {bytes : List UInt8}
  {store : InstructionStore}

theorem relocate_node (he : EmittedGraph g exportOrder e)
    (hroom : store.instructions.length+e.instructions.length ≤ 2^28-5) {k id : Nat} {node : Node}
    {inst : AsmInstruction} {part : List UInt8} (hk : e.order[k]?=some id)
    (hnode : g.heap[id]?=some node) (hpart : inst.toBinary=.ok part)
    (hemit : EmittedAs g e.order node inst) (new : Instruction)
    (hnew : new=relocateInstruction e.sephi (BitVec.ofNat 32 store.instructions.length) true k
      inst.record) :
    (∃ o,node.opcode=.op o ∧ new.opcode=o.bits) ∧
      LoadedLiteral g e.order store.instructions.length node.input1 new.literal1 ∧
      LoadedLiteral g e.order store.instructions.length node.input2 new.literal2 ∧
      LoadedSlot g e.order store.instructions.length node.destination1 new.destination1 ∧
      LoadedSlot g e.order store.instructions.length node.destination2 new.destination2 := by
  rw [he.length] at hroom
  have hsmall : e.order.length < 2^32 := by omega
  obtain ⟨hconst1,hconst2⟩ := isInList_constants he hsmall hk hnode
  obtain ⟨hlabel1,hlabel2⟩ := isInList_labels he hsmall hk hnode
  obtain ⟨⟨first,hfirst⟩,second,hsecond⟩ := AsmInstruction.toBinary_literals hpart
  subst hnew
  refine ⟨?_,?_,?_,?_,?_⟩
  · obtain ⟨node',hnode',hop⟩ := he.nodes id (List.mem_of_getElem? hk)
    obtain rfl : node=node' := Option.some.inj (hnode.symm.trans hnode')
    cases ho : node.opcode with
    | OUTD => simp [ho,Opcode.isSpecial] at hop
    | OUTS => simp [ho,Opcode.isSpecial] at hop
    | op o =>
      refine ⟨o,rfl,?_⟩
      simp [relocateInstruction,AsmInstruction.record,hemit.opcode,ho,Opcode.opcode,
        OpcodeType.bits]
  · exact relocate_literal hroom hemit.literal1 hfirst hlabel1
  · have hsame := hemit.literal2
    have hno : g.labelTarget node.input2=none := by
      rw [← hsame]
      unfold Graph.labelTarget
      split
      · rename_i label hlit
        rw [hlit] at hsecond
        cases hsecond
      · rfl
    refine relocate_literal hroom ?_ hsecond (by simp [hlabel2,hno])
    rw [LiteralValue,hno]
    exact hsame
  · exact relocate_slot hroom hemit.slot1 hconst1
  · exact relocate_slot hroom hemit.slot2 hconst2

theorem load_node (he : EmittedGraph g exportOrder e) (hg : WellFormed g)
    (hfile : e.file=.ok bytes)
    (hroom : store.instructions.length+e.instructions.length ≤ 2^28-5)
    (hknown : ∀r∈e.externalReferences,(findExport store.exports (cString r.name)).isSome)
    (behind : Behind) {k id : Nat} (hk : e.order[k]?=some id) :
    ∃ node inst,g.heap[id]?=some node ∧
      (loadedStore behind store e.sephi true).instructions[store.instructions.length+k]?=
        some inst ∧
      LoadedNode g e.order store.exports store.instructions.length id node inst := by
  have hsmall : e.order.length < 2^32 := by
    rw [← he.length]
    omega
  obtain ⟨node,hnode,-⟩ := he.nodes id (List.mem_of_getElem? hk)
  obtain ⟨inst,hinst,hemit⟩ := he.instruction k id node hk hnode
  obtain ⟨part,hpart⟩ := Emitted.toBinary_ok hfile inst (List.mem_of_getElem? hinst)
  obtain ⟨new,hnew⟩ : ∃ new,new=relocateInstruction e.sephi
    (BitVec.ofNat 32 store.instructions.length) true k inst.record := ⟨_,rfl⟩
  obtain ⟨hopcode,hlit1,hlit2,hdest1,hdest2⟩ :=
    relocate_node he hroom hk hnode hpart hemit new hnew
  have hliteral : new.instructionLiteral=node.literalType.bits := by
    rw [hnew,← hemit.literalType]
    rfl
  have hmarker : new.marker=inst.record.marker := by rw [hnew]; rfl
  have hone := hemit.oneOutput he.nodup
  have hboth := fun d => hemit.bothOutputs (d := d) he.nodup
  rw [← hmarker] at hone hboth
  have hcount : e.sephi.instructions.length=e.instructions.length := by simp [Emitted.sephi]
  have hplaced : (loadedStore behind store e.sephi true).instructions[
      store.instructions.length+k]?=
        some (e.sephi.externalReferences.foldl (resolveNamed store.exports k) new) := by
    have hrecord : e.sephi.instructions[k]?=some inst.record := by simp [Emitted.sephi,hinst]
    rw [loadedStore,placedStore,List.getElem?_append_right (Nat.le_add_right _ _),
      Nat.add_sub_cancel_left,List.getElem?_mapIdx,hrecord,Option.map_some,hnew,
      placedInstruction_inside]
    · rw [hcount]
      exact List.forall_mem_map.mpr (externs_number_lt he hg)
    · exact List.forall_mem_map.mpr hknown
  obtain ⟨hfree,hbinding⟩ := resolve_externs he hg hsmall hknown hk new
  refine ⟨node,_,hnode,hplaced,?_⟩
  by_cases hbound : ∃ symbol,Bound g id symbol
  · obtain ⟨symbol,hsymbol⟩ := hbound
    obtain ⟨result,-,hresult⟩ := hbinding symbol hsymbol
    rw [hresult]
    refine ⟨hopcode,hlit1,hlit2,fun h => absurd ⟨symbol,hsymbol⟩ h,hdest2,?_,hliteral,hone,hboth⟩
    intro symbol' hsymbol'
    obtain ⟨result',hfind',hresult'⟩ := hbinding symbol' hsymbol'
    refine ⟨result',hfind',?_⟩
    rw [← hresult,hresult']
    rfl
  · rw [hfree hbound]
    exact ⟨hopcode,hlit1,hlit2,fun _ => hdest1,hdest2,fun symbol h => absurd ⟨symbol,h⟩ hbound,
      hliteral,hone,hboth⟩

theorem load_export (he : EmittedGraph g exportOrder e)
    (hroom : store.instructions.length+e.instructions.length ≤ 2^28-5) {symbol : Name}
    (hsymbol : symbol∈exportOrder) :
    ∃ address,LoadedLabel g e.order store.instructions.length symbol address ∧
      ⟨address,cString (encode symbol)⟩∈newExports store e.sephi := by
  rw [he.length] at hroom
  obtain ⟨t,target,hlabel,ht,hmem⟩ := he.exports symbol hsymbol
  have hlt := (List.getElem?_eq_some_iff.mp ht).1
  refine ⟨_,⟨target,t,hlabel,ht,rfl⟩,?_⟩
  refine List.mem_map.mpr ⟨_,List.mem_map_of_mem hmem,?_⟩
  have hinc := increment_createDestination store.instructions.length t 0 0 (by omega) (by decide)
    (by decide)
  simp only [newExportNode,ExportedSymbol.record,Input.value,matchingOne,hinc]
  rfl

/-- A file that the assembler writes is loaded as the graph says. -/
theorem load_emitted (he : EmittedGraph g exportOrder e) (hg : WellFormed g)
    (hfile : e.file=.ok bytes) (hnames : e.ShortNames)
    (hroom : store.instructions.length+e.instructions.length ≤ 2^28-5)
    (hknown : ∀r∈e.externalReferences,(findExport store.exports (cString r.name)).isSome)
    (behind : Behind) :
    ∃ info store',loadFile behind store (some bytes) true=some (info,store') ∧ info.error=0 ∧
      (∀ (k id : Nat),e.order[k]?=some id → ∃ node inst,g.heap[id]?=some node ∧
        store'.instructions[store.instructions.length+k]?=some inst ∧
          LoadedNode g e.order store.exports store.instructions.length id node inst) ∧
      ∀symbol∈exportOrder,∃ address,LoadedLabel g e.order store.instructions.length symbol address ∧
        ⟨address,cString (encode symbol)⟩∈store'.exports := by
  have hcount : e.sephi.instructions.length=e.instructions.length := by simp [Emitted.sephi]
  have hrefs : ∀ref∈e.sephi.externalReferences,
      ref.destination.instructionNumber.toNat < e.sephi.instructions.length ∧
        (findExport store.exports ref.name).isSome := by
    rw [hcount]
    exact List.forall_mem_map.mpr fun r hr => ⟨externs_number_lt he hg r hr,hknown r hr⟩
  have hload := loadFile_of_valid behind store bytes true e.sephi
    (Emitted.parse_file hfile hnames) (by omega) (by omega) hrefs
  refine ⟨_,_,hload,rfl,?_,?_⟩
  · intro k id hk
    exact load_node he hg hfile hroom hknown behind hk
  · intro symbol hsymbol
    obtain ⟨address,haddress,hmem⟩ := load_export he hroom hsymbol
    exact ⟨address,haddress,List.mem_append_right _ hmem⟩

end Load

/-- Every program that is assembled without an error is loaded behind the programs that export its
external names, each node at its place, with its edges, literals and exports moved there, whatever
lies behind the store. -/
theorem assemble_then_load (input : List Name) (parsed g : Graph) (exportOrder : List Name)
    (e : Emitted) (bytes : List UInt8) (store : InstructionStore)
    (hparse : parseCreateIrGraph input=.ok parsed) (hoptimize : optimizeGraph parsed=.ok g)
    (horder : exportOrder.Perm g.exports)
    (hemit : graphToInstructions g exportOrder=some (.ok e)) (hfile : e.file=.ok bytes)
    (hnames : e.ShortNames)
    (hroom : store.instructions.length+e.instructions.length ≤ 2^28-5)
    (hknown : ∀r∈e.externalReferences,(findExport store.exports (cString r.name)).isSome)
    (behind : Behind) :
    (e.order.Nodup ∧ ∀id∈g.nodes,∀ node,g.heap[id]?=some node → node.opcode.isSpecial=false →
      id∈e.order) ∧
    ∃ info store',loadFile behind store (some bytes) true=some (info,store') ∧ info.error=0 ∧
      (∀ (k id : Nat),e.order[k]?=some id → ∃ node inst,g.heap[id]?=some node ∧
        store'.instructions[store.instructions.length+k]?=some inst ∧
          LoadedNode g e.order store.exports store.instructions.length id node inst) ∧
      ∀symbol∈g.exports,∃ address,LoadedLabel g e.order store.instructions.length symbol address ∧
        ⟨address,cString (encode symbol)⟩∈store'.exports := by
  have hg := optimizeGraph_wellFormed parsed g (parse_wellFormed input parsed hparse) hoptimize
  have he := graphToInstructions_emitted exportOrder e hg hemit
  obtain ⟨info,store',hload,herror,hnodes,hexports⟩ :=
    load_emitted he hg hfile hnames hroom hknown behind
  exact ⟨⟨he.nodup,he.covers⟩,info,store',hload,herror,hnodes,
    fun symbol hsymbol => hexports symbol (horder.mem_iff.mpr hsymbol)⟩

instance (e : Emitted) : Decidable e.ShortNames := inferInstanceAs (Decidable (_ ∧ _))

/-- The steps of the assembler, from the lines to the file. -/
def assembleFile (input exportOrder : List Name) : Option (Graph × Emitted × List UInt8) := do
  let parsed ← (parseCreateIrGraph input).toOption
  let g ← (optimizeGraph parsed).toOption
  let emitted ← graphToInstructions g exportOrder
  let e ← emitted.toOption
  let bytes ← e.file.toOption
  return (g,e,bytes)

theorem eq_ok_of_toOption {ε α : Type} {x : Except ε α} {a : α} (h : x.toOption=some a) :
    x=.ok a := by
  cases x with
  | error e => cases h
  | ok b => exact congrArg Except.ok (Option.some.inj h)

theorem assembleFile_steps {input exportOrder : List Name} {g : Graph} {e : Emitted}
    {bytes : List UInt8} (h : assembleFile input exportOrder=some (g,e,bytes)) :
    ∃ parsed,parseCreateIrGraph input=.ok parsed ∧ optimizeGraph parsed=.ok g ∧
      graphToInstructions g exportOrder=some (.ok e) ∧ e.file=.ok bytes := by
  obtain ⟨parsed,hparse,h⟩ := Option.bind_eq_some_iff.mp h
  obtain ⟨g',hoptimize,h⟩ := Option.bind_eq_some_iff.mp h
  obtain ⟨emitted,hemit,h⟩ := Option.bind_eq_some_iff.mp h
  obtain ⟨e',hok,h⟩ := Option.bind_eq_some_iff.mp h
  obtain ⟨bytes',hfile,h⟩ := Option.bind_eq_some_iff.mp h
  cases h
  exact ⟨parsed,eq_ok_of_toOption hparse,eq_ok_of_toOption hoptimize,
    by rw [hemit,eq_ok_of_toOption hok],eq_ok_of_toOption hfile⟩

private def counterProgram : List Name :=
  ["extern print".toList,"x = ADD y 1".toList,"main:".toList,"y = DUP x".toList,
    "t = MUL x main".toList,"OUTD t".toList,"print = DUP x".toList,"export main".toList]

private def printStore : InstructionStore :=
  ⟨[⟨0,0,0,0,0,0,0⟩],[⟨7,encode "print".toList⟩]⟩

/-- A program with a cycle, a label literal, an output, an external symbol and an export. -/
theorem assemble_then_load_counter :
    ∃ (g : Graph) (e : Emitted) (bytes : List UInt8) (info : LoadedCodeInfo)
      (store' : InstructionStore),
      assembleFile counterProgram ["main".toList]=some (g,e,bytes) ∧
      loadFile .clear printStore (some bytes) true=some (info,store') ∧ info.error=0 ∧
      ∀ (k id : Nat),e.order[k]?=some id → ∃ node inst,g.heap[id]?=some node ∧
        store'.instructions[1+k]?=some inst ∧
          LoadedNode g e.order printStore.exports 1 id node inst := by
  have hcheck : (assembleFile counterProgram ["main".toList]).any (fun r =>
      r.1.exports=["main".toList] ∧ r.2.1.ShortNames ∧ r.2.1.instructions.length=5 ∧
        ∀x∈r.2.1.externalReferences,(findExport printStore.exports (cString x.name)).isSome)=
          true := by
    decide +kernel
  obtain ⟨⟨g,e,bytes⟩,hassemble,hcheck⟩ := (Option.any_eq_true _ _).mp hcheck
  obtain ⟨hexports,hnames,hlen,hknown⟩ := of_decide_eq_true hcheck
  obtain ⟨parsed,hparse,hoptimize,hemit,hfile⟩ := assembleFile_steps hassemble
  obtain ⟨-,info,store',hload,herror,hnodes,-⟩ := assemble_then_load counterProgram parsed g
    ["main".toList] e bytes printStore hparse hoptimize (by rw [hexports]) hemit hfile hnames
    (by rw [hlen]; decide) hknown .clear
  exact ⟨g,e,bytes,info,store',hassemble,hload,herror,hnodes⟩

end Manchester.Assembler
