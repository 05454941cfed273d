import Manchester.Assembler.Marker
import Manchester.Assembler.Operands

namespace Manchester.Assembler

/-- The instructions of a store that holds the graph and nothing else, each as its node asks. -/
structure ImageOf (g : Graph) (instructions : List Instruction) : Prop where
  length : instructions.length=g.instructionNodes.length
  room : g.instructionNodes.length ≤ 2^28-5
  nodup : g.instructionNodes.Nodup
  loaded : ∀ (k id : Nat) (node : Node) (inst : Instruction),g.instructionNodes[k]?=some id →
    g.heap[id]?=some node → instructions[k]?=some inst →
      LoadedAs g g.instructionNodes 0 node inst ∧
      (∀ slot,LoadedSlot g g.instructionNodes 0 (node.slot slot) (inst.slot slot)) ∧
      (node.destination2=none → inst.marker=oneOutputMarker) ∧
      ∀ d,node.destination2=some d → ¬FirstPort g d → inst.marker=bothOutputMarker

namespace Loaded

variable {input : List Name} {parsed g : Graph} {exportOrder : List Name} {e : Emitted}
  {bytes : List UInt8} {store' : InstructionStore} {info : LoadedCodeInfo}

theorem image (h : Loaded input parsed g exportOrder e bytes ⟨[],[]⟩ store' info)
    (hexterns : g.externalReferences=[]) : ImageOf g store'.instructions := by
  obtain ⟨-,-,-,-,he,horder,hwell⟩ := h.optimized
  have hfree : ∀ id symbol,¬Bound g id symbol := by
    intro id symbol hbound
    obtain ⟨ids,hmem,-⟩ := hbound
    rw [hexterns] at hmem
    cases hmem
  have hrefs : e.fileSephi.externalReferences=[] := by
    rw [List.eq_nil_iff_forall_not_mem]
    intro x hx
    obtain ⟨r,hr,-⟩ := List.mem_map.mp hx
    obtain ⟨_,id,symbol,-,hbound,-⟩ := (mem_externs he hwell r).mp hr
    exact hfree id symbol hbound
  have hroom : e.order.length ≤ 2^28-5 := by
    have hroom := h.room
    rw [horder]
    simpa using hroom
  obtain ⟨behind,hload⟩ := h.load
  obtain ⟨sephi,hloads⟩ := loadFile_ok _ _ _ _ _ _ hload (by simp [h.ok])
  obtain rfl : sephi=e.fileSephi :=
    Option.some.inj (hloads.1.1.symm.trans (Emitted.parse_fileSephi h.file))
  obtain ⟨-,hstore⟩ := loadFile_loads _ _ _ _ _ _ _ hload hloads
  have hlength : store'.instructions.length=g.instructionNodes.length := by
    rw [hstore,← horder,← he.length]
    simp [loadedStore,placedStore,Emitted.fileSephi]
  refine ⟨hlength,horder ▸ hroom,horder ▸ he.nodup,fun k id node inst hk hnode hinst => ?_⟩
  rw [← horder] at hk
  obtain ⟨ainst,hainst,has⟩ := he.instruction k id node hk hnode
  obtain ⟨part,hpart⟩ := Emitted.toBinary_ok h.file ainst (List.mem_of_getElem? hainst)
  obtain ⟨loaded,hplace,hloaded⟩ := load_line he hwell h.file (by simpa using hroom) hload h.ok hk
    hnode
  rw [List.length_nil,Nat.zero_add] at hplace
  obtain rfl : inst=loaded := Option.some.inj (hinst.symm.trans hplace)
  let empty : InstructionStore := ⟨[],[]⟩
  have hnew : inst=relocateInstruction e.fileSephi (BitVec.ofNat 32 empty.instructions.length) true
      k ainst.record := by
    have hrecord := load_record he hwell h.file hload h.ok hainst
    rw [hrefs,List.foldl_nil,List.length_nil,Nat.zero_add] at hrecord
    exact Option.some.inj (hinst.symm.trans hrecord)
  have hfits : empty.instructions.length+e.instructions.length ≤ 2^28-5 := by
    rw [he.length]
    simpa [empty] using hroom
  obtain ⟨-,-,-,hslot1,hslot2⟩ := relocate_node he hfits hk hnode hpart has inst hnew
  rw [horder] at hloaded hslot1 hslot2 has
  have hmarker : inst.marker=ainst.record.marker := by rw [hnew]; rfl
  refine ⟨hloaded,fun slot => ?_,fun hnone => ?_,fun d hd hport => ?_⟩
  · cases slot with
    | destination1 => exact hslot1
    | destination2 => exact hslot2
  · rw [hmarker]
    exact has.oneOutput (horder ▸ he.nodup) (by simp [hnone])
  · rw [hmarker]
    exact has.bothOutputs (horder ▸ he.nodup) hd (firstPort_iff.not.mp hport)

end Loaded

end Manchester.Assembler
