import Manchester.Assembler.Addressing
import Manchester.Loader.Confined
import Manchester.Loader.ExportList
import Manchester.Loader.Frame
import Manchester.Pipeline.LoadResult

namespace Manchester

/-- A file that the assembler has written. -/
def Assembled (bytes : List UInt8) : Prop :=
  ∃ (input exportOrder : List Assembler.Name) (g : Assembler.Graph) (e : Assembler.Emitted),
    Assembler.assembleFile input exportOrder=some (g,e,bytes)

/-- Each export names an instruction of the file. -/
def ExportsInside (sephi : Sephi) : Prop :=
  ∀symbol∈sephi.exports,
    (destinationToAddress symbol.localDestination).toNat < sephi.instructions.length

theorem Assembled.exportsInside {bytes : List UInt8} (h : Assembled bytes) {sephi : Sephi}
    (hparse : parseSephi bytes=some sephi) : ExportsInside sephi := by
  obtain ⟨input,exportOrder,g,e,hassemble⟩ := h
  obtain ⟨parsed,hread,hoptimize,hemit,hfile⟩ := Assembler.assembleFile_steps hassemble
  have hwell := Assembler.optimizeGraph_wellFormed parsed g
    (Assembler.parse_wellFormed input parsed hread) hoptimize
  have he := Assembler.graphToInstructions_emitted exportOrder e hwell hemit
  obtain rfl := Option.some.inj ((Assembler.Emitted.parse_fileSephi hfile).symm.trans hparse)
  intro symbol hsymbol
  obtain ⟨x,hx,rfl⟩ := List.mem_map.mp hsymbol
  obtain ⟨name,-,t,target,-,ht,rfl⟩ := Assembler.graphToInstructions_exports hemit x hx
  have hlt := (List.getElem?_eq_some_iff.mp ht).1
  have haddress : (destinationToAddress (BitVec.ofNat 32 (Assembler.createDestination t
      Assembler.Input.INPUT_ONE.value Assembler.matchingOne))).toNat ≤ t := by
    rw [destinationToAddress_toNat,BitVec.toNat_ofNat,
      Assembler.createDestination_mod t _ _ (by decide) (by decide)]
    have hzero : 8*Assembler.Input.INPUT_ONE.value+Assembler.matchingOne=0 := rfl
    omega
  have hlength : e.fileSephi.instructions.length=e.order.length := by
    rw [← he.length]
    exact List.length_map _
  rw [hlength]
  exact Nat.lt_of_le_of_lt haddress hlt

/-- The references of an assembled file are to its own instructions. -/
theorem Assembled.keepsInside {bytes : List UInt8} (h : Assembled bytes)
    (store : InstructionStore) : KeepsInside store (some bytes) := by
  obtain ⟨input,exportOrder,g,e,hassemble⟩ := h
  obtain ⟨parsed,hread,hoptimize,hemit,hfile⟩ := Assembler.assembleFile_steps hassemble
  have hwell := Assembler.optimizeGraph_wellFormed parsed g
    (Assembler.parse_wellFormed input parsed hread) hoptimize
  have he := Assembler.graphToInstructions_emitted exportOrder e hwell hemit
  intro sephi hadmitted
  obtain rfl := Option.some.inj ((Assembler.Emitted.parse_fileSephi hfile).symm.trans hadmitted.1)
  apply writesInside_of_lt
  have hcount : e.fileSephi.instructions.length=e.instructions.length := List.length_map _
  rw [hcount]
  exact List.forall_mem_map.mpr (Assembler.externs_number_lt he hwell)

/-- The list after the OS has been loaded. -/
def bootExports (os : Option (List UInt8)) : ExportHeap :=
  match os.bind parseSephi with
  | none => .empty
  | some sephi => (ExportHeap.empty.addExports 0 sephi.exports).1

theorem Boots.lists {os : Option (List UInt8)} {image : InstructionStore} (h : Boots os image) :
    (bootExports os).Lists image.exports := by
  obtain ⟨info,hload,herror⟩ := h.load .clear
  obtain ⟨sephi,hloads⟩ := loadFile_ok _ _ _ _ _ _ hload herror
  obtain ⟨-,rfl⟩ := loadFile_loads _ _ _ _ _ _ _ hload hloads
  have hkept : sephi.keptExports .clear []=[] := by
    apply exportsAfter_inside
    intro ref href _
    have hknown := hloads.1.2 ref (mem_reachedReferences href).1
    simp [findExport] at hknown
  rw [bootExports,hloads.1.1,loadedStore,hkept]
  exact (ExportHeap.addExports_lists ExportHeap.lists_empty 0 sephi.exports).1

theorem loadFile_failed_exports {behind : Behind} {store store' : InstructionStore}
    {file : Option (List UInt8)} {isPrivileged : Bool} {info : LoadedCodeInfo}
    (hload : loadFile behind store file isPrivileged=some (info,store')) (herror : info.error=-1)
    (hinside : KeepsInside store file) : store'.exports=store.exports := by
  cases loadFile_outcome _ _ _ _ _ _ hload with
  | rejected => rfl
  | aborted sephi hadmitted _ => exact exportsAfter_inside behind _ (hinside sephi hadmitted)
  | loaded => exact absurd herror (show ¬(0 : Int)=-1 by decide)

namespace StoreRound

/-- The list after the round, and the first node that the load of a LOD has added to it. -/
def addedExports (heap : ExportHeap) (round : StoreRound) : ExportHeap × Option Nat :=
  match round.target with
  | none => (heap,none)
  | some inst =>
    if inst.opcode=OpcodeType.LOD.bits then
      match loadFile round.env.behind round.before round.file false,
        round.file.bind parseSephi with
      | some (info,_),some sephi =>
        if info.error=-1 then (heap,none)
        else heap.addExports (BitVec.ofNat 32 round.before.instructions.length) sephi.exports
      | _,_ => (heap,none)
    else (heap,none)

/-- What the loop over the exports of a load comes to. -/
def walked (heap : ExportHeap) (round : StoreRound) : List ExportNode :=
  (round.addedExports heap).1.walk (round.addedExports heap).2

variable {overrun : TableOverrun} {round : StoreRound} {heap : ExportHeap}

/-- A successful LOD: the list gets the exports of its file, and the loop comes to them alone. -/
theorem addedExports_of_loads (hload : round.isLoad) {sephi : Sephi} {info : LoadedCodeInfo}
    (hfile : loadFile round.env.behind round.before round.file false=some (info,round.after))
    (hloads : Loads round.before round.file sephi) (h : heap.Lists round.before.exports) :
    (round.addedExports heap).1.Lists (round.before.exports++newExports round.before sephi) ∧
      round.walked heap=newExports round.before sephi := by
  obtain ⟨inst,htarget,hop⟩ := hload
  have hzero := loads_error _ _ _ _ _ _ sephi hfile hloads
  have hadded : round.addedExports heap=
      heap.addExports (BitVec.ofNat 32 round.before.instructions.length) sephi.exports := by
    simp [addedExports,htarget,hop,hfile,hloads.1.1,hzero]
  rw [walked,hadded]
  exact ExportHeap.addExports_lists h _ _

/-- One round: the list goes on being that of the store. -/
theorem Legal.lists (hlegal : round.Legal overrun) (h : heap.Lists round.before.exports)
    (hinside : round.isLoad → KeepsInside round.before round.file) :
    (round.addedExports heap).1.Lists round.after.exports := by
  cases hlegal.kind with
  | ignored htarget hafter =>
    rw [hafter,addedExports,htarget]
    exact h
  | fired inst htarget hload hafter =>
    rw [hafter,addedExports,htarget]
    simpa only [if_neg hload] using h
  | loadFailed inst htarget hload info hfile herror =>
    have hkeep : round.addedExports heap=(heap,none) := by
      simp only [addedExports,htarget,if_pos hload,hfile]
      cases round.file.bind parseSephi with
      | none => rfl
      | some sephi => exact if_pos herror
    rw [hkeep,loadFile_failed_exports hfile herror (hinside ⟨inst,htarget,hload⟩)]
    exact h
  | loaded inst htarget hload info hfile herror =>
    obtain ⟨sephi,hloads⟩ := loadFile_ok _ _ _ _ _ _ hfile herror
    obtain ⟨-,hafter⟩ := loadFile_loads _ _ _ _ _ _ _ hfile hloads
    have hkept : sephi.keptExports round.env.behind round.before.exports=round.before.exports :=
      exportsAfter_inside _ _ (hinside ⟨inst,htarget,hload⟩ sephi hloads.1)
    have hexports : round.after.exports=round.before.exports++newExports round.before sephi := by
      rw [hafter,loadedStore,hkept]
    rw [hexports]
    exact (addedExports_of_loads ⟨inst,htarget,hload⟩ hfile hloads h).1

end StoreRound

/-- The rounds of a run, each with the list before it. -/
def withExports : ExportHeap → List StoreRound → List (ExportHeap × StoreRound)
  | _,[] => []
  | heap,round::rounds => (heap,round)::withExports (round.addedExports heap).1 rounds

theorem withExports_lists {overrun : TableOverrun} {image : InstructionStore}
    {rounds : List StoreRound} (hrun : StoreRuns overrun image rounds) {heap : ExportHeap}
    (h : heap.Lists image.exports)
    (hinside : ∀round∈rounds,round.isLoad → KeepsInside round.before round.file) :
    ∀p∈withExports heap rounds,p.2∈rounds ∧ p.2.Legal overrun ∧ p.1.Lists p.2.before.exports := by
  induction hrun generalizing heap with
  | nil => intro p hp; cases hp
  | cons round rounds hlegal _ ih =>
    intro p hp
    obtain rfl | hp := List.mem_cons.mp hp
    · exact ⟨by simp,hlegal,h⟩
    · obtain ⟨hmem,hrest⟩ := ih (StoreRound.Legal.lists hlegal h (hinside round (by simp)))
        (fun r hr => hinside r (by simp [hr])) p hp
      exact ⟨by simp [hmem],hrest⟩

/-- The destination of an export, once its file has been loaded in this round. -/
def StoreRound.moved (round : StoreRound) (symbol : ExportSymbol) : DestinationType :=
  incrementDestinationAddress symbol.localDestination
    (BitVec.ofNat 32 round.before.instructions.length)

/-- The instruction is one of those that the round has loaded. -/
def StoreRound.Brings (round : StoreRound) (sephi : Sephi) (d : DestinationType) : Prop :=
  round.before.instructions.length ≤ (destinationToAddress d).toNat ∧
    (destinationToAddress d).toNat <
      round.before.instructions.length+sephi.instructions.length

/-- The loop over the list of exports ends at these two exports of the file, and the round sends
its first two packets there. -/
structure CallsMain (heap : ExportHeap) (round : StoreRound) (sephi : Sephi)
    (arg ret : ExportSymbol) : Prop where
  isArg : arg∈sephi.exports ∧ arg.name=mainArgName
  isRet : ret∈sephi.exports ∧ ret.name=mainReturnName
  foundArg : findLastExport (round.walked heap) mainArgName=some ⟨round.moved arg,mainArgName⟩
  foundRet : findLastExport (round.walked heap) mainReturnName=
    some ⟨round.moved ret,mainReturnName⟩
  sent : ∃ inst ready,round.target=some inst ∧ round.sent=
    dupPacket round.address (round.next.token2.getD round.env.unsetToken).data
        round.next.token1.tag (round.moved arg)::
      dupPacket round.address (inst.destination1.setWidth 64) round.next.token1.tag
        (round.moved ret)::ready

/-- A successful load of a file whose exports it has finds the last one of a name. -/
theorem findLastExport_new (round : StoreRound) (sephi : Sephi) (name : List UInt8)
    (h : ∃symbol∈sephi.exports,symbol.name=name) :
    ∃symbol∈sephi.exports,symbol.name=name ∧
      findLastExport (newExports round.before sephi) name=some ⟨round.moved symbol,name⟩ := by
  have hne : (newExports round.before sephi).filter (fun cur => cur.name==name) ≠ [] := by
    obtain ⟨symbol,hsymbol,hname⟩ := h
    apply List.ne_nil_of_mem
    exact List.mem_filter.mpr ⟨List.mem_map_of_mem hsymbol,by simpa [newExportNode] using hname⟩
  have hlast := List.getLast?_eq_some_getLast hne
  obtain ⟨hmem,hname⟩ := List.mem_filter.mp (List.getLast_mem hne)
  obtain ⟨symbol,hsymbol,hnode⟩ := List.mem_map.mp hmem
  have hsame : symbol.name=name := by
    rw [← hnode] at hname
    simpa [newExportNode] using hname
  refine ⟨symbol,hsymbol,hsame,?_⟩
  rw [findLastExport,hlast,← hnode,newExportNode,hsame]
  rfl

theorem StoreRound.Legal.callsMain {overrun : TableOverrun} {round : StoreRound}
    {heap : ExportHeap} {sephi : Sephi} (hlegal : round.Legal overrun)
    (h : heap.Lists round.before.exports) (hload : round.isLoad)
    (hloads : Loads round.before round.file sephi) (hmain : ExportsMain sephi) :
    ∃ arg ret,CallsMain heap round sephi arg ret := by
  obtain ⟨inst,htarget,hop⟩ := hload
  have hnone : ∀ inst' : Instruction,round.target=some inst' → inst'=inst := by
    intro inst' htarget'
    exact Option.some.inj (htarget'.symm.trans htarget)
  cases hlegal.kind with
  | ignored htarget' =>
    rw [htarget] at htarget'
    cases htarget'
  | fired inst' htarget' hnot =>
    rw [hnone inst' htarget'] at hnot
    exact absurd hop hnot
  | loadFailed inst' htarget' _ info hfile herror =>
    rw [loads_error _ _ _ _ _ _ sephi hfile hloads] at herror
    exact absurd herror (by decide)
  | loaded inst' htarget' _ info hfile herror hsent =>
    obtain ⟨-,hwalked⟩ := addedExports_of_loads ⟨inst,htarget,hop⟩ hfile hloads h
    have hexports : info.exports=newExports round.before sephi := by
      rw [(loadFile_loads _ _ _ _ _ _ _ hfile hloads).1,loadedInfo]
    obtain ⟨arg,harg,hargName,hfoundArg⟩ := findLastExport_new round sephi _ hmain.1
    obtain ⟨ret,hret,hretName,hfoundRet⟩ := findLastExport_new round sephi _ hmain.2
    refine ⟨arg,ret,⟨harg,hargName⟩,⟨hret,hretName⟩,by rw [hwalked]; exact hfoundArg,
      by rw [hwalked]; exact hfoundRet,inst',addReadyInstructions overrun (info.slice round.after),
      htarget',?_⟩
    rw [hsent,hexports,mainPackets,hfoundArg,hfoundRet]
    rfl

/-- In every run, a successful LOD of an assembled file that exports main calls two exports of
that file: the packets go to the instructions it has loaded as far as their addresses have 28
bits. -/
theorem main_binding (overrun : TableOverrun) (os : Option (List UInt8)) (image : InstructionStore)
    (hboot : Boots os image) (rounds : List StoreRound) (hrun : StoreRuns overrun image rounds)
    (hassembled : ∀round∈rounds,round.isLoad → ∀ bytes,round.file=some bytes → Assembled bytes) :
    ∀p∈withExports (bootExports os) rounds,p.2.isLoad → ∀ sephi,
      Loads p.2.before p.2.file sephi → ExportsMain sephi → ∃ arg ret,
        CallsMain p.1 p.2 sephi arg ret ∧
          ∀symbol∈[arg,ret],p.2.Brings sephi (p.2.moved symbol) ↔
            p.2.before.instructions.length+
              (destinationToAddress symbol.localDestination).toNat < 2^28 := by
  intro p hp hload sephi hloads hmain
  have hkeeps : ∀round∈rounds,round.isLoad → KeepsInside round.before round.file := by
    intro round hround hload
    cases hfile : round.file with
    | none => intro sephi hadmitted; cases hadmitted.1
    | some bytes => exact (hassembled round hround hload bytes hfile).keepsInside _
  obtain ⟨hround,hlegal,hlists⟩ := withExports_lists hrun hboot.lists hkeeps p hp
  obtain ⟨arg,ret,hcalls⟩ := hlegal.callsMain hlists hload hloads hmain
  refine ⟨arg,ret,hcalls,?_⟩
  obtain ⟨bytes,hbytes,hparse⟩ := Option.bind_eq_some_iff.mp hloads.1.1
  have hinside := (hassembled p.2 hround hload bytes hbytes).exportsInside hparse
  intro symbol hsymbol
  have hexport : symbol∈sephi.exports := by
    simp only [List.mem_cons,List.not_mem_nil,or_false] at hsymbol
    obtain rfl | rfl := hsymbol
    · exact hcalls.isArg.1
    · exact hcalls.isRet.1
  rw [StoreRound.Brings,StoreRound.moved,increment_in_module_iff]
  exact and_iff_right (hinside symbol hexport)

theorem exists_withExports (heap : ExportHeap) {rounds : List StoreRound} {round : StoreRound}
    (h : round∈rounds) : ∃ heap',(heap',round)∈withExports heap rounds := by
  induction rounds generalizing heap with
  | nil => cases h
  | cons first rounds ih =>
    obtain rfl | h := List.mem_cons.mp h
    · exact ⟨heap,List.mem_cons_self⟩
    · obtain ⟨heap',hmem⟩ := ih (first.addedExports heap).1 h
      exact ⟨heap',List.mem_cons_of_mem _ hmem⟩

section Repeated

variable (overrun : TableOverrun) {file : List UInt8} {sephi : Sephi} {lod : Instruction}

/-- A LOD at address 0 can load a file without references as long as the counts fit. -/
theorem exists_load_round (hparse : parseSephi file=some sephi)
    (hrefs : sephi.externalReferences=[]) (hop : lod.opcode=OpcodeType.LOD.bits)
    {store : InstructionStore} (hlod : store.instructions[0]?=some lod)
    (hroom : store.instructions.length+sephi.instructions.length < 2^31) :
    ∃ round : StoreRound,round.before=store ∧ round.Legal overrun ∧ round.target=some lod ∧
      round.file=some file ∧ round.after.instructions[0]?=some lod ∧
        round.after.instructions.length=
          store.instructions.length+sephi.instructions.length := by
  have hload := loadFile_of_valid .clear store file false sephi hparse (by omega) (by omega)
    (by simp [hrefs])
  have hne : ¬(loadedInfo store sephi).error=-1 := show ¬(0 : Int)=-1 by decide
  let env : StoreEnv := ⟨⟨0,0,0⟩,fun _ => some file,.clear⟩
  let next : ReadyTokenPairType := ⟨⟨0,0x61,0⟩,none⟩
  have hlod' : store.instructions[(destinationToAddress next.token1.destination).toNat]?=
      some lod := by
    rw [show (destinationToAddress next.token1.destination).toNat=0 from by decide]
    exact hlod
  obtain ⟨sent,hpair⟩ : ∃ sent,storePair overrun env store next=
      some (loadedStore .clear store sephi false,sent) := by
    simp only [storePair,hlod',if_pos hop,loadProgram,env,hload,if_neg hne]
    exact ⟨_,rfl⟩
  refine ⟨⟨store,env,next,loadedStore .clear store sephi false,sent⟩,rfl,hpair,hlod',rfl,?_,?_⟩
  · have hpos := (List.getElem?_eq_some_iff.mp hlod).1
    rw [loadedStore,placedStore,List.getElem?_append_left hpos,hlod]
  · rw [loadedStore,placedStore,List.length_append,List.length_mapIdx]

/-- A LOD can load the file again and again. -/
theorem exists_load_run (hparse : parseSephi file=some sephi)
    (hrefs : sephi.externalReferences=[]) (hop : lod.opcode=OpcodeType.LOD.bits) (n : Nat)
    {store : InstructionStore} (hlod : store.instructions[0]?=some lod)
    (hroom : store.instructions.length+sephi.instructions.length*(n+1) < 2^31) :
    ∃ rounds,∃round∈rounds,StoreRuns overrun store rounds ∧ (∀r∈rounds,r.file=some file) ∧
      round.target=some lod ∧
        round.before.instructions.length=
          store.instructions.length+sephi.instructions.length*n := by
  induction n generalizing store with
  | zero =>
    obtain ⟨round,rfl,hlegal,htarget,hfile,-⟩ :=
      exists_load_round overrun hparse hrefs hop hlod (by omega)
    exact ⟨[round],round,by simp,.cons round [] hlegal (.nil _),by simpa using hfile,htarget,rfl⟩
  | succ n ih =>
    rw [Nat.mul_succ] at hroom
    obtain ⟨first,rfl,hlegal,-,hfile,hafter,hlength⟩ :=
      exists_load_round overrun hparse hrefs hop hlod
        (by have := Nat.le_mul_of_pos_right sephi.instructions.length (Nat.succ_pos n); omega)
    obtain ⟨rounds,round,hround,hrun,hfiles,htarget,hbefore⟩ := ih hafter (by omega)
    refine ⟨first::rounds,round,by simp [hround],.cons first rounds hlegal hrun,?_,htarget,?_⟩
    · rw [List.forall_mem_cons]
      exact ⟨hfile,hfiles⟩
    · rw [hbefore,hlength,Nat.mul_succ]
      omega

end Repeated

/-- The OS is one LOD and its two operands. -/
private def osLines : List Assembler.Name :=
  ["r = LOD x y","x = DUP 1","y = DUP 2","OUTD r"].map String.toList

private def mainNames : List Assembler.Name :=
  ["_main_arg_0_export","_main_return_location_export"].map String.toList

private def mainLines : List Assembler.Name :=
  ["_main_arg_0_export:","r = ADD x 1","_main_return_location_export:","x = ADD r 2","OUTD r",
    "export _main_arg_0_export","export _main_return_location_export"].map String.toList

private theorem boots_osLines :
    ∃ (os : List UInt8) (image : InstructionStore) (lod : Instruction),Assembled os ∧
      Boots (some os) image ∧ image.instructions[0]?=some lod ∧
        lod.opcode=OpcodeType.LOD.bits ∧ image.instructions.length=3 := by
  have hcheck : (Assembler.assembleFile osLines []).any (fun r =>
      (loadFile .clear ⟨[],[]⟩ (some r.2.2) true).any (fun l => l.1.error=0 ∧
        (l.2.instructions[0]?).map Instruction.opcode=some OpcodeType.LOD.bits ∧
          l.2.instructions.length=3))=true := by
    decide +kernel
  obtain ⟨⟨g,e,os⟩,hassemble,hcheck⟩ := (Option.any_eq_true _ _).mp hcheck
  obtain ⟨⟨info,image⟩,hload,hcheck⟩ := (Option.any_eq_true _ _).mp hcheck
  obtain ⟨herror,hlod,hlength⟩ := of_decide_eq_true hcheck
  obtain ⟨lod,hlod,hop⟩ := Option.map_eq_some_iff.mp hlod
  refine ⟨os,image,lod,⟨_,_,_,_,hassemble⟩,⟨_,info,hload,?_⟩,hlod,hop,hlength⟩
  rw [show info.error=0 from herror]
  decide

private theorem assembled_mainLines :
    ∃ (file : List UInt8) (sephi : Sephi),Assembled file ∧ parseSephi file=some sephi ∧
      sephi.externalReferences=[] ∧ sephi.instructions.length=2 ∧ ExportsMain sephi := by
  have hcheck : (Assembler.assembleFile mainLines mainNames).any (fun r =>
      r.2.1.fileSephi.externalReferences=[] ∧ r.2.1.fileSephi.instructions.length=2 ∧
        (∃symbol∈r.2.1.fileSephi.exports,symbol.name=mainArgName) ∧
          ∃symbol∈r.2.1.fileSephi.exports,symbol.name=mainReturnName)=true := by
    decide +kernel
  obtain ⟨⟨g,e,file⟩,hassemble,hcheck⟩ := (Option.any_eq_true _ _).mp hcheck
  obtain ⟨hrefs,hlength,harg,hret⟩ := of_decide_eq_true hcheck
  obtain ⟨parsed,-,-,-,hfile⟩ := Assembler.assembleFile_steps hassemble
  exact ⟨file,e.fileSephi,⟨_,_,_,_,hassemble⟩,Assembler.Emitted.parse_fileSephi hfile,hrefs,
    hlength,harg,hret⟩

/-- The OS loads the module `n` times, and is about to load it again. -/
private theorem exists_main_run (n : Nat) (hn : n ≤ 2^27) :
    ∃ (os file : List UInt8) (image : InstructionStore) (sephi : Sephi)
      (rounds : List StoreRound) (p : ExportHeap × StoreRound),
      Assembled os ∧ Boots (some os) image ∧ StoreRuns (fun _ => 0) image rounds ∧
      (∀round∈rounds,round.isLoad → ∀ bytes,round.file=some bytes → Assembled bytes) ∧
      p∈withExports (bootExports (some os)) rounds ∧ p.2.isLoad ∧
      Loads p.2.before p.2.file sephi ∧ ExportsMain sephi ∧ Assembled file ∧
      parseSephi file=some sephi ∧ sephi.instructions.length=2 ∧
      p.2.before.instructions.length=3+2*n := by
  obtain ⟨os,image,lod,hos,hboot,hlod,hop,hlength⟩ := boots_osLines
  obtain ⟨file,sephi,hassembled,hparse,hrefs,hcount,hmain⟩ := assembled_mainLines
  obtain ⟨rounds,round,hround,hrun,hfiles,htarget,hbefore⟩ :=
    exists_load_run (fun _ => 0) hparse hrefs hop n hlod (by rw [hlength,hcount]; omega)
  obtain ⟨heap,hmem⟩ := exists_withExports (bootExports (some os)) hround
  rw [hlength,hcount] at hbefore
  have hloads : Loads round.before round.file sephi := by
    rw [hfiles round hround]
    exact ⟨⟨hparse,by simp [hrefs]⟩,by simp [hrefs]⟩
  refine ⟨os,file,image,sephi,rounds,(heap,round),hos,hboot,hrun,?_,hmem,⟨lod,htarget,hop⟩,
    hloads,hmain,hassembled,hparse,hcount,hbefore⟩
  intro r hr _ bytes hbytes
  obtain rfl := Option.some.inj ((hfiles r hr).symm.trans hbytes)
  exact hassembled

/-- The second load of the same module calls the second copy. -/
theorem main_binding_second :
    ∃ (os : List UInt8) (image : InstructionStore) (rounds : List StoreRound)
      (p : ExportHeap × StoreRound) (sephi : Sephi) (arg ret : ExportSymbol),
      Boots (some os) image ∧ StoreRuns (fun _ => 0) image rounds ∧
      p∈withExports (bootExports (some os)) rounds ∧ p.2.before.instructions.length=5 ∧
      CallsMain p.1 p.2 sephi arg ret ∧ p.2.Brings sephi (p.2.moved arg) ∧
        p.2.Brings sephi (p.2.moved ret) := by
  obtain ⟨os,file,image,sephi,rounds,p,-,hboot,hrun,hfiles,hmem,hload,hloads,hmain,hassembled,
    hparse,hcount,hbefore⟩ := exists_main_run 1 (by decide)
  obtain ⟨arg,ret,hcalls,hbrings⟩ := main_binding (fun _ => 0) (some os) image hboot rounds hrun
    hfiles p hmem hload sephi hloads hmain
  have hsmall : ∀ symbol,symbol∈sephi.exports → p.2.before.instructions.length+
      (destinationToAddress symbol.localDestination).toNat < 2^28 := by
    intro symbol hsymbol
    have hinside := hassembled.exportsInside hparse symbol hsymbol
    omega
  exact ⟨os,image,rounds,p,sephi,arg,ret,hboot,hrun,hmem,by omega,hcalls,
    (hbrings arg (by simp)).mpr (hsmall arg hcalls.isArg.1),
    (hbrings ret (by simp)).mpr (hsmall ret hcalls.isRet.1)⟩

/-- After 2^27 loads of a module of two instructions an address does not fit in 28 bits, and the
next LOD calls an instruction below its module. -/
theorem main_binding_wraps :
    ¬∀ (overrun : TableOverrun) (os : List UInt8) (image : InstructionStore),Assembled os →
      Boots (some os) image → ∀ rounds,StoreRuns overrun image rounds →
        (∀round∈rounds,round.isLoad → ∀ bytes,round.file=some bytes → Assembled bytes) →
          ∀p∈withExports (bootExports (some os)) rounds,p.2.isLoad → ∀ sephi,
            Loads p.2.before p.2.file sephi → ExportsMain sephi → ∃ arg ret,
              CallsMain p.1 p.2 sephi arg ret ∧
                ∀symbol∈[arg,ret],p.2.Brings sephi (p.2.moved symbol) := by
  intro h
  obtain ⟨os,file,image,sephi,rounds,p,hos,hboot,hrun,hfiles,hmem,hload,hloads,hmain,-,-,-,
    hbefore⟩ := exists_main_run (2^27) le_rfl
  obtain ⟨arg,ret,-,hbrings⟩ := h (fun _ => 0) os image hos hboot rounds hrun hfiles p hmem hload
    sephi hloads hmain
  have hin := (hbrings arg (by simp)).1
  have haddress := destinationToAddress_lt (p.2.moved arg)
  omega

end Manchester
