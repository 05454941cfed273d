import Manchester.Compiler.Correct
import Manchester.Compiler.Tidy
import Manchester.Dataflow.LineCorrect

namespace Manchester.Compiler

open Assembler Framework Framework.Net

/-- What the OUTD statements print that are reached. -/
def outputsOf (outs : List (Option DataType)) : Multiset Output :=
  ↑(outs.reduceOption.map fun a => Output.decimal a.toInt)

section Lines

variable {s : Pass}

theorem Tidy.direct (h : Tidy s) :
    ∀st∈statements s.toReturn,st.isDirect=true ∧ st.opcode ≠ some .OUTS := by
  intro st hst
  obtain ⟨line,hline,hdecoded⟩ := List.mem_filterMap.mp hst
  obtain ⟨st',hdecode,hdirect,houts⟩ := h.lines line hline
  rw [hdecode] at hdecoded
  obtain rfl := Option.some.inj hdecoded
  exact ⟨hdirect,houts⟩

theorem Tidy.defined_once (h : Tidy s) {v : Name} (hv : v ≠ ['_']) :
    definitionCount s.toReturn v ≤ 1 := by
  have hcount := List.nodup_iff_count_le_one.mp h.nodup v
  rwa [definedNames,List.count_filter (by simpa using hv)] at hcount

theorem Tidy.statementAt (h : Tidy s) (k : Nat) :
    statementAt s.toReturn k=(statements s.toReturn)[k]? := by
  have hall : ∀ lines : List Name,(∀line∈lines,∃ st,decodeLine line=.ok st) →
      ∀ k,Assembler.statementAt lines k=(statements lines)[k]? := by
    intro lines hlines
    induction lines with
    | nil => exact fun _ => rfl
    | cons line lines ih =>
      obtain ⟨st,hst⟩ := hlines line List.mem_cons_self
      have hstatements : statements (line::lines)=st::statements lines := by
        rw [statements,List.filterMap_cons,hst]
        rfl
      intro k
      rw [hstatements]
      cases k with
      | zero =>
        rw [Assembler.statementAt,List.getElem?_cons_zero,Option.bind_some,hst]
        rfl
      | succ k => exact ih (fun l hl => hlines l (List.mem_cons_of_mem _ hl)) k
  refine hall _ (fun line hline => ?_) k
  obtain ⟨st,hst,-⟩ := h.lines line hline
  exact ⟨st,hst⟩

/-- Only the OUTD lines print, each the value of its token. -/
theorem Tidy.linePrints (h : Tidy s) (behind : List UInt8) (k : Nat) (t : TagType) (v : DataType) :
    linePrints behind (statements s.toReturn) k t v=
      if k∈outputLines s.toReturn then some (.decimal v.toInt) else none := by
  have hat := h.statementAt k
  have hmem : k∈outputLines s.toReturn ↔
      ((statements s.toReturn)[k]?).any prints=true := by
    rw [outputLines,List.mem_filter,hat,List.mem_range]
    refine ⟨fun h => h.2,fun hany => ⟨?_,hany⟩⟩
    by_contra hge
    rw [← hat,Assembler.statementAt,List.getElem?_eq_none (by omega)] at hany
    cases hany
  rw [Assembler.linePrints]
  cases hst : (statements s.toReturn)[k]? with
  | none =>
    rw [hst] at hmem
    rw [if_neg (by rw [hmem]; simp)]
    rfl
  | some st =>
    rw [hst] at hmem
    obtain ⟨hdirect,houts⟩ := h.direct st (List.mem_of_getElem? hst)
    cases ho : st.opcode with
    | none =>
      have hnot : prints st=false := by cases st <;> first | rfl | cases ho
      rw [if_neg (by rw [hmem]; simp [hnot])]
      simp [ho]
    | some o =>
      cases o with
      | op o =>
        have hnot : prints st=false := by
          cases st <;> first | rfl | (obtain rfl := Option.some.inj ho; rfl)
        rw [if_neg (by rw [hmem]; simp [hnot])]
        simp [ho,Opcode.prints]
      | OUTS => exact absurd ho houts
      | OUTD =>
        obtain ⟨x,-,rfl⟩ := Statement.isDirect_output hdirect ho rfl
        rw [if_pos (by rw [hmem]; rfl)]
        simp [Statement.opcode,Opcode.prints]

end Lines

section Printed

variable {ss : List Statement} {behind : List UInt8} {t : TagType}

/-- What is printed, line by line. -/
theorem filterMap_lines {ks : List Nat} {outs : List (Option DataType)}
    {made : Multiset (Token Wire TagType DataType)} (hnodup : ks.Nodup)
    (hprints : ∀k∈ks,∀ v,linePrints behind ss k t v=some (.decimal v.toInt))
    (houts : List.Forall₂ (fun k out => made.filter (fun x => x.wire=.printed k)=
      ↑(out.toList.map fun a => (⟨.printed k,t,a⟩ : Token Wire TagType DataType))) ks outs)
    (honly : ∀x∈made,tokenPrints behind ss x ≠ none → ∃k∈ks,x.wire=.printed k) :
    made.filterMap (tokenPrints behind ss)=outputsOf outs := by
  induction ks generalizing outs made with
  | nil =>
    cases houts
    rw [Multiset.filterMap_eq_bind]
    refine (Multiset.bind_congr fun x hx => ?_).trans (Multiset.bind_zero made)
    by_cases hnone : tokenPrints behind ss x=none
    · rw [hnone]
      rfl
    · obtain ⟨k,hk,-⟩ := honly x hx hnone
      cases hk
  | cons k ks ih =>
    obtain ⟨hk,hks⟩ := List.nodup_cons.mp hnodup
    cases houts with
    | @cons _ out _ outs hfirst hrest =>
      have hother : ∀k'∈ks,
          (made.filter fun x => ¬x.wire=.printed k).filter (fun x => x.wire=.printed k')=
            made.filter fun x => x.wire=.printed k' := by
        intro k' hk'
        rw [Multiset.filter_filter]
        refine Multiset.filter_congr fun x _ => ⟨fun h => h.1,fun h => ⟨h,fun heq => ?_⟩⟩
        obtain rfl := Wire.printed.inj (h.symm.trans heq)
        exact hk hk'
      have hlater : (made.filter fun x => ¬x.wire=.printed k).filterMap (tokenPrints behind ss)=
          outputsOf outs := by
        refine ih hks (fun k' hk' => hprints k' (List.mem_cons_of_mem _ hk')) ?_ fun x hx hsome => ?_
        · exact ((List.forall₂_and_left ks outs).mpr ⟨fun _ hmem => hmem,hrest⟩).imp
            fun k' out' h => (hother k' h.1).trans h.2
        · obtain ⟨hmem,hne⟩ := Multiset.mem_filter.mp hx
          obtain ⟨k',hk',hwire⟩ := honly x hmem hsome
          obtain rfl | hk' := List.mem_cons.mp hk'
          · exact absurd hwire hne
          · exact ⟨k',hk',hwire⟩
      rw [← Multiset.filter_add_not (fun x => x.wire=.printed k) made,Multiset.filterMap_add,hlater,
        hfirst]
      cases out with
      | none => exact zero_add _
      | some a =>
        have hone : tokenPrints behind ss ⟨.printed k,t,a⟩=some (.decimal a.toInt) :=
          hprints k List.mem_cons_self a
        change Multiset.filterMap _ ({⟨.printed k,t,a⟩} : Multiset (Token Wire TagType DataType))+
          outputsOf outs=_
        rw [← Multiset.cons_zero,Multiset.filterMap_cons,hone,Multiset.filterMap_zero,add_zero]
        exact Multiset.singleton_add _ _

end Printed

theorem made_mono {N : Net Wire (Nat × Nat) TagType DataType Choice} {rules : List (Nat × Nat)}
    {m m' : Net.State Wire (Nat × Nat) TagType DataType}
    (h : Relation.ReflTransGen (N.Step rules) m m') : m.made ≤ m'.made := by
  induction h with
  | refl => exact le_rfl
  | tail _ hstep ih =>
    cases hstep
    exact ih.trans (Multiset.le_add_right _ _)

section Program

variable {order : SetOrder} {program : List Stmt} {fs : List Function} {s' : Pass}
  {σ' : Env DataType} {outs : List (Option DataType)}

/-- What the lines of a program make of the token that starts them: each token once, under the one
tag, and what the OUTD statements print. -/
theorem program_flow (hplain : Stmt.allPlain program=true)
    (hvisit : Stmt.visitAll (fs++specialFunctions.map Prod.fst) order program Pass.empty=.ok s')
    (hexec : Stmt.execAll program (fun _ => none)=some (σ',outs)) (u : DataType) :
    let init : List (Token Wire TagType DataType) := [⟨.start,noTag,u⟩]
    Net.Carries init (flowOf init) ∧ ∃ known P,
      (net (machineDomain [] fun _ => 0) s'.toReturn).Piece
        (segment (machineDomain [] fun _ => 0) s'.toReturn 0 s'.toReturn.length) known
        (flowOf init) P ∧
      (∀ k,((flowOf init).or P).Has k → k.tag∈[noTag]) ∧
      List.Forall₂ (fun k out => (flowOf init).or P (.printed k)=single noTag out)
        (outputLines s'.toReturn) outs := by
  intro init
  have hentry := entry_empty (machineDomain [] fun _ => 0) u
  obtain ⟨used,hused,-⟩ := Stmt.lazyAll_lawful (machineDomain [] fun _ => 0) program hplain
  obtain ⟨v,rfl,hruns⟩ := Stmt.visitAll_runs fs order (faithful_machine [] fun _ => 0) program
    hplain hused hvisit hentry.fits
  rw [Stmt.lazyAll_of_exec [] (fun _ => 0) program hplain hexec] at hruns
  have hbuilt := hruns.fits.built
  obtain ⟨P,hflow,hpiece,-⟩ := hbuilt.piece v.pass.toReturn (List.prefix_refl _)
    (noLabels_of_regular hbuilt.regular)
  have hflow : (flowOf init).or P=v.flow := hflow.symm
  refine ⟨carries_flowOf hentry.keys,_,P,hpiece,fun k hk => ?_,?_⟩
  · rw [hflow] at hk
    obtain htag | hinit := hbuilt.tagged k.wire k.tag k.value hk
    · exact List.mem_singleton.mpr htag
    · have hmem := mem_of_flowOf hinit
      exact List.mem_singleton.mpr (congrArg Token.tag (List.mem_singleton.mp hmem))
  · have houts := hbuilt.outputs
    rw [← List.forall₂_eq_eq_eq,List.forall₂_map_left_iff,List.forall₂_map_right_iff] at houts
    rw [hflow]
    exact houts

/-- In every order of firing the lines come to rest. They print nothing on the way that the program
does not print, and in the end all of it. -/
theorem program_prints (hplain : Stmt.allPlain program=true)
    (hvisit : Stmt.visitAll (fs++specialFunctions.map Prod.fst) order program Pass.empty=.ok s')
    (hexec : Stmt.execAll program (fun _ => none)=some (σ',outs)) (behind : List UInt8)
    (u : DataType) :
    let N := net (machineDomain [] fun _ => 0) s'.toReturn
    let rules := segment (machineDomain [] fun _ => 0) s'.toReturn 0 s'.toReturn.length
    (∀ run : Nat → Net.State Wire (Nat × Nat) TagType DataType,
      run 0=N.start rules [⟨.start,noTag,u⟩] → ¬∀ n,N.Step rules (run n) (run (n+1))) ∧
    ∀ m,N.Reachable rules [⟨.start,noTag,u⟩] m →
      printedBy behind (statements s'.toReturn) m ≤ outputsOf outs ∧
      (N.Stuck rules m → printedBy behind (statements s'.toReturn) m=outputsOf outs) := by
  intro N rules
  obtain ⟨htidy,-⟩ := Stmt.visitAll_tidy _ order program hplain hvisit Tidy.empty
  obtain ⟨hcarries,known,P,hpiece,htags,houts⟩ := program_flow hplain hvisit hexec u
  have hrules : rules.Nodup := nodup_segment _ _ _ _
  have hends := hpiece.run_ends hcarries hrules htags
  have hlast : ∀ m,N.Reachable rules [⟨.start,noTag,u⟩] m → N.Stuck rules m →
      printedBy behind (statements s'.toReturn) m=outputsOf outs := by
    intro m hm hstuck
    obtain ⟨hnodup,hmade⟩ := hpiece.settled hcarries hrules hm hstuck
    refine filterMap_lines (List.nodup_range.filter _) (fun k hk v => ?_)
      (houts.imp fun k out hout => tokensOn_eq hnodup hmade hout) fun x _ hx => ?_
    · exact (htidy.linePrints behind k noTag v).trans (if_pos hk)
    · unfold tokenPrints at hx
      cases hw : x.wire with
      | printed k =>
        rw [hw] at hx
        simp only [htidy.linePrints] at hx
        by_cases hk : k∈outputLines s'.toReturn
        · exact ⟨k,hk,rfl⟩
        · rw [if_neg hk] at hx
          exact absurd rfl hx
      | start | name _ | label _ =>
        rw [hw] at hx
        exact absurd rfl hx
  refine ⟨hends,fun m hm => ⟨?_,hlast m hm⟩⟩
  obtain ⟨m',hmore,hstuck⟩ := hm.exists_end hends
  rw [← hlast m' (hm.many hmore) hstuck]
  exact Multiset.filterMap_le_filterMap _ (made_mono hmore)

/-- A compilation is a visit of the statements, with the functions that the first pass has found. -/
theorem compile_visit {lines : List Name} (h : compile order program=.ok lines) :
    ∃ functions s',Stmt.visitAll (functions++specialFunctions.map Prod.fst) order program
      Pass.empty=.ok s' ∧ s'.toReturn=lines := by
  unfold compile at h
  cases hfunctions : Stmt.functionsOfAll program with
  | error e =>
    rw [hfunctions] at h
    cases h
  | ok functions =>
    rw [hfunctions] at h
    change Stmt.visitAll (functions++specialFunctions.map Prod.fst) order program Pass.empty >>=
      (fun s => pure s.toReturn)=_ at h
    cases hvisit : Stmt.visitAll (functions++specialFunctions.map Prod.fst) order program
        Pass.empty with
    | error e =>
      rw [hvisit] at h
      cases h
    | ok s' =>
      rw [hvisit] at h
      exact ⟨functions,s',hvisit,Except.ok.inj h⟩

/-- The image of a compiled program. -/
theorem loaded_program (hplain : Stmt.allPlain program=true)
    (hvisit : Stmt.visitAll (fs++specialFunctions.map Prod.fst) order program Pass.empty=.ok s')
    {parsed g : Graph} {exportOrder : List Name} {e : Emitted} {bytes : List UInt8}
    {store' : InstructionStore} {info : LoadedCodeInfo}
    (hloaded : Loaded s'.toReturn parsed g exportOrder e bytes ⟨[],[]⟩ store' info) :
    ∃ read,LineProgram s'.toReturn read parsed store'.instructions := by
  obtain ⟨htidy,-⟩ := Stmt.visitAll_tidy _ order program hplain hvisit Tidy.empty
  exact hloaded.lineProgram (fun st hst => (htidy.direct st hst).1)
    (fun v hv => Or.inl (htidy.defined_once hv)) (hloaded.first_free htidy.first)

end Program

/-- A compiled program of assignments, OUTD statements and conditionals, assembled and loaded as the
image of a machine, comes to rest under every order of firing, with any random numbers and host.
Nothing is printed on the way that sequential execution does not print, and in the end all that it
prints, in some order. -/
theorem compiled_program_prints (order : SetOrder) (program : List Stmt) (lines : List Name)
    (σ' : Env DataType) (outs : List (Option DataType)) (hplain : Stmt.allPlain program=true)
    (hcompile : compile order program=.ok lines)
    (hexec : Stmt.execAll program (fun _ => none)=some (σ',outs)) (parsed g : Graph)
    (exportOrder : List Name) (e : Emitted) (bytes : List UInt8) (store' : InstructionStore)
    (info : LoadedCodeInfo)
    (hloaded : Loaded lines parsed g exportOrder e bytes ⟨[],[]⟩ store' info)
    (overrun : TableOverrun) (random : RandomStream) (behind : List UInt8) :
    let Step := Dataflow.Step overrun random store'.instructions
    let start := Dataflow.start overrun store'.instructions
    (∀ run : Nat → Dataflow,run 0=start → ¬∀ n,Step (run n) (run (n+1))) ∧
    ∀ a,Transition.Reachable (· = start) Step a → a.printed behind ≤ outputsOf outs ∧
      ((¬∃ a',Step a a') → a.printed behind=outputsOf outs) := by
  intro Step start
  obtain ⟨functions,s',hvisit,rfl⟩ := compile_visit hcompile
  obtain ⟨read,P⟩ := loaded_program hplain hvisit hloaded
  obtain ⟨hends,hprints⟩ := program_prints hplain hvisit hexec behind 0
  refine ⟨P.run_ends [] (fun _ => 0) overrun random 0 hends,fun a ha => ?_⟩
  obtain ⟨m,hm,hle,hrest⟩ := P.exists_printed [] (fun _ => 0) overrun random behind 0 ha
  obtain ⟨hpart,hall⟩ := hprints m hm
  refine ⟨hle.trans hpart,fun hstuck => ?_⟩
  obtain ⟨hnet,heq⟩ := hrest hstuck
  exact heq.trans (hall hnet)

/-- `y=1; if(y){x=2;}else{x=3;} OUTD(x);` prints 2 and nothing else. -/
theorem compiled_program_prints_branch :
    let x : CName := ⟨"x".toList,by decide⟩
    let y : CName := ⟨"y".toList,by decide⟩
    let program : List Stmt := [.assignment y (.number ⟨['1'],by decide⟩),
      .conditional (.varName y) [.assignment x (.number ⟨['2'],by decide⟩)]
        [.assignment x (.number ⟨['3'],by decide⟩)],
      .expression (.functionCall ⟨"OUTD".toList,by decide⟩ [.varName x])]
    let order : SetOrder := ⟨fun _ _ l => l,fun _ _ _ => List.Perm.refl _⟩
    ∃ (lines : List Name) (g : Graph) (e : Emitted) (bytes : List UInt8) (info : LoadedCodeInfo)
      (store' : InstructionStore),
      compile order program=.ok lines ∧ assembleFile lines []=some (g,e,bytes) ∧
      loadFile .clear ⟨[],[]⟩ (some bytes) true=some (info,store') ∧ info.error=0 ∧
      ∀ a,Transition.Reachable (· = Dataflow.start (fun _ => 0) store'.instructions)
        (Dataflow.Step (fun _ => 0) (fun _ => 0) store'.instructions) a →
        (¬∃ a',Dataflow.Step (fun _ => 0) (fun _ => 0) store'.instructions a a') →
          a.printed []={.decimal 2} := by
  intro x y program order
  have hcheck : (compile order program).toOption.any (fun lines =>
      (assembleFile lines []).any fun r => r.1.instructionNodes.length ≤ 20 ∧
        (loadFile .clear ⟨[],[]⟩ (some r.2.2) true).any (fun l => l.1.error=0)=true)=true := by
    decide +kernel
  have hexec : (Stmt.execAll program fun _ => none).map (fun r => (r.1 x,r.2))=
      some (some 2,[some 2]) := by
    decide +kernel
  obtain ⟨lines,hcompile,hcheck⟩ := (Option.any_eq_true _ _).mp hcheck
  have hcompile := eq_ok_of_toOption hcompile
  obtain ⟨⟨g,e,bytes⟩,hassemble,hcheck⟩ := (Option.any_eq_true _ _).mp hcheck
  obtain ⟨hnodes,hload⟩ := of_decide_eq_true hcheck
  obtain ⟨⟨info,store'⟩,hload,hok⟩ := (Option.any_eq_true _ _).mp hload
  have hok : info.error=0 := of_decide_eq_true hok
  have hroom : g.instructionNodes.length ≤ 20 := hnodes
  obtain ⟨parsed,hloaded⟩ := loaded_of_assembleFile hassemble ⟨_,hload⟩ hok
    (by rw [List.length_nil]; omega)
  obtain ⟨⟨σ',outs⟩,hrun,hvalue⟩ := Option.map_eq_some_iff.mp hexec
  obtain ⟨-,hprinted⟩ := compiled_program_prints order program lines σ' outs (by decide +kernel)
    hcompile hrun parsed g [] e bytes store' info hloaded (fun _ => 0) (fun _ => 0) []
  refine ⟨lines,g,e,bytes,info,store',hcompile,hassemble,hload,hok,fun a ha hstuck => ?_⟩
  obtain rfl : outs=[some 2] := (Prod.mk.inj hvalue).2
  exact (hprinted a ha).2 hstuck

end Manchester.Compiler
