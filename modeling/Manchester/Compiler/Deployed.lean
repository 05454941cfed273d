import Manchester.Compiler.EndToEnd
import Manchester.Dataflow.LineTame

namespace Manchester.Compiler

open Assembler Framework

/-- No run of a compiled program holds two operands that are alike. -/
theorem tame_program {order : SetOrder} {program : List Stmt} {fs : List Function} {s' : Pass}
    {σ' : Env DataType} {outs : List (Option DataType)} (hplain : Stmt.allPlain program=true)
    (hvisit : Stmt.visitAll (fs++specialFunctions.map Prod.fst) order program Pass.empty=.ok s')
    (hexec : Stmt.execAll program (fun _ => none)=some (σ',outs)) {read : IrState} {parsed : Graph}
    {instructions : List Instruction} (P : LineProgram s'.toReturn read parsed instructions)
    (overrun : TableOverrun) (random : RandomStream) : TameImage overrun random instructions := by
  obtain ⟨hcarries,known,Q,hpiece,-,-⟩ := program_flow hplain hvisit hexec 0
  exact P.tameImage overrun random 0 hpiece hcarries

/-- A compiled program of assignments, OUTD statements and conditionals, assembled and loaded as the
image of the machine, on five modules that run in any interleaving with queues of any capacity. No
run goes on for ever. Nothing is printed that sequential execution does not print, and where the
modules come to a stop that is no deadlock all of it has been printed, in some order. -/
theorem deployed_program_prints (order : SetOrder) (program : List Stmt) (lines : List Name)
    (σ' : Env DataType) (outs : List (Option DataType)) (hplain : Stmt.allPlain program=true)
    (hcompile : compile order program=.ok lines)
    (hexec : Stmt.execAll program (fun _ => none)=some (σ',outs)) (parsed g : Graph)
    (exportOrder : List Name) (e : Emitted) (bytes : List UInt8) (store' : InstructionStore)
    (info : LoadedCodeInfo)
    (hloaded : Loaded lines parsed g exportOrder e bytes ⟨[],[]⟩ store' info)
    (c : MachineConfig) (htrap : c.trapFlag=false) (cap : Nat) :
    (∀ run : Nat → Machine c cap,Started c store' (run 0) →
      ¬∀ n,Network.Step (N := machine c) (run n) (run (n+1))) ∧
    ∀ s : Machine c cap,Reached c store' s →
      (↑(s.locals .ioSwitch) : Multiset Output) ≤ outputsOf outs ∧
      ((¬∃ t,Network.Step (N := machine c) s t) →
        Network.Deadlocked s ∨ (↑(s.locals .ioSwitch) : Multiset Output)=outputsOf outs) := by
  obtain ⟨functions,s',hvisit,rfl⟩ := compile_visit hcompile
  obtain ⟨read,P⟩ := loaded_program hplain hvisit hloaded
  obtain ⟨hends,hprints⟩ := program_prints hplain hvisit hexec c.behind 0
  have himage := tame_program hplain hvisit hexec P c.overrun c.random
  refine ⟨himage.run_ends htrap (P.run_ends [] (fun _ => 0) c.overrun c.random 0 hends),
    fun s hr => ?_⟩
  obtain ⟨a,h⟩ := hr.exists_standsFor himage htrap
  obtain ⟨m,hm,hle,hrest⟩ :=
    P.exists_printed [] (fun _ => 0) c.overrun c.random c.behind 0 h.reached
  obtain ⟨hpart,hall⟩ := hprints m hm
  refine ⟨(h.printed_le hr).trans (hle.trans hpart),fun hfinal => ?_⟩
  refine (h.finished hr himage hfinal).imp_right fun hend => ?_
  obtain ⟨hstuck,hprinted⟩ := hend
  obtain ⟨hnet,heq⟩ := hrest hstuck
  exact hprinted.trans (heq.trans (hall hnet))

/-- `y=1; if(y){x=2;}else{x=3;} OUTD(x);` prints a 2 on a machine with queues of four places. -/
theorem deployed_program_prints_branch :
    let x : CName := ⟨"x".toList,by decide⟩
    let y : CName := ⟨"y".toList,by decide⟩
    let program : List Stmt := [.assignment y (.number ⟨['1'],by decide⟩),
      .conditional (.varName y) [.assignment x (.number ⟨['2'],by decide⟩)]
        [.assignment x (.number ⟨['3'],by decide⟩)],
      .expression (.functionCall ⟨"OUTD".toList,by decide⟩ [.varName x])]
    let order : SetOrder := ⟨fun _ _ l => l,fun _ _ _ => List.Perm.refl _⟩
    let c : MachineConfig := ⟨false,fun _ => 0,fun _ => 0,[]⟩
    ∃ (lines : List Name) (g : Graph) (e : Emitted) (bytes : List UInt8) (info : LoadedCodeInfo)
      (store' : InstructionStore),
      compile order program=.ok lines ∧ assembleFile lines []=some (g,e,bytes) ∧
      loadFile .clear ⟨[],[]⟩ (some bytes) true=some (info,store') ∧ info.error=0 ∧
      ∀ s : Machine c 4,Reached c store' s → (¬∃ t,Network.Step (N := machine c) s t) →
        Network.Deadlocked s ∨ s.locals .ioSwitch=[.decimal 2] := by
  intro x y program order c
  have hcheck : (compile order program).toOption.any (fun lines =>
      (assembleFile lines []).any fun r => r.1.instructionNodes.length ≤ 20 ∧
        (loadFile .clear ⟨[],[]⟩ (some r.2.2) true).any (fun l => l.1.error=0)=true)=true := by
    decide +kernel
  have hexec : (Stmt.execAll program fun _ => none).map (fun r => (r.1 x,r.2))=
      some (some 2,[some 2]) := by
    decide +kernel
  obtain ⟨lines,hcompile,hcheck⟩ := (Option.any_eq_true _ _).mp hcheck
  have hcompile := eq_ok_of_toOption hcompile
  obtain ⟨⟨g,e,bytes⟩,hassemble,hcheck⟩ := (Option.any_eq_true _ _).mp hcheck
  obtain ⟨hnodes,hload⟩ := of_decide_eq_true hcheck
  obtain ⟨⟨info,store'⟩,hload,hok⟩ := (Option.any_eq_true _ _).mp hload
  have hok : info.error=0 := of_decide_eq_true hok
  have hroom : g.instructionNodes.length ≤ 20 := hnodes
  obtain ⟨parsed,hloaded⟩ := loaded_of_assembleFile hassemble ⟨_,hload⟩ hok
    (by rw [List.length_nil]; omega)
  obtain ⟨⟨σ',outs⟩,hrun,hvalue⟩ := Option.map_eq_some_iff.mp hexec
  obtain ⟨-,hprinted⟩ := deployed_program_prints order program lines σ' outs (by decide +kernel)
    hcompile hrun parsed g [] e bytes store' info hloaded c rfl 4
  refine ⟨lines,g,e,bytes,info,store',hcompile,hassemble,hload,hok,fun s hr hfinal => ?_⟩
  obtain rfl : outs=[some 2] := (Prod.mk.inj hvalue).2
  exact ((hprinted s hr).2 hfinal).imp_right Multiset.coe_eq_singleton.mp

end Manchester.Compiler
