import Manchester.Compiler.Calls

namespace Manchester.Compiler

open Framework (Outcome iterate)

variable {ω : Type}

/-- What one host computes the other one computes too; both have the same special functions. -/
structure Host.Extends (host host' : Host ω) : Prop where
  compute : ∀ o a b v,host.compute o a b=some v → host'.compute o a b=some v
  special : host'.special=host.special

section Extends

variable {host host' : Host ω}
  {call call' : CName → List DataType → ω → Option (DataType × ω)} {fuel fuel' : Nat}

mutual

theorem Expr.run_extends (h : host.Extends host')
    (hcall : ∀ name args w r,call name args w=some r → call' name args w=some r) :
    ∀ (e : Expr) (s : Store ω) (r : DataType × ω),e.run host call s=some r →
      e.run host' call' s=some r
  | .varName _,_,_,hr => hr
  | .binaryOperation left op right,s,r,hr => by
    rw [Expr.run] at hr ⊢
    obtain ⟨a,ha,hr⟩ := Option.bind_eq_some_iff.mp hr
    obtain ⟨b,hb,hr⟩ := Option.bind_eq_some_iff.mp hr
    obtain ⟨v,hv,rfl⟩ := Option.map_eq_some_iff.mp hr
    obtain ⟨o,ho,hv⟩ := Option.bind_eq_some_iff.mp hv
    rw [Expr.run_extends h hcall left s a ha,Option.bind_some,
      Expr.run_extends h hcall right _ b hb,Option.bind_some,ho,Option.bind_some,
      h.compute _ _ _ _ hv]
    rfl
  | .functionCall name args,s,r,hr => by
    rw [Expr.run] at hr ⊢
    obtain ⟨vs,hvs,hr⟩ := Option.bind_eq_some_iff.mp hr
    rw [Expr.runArgs_extends h hcall args s vs hvs,Option.bind_some]
    exact hcall _ _ _ _ hr
  | .outsLiteral _,_,_,hr => hr
  | .string _,_,_,hr => hr
  | .number _,_,_,hr => hr
  | .hexnumber _,_,_,hr => hr

theorem Expr.runArgs_extends (h : host.Extends host')
    (hcall : ∀ name args w r,call name args w=some r → call' name args w=some r) :
    ∀ (es : List Expr) (s : Store ω) (r : List DataType × ω),
      Expr.runArgs host call es s=some r → Expr.runArgs host' call' es s=some r
  | [],_,_,hr => hr
  | e::es,s,r,hr => by
    rw [Expr.runArgs] at hr ⊢
    obtain ⟨v,hv,hr⟩ := Option.bind_eq_some_iff.mp hr
    obtain ⟨vs,hvs,rfl⟩ := Option.map_eq_some_iff.mp hr
    rw [Expr.run_extends h hcall e s v hv,Option.bind_some,
      Expr.runArgs_extends h hcall es _ vs hvs]
    rfl

end

theorem runPieces_extends
    (hcall : ∀ name args w r,call name args w=some r → call' name args w=some r)
    (pieces : List Name) (w w' : ω) (hr : runPieces call pieces w=some w') :
    runPieces call' pieces w=some w' := by
  induction pieces generalizing w with
  | nil => exact hr
  | cons piece rest ih =>
    rw [runPieces] at hr ⊢
    obtain ⟨v,hv,hr⟩ := Option.bind_eq_some_iff.mp hr
    obtain ⟨r,hout,hr⟩ := Option.bind_eq_some_iff.mp hr
    rw [hv,Option.bind_some,hcall _ _ _ _ hout,Option.bind_some]
    exact ih _ hr

theorem Expr.perform_extends (h : host.Extends host')
    (hcall : ∀ name args w r,call name args w=some r → call' name args w=some r) (e : Expr)
    (s : Store ω) (w' : ω) (hr : e.perform host call s=some w') :
    e.perform host' call' s=some w' := by
  cases e with
  | outsLiteral text => exact runPieces_extends hcall _ _ _ hr
  | _ =>
    simp only [Expr.perform,Option.map_eq_some_iff] at hr ⊢
    obtain ⟨r,hrun,rfl⟩ := hr
    exact ⟨r,Expr.run_extends h hcall _ _ _ hrun,rfl⟩

theorem Expr.test_extends (h : host.Extends host')
    (hcall : ∀ name args w r,call name args w=some r → call' name args w=some r) (e : Expr)
    (s : Store ω) (r : Bool × Store ω) (hr : e.test host call s=some r) :
    e.test host' call' s=some r := by
  rw [Expr.test] at hr ⊢
  obtain ⟨v,hrun,rfl⟩ := Option.map_eq_some_iff.mp hr
  rw [Expr.run_extends h hcall _ _ _ hrun]
  rfl

mutual

theorem Stmt.run_extends (h : host.Extends host') (hfuel : fuel ≤ fuel')
    (hcall : ∀ name args w r,call name args w=some r → call' name args w=some r) :
    ∀ (stmt : Stmt) (s : Store ω) (o : Outcome (Store ω) (DataType × ω)),
      stmt.run host call fuel s=some o → stmt.run host' call' fuel' s=some o
  | .functionDef _ _ _,_,_,ho => by rw [Stmt.run] at ho ⊢; exact ho
  | .conditional condition body elseBody,s,o,ho => by
    rw [Stmt.run_conditional] at ho ⊢
    obtain ⟨r,hr,ho⟩ := Option.bind_eq_some_iff.mp ho
    rw [Expr.test_extends h hcall _ _ _ hr,Option.bind_some]
    split_ifs at ho ⊢
    · exact Stmt.runAll_extends h hfuel hcall body _ _ ho
    · exact Stmt.runAll_extends h hfuel hcall elseBody _ _ ho
  | .whileLoop condition body,s,o,ho => by
    rw [Stmt.run_whileLoop] at ho ⊢
    exact iterate.extends_result (Expr.test_extends h hcall condition)
      (fun s o => Stmt.runAll_extends h hfuel hcall body s o) hfuel ho
  | .exportStatement _,_,_,ho => by rw [Stmt.run] at ho ⊢; exact ho
  | .externStatement _ _,_,_,ho => by rw [Stmt.run] at ho ⊢; exact ho
  | .returnStatement none,_,_,ho => by rw [Stmt.run] at ho; cases ho
  | .returnStatement (some e),s,o,ho => by
    rw [Stmt.run_return] at ho ⊢
    obtain ⟨r,hr,rfl⟩ := Option.map_eq_some_iff.mp ho
    rw [Expr.run_extends h hcall e s r hr,Option.map_some]
  | .asmStatement _,_,_,ho => by rw [Stmt.run] at ho ⊢; exact ho
  | .expression e,s,o,ho => by
    rw [Stmt.run] at ho ⊢
    obtain ⟨r,hr,rfl⟩ := Option.map_eq_some_iff.mp ho
    rw [Expr.perform_extends h hcall e s r hr,Option.map_some]
  | .assignment lhs e,s,o,ho => by
    rw [Stmt.run_assignment] at ho ⊢
    obtain ⟨r,hr,rfl⟩ := Option.map_eq_some_iff.mp ho
    rw [Expr.run_extends h hcall e s r hr,Option.map_some]

theorem Stmt.runAll_extends (h : host.Extends host') (hfuel : fuel ≤ fuel')
    (hcall : ∀ name args w r,call name args w=some r → call' name args w=some r) :
    ∀ (stmts : List Stmt) (s : Store ω) (o : Outcome (Store ω) (DataType × ω)),
      Stmt.runAll host call fuel stmts s=some o → Stmt.runAll host' call' fuel' stmts s=some o
  | [],_,_,ho => by rw [Stmt.runAll_nil] at ho ⊢; exact ho
  | stmt::rest,s,o,ho => by
    rw [Stmt.runAll_cons] at ho ⊢
    cases hfirst : stmt.run host call fuel s with
    | none =>
      rw [hfirst] at ho
      cases ho
    | some first =>
      rw [Stmt.run_extends h hfuel hcall stmt s first hfirst]
      rw [hfirst] at ho
      cases first with
      | returned r => exact ho
      | next t => exact Stmt.runAll_extends h hfuel hcall rest t o ho

end

/-- A call that returns returns the same on a host that answers more, and with more fuel. -/
theorem Host.call_extends (h : host.Extends host') (program : List Stmt) :
    ∀ (n m : Nat),n ≤ m → ∀ (name : CName) (args : List DataType) (w : ω) (r : DataType × ω),
      host.call program n name args w=some r → host'.call program m name args w=some r := by
  intro n
  induction n with
  | zero =>
    intro m hm name args w r hr
    cases hr
  | succ n ih =>
    intro m hm name args w r hr
    obtain ⟨m,rfl⟩ : ∃ k,m=k+1 := ⟨m-1,by omega⟩
    have hle := Nat.le_of_succ_le_succ hm
    rw [Host.call] at hr ⊢
    cases hbody : functionBody program name with
    | none =>
      rw [hbody] at hr
      simp only [h.special]
      exact hr
    | some found =>
      obtain ⟨params,body⟩ := found
      rw [hbody] at hr
      simp only at hr ⊢
      obtain ⟨σ,hσ,hr⟩ := Option.bind_eq_some_iff.mp hr
      rw [hσ,Option.bind_some]
      cases hrun : Stmt.runAll host (host.call program n) n body (σ,w) with
      | none =>
        rw [hrun] at hr
        cases hr
      | some o =>
        rw [Stmt.runAll_extends h hle (ih m hle) body _ o hrun]
        rwa [hrun] at hr

theorem Host.Extends.refl (host : Host ω) : host.Extends host := ⟨fun _ _ _ _ h => h,rfl⟩

/-- A call that returns with some fuel returns. -/
theorem Host.Returns.of_call {program : List Stmt} {n : Nat} {name : CName}
    {args : List DataType} {w w' : ω} {r : DataType}
    (h : host.call program n name args w=some (r,w')) :
    host.Returns program name args w r w' :=
  ⟨n,fun m hm => Host.call_extends (Host.Extends.refl host) program n m hm name args w _ h⟩

theorem Host.Returns.extends {program : List Stmt} {name : CName} {args : List DataType} {w w' : ω}
    {r : DataType} (h : host.Returns program name args w r w') (hhost : host.Extends host') :
    host'.Returns program name args w r w' := by
  obtain ⟨bound,hcall⟩ := h
  exact ⟨bound,fun n hn =>
    Host.call_extends hhost program n n le_rfl name args w _ (hcall n hn)⟩

end Extends

end Manchester.Compiler
