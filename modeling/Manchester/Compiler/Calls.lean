import Manchester.Compiler.Sequential
import Manchester.Framework.Loop

namespace Manchester.Compiler

open Framework (Outcome iterate)

variable {ω : Type}

-- The lines of asm statements are left out, and statements that only name something do nothing.

/-- What a program is run on; `ω` is the state of what is outside. -/
structure Host (ω : Type) where
  /-- What a shift by 64 or more gives. -/
  oversized : OpcodeType → DataType → DataType → Option DataType
  /-- What the functions that are single instructions answer. -/
  special : CName → List DataType → ω → Option (DataType × ω)

def isOversized (o : OpcodeType) (count : DataType) : Prop :=
  (o=.SHL ∨ o=.SHR) ∧ 64 ≤ count.toNat

instance (o : OpcodeType) (count : DataType) : Decidable (isOversized o count) :=
  inferInstanceAs (Decidable ((o=.SHL ∨ o=.SHR) ∧ 64 ≤ count.toNat))

def Host.compute (host : Host ω) (o : OpcodeType) (a b : DataType) : Option DataType :=
  if isOversized o b then host.oversized o a b else Assembler.compute o a b

/-- Counts are taken modulo 64, as by the processor. -/
def Host.modular (special : CName → List DataType → ω → Option (DataType × ω)) : Host ω :=
  ⟨Assembler.compute,special⟩

/-- The variables, and what is outside. -/
abbrev Store (ω : Type) := Env DataType × ω

section Run

variable (host : Host ω) (call : CName → List DataType → ω → Option (DataType × ω)) (fuel : Nat)

mutual

/-- The value of an expression. A literal to print has none. -/
@[simp]
def Expr.run : Expr → Store ω → Option (DataType × ω)
  | .varName name,s => (s.1 name).map fun v => (v,s.2)
  | .binaryOperation left op right,s =>
    (left.run s).bind fun a => (right.run (s.1,a.2)).bind fun b =>
      (op.opcode.bind fun o => host.compute o a.1 b.1).map fun v => (v,b.2)
  | .functionCall name args,s => (Expr.runArgs args s).bind fun r => call name r.1 r.2
  | .outsLiteral _,_ => none
  | .string text,s => (Expr.string text).literalValue.map fun v => (BitVec.ofInt 64 v,s.2)
  | .number num,s => (Expr.number num).literalValue.map fun v => (BitVec.ofInt 64 v,s.2)
  | .hexnumber num,s => (Expr.hexnumber num).literalValue.map fun v => (BitVec.ofInt 64 v,s.2)

@[simp]
def Expr.runArgs : List Expr → Store ω → Option (List DataType × ω)
  | [],s => some ([],s.2)
  | e::es,s =>
    (e.run s).bind fun v => (Expr.runArgs es (s.1,v.2)).map fun vs => (v.1::vs.1,vs.2)

end

theorem isCName_outs : isCName "OUTS".toList=true := by decide

/-- OUTS of each of the pieces of a text. -/
def runPieces : List Name → ω → Option ω
  | [],w => some w
  | piece::rest,w =>
    (Expr.string piece).literalValue.bind fun v =>
      (call ⟨"OUTS".toList,isCName_outs⟩ [BitVec.ofInt 64 v] w).bind fun r => runPieces rest r.2

/-- An expression as a statement. -/
def Expr.perform : Expr → Store ω → Option ω
  | .outsLiteral text,s => runPieces call (text.toChunks 8) s.2
  | e,s => (e.run host call s).map Prod.snd

@[simp]
def Expr.test (condition : Expr) (s : Store ω) : Option (Bool × Store ω) :=
  (condition.run host call s).map fun r => (r.1 != 0,s.1,r.2)

mutual

/-- A loop that makes more tests than the fuel has no outcome. -/
def Stmt.run : Stmt → Store ω → Option (Outcome (Store ω) (DataType × ω))
  | .functionDef _ _ _,s => some (.next s)
  | .conditional condition body elseBody,s =>
    (condition.test host call s).bind fun r =>
      if r.1 then Stmt.runAll body r.2 else Stmt.runAll elseBody r.2
  | .whileLoop condition body,s =>
    iterate (condition.test host call) (fun s => Stmt.runAll body s) fuel s
  | .exportStatement _,s => some (.next s)
  | .externStatement _ _,s => some (.next s)
  | .returnStatement none,_ => none
  | .returnStatement (some e),s => (e.run host call s).map .returned
  | .asmStatement _,s => some (.next s)
  | .expression e,s => (e.perform host call s).map fun w => .next (s.1,w)
  | .assignment lhs e,s =>
    (e.run host call s).map fun r => .next (Function.update s.1 lhs (some r.1),r.2)

def Stmt.runAll : List Stmt → Store ω → Option (Outcome (Store ω) (DataType × ω))
  | [],s => some (.next s)
  | stmt::rest,s => Outcome.andThen (stmt.run s) fun s => Stmt.runAll rest s

end

variable {host call fuel}

@[simp] theorem Stmt.runAll_nil (s : Store ω) : Stmt.runAll host call fuel [] s=some (.next s) := by
  rw [Stmt.runAll]

@[simp] theorem Stmt.runAll_cons (stmt : Stmt) (rest : List Stmt) (s : Store ω) :
    Stmt.runAll host call fuel (stmt::rest) s=
      Outcome.andThen (stmt.run host call fuel s) (Stmt.runAll host call fuel rest) := by
  rw [Stmt.runAll]

theorem Stmt.runAll_append (first rest : List Stmt) (s : Store ω) :
    Stmt.runAll host call fuel (first++rest) s=
      Outcome.andThen (Stmt.runAll host call fuel first s) (Stmt.runAll host call fuel rest) := by
  induction first generalizing s with
  | nil => rw [List.nil_append,Stmt.runAll_nil,Outcome.next_andThen]
  | cons stmt first ih =>
    rw [List.cons_append,Stmt.runAll_cons,Stmt.runAll_cons]
    cases hrun : stmt.run host call fuel s with
    | none => rfl
    | some o =>
      cases o with
      | returned r => rfl
      | next t => exact ih t

@[simp] theorem Stmt.run_assignment (lhs : CName) (e : Expr) (s : Store ω) :
    (Stmt.assignment lhs e).run host call fuel s=
      (e.run host call s).map fun r => .next (Function.update s.1 lhs (some r.1),r.2) := by
  rw [Stmt.run]

@[simp] theorem Stmt.run_conditional (condition : Expr) (body elseBody : List Stmt)
    (s : Store ω) : (Stmt.conditional condition body elseBody).run host call fuel s=
      (condition.test host call s).bind fun r =>
        if r.1 then Stmt.runAll host call fuel body r.2
        else Stmt.runAll host call fuel elseBody r.2 := by
  rw [Stmt.run]

@[simp] theorem Stmt.run_return (e : Expr) (s : Store ω) :
    (Stmt.returnStatement (some e)).run host call fuel s=
      (e.run host call s).map .returned := by
  rw [Stmt.run]

theorem Stmt.run_whileLoop (condition : Expr) (body : List Stmt) (s : Store ω) :
    (Stmt.whileLoop condition body).run host call fuel s=
      iterate (condition.test host call) (Stmt.runAll host call fuel body) fuel s := by
  rw [Stmt.run]

section Loops

variable {condition : Expr} {body : List Stmt} {w : ω} {inv : Nat → Env DataType → Prop}
  {post : Env DataType → Prop}

/-- One test of a loop and, where it succeeds, one round. Nothing outside changes, and the
invariant holds again of a smaller measure. -/
def LoopRound (host : Host ω) (call : CName → List DataType → ω → Option (DataType × ω))
    (fuel : Nat) (w : ω) (condition : Expr) (body : List Stmt) (inv : Nat → Env DataType → Prop)
    (post : Env DataType → Prop) (k : Nat) (σ : Env DataType) : Prop :=
  condition.test host call (σ,w)=some (false,σ,w) ∧ post σ ∨
    condition.test host call (σ,w)=some (true,σ,w) ∧
      ∃ τ,Stmt.runAll host call fuel body (σ,w)=some (.next (τ,w)) ∧ ∃ j < k,inv j τ

theorem Stmt.run_whileLoop_of
    (hround : ∀ k σ,inv k σ → LoopRound host call fuel w condition body inv post k σ)
    {k : Nat} {σ : Env DataType} (hinv : inv k σ) (hk : k < fuel) :
    ∃ τ,(Stmt.whileLoop condition body).run host call fuel (σ,w)=some (.next (τ,w)) ∧ post τ := by
  have hrounds : ∀ k (s : Store ω),s.2=w ∧ inv k s.1 →
      iterate.Round (condition.test host call) (Stmt.runAll host call fuel body)
        (fun k s => s.2=w ∧ inv k s.1) (fun s => s.2=w ∧ post s.1) k s := by
    rintro k ⟨σ,v⟩ ⟨hv,hs⟩
    obtain rfl : v=w := hv
    rcases hround k σ hs with ⟨htest,hpost⟩ | ⟨htest,τ,hbody,j,hj,hτ⟩
    · exact Or.inl ⟨_,htest,rfl,hpost⟩
    · exact Or.inr ⟨_,_,j,htest,hbody,hj,rfl,hτ⟩
  obtain ⟨⟨τ,v⟩,hrun,hv,hpost⟩ := iterate.terminates hrounds k (σ,w) fuel ⟨rfl,hinv⟩ hk
  obtain rfl : v=w := hv
  exact ⟨τ,by rw [Stmt.run_whileLoop,hrun],hpost⟩

/-- A loop that counts up to `m`; its rounds may change what is outside. -/
theorem Stmt.run_whileLoop_stores (inv : Nat → Store ω → Prop) {m : Nat}
    (htest : ∀ i s,i ≤ m → inv i s → condition.test host call s=some (decide (i < m),s))
    (hround : ∀ i s,i < m → inv i s →
      ∃ t,Stmt.runAll host call fuel body s=some (.next t) ∧ inv (i+1) t)
    {i : Nat} {s : Store ω} (hinv : inv i s) (hi : i ≤ m) (hfuel : m-i < fuel) :
    ∃ t,(Stmt.whileLoop condition body).run host call fuel s=some (.next t) ∧ inv m t := by
  have hrounds : ∀ k s,k ≤ m ∧ inv (m-k) s →
      iterate.Round (condition.test host call) (Stmt.runAll host call fuel body)
        (fun k s => k ≤ m ∧ inv (m-k) s) (inv m) k s := by
    rintro k s ⟨hk,hs⟩
    have ht := htest (m-k) s (by omega) hs
    by_cases hzero : k=0
    · subst hzero
      rw [Nat.sub_zero] at ht hs
      rw [decide_eq_false (by omega)] at ht
      exact Or.inl ⟨s,ht,hs⟩
    · obtain ⟨t,hbody,hinv'⟩ := hround (m-k) s (by omega) hs
      rw [decide_eq_true (by omega)] at ht
      have hnext : m-k+1=m-(k-1) := by omega
      rw [hnext] at hinv'
      exact Or.inr ⟨s,t,k-1,ht,hbody,by omega,by omega,hinv'⟩
  have hback : m-(m-i)=i := by omega
  rw [Stmt.run_whileLoop]
  exact iterate.terminates hrounds (m-i) s fuel ⟨by omega,by rwa [hback]⟩ hfuel

/-- A loop that counts up to `m` and changes nothing outside. -/
theorem Stmt.run_whileLoop_counts (inv : Nat → Env DataType → Prop) {m : Nat}
    (htest : ∀ i σ,i ≤ m → inv i σ →
      condition.test host call (σ,w)=some (decide (i < m),σ,w))
    (hround : ∀ i σ,i < m → inv i σ →
      ∃ τ,Stmt.runAll host call fuel body (σ,w)=some (.next (τ,w)) ∧ inv (i+1) τ)
    {i : Nat} {σ : Env DataType} (hinv : inv i σ) (hi : i ≤ m) (hfuel : m-i < fuel) :
    ∃ τ,(Stmt.whileLoop condition body).run host call fuel (σ,w)=some (.next (τ,w)) ∧ inv m τ := by
  obtain ⟨⟨τ,v⟩,hrun,hv,hτ⟩ : ∃ t,(Stmt.whileLoop condition body).run host call fuel (σ,w)=
      some (.next t) ∧ t.2=w ∧ inv m t.1 := by
    refine Stmt.run_whileLoop_stores (fun i s => s.2=w ∧ inv i s.1) ?_ ?_ ⟨rfl,hinv⟩ hi hfuel
    · rintro i ⟨σ,v⟩ hi ⟨rfl,hσ⟩
      exact htest i σ hi hσ
    · rintro i ⟨σ,v⟩ hi ⟨rfl,hσ⟩
      obtain ⟨τ,hbody,hτ⟩ := hround i σ hi hσ
      exact ⟨_,hbody,rfl,hτ⟩
  obtain rfl : v=w := hv
  exact ⟨τ,hrun,hτ⟩

theorem Stmt.run_whileLoop_stuck (inv : Store ω → Prop)
    (htest : ∀ s,inv s → condition.test host call s=some (true,s))
    (hround : ∀ s,inv s → Stmt.runAll host call fuel body s=none ∨
      ∃ t,Stmt.runAll host call fuel body s=some (.next t) ∧ inv t)
    {s : Store ω} (hinv : inv s) :
    (Stmt.whileLoop condition body).run host call fuel s=none := by
  rw [Stmt.run_whileLoop]
  exact iterate.stuck htest hround fuel s hinv

end Loops

/-- A literal has its value in every state. -/
theorem Expr.run_literal {e : Expr} {value : Int} (h : e.literalValue=some value) (s : Store ω) :
    e.run host call s=some (BitVec.ofInt 64 value,s.2) := by
  cases e <;> first | cases h | rw [Expr.run,h,Option.map_some]

@[simp] theorem Host.compute_plain {o : OpcodeType} (h : o ≠ .SHL ∧ o ≠ .SHR) (a b : DataType) :
    host.compute o a b=Assembler.compute o a b := by
  apply if_neg
  rintro ⟨hl | hr,-⟩
  · exact h.1 hl
  · exact h.2 hr

theorem Host.compute_of_lt {o : OpcodeType} {count : DataType} (h : count.toNat < 64)
    (a : DataType) : host.compute o a count=Assembler.compute o a count := by
  apply if_neg
  rintro ⟨-,hle⟩
  omega

theorem Host.modular_compute (special : CName → List DataType → ω → Option (DataType × ω))
    (o : OpcodeType) (a b : DataType) :
    (Host.modular special).compute o a b=Assembler.compute o a b := ite_self _

end Run

/-- The parameters and the body of a function; a later one of the same name counts. -/
def functionBody (program : List Stmt) (name : CName) : Option (List CName × List Stmt) :=
  program.reverse.findSome? fun
    | .functionDef f params body => if f=name then some (params,body) else none
    | _ => none

/-- The variables at the start of a function, when the numbers agree. -/
@[simp]
def bindParams : List CName → List DataType → Option (Env DataType)
  | [],[] => some fun _ => none
  | p::ps,v::vs => (bindParams ps vs).map fun σ => Function.update σ p (some v)
  | _,_ => none

/-- What a function returns to a caller, if the fuel suffices: it is one more than the depth of
the calls and the number of tests of any of the loops. -/
def Host.call (host : Host ω) (program : List Stmt) :
    Nat → CName → List DataType → ω → Option (DataType × ω)
  | 0,_,_,_ => none
  | n+1,name,args,w =>
    match functionBody program name with
    | none => host.special name args w
    | some (params,body) =>
      (bindParams params args).bind fun σ =>
        match Stmt.runAll host (host.call program n) n body (σ,w) with
        | some (.returned r) => some r
        | _ => none

/-- A call returns, with whatever fuel from some bound on. -/
def Host.Returns (host : Host ω) (program : List Stmt) (name : CName) (args : List DataType)
    (w : ω) (r : DataType) (w' : ω) : Prop :=
  ∃ bound,∀ n,bound ≤ n → host.call program n name args w=some (r,w')

theorem Host.Returns.unique {host : Host ω} {program : List Stmt} {name : CName}
    {args : List DataType} {w w₁ w₂ : ω} {r₁ r₂ : DataType}
    (h₁ : host.Returns program name args w r₁ w₁) (h₂ : host.Returns program name args w r₂ w₂) :
    r₁=r₂ ∧ w₁=w₂ := by
  obtain ⟨m,hm⟩ := h₁
  obtain ⟨n,hn⟩ := h₂
  have hsame := (hm (max m n) (le_max_left m n)).symm.trans (hn (max m n) (le_max_right m n))
  exact Prod.mk.inj (Option.some.inj hsame)

end Manchester.Compiler
