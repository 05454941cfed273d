import Manchester.Compiler.Conditional

namespace Manchester.Compiler

open Assembler Framework Framework.Net

theorem faithful_machine (labels : List Name) (address : Name → DataType) :
    Faithful (machineDomain labels address) := by
  have hone : (BitVec.ofInt 64 1 != 0)=true := by decide
  refine ⟨fun _ => rfl,hone,fun op o hop c t a b => ?_⟩
  cases op <;> cases hop <;> rfl

variable {τ α γ : Type} [DecidableEq τ]

/-- The wires that tokens are on, and these tokens. -/
def View.ofTokens (s : Pass) (init : List (Token Wire τ α)) : View τ α :=
  ⟨s,fun x => ∃ k∈init,k.wire=x,flowOf init⟩

/-- A state of the pass with no lines of its own yet, whose names carry the values of the
variables, each one token of tag t, and whose scope is live. -/
structure Entry (dom : Domain τ α γ) (s : Pass) (σ : Env α) (t : τ) (init : List (Token Wire τ α)) :
    Prop where
  lines : s.toReturn=[]
  keys : (init.map fun k => (k.wire,k.tag)).Nodup
  wires : ∀ k∈init,k.wire=.start ∨ ∃ x n,k.wire=.name x ∧ stamp x=some n ∧ n ≤ s.num
  scope : Scoped dom t (View.ofTokens s init)
  guard : Guarded dom t true (View.ofTokens s init)
  defines : Defines t s.vars σ (View.ofTokens s init)

variable {dom : Domain τ α γ} {s : Pass} {σ : Env α} {t : τ} {init : List (Token Wire τ α)}

theorem carries_flowOf (hkeys : (init.map fun k => (k.wire,k.tag)).Nodup) :
    Net.Carries init (flowOf init) :=
  ⟨hkeys.of_map,fun _ => ⟨flowOf_of_mem hkeys,mem_of_flowOf⟩⟩

theorem Entry.fits (h : Entry dom s σ t init) :
    Fits dom (View.ofTokens s init) t true σ [] (View.ofTokens s init) := by
  have hgiven : ∀ x t' u,flowOf init x t'=some u → ∃ k∈init,k.wire=x := by
    intro x t' u hx
    exact ⟨⟨x,t',u⟩,mem_of_flowOf hx,rfl⟩
  refine ⟨⟨?_,?_,hgiven,fun _ _ _ hx => Or.inr hx,?_,?_,?_⟩,h.scope,h.guard,h.defines⟩
  · intro line hline
    rw [View.ofTokens,h.lines] at hline
    cases hline
  · intro lines _ _
    refine ⟨Flow.empty,(Flow.or_empty _).symm,?_,fun x => ?_⟩
    · rw [View.ofTokens,h.lines]
      exact Piece.nil hgiven
    · have hnone : ¬(net dom lines).Target (segment dom lines 0 s.toReturn.length) x := by
        rw [h.lines]
        rintro ⟨r,hr,-⟩
        cases hr
      exact ⟨Or.inl,fun hx => hx.resolve_right hnone⟩
  · rintro x ⟨k,hk,hwire⟩
    obtain hstart | ⟨y,n,hy,hn⟩ := h.wires k hk
    · cases hwire.symm.trans hstart
    · cases hwire.symm.trans hy
      exact ⟨n,hn⟩
  · rintro n ⟨k,hk,hwire⟩
    obtain hstart | ⟨y,_,hy,-⟩ := h.wires k hk
    · cases hwire.symm.trans hstart
    · cases hwire.symm.trans hy
  · rw [View.ofTokens,h.lines]
    rfl

/-- A whole program begins with the token that starts the lines that wait for nothing. -/
theorem entry_empty (dom : Domain τ α γ) (u : α) :
    Entry dom Pass.empty (fun _ => none) dom.base [⟨.start,dom.base,u⟩] := by
  have hstart : flowOf [(⟨.start,dom.base,u⟩ : Token Wire τ α)] .start=
      single dom.base (some u) := by
    have hone : flowOf [(⟨.start,dom.base,u⟩ : Token Wire τ α)]=one Wire.start dom.base (some u) :=
      flowOf_one Wire.start dom.base (some u)
    rw [hone,one_self]
  refine ⟨rfl,by simp,by simp,⟨rfl,⟨_,List.mem_singleton_self _,rfl⟩,u,hstart⟩,rfl,
    fun w => ⟨fun x hx => ?_,fun _ => rfl⟩⟩
  cases hx

section Settled

variable {ρ : Type}

/-- The tokens that have been made for a wire. -/
def tokensOn (m : Net.State Wire ρ τ α) (x : Wire) : Multiset (Token Wire τ α) :=
  m.made.filter fun k => k.wire=x

theorem tokensOn_eq {m : Net.State Wire ρ τ α} {D : Flow Wire τ α} {x : Wire} {o : Option α}
    (hnodup : m.made.Nodup) (hmem : ∀ k,k∈m.made ↔ D.Has k) (hD : D x=single t o) :
    tokensOn m x=↑(o.toList.map fun a => (⟨x,t,a⟩ : Token Wire τ α)) := by
  have hlist : (o.toList.map fun a => (⟨x,t,a⟩ : Token Wire τ α)).Nodup := by
    cases o <;> simp
  refine (Multiset.Nodup.ext (hnodup.filter _) (Multiset.coe_nodup.mpr hlist)).mpr ?_
  rintro ⟨y,t',v⟩
  simp only [Multiset.mem_filter,hmem,Flow.Has,Multiset.mem_coe,List.mem_map,Option.mem_toList,
    Token.mk.injEq]
  constructor
  · rintro ⟨hv,rfl⟩
    rw [hD] at hv
    obtain ⟨rfl,ho⟩ := single_eq_some hv
    exact ⟨v,ho,rfl,rfl,rfl⟩
  · rintro ⟨v,ho,rfl,rfl,rfl⟩
    rw [hD,single_self]
    exact ⟨ho,rfl⟩

end Settled

/-- The lines of assignments, OUTD statements and conditionals, started with one token for each
variable, come to rest under every order of firing. Then there is exactly one token under the name
of each variable, with the value that sequential execution gives, and the OUTD statements have
printed what they print in it, each one only if it is reached. -/
theorem conditionals_correct (labels : List Name) (address : Name → DataType) (fs : List Function)
    (order : SetOrder) (program : List Stmt) {s s' : Pass} {σ σ' : Env DataType} {t : TagType}
    {init : List (Token Wire TagType DataType)} {outs : List (Option DataType)}
    (hplain : Stmt.allPlain program=true)
    (hentry : Entry (machineDomain labels address) s σ t init)
    (hvisit : Stmt.visitAll (fs++specialFunctions.map Prod.fst) order program s=.ok s')
    (hexec : Stmt.execAll program σ=some (σ',outs)) :
    let N := net (machineDomain labels address) s'.toReturn
    let rules := segment (machineDomain labels address) s'.toReturn 0 s'.toReturn.length
    (∀ run : Nat → Net.State Wire (Nat × Nat) TagType DataType,run 0=N.start rules init →
      ¬∀ n,N.Step rules (run n) (run (n+1))) ∧
    ∀ m,N.Reachable rules init m → N.Stuck rules m →
      (∀ u a,σ' u=some a → ∃ x,s'.vars.lookup u=some x ∧ tokensOn m (.name x)={⟨.name x,t,a⟩}) ∧
      List.Forall₂ (fun k out => tokensOn m (.printed k)=
        match out with
        | some a => {⟨.printed k,t,a⟩}
        | none => 0) (outputLines s'.toReturn) outs := by
  intro N rules
  let dom := machineDomain labels address
  obtain ⟨used,hused,-⟩ := Stmt.lazyAll_lawful dom program hplain
  obtain ⟨v,rfl,hruns⟩ := Stmt.visitAll_runs fs order (faithful_machine labels address) program
    hplain hused (v := View.ofTokens s init) hvisit hentry.fits
  have hlazy := Stmt.lazyAll_of_exec labels address program hplain hexec
  rw [hlazy] at hruns
  have hbuilt := hruns.fits.built
  have hcarries := carries_flowOf hentry.keys
  obtain ⟨P,hflow,hpiece,-⟩ := hbuilt.piece v.pass.toReturn (List.prefix_refl _)
    (noLabels_of_regular hbuilt.regular)
  have hrules : rules.Nodup := nodup_segment _ _ _ _
  have htags : ∀ k,((flowOf init).or P).Has k → k.tag∈t::init.map Token.tag := by
    intro k hk
    rw [show (flowOf init).or P=v.flow from hflow.symm] at hk
    obtain htag | hinit := hbuilt.tagged k.wire k.tag k.value hk
    · exact List.mem_cons.mpr (Or.inl htag)
    · exact List.mem_cons_of_mem _ (List.mem_map_of_mem (mem_of_flowOf hinit))
  refine ⟨fun run hzero => hpiece.run_ends hcarries hrules htags run hzero,fun m hm hstuck => ?_⟩
  obtain ⟨hnodup,hmade⟩ := hpiece.settled hcarries hrules hm hstuck
  rw [show (View.ofTokens s init).flow.or P=v.flow from hflow.symm] at hmade
  constructor
  · intro u a hu
    obtain ⟨hsome,hnone⟩ := hruns.fits.defines u
    cases hlookup : v.pass.vars.lookup u with
    | none => cases (hnone hlookup).symm.trans hu
    | some x =>
      have hflow : v.flow (.name x)=single t (σ' u) := (hsome x hlookup).2.flow
      rw [hu] at hflow
      exact ⟨x,rfl,tokensOn_eq hnodup hmade hflow⟩
  · have houtputs : List.Forall₂ (fun k out => v.flow (.printed k)=single t out)
        (outputLines v.pass.toReturn) outs := by
      have heq := hbuilt.outputs
      rw [← List.forall₂_eq_eq_eq,List.forall₂_map_left_iff,List.forall₂_map_right_iff] at heq
      exact heq
    refine houtputs.imp fun k out hout => ?_
    rw [tokensOn_eq hnodup hmade hout]
    cases out <;> rfl

/-- `y=1; if(y){x=2;}else{x=3;} OUTD(x);` prints 2. -/
theorem conditionals_correct_branch :
    let x : CName := ⟨"x".toList,by decide⟩
    let y : CName := ⟨"y".toList,by decide⟩
    let program : List Stmt := [.assignment y (.number ⟨['1'],by decide⟩),
      .conditional (.varName y) [.assignment x (.number ⟨['2'],by decide⟩)]
        [.assignment x (.number ⟨['3'],by decide⟩)],
      .expression (.functionCall ⟨"OUTD".toList,by decide⟩ [.varName x])]
    let order : SetOrder := ⟨fun _ _ l => l,fun _ _ _ => List.Perm.refl _⟩
    let dom := machineDomain [] fun _ => 0
    ∃ s',Stmt.visitAll (specialFunctions.map Prod.fst) order program Pass.empty=.ok s' ∧
      let rules := segment dom s'.toReturn 0 s'.toReturn.length
      ∀ m,(net dom s'.toReturn).Reachable rules [⟨.start,noTag,0⟩] m →
        (net dom s'.toReturn).Stuck rules m →
          ∃ name,s'.vars.lookup x=some name ∧ tokensOn m (.name name)={⟨.name name,noTag,2⟩} := by
  intro x y program order dom
  have hok : (Stmt.visitAll (specialFunctions.map Prod.fst) order program
      Pass.empty).isOk=true := by
    decide +kernel
  have hexec : (Stmt.execAll program fun _ => none).map (fun r => (r.1 x,r.2))=
      some (some 2,[some 2]) := by
    decide +kernel
  cases hvisit : Stmt.visitAll (specialFunctions.map Prod.fst) order program Pass.empty with
  | error e =>
    rw [hvisit] at hok
    cases hok
  | ok s' =>
    obtain ⟨⟨σ',outs⟩,hrun,hvalue⟩ := Option.map_eq_some_iff.mp hexec
    refine ⟨s',rfl,fun m hm hstuck => ?_⟩
    have hcorrect := conditionals_correct [] (fun _ => 0) [] order program (by decide +kernel)
      (entry_empty dom 0) hvisit hrun
    exact (hcorrect.2 m hm hstuck).1 x 2 (Prod.mk.inj hvalue).1

end Manchester.Compiler
