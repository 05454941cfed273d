import Manchester.Assembler.LineFlow
import Manchester.Compiler.Names
import Manchester.Compiler.Sequential

namespace Manchester.Compiler

open Assembler Framework Framework.Net

/-- The state of the pass beside the wires that are in use and the tokens that will be on them. -/
structure View (τ α : Type) where
  pass : Pass
  known : Wire → Prop
  flow : Flow Wire τ α

namespace View

variable {τ α : Type}

/-- One more line, and the tokens that it makes. -/
def add (v : View τ α) (s : Statement) (line : Name) (P : Flow Wire τ α) : View τ α :=
  ⟨v.pass.emit line,fun x => v.known x ∨ s.Targets v.pass.toReturn.length x,v.flow.or P⟩

theorem add_length (v : View τ α) (s : Statement) (line : Name) (P : Flow Wire τ α) :
    (v.add s line P).pass.toReturn.length=v.pass.toReturn.length+1 :=
  List.length_append

def withPass (v : View τ α) (pass : Pass) : View τ α := {v with pass := pass}

/-- The tokens on the wires in use stay what they are. -/
structure Later (v v' : View τ α) : Prop where
  num : v.pass.num ≤ v'.pass.num
  known : ∀ x,v.known x → v'.known x
  flow : ∀ x,v.known x → v'.flow x=v.flow x

theorem Later.refl (v : View τ α) : Later v v := ⟨le_rfl,fun _ h => h,fun _ _ => rfl⟩

theorem Later.trans {v v' v'' : View τ α} (h : Later v v') (h' : Later v' v'') : Later v v'' := by
  refine ⟨h.num.trans h'.num,fun x hx => h'.known x (h.known x hx),fun x hx => ?_⟩
  rw [h'.flow x (h.known x hx),h.flow x hx]

theorem Later.withPass {v v' : View τ α} (h : Later v v') {pass : Pass}
    (hnum : pass.num=v'.pass.num) : Later v (v'.withPass pass) :=
  ⟨h.num.trans (le_of_eq hnum.symm),h.known,h.flow⟩

theorem later_num (v : View τ α) (pass : Pass) (hnum : v.pass.num ≤ pass.num) :
    Later v (v.withPass pass) := ⟨hnum,fun _ h => h,fun _ _ => rfl⟩

/-- The number of the next name. -/
def bump (v : View τ α) : View τ α := v.withPass v.pass.newTempVariable.2

theorem bump_later (v : View τ α) : Later v v.bump := v.later_num _ (Nat.le_succ _)

end View

def prints : Statement → Bool
  | .output .OUTD _ => true
  | _ => false

theorem targets_printed {s : Statement} {n k : Nat} (h : s.Targets n (.printed k)) : k=n := by
  have hwires : ∀ {x : Name},Wire.printed k∉targetWires x := by
    intro x hx
    unfold targetWires at hx
    split_ifs at hx
    · cases hx
    · simp at hx
  cases s with
  | assign target opcode input1 input2 =>
    cases opcode with
    | op o => simp [Statement.Targets,hwires] at h
    | OUTD | OUTS => simpa [Statement.Targets] using h
  | branch trueOutput falseOutput opcode input test =>
    cases opcode with
    | op o => simp [Statement.Targets,hwires] at h
    | OUTD | OUTS => simpa [Statement.Targets] using h
  | output opcode input => simpa [Statement.Targets] using h
  | blank | label _ | exportSymbol _ | externSymbol _ | unprocessed => cases h

theorem targets_of_prints {s : Statement} {n : Nat} (h : prints s=true) :
    s.Targets n (.printed n) := by
  unfold prints at h
  split at h
  · rfl
  · cases h

/-- The lines that print a number. -/
def outputLines (lines : List Name) : List Nat :=
  (List.range lines.length).filter fun k => (statementAt lines k).any prints

/-- The scope tag whose ETG has not been emitted yet. -/
def Pass.pendingTag (s : Pass) : Option Name :=
  if s.firstCallToCurrentScopeTag.isSome then s.currentScopeTag else none

section Names

variable {τ α : Type} {v : View τ α} {x y : Name}

/-- A name of the pass that no line has made a token for. -/
structure Fresh (v : View τ α) (x : Name) : Prop where
  isVariable : IsVariable x
  unknown : ¬v.known (.name x)
  stamped : ∃ k,stamp x=some k ∧ k ≤ v.pass.num
  notPending : v.pass.pendingTag ≠ some x

theorem Fresh.bump (h : Fresh v y) : Fresh v.bump y := by
  obtain ⟨k,hk,hle⟩ := h.stamped
  exact ⟨h.isVariable,h.unknown,⟨k,hk,hle.trans (Nat.le_succ _)⟩,h.notPending⟩

/-- Names of different numbers. -/
theorem Fresh.ne_new (h : Fresh v y) (hstamp : stamp x=some (v.pass.num+1)) :
    y ≠ x := by
  obtain ⟨k,hk,hle⟩ := h.stamped
  rintro rfl
  obtain rfl := Option.some.inj (hk.symm.trans hstamp)
  exact absurd hle (Nat.not_succ_le_self _)

/-- Names that the line does not define are as new as before. -/
theorem Fresh.add (hy : Fresh v y) {s : Statement} {line : Name} {P : Flow Wire τ α}
    (hne : ¬s.Targets v.pass.toReturn.length (.name y)) : Fresh (v.add s line P) y := by
  refine ⟨hy.isVariable,?_,hy.stamped,hy.notPending⟩
  rintro (hknown | htarget)
  · exact hy.unknown hknown
  · exact hne htarget

end Names

section Views

variable {τ α γ : Type} [DecidableEq τ]

/-- A variable carries at most one token, of tag t. -/
abbrev View.Holds (v : View τ α) (t : τ) (x : Name) (o : Option α) : Prop :=
  Carries v.known v.flow t x o

/-- What the lines make of the tokens at the start, whatever lines follow. -/
structure Built (dom : Domain τ α γ) (start : View τ α) (t : τ) (outs : List (Option α))
    (v : View τ α) : Prop where
  regular : ∀ line∈v.pass.toReturn,∃ s,decodeLine line=.ok s ∧ s.Regular
  piece : ∀ lines,v.pass.toReturn <+: lines → NoLabels lines → ∃ P,v.flow=start.flow.or P ∧
    (net dom lines).Piece (segment dom lines 0 v.pass.toReturn.length) start.known start.flow P ∧
    ∀ x,v.known x ↔
      start.known x ∨ (net dom lines).Target (segment dom lines 0 v.pass.toReturn.length) x
  given : ∀ x t u,v.flow x t=some u → v.known x
  tagged : ∀ x t' u,v.flow x t'=some u → t'=t ∨ start.flow x t'=some u
  stamped : ∀ x,v.known (.name x) → ∃ k,stamp x=some k ∧ k ≤ v.pass.num
  printed : ∀ k,v.known (.printed k) → k < v.pass.toReturn.length
  outputs : (outputLines v.pass.toReturn).map (fun k => v.flow (.printed k))=outs.map (single t)

/-- The tag of the scope is at hand, or the line that makes it. -/
def Scoped (dom : Domain τ α γ) (t : τ) (v : View τ α) : Prop :=
  match v.pass.currentScopeTag,v.pass.firstCallToCurrentScopeTag with
  | none,_ => t=dom.base ∧ v.known .start ∧ ∃ u,v.flow .start=single t (some u)
  | some tag,none => IsVariable tag ∧ ∃ u,v.Holds t tag (some u) ∧ dom.ofTag u=t
  | some tag,some line => IsVariable tag ∧ ¬v.known (.name tag) ∧
    (∃ k,stamp tag=some k ∧ k ≤ v.pass.num) ∧
    ∃ a u,line=assignLine tag "ETG".toList [a] ∧ IsVariable a ∧ v.Holds t a (some u)

/-- The guard of the numbers tells whether the branch is live. -/
def Guarded (dom : Domain τ α γ) (t : τ) (live : Bool) (v : View τ α) : Prop :=
  match v.pass.currentConditionalTrueVar with
  | none => live=true
  | some guard => IsVariable guard ∧ ∃ o,v.Holds t guard o ∧ o.any dom.truth=live

/-- The names in vars carry the values of the variables. -/
def Defines (t : τ) (vars : Variables) (σ : Env α) (v : View τ α) : Prop :=
  ∀ u,(∀ x,vars.lookup u=some x → IsVariable x ∧ v.Holds t x (σ u)) ∧
    (vars.lookup u=none → σ u=none)

structure Fits (dom : Domain τ α γ) (start : View τ α) (t : τ) (live : Bool) (σ : Env α)
    (outs : List (Option α)) (v : View τ α) : Prop where
  built : Built dom start t outs v
  inScope : Scoped dom t v
  guarded : Guarded dom t live v
  defines : Defines t v.pass.vars σ v

/-- What the compiler relies on: the tag of a token and back, the number 1, and the operators. -/
structure Faithful (dom : Domain τ α γ) : Prop where
  tag : ∀ t,dom.ofTag (dom.tagOf t)=t
  one : dom.truth (dom.literal 1)=true
  operator : ∀ (op : Op) o,op.opcode=some o →
    ∀ c t a b,dom.result c t a b o=(dom.compute o a b).map fun r => (t,r)

variable {dom : Domain τ α γ} {start v v' : View τ α} {t : τ} {live : Bool} {σ : Env α}
  {outs : List (Option α)} {x : Name} {o : Option α}

theorem Holds.later (h : v.Holds t x o) (hlater : View.Later v v') : v'.Holds t x o :=
  ⟨h.ne,hlater.known _ h.known,(hlater.flow _ h.known).trans h.flow⟩

theorem Defines.later {vars : Variables} (h : Defines t vars σ v) (hlater : View.Later v v') :
    Defines t vars σ v' := by
  intro u
  refine ⟨fun x hx => ?_,(h u).2⟩
  obtain ⟨hvariable,hholds⟩ := (h u).1 x hx
  exact ⟨hvariable,Holds.later hholds hlater⟩

theorem Guarded.later (h : Guarded dom t live v) (hlater : View.Later v v')
    (hguard : v'.pass.currentConditionalTrueVar=v.pass.currentConditionalTrueVar) :
    Guarded dom t live v' := by
  unfold Guarded at *
  rw [hguard]
  split at h
  · exact h
  · obtain ⟨hvariable,o,hholds,hlive⟩ := h
    exact ⟨hvariable,o,Holds.later hholds hlater,hlive⟩

theorem IsVariable.ne_underscore (h : IsVariable x) : x ≠ ['_'] := by
  rintro rfl
  exact absurd h.letter (by decide)

/-- The tokens under a name are not of another variable's value. -/
theorem Holds.unique {o' : Option α} (h : v.Holds t x o) (h' : v.Holds t x o') : o=o' :=
  single_injective (h.flow.symm.trans h'.flow)

theorem noLabels_of_regular {lines : List Name}
    (h : ∀ line∈lines,∃ s,decodeLine line=.ok s ∧ s.Regular) : NoLabels lines := by
  intro x
  rw [isLabel,List.any_eq_false]
  intro s hs
  obtain ⟨line,hline,hdecode⟩ := List.mem_filterMap.mp hs
  obtain ⟨s',hs',hregular⟩ := h line hline
  rw [hs'] at hdecode
  obtain rfl := Option.some.inj hdecode
  intro hlabel
  exact hregular.operands (by rw [eq_of_beq hlabel]; rfl)

theorem statementAt_of_prefix {lines lines' : List Name} (h : lines <+: lines') {k : Nat}
    (hk : k < lines.length) : statementAt lines' k=statementAt lines k := by
  obtain ⟨more,rfl⟩ := h
  rw [statementAt,statementAt,List.getElem?_append_left hk]

theorem statementAt_last (lines : List Name) {line : Name} {s : Statement}
    (h : decodeLine line=.ok s) : statementAt (lines++[line]) lines.length=some s := by
  rw [statementAt,List.getElem?_concat_length,Option.bind_some,h]
  rfl

theorem outputLines_append (lines : List Name) {line : Name} {s : Statement}
    (h : decodeLine line=.ok s) :
    outputLines (lines++[line])=outputLines lines++if prints s then [lines.length] else [] := by
  have hold : ∀ k∈List.range lines.length,statementAt (lines++[line]) k=statementAt lines k :=
    fun k hk => statementAt_of_prefix (List.prefix_append _ _) (List.mem_range.mp hk)
  unfold outputLines
  rw [List.length_append,List.length_singleton,List.range_succ,List.filter_append]
  congr 1
  · refine List.filter_congr fun k hk => ?_
    rw [hold k hk]
  · rw [List.filter_singleton,statementAt_last lines h,cond_eq_ite]
    rfl

/-- A line that makes the tokens of P. -/
structure Makes (dom : Domain τ α γ) (v : View τ α) (t : τ) (s : Statement) (line : Name)
    (P : Flow Wire τ α) : Prop where
  decode : decodeLine line=.ok s
  regular : s.Regular
  piece : ∀ lines,NoLabels lines → statementAt lines v.pass.toReturn.length=some s →
    (net dom lines).Piece (lineRules dom lines v.pass.toReturn.length) v.known v.flow P
  tag : ∀ x t' u,P x t'=some u → t'=t
  fresh : ∀ x,s.Targets v.pass.toReturn.length (.name x) → Fresh v x

section Line

variable {s : Statement} {line : Name} {P : Flow Wire τ α}

omit [DecidableEq τ] in
theorem Makes.target (h : Makes dom v t s line P) {lines : List Name} (hlabels : NoLabels lines)
    (hs : statementAt lines v.pass.toReturn.length=some s) (x : Wire) :
    (net dom lines).Target (lineRules dom lines v.pass.toReturn.length) x ↔
      s.Targets v.pass.toReturn.length x :=
  target_lineRules hs (h.regular.ways_ne_nil hlabels _) x

variable (hbuilt : Built dom start t outs v) (h : Makes dom v t s line P)

include hbuilt h

theorem Makes.regularLines : ∀ line'∈v.pass.toReturn++[line],∃ s,decodeLine line'=.ok s ∧
    s.Regular := by
  intro line' hline
  obtain hline | hline := List.mem_append.mp hline
  · exact hbuilt.regular line' hline
  · rw [List.mem_singleton.mp hline]
    exact ⟨s,h.decode,h.regular⟩

theorem Makes.unknown {x : Wire} (hx : s.Targets v.pass.toReturn.length x) : ¬v.known x := by
  have hlabels := noLabels_of_regular (h.regularLines hbuilt)
  have hs := statementAt_last v.pass.toReturn h.decode
  exact (h.piece _ hlabels hs).fresh x ((h.target hlabels hs x).mpr hx)

theorem Makes.support {x : Wire} {t' : τ} {u : α} (hx : P x t'=some u) :
    s.Targets v.pass.toReturn.length x := by
  have hlabels := noLabels_of_regular (h.regularLines hbuilt)
  have hs := statementAt_last v.pass.toReturn h.decode
  exact (h.target hlabels hs x).mp ((h.piece _ hlabels hs).support x t' u hx)

theorem Makes.absent {x : Wire} (hx : v.known x) (t' : τ) : P x t'=none := by
  cases hP : P x t' with
  | none => rfl
  | some u => exact absurd hx (h.unknown hbuilt (h.support hbuilt hP))

theorem Makes.later : View.Later v (v.add s line P) := by
  refine ⟨le_rfl,fun x hx => Or.inl hx,fun x hx => ?_⟩
  funext t'
  exact Flow.or_of_right_none (h.absent hbuilt hx t')

omit h in
/-- A wire that was not in use has the tokens of the line only. -/
theorem flow_new {x : Wire} (hx : ¬v.known x) : (v.add s line P).flow x=P x := by
  funext t'
  apply Flow.or_of_left_none
  cases hv : v.flow x t' with
  | none => rfl
  | some u => exact absurd (hbuilt.given x t' u hv) hx

theorem Built.add (more : List (Option α))
    (hmore : (if prints s then [P (.printed v.pass.toReturn.length)] else [])=
      more.map (single t)) :
    Built dom start t (outs++more) (v.add s line P) := by
  have hlater := h.later hbuilt
  have hlen := v.add_length s line P
  constructor
  · exact h.regularLines hbuilt
  · intro lines hlines hlabels
    have hbefore : v.pass.toReturn <+: lines := (List.prefix_append _ _).trans hlines
    have hs : statementAt lines v.pass.toReturn.length=some s := by
      rw [ statementAt_of_prefix hlines (by rw [hlen]; exact Nat.lt_succ_self _)]
      exact statementAt_last _ h.decode
    obtain ⟨P',hflow,hpiece,hknown⟩ := hbuilt.piece lines hbefore hlabels
    have hline := h.piece lines hlabels hs
    rw [hflow] at hline
    have hsegment : segment dom lines 0 (v.add s line P).pass.toReturn.length=
        segment dom lines 0 v.pass.toReturn.length++
          lineRules dom lines v.pass.toReturn.length := by
      rw [hlen,← segment_append,segment_one,Nat.zero_add]
    refine ⟨P'.or P,?_,?_,fun x => ?_⟩
    · rw [← Flow.or_assoc,← hflow]
      rfl
    · rw [hsegment]
      exact hpiece.append (hline.mono_known hknown)
    · rw [hsegment,target_append,h.target hlabels hs,← or_assoc,← hknown]
      rfl
  · intro x t' u hx
    obtain hx | hx := Option.or_eq_some_iff.mp hx
    · exact Or.inl (hbuilt.given x t' u hx)
    · exact Or.inr (h.support hbuilt hx.2)
  · intro x t' u hx
    obtain hx | hx := Option.or_eq_some_iff.mp hx
    · exact hbuilt.tagged x t' u hx
    · exact Or.inl (h.tag x t' u hx.2)
  · intro x hx
    obtain hx | hx := hx
    · exact hbuilt.stamped x hx
    · exact (h.fresh x hx).stamped
  · intro k hk
    rw [hlen]
    obtain hk | hk := hk
    · exact (hbuilt.printed k hk).trans (Nat.lt_succ_self _)
    · rw [targets_printed hk]
      exact Nat.lt_succ_self _
  · have hold : ∀ k∈outputLines v.pass.toReturn,
        (v.add s line P).flow (.printed k)=v.flow (.printed k) := by
      intro k hk
      have hlt : k < v.pass.toReturn.length := List.mem_range.mp (List.mem_filter.mp hk).1
      funext t'
      apply Flow.or_of_right_none
      cases hP : P (.printed k) t' with
      | none => rfl
      | some u => exact absurd (targets_printed (h.support hbuilt hP)) hlt.ne
    have hnew : prints s=true → (v.add s line P).flow (.printed v.pass.toReturn.length)=
        P (.printed v.pass.toReturn.length) := fun hprints =>
      flow_new hbuilt (h.unknown hbuilt (targets_of_prints hprints))
    show (outputLines (v.pass.toReturn++[line])).map _=_
    rw [outputLines_append _ h.decode,List.map_append,List.map_append,List.map_congr_left hold,
      hbuilt.outputs,← hmore]
    congr 1
    split_ifs with hprints
    · exact congrArg (fun f => [f]) (hnew hprints)
    · rfl

theorem Scoped.add (hscoped : Scoped dom t v) : Scoped dom t (v.add s line P) := by
  have hlater := h.later hbuilt
  unfold Scoped at *
  show match v.pass.currentScopeTag,v.pass.firstCallToCurrentScopeTag with
    | none,_ => _
    | some tag,none => _
    | some tag,some line' => _
  cases htag : v.pass.currentScopeTag with
  | none =>
    simp only [htag] at hscoped
    obtain ⟨hbase,hknown,u,hu⟩ := hscoped
    exact ⟨hbase,hlater.known _ hknown,u,(hlater.flow _ hknown).trans hu⟩
  | some tag =>
    cases hfirst : v.pass.firstCallToCurrentScopeTag with
    | none =>
      simp only [htag,hfirst] at hscoped
      obtain ⟨hvariable,u,hu,hof⟩ := hscoped
      exact ⟨hvariable,u,Holds.later hu hlater,hof⟩
    | some line' =>
      simp only [htag,hfirst] at hscoped
      obtain ⟨hvariable,hunknown,hstamp,a,u,hline,ha,hu⟩ := hscoped
      refine ⟨hvariable,?_,hstamp,a,u,hline,ha,Holds.later hu hlater⟩
      rintro (hknown | htarget)
      · exact hunknown hknown
      · exact (h.fresh tag htarget).notPending (by simp [Pass.pendingTag,hfirst,htag])

theorem Fits.add (hfits : Fits dom start t live σ outs v) (more : List (Option α))
    (hmore : (if prints s then [P (.printed v.pass.toReturn.length)] else [])=
      more.map (single t)) :
    Fits dom start t live σ (outs++more) (v.add s line P) :=
  ⟨hbuilt.add h more hmore,hfits.inScope.add hbuilt h,hfits.guarded.later (h.later hbuilt) rfl,
    hfits.defines.later (h.later hbuilt)⟩

end Line

theorem Built.withPass (h : Built dom start t outs v) {pass : Pass}
    (hlines : pass.toReturn=v.pass.toReturn) (hnum : v.pass.num ≤ pass.num) :
    Built dom start t outs (v.withPass pass) := by
  obtain ⟨hregular,hpiece,hgiven,htagged,hstamped,hprinted,houtputs⟩ := h
  rw [← hlines] at hregular hpiece hprinted houtputs
  refine ⟨hregular,hpiece,hgiven,htagged,fun x hx => ?_,hprinted,houtputs⟩
  obtain ⟨k,hk,hle⟩ := hstamped x hx
  exact ⟨k,hk,hle.trans hnum⟩

theorem Scoped.withPass (h : Scoped dom t v) {pass : Pass}
    (htag : pass.currentScopeTag=v.pass.currentScopeTag)
    (hfirst : pass.firstCallToCurrentScopeTag=v.pass.firstCallToCurrentScopeTag)
    (hnum : v.pass.num ≤ pass.num) : Scoped dom t (v.withPass pass) := by
  unfold Scoped at *
  show match pass.currentScopeTag,pass.firstCallToCurrentScopeTag with
    | none,_ => _
    | some tag,none => _
    | some tag,some line' => _
  rw [htag,hfirst]
  split at h
  · exact h
  · exact h
  · obtain ⟨hvariable,hunknown,⟨k,hk,hle⟩,hline⟩ := h
    exact ⟨hvariable,hunknown,⟨k,hk,hle.trans hnum⟩,hline⟩

/-- What is left of a state when names are taken and variables set. -/
theorem Fits.withPass (h : Fits dom start t live σ outs v) {pass : Pass} {live' : Bool}
    {σ' : Env α} (hlines : pass.toReturn=v.pass.toReturn)
    (htag : pass.currentScopeTag=v.pass.currentScopeTag)
    (hfirst : pass.firstCallToCurrentScopeTag=v.pass.firstCallToCurrentScopeTag)
    (hnum : v.pass.num ≤ pass.num) (hguard : Guarded dom t live' (v.withPass pass))
    (hdefines : Defines t pass.vars σ' v) :
    Fits dom start t live' σ' outs (v.withPass pass) :=
  ⟨h.built.withPass hlines hnum,h.inScope.withPass htag hfirst hnum,hguard,
    hdefines.later (v.later_num _ hnum)⟩

theorem Fits.setVariable (h : Fits dom start t live σ outs v) (u : CName) (hx : IsVariable x)
    (ho : v.Holds t x o) :
    Fits dom start t live (Function.update σ u o) outs (v.withPass (v.pass.setVariable u x)) := by
  refine h.withPass rfl rfl rfl le_rfl (h.guarded.later (v.later_num _ le_rfl) rfl) fun w => ?_
  show (∀ y,(v.pass.vars.insert u x).lookup w=some y → _) ∧
    ((v.pass.vars.insert u x).lookup w=none → _)
  by_cases hw : w=u
  · subst hw
    simp only [AList.lookup_insert,Function.update_self]
    refine ⟨fun y hy => ?_,fun hnone => by cases hnone⟩
    obtain rfl := Option.some.inj hy
    exact ⟨hx,ho⟩
  · rw [AList.lookup_insert_ne hw,Function.update_of_ne hw]
    exact h.defines w

theorem Fits.bump (h : Fits dom start t live σ outs v) : Fits dom start t live σ outs v.bump :=
  h.withPass rfl rfl rfl (Nat.le_succ _) (h.guarded.later v.bump_later rfl) h.defines

/-- A name with the new number is in no use. -/
theorem Fits.fresh (h : Fits dom start t live σ outs v) (hx : IsVariable x)
    (hstamp : stamp x=some (v.pass.num+1)) : Fresh v.bump x := by
  have hlate : ∀ {y},(∃ k,stamp y=some k ∧ k ≤ v.pass.num) → y ≠ x := by
    rintro y ⟨k,hk,hle⟩ rfl
    obtain rfl := Option.some.inj (hk.symm.trans hstamp)
    exact absurd hle (Nat.not_succ_le_self _)
  refine ⟨hx,fun hknown => hlate (h.built.stamped x hknown) rfl,⟨_,hstamp,le_rfl⟩,?_⟩
  intro hpending
  have hscoped := h.inScope
  change v.pass.pendingTag=some x at hpending
  unfold Pass.pendingTag at hpending
  split_ifs at hpending with hfirst
  obtain ⟨line,hline⟩ := Option.isSome_iff_exists.mp hfirst
  simp only [Scoped,hpending,hline] at hscoped
  exact hlate hscoped.2.2.1 rfl

/-- One more name with a token, if there is one. -/
structure Gives (dom : Domain τ α γ) (start : View τ α) (t : τ) (live : Bool) (σ : Env α)
    (outs : List (Option α)) (v v' : View τ α) (x : Name) (o : Option α) : Prop where
  later : View.Later v v'
  fits : Fits dom start t live σ outs v'
  holds : v'.Holds t x o
  fresh : ∀ y,Fresh v y → y ≠ x → Fresh v' y
  vars : v'.pass.vars=v.pass.vars
  guard : v'.pass.currentConditionalTrueVar=v.pass.currentConditionalTrueVar

/-- The line has one target. -/
theorem Makes.one (hx : Fresh v x) {s : Statement} {line : Name} (hdecode : decodeLine line=.ok s)
    (hregular : s.Regular) (htargets : ∀ y,s.Targets v.pass.toReturn.length (.name y) → y=x)
    (hpiece : ∀ lines,NoLabels lines → statementAt lines v.pass.toReturn.length=some s →
      (net dom lines).Piece (lineRules dom lines v.pass.toReturn.length) v.known v.flow
        (one (.name x) t o)) :
    Makes dom v t s line (Net.one (.name x) t o) :=
  ⟨hdecode,hregular,hpiece,fun _ _ _ hy => (one_eq_some hy).2.1,fun y hy => by rwa [htargets y hy]⟩

theorem Makes.gives {s : Statement} {line : Name} {P : Flow Wire τ α}
    (h : Makes dom v t s line P) (hfits : Fits dom start t live σ outs v) (hx : Fresh v x)
    (hprints : prints s=false)
    (htargets : ∀ y,s.Targets v.pass.toReturn.length (.name y) ↔ y=x)
    (hP : P (.name x)=single t o) : Gives dom start t live σ outs v (v.add s line P) x o := by
  have hadd := hfits.add hfits.built h [] (by simp [hprints])
  rw [List.append_nil] at hadd
  refine ⟨h.later hfits.built,hadd,?_,fun y hy hne => ?_,rfl,rfl⟩
  · refine ⟨hx.isVariable.ne_underscore,Or.inr ((htargets x).mpr rfl),?_⟩
    rw [flow_new hfits.built hx.unknown,hP]
  · exact hy.add fun htarget => hne ((htargets y).mp htarget)

end Views

end Manchester.Compiler
