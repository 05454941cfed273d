import Manchester.Framework.Transition
import Mathlib.Data.List.Nodup
import Mathlib.Data.Multiset.Bind
import Mathlib.Data.Multiset.UnionInter
import Mathlib.Tactic.Abel

namespace Framework

structure Token (ν τ α : Type) where
  wire : ν
  tag : τ
  value : α
  deriving DecidableEq, Repr

/-- A rule takes one token from each wire that it reads, all of one tag. What it emits may depend
on a choice that is made from outside, such as a new tag. -/
structure Net (ν ρ τ α γ : Type) where
  reads : ρ → List ν
  targets : ρ → ν → Prop
  emits : ρ → γ → τ → List α → List (Token ν τ α)
  emits_targets : ∀ r c t vs,∀ k∈emits r c t vs,targets r k.wire

/-- A token at a port of a rule: the place of a wire among those that the rule reads. -/
structure Arrival (ρ τ α : Type) where
  rule : ρ
  port : Nat
  tag : τ
  value : α

structure Firing (ρ τ α γ : Type) where
  rule : ρ
  choice : γ
  tag : τ
  values : List α

namespace Net

variable {ν ρ τ α γ : Type} [DecidableEq ν] (N : Net ν ρ τ α γ) (rules : List ρ)

/-- The tokens that wait at ports, and all that have been made so far. -/
structure State (ν ρ τ α : Type) where
  held : Multiset (Arrival ρ τ α)
  made : Multiset (Token ν τ α)

def ports (x : ν) : List (ρ × Nat) :=
  rules.flatMap fun r => ((N.reads r).zipIdx.filter fun p => p.1=x).map fun p => (r,p.2)

/-- A token goes to every port that reads its wire. -/
def arrivals (k : Token ν τ α) : List (Arrival ρ τ α) :=
  (N.ports rules k.wire).map fun p => ⟨p.1,p.2,k.tag,k.value⟩

def spawn (ks : Multiset (Token ν τ α)) : Multiset (Arrival ρ τ α) :=
  ks.bind fun k => ↑(N.arrivals rules k)

def operands (f : Firing ρ τ α γ) : List (Arrival ρ τ α) :=
  f.values.zipIdx.map fun p => ⟨f.rule,p.2,f.tag,p.1⟩

def results (f : Firing ρ τ α γ) : List (Token ν τ α) := N.emits f.rule f.choice f.tag f.values

def start (init : List (Token ν τ α)) : State ν ρ τ α := ⟨N.spawn rules ↑init,↑init⟩

/-- A rule of the net takes its operands, and its results go to their ports. -/
inductive Step : State ν ρ τ α → State ν ρ τ α → Prop where
  | fire (f : Firing ρ τ α γ) (rest : Multiset (Arrival ρ τ α)) (made : Multiset (Token ν τ α))
      (hrule : f.rule∈rules) (hlen : f.values.length=(N.reads f.rule).length) :
      Step ⟨↑(operands f)+rest,made⟩ ⟨N.spawn rules ↑(N.results f)+rest,made+↑(N.results f)⟩

abbrev Reachable (init : List (Token ν τ α)) : State ν ρ τ α → Prop :=
  Transition.Reachable (· = N.start rules init) (N.Step rules)

def Stuck (s : State ν ρ τ α) : Prop := ¬∃ s',N.Step rules s s'

variable {N rules}

theorem mem_ports {x : ν} {r : ρ} {i : Nat} :
    (r,i)∈N.ports rules x ↔ r∈rules ∧ (N.reads r)[i]?=some x := by
  simp only [ports,List.mem_flatMap,List.mem_map,List.mem_filter,decide_eq_true_eq,Prod.mk.injEq]
  constructor
  · rintro ⟨r',hr,⟨y,j⟩,⟨hmem,rfl⟩,rfl,rfl⟩
    exact ⟨hr,List.mem_zipIdx_iff_getElem?.mp hmem⟩
  · intro ⟨hr,hget⟩
    exact ⟨r,hr,⟨x,i⟩,⟨List.mem_zipIdx_iff_getElem?.mpr hget,rfl⟩,rfl,rfl⟩

theorem nodup_ports (hrules : rules.Nodup) (x : ν) : (N.ports rules x).Nodup := by
  refine List.nodup_flatMap.mpr ⟨fun r _ => ?_,?_⟩
  · refine List.Nodup.map_on ?_ (List.Nodup.filter _ ?_)
    · intro p hp q hq heq
      obtain ⟨-,h⟩ := Prod.mk.inj heq
      have hpx : p.1=x := by simpa using (List.mem_filter.mp hp).2
      have hqx : q.1=x := by simpa using (List.mem_filter.mp hq).2
      exact Prod.ext (hpx.trans hqx.symm) h
    · apply List.Nodup.of_map Prod.snd
      rw [List.zipIdx_map_snd]
      exact List.nodup_range'
  · refine hrules.imp ?_
    intro r r' hne p hp hp'
    obtain ⟨_,_,rfl⟩ := List.mem_map.mp hp
    obtain ⟨_,_,h⟩ := List.mem_map.mp hp'
    exact hne (congrArg Prod.fst h).symm

theorem mem_spawn {ks : Multiset (Token ν τ α)} {r : ρ} {i : Nat} {t : τ} {v : α} :
    (⟨r,i,t,v⟩ : Arrival ρ τ α)∈N.spawn rules ks ↔
      r∈rules ∧ ∃ x,(N.reads r)[i]?=some x ∧ (⟨x,t,v⟩ : Token ν τ α)∈ks := by
  simp only [spawn,Multiset.mem_bind,Multiset.mem_coe,arrivals,List.mem_map,Arrival.mk.injEq]
  constructor
  · rintro ⟨⟨x,t,v⟩,hk,⟨r,i⟩,hport,rfl,rfl,rfl,rfl⟩
    obtain ⟨hr,hget⟩ := mem_ports.mp hport
    exact ⟨hr,x,hget,hk⟩
  · intro ⟨hr,x,hget,hk⟩
    exact ⟨⟨x,t,v⟩,hk,⟨r,i⟩,mem_ports.mpr ⟨hr,hget⟩,rfl,rfl,rfl,rfl⟩

theorem nodup_spawn (hrules : rules.Nodup) {ks : Multiset (Token ν τ α)} (hks : ks.Nodup) :
    (N.spawn rules ks).Nodup := by
  induction ks using Quotient.inductionOn with
  | h l =>
    change (Multiset.bind (↑l : Multiset (Token ν τ α))
      fun k => (↑(N.arrivals rules k) : Multiset (Arrival ρ τ α))).Nodup
    rw [Multiset.coe_bind,Multiset.coe_nodup,List.nodup_flatMap]
    refine ⟨fun k _ => ?_,?_⟩
    · refine (nodup_ports hrules k.wire).map ?_
      intro p q h
      simp only [Arrival.mk.injEq] at h
      exact Prod.ext h.1 h.2.1
    · refine List.Pairwise.imp ?_ (Multiset.coe_nodup.mp hks)
      intro k k' hne a ha ha'
      obtain ⟨⟨r,i⟩,hp,rfl⟩ := List.mem_map.mp ha
      obtain ⟨⟨r',i'⟩,hp',h⟩ := List.mem_map.mp ha'
      simp only [Arrival.mk.injEq] at h
      obtain ⟨rfl,rfl,htag,hvalue⟩ := h
      have hwire := (mem_ports.mp hp).2.symm.trans (mem_ports.mp hp').2
      obtain ⟨wire,tag,value⟩ := k
      obtain ⟨wire',tag',value'⟩ := k'
      simp only [Option.some.injEq] at hwire htag hvalue
      exact hne (by rw [hwire,htag,hvalue])

theorem mem_operands {f : Firing ρ τ α γ} {r : ρ} {i : Nat} {t : τ} {v : α} :
    (⟨r,i,t,v⟩ : Arrival ρ τ α)∈operands f ↔ r=f.rule ∧ t=f.tag ∧ f.values[i]?=some v := by
  simp only [operands,List.mem_map,Arrival.mk.injEq]
  constructor
  · rintro ⟨⟨w,j⟩,hmem,rfl,rfl,rfl,rfl⟩
    exact ⟨rfl,rfl,List.mem_zipIdx_iff_getElem?.mp hmem⟩
  · rintro ⟨rfl,rfl,hget⟩
    exact ⟨⟨v,i⟩,List.mem_zipIdx_iff_getElem?.mpr hget,rfl,rfl,rfl,rfl⟩

theorem nodup_operands (f : Firing ρ τ α γ) : (operands f).Nodup := by
  apply List.Nodup.of_map Arrival.port
  have hports : (operands f).map Arrival.port=f.values.zipIdx.map Prod.snd := by
    rw [operands,List.map_map]
    rfl
  rw [hports,List.zipIdx_map_snd]
  exact List.nodup_range'

end Net

end Framework
