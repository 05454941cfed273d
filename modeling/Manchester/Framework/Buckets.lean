import Mathlib.Data.List.Nodup
import Mathlib.Data.List.Pairwise
import Mathlib.Logic.Function.Basic

namespace Framework

variable {K V : Type*} [DecidableEq K]

theorem lookup_eq_some_iff_mem (c : List (K × V)) (hn : (c.map Prod.fst).Nodup) (k : K) (v : V) :
    c.lookup k=some v ↔ (k,v)∈c := by
  induction c with
  | nil => simp
  | cons e c ih =>
    obtain ⟨j,u⟩ := e
    obtain ⟨hfresh,hc⟩ := List.nodup_cons.mp hn
    by_cases hk : k=j
    · subst hk
      have habs : (k,v)∉c := fun hm => hfresh (List.mem_map.mpr ⟨_,hm,rfl⟩)
      simp [habs,eq_comm]
    · have hb : (k==j)=false := by simpa using hk
      rw [List.lookup_cons,hb,ih hc]
      simp [hk]

/-- Taking out the entry of one key leaves the other keys alone. -/
theorem lookup_eraseP (c : List (K × V)) (hn : (c.map Prod.fst).Nodup) (k j : K) :
    (c.eraseP (fun e => e.1==k)).lookup j=if j=k then none else c.lookup j := by
  induction c with
  | nil => simp
  | cons e c ih =>
    obtain ⟨i,u⟩ := e
    obtain ⟨hfresh,hc⟩ := List.nodup_cons.mp hn
    by_cases hi : i=k
    · subst hi
      rw [List.eraseP_cons_of_pos (by simp)]
      split_ifs with hj
      · subst hj
        rw [List.lookup_eq_none_iff]
        intro e he
        have hne : e.1≠j := fun h => hfresh (List.mem_map.mpr ⟨e,he,h⟩)
        simpa using hne.symm
      · have hb : (j==i)=false := by simpa using hj
        rw [List.lookup_cons,hb]
    · rw [List.eraseP_cons_of_neg (by simpa using hi),List.lookup_cons,List.lookup_cons,ih hc]
      by_cases hj : j=i
      · subst hj
        simp [hi]
      · have hb : (j==i)=false := by simpa using hj
        simp [hb]

theorem nodup_keys_eraseP (c : List (K × V)) (hn : (c.map Prod.fst).Nodup) (k : K) :
    ((c.eraseP (fun e => e.1==k)).map Prod.fst).Nodup :=
  hn.sublist (List.eraseP_sublist.map _)

/-- Chains indexed by the hash of their keys, each key at most once. -/
structure Buckets (K V : Type*) (hash : K → Nat) where
  chains : List (List (K × V))
  home : ∀ i c,chains[i]?=some c → ∀e∈c,hash e.1=i
  nodup : ∀c∈chains,(c.map Prod.fst).Nodup
  room : ∀ k,hash k < chains.length

namespace Buckets

variable {hash : K → Nat}

omit [DecidableEq K] in
@[ext] theorem ext (b c : Buckets K V hash) (h : b.chains=c.chains) : b=c := by
  cases b
  cases c
  cases h
  rfl

def chain (b : Buckets K V hash) (k : K) : List (K × V) :=
  b.chains.get ⟨hash k,b.room k⟩

omit [DecidableEq K] in
theorem getElem?_chain (b : Buckets K V hash) (k : K) :
    b.chains[hash k]?=some (b.chain k) := List.getElem?_eq_getElem (b.room k)

omit [DecidableEq K] in
theorem chain_nodup (b : Buckets K V hash) (k : K) : ((b.chain k).map Prod.fst).Nodup :=
  b.nodup _ (List.getElem_mem (b.room k))

/-- The finite map the table stands for. -/
def find (b : Buckets K V hash) (k : K) : Option V := (b.chain k).lookup k

/-- A table with one chain replaced. -/
def setChain (b : Buckets K V hash) (k : K) (c : List (K × V))
    (hh : ∀e∈c,hash e.1=hash k) (hn : (c.map Prod.fst).Nodup) : Buckets K V hash where
  chains := b.chains.set (hash k) c
  home := by
    intro i d hd e he
    rw [List.getElem?_set] at hd
    split_ifs at hd with hi hlt
    · cases hd
      exact (hh e he).trans hi
    · exact b.home i d hd e he
  nodup := by
    intro d hd
    rcases List.mem_or_eq_of_mem_set hd with hd | rfl
    · exact b.nodup d hd
    · exact hn
  room := fun j => by rw [List.length_set]; exact b.room j

omit [DecidableEq K] in
theorem chain_setChain (b : Buckets K V hash) (k j : K) (c : List (K × V))
    (hh : ∀e∈c,hash e.1=hash k) (hn : (c.map Prod.fst).Nodup) :
    (b.setChain k c hh hn).chain j=if hash k=hash j then c else b.chain j := by
  have h := getElem?_chain (b.setChain k c hh hn) j
  rw [setChain,List.getElem?_set] at h
  split_ifs at h ⊢ with hkj
  · exact (Option.some.inj h).symm
  · exact (Option.some.inj ((getElem?_chain b j).symm.trans h)).symm

/-- A new entry in front of the chain of its key. -/
def insert (b : Buckets K V hash) (k : K) (v : V) (hf : b.find k=none) : Buckets K V hash :=
  b.setChain k ((k,v)::b.chain k)
    (by
      intro e he
      rcases List.mem_cons.mp he with rfl | he
      · rfl
      · exact b.home _ _ (b.getElem?_chain k) e he)
    (by
      refine List.nodup_cons.mpr ⟨?_,b.chain_nodup k⟩
      intro hm
      obtain ⟨e,he,hk⟩ := List.mem_map.mp hm
      have hne := List.lookup_eq_none_iff.mp hf e he
      simp only [bne_iff_ne,ne_eq] at hne
      exact hne hk.symm)

def erase (b : Buckets K V hash) (k : K) : Buckets K V hash :=
  b.setChain k ((b.chain k).eraseP (fun e => e.1==k))
    (fun e he => b.home _ _ (b.getElem?_chain k) e (List.mem_of_mem_eraseP he))
    (nodup_keys_eraseP _ (b.chain_nodup k) k)

theorem find_insert (b : Buckets K V hash) (k : K) (v : V) (hf : b.find k=none) :
    (b.insert k v hf).find=Function.update b.find k (some v) := by
  funext j
  rw [find,insert,chain_setChain]
  by_cases hj : j=k
  · subst hj
    simp
  · have hb : (j==k)=false := by simpa using hj
    rw [Function.update_of_ne hj]
    split_ifs with hh
    · have hc : b.chain k=b.chain j := by
        rw [chain,chain]
        congr 1
        exact Fin.ext hh
      rw [List.lookup_cons,hb,hc]
      rfl
    · rfl

theorem find_erase (b : Buckets K V hash) (k : K) :
    (b.erase k).find=Function.update b.find k none := by
  funext j
  rw [find,erase,chain_setChain]
  by_cases hh : hash k=hash j
  · have hc : b.chain k=b.chain j := by
      rw [chain,chain]
      congr 1
      exact Fin.ext hh
    rw [if_pos hh,lookup_eraseP _ (b.chain_nodup k),hc,Function.update_apply]
    rfl
  · have hj : j≠k := fun h => hh (by rw [h])
    rw [if_neg hh,Function.update_of_ne hj]
    rfl

def entries (b : Buckets K V hash) : List (K × V) := b.chains.flatten

omit [DecidableEq K] in
/-- No key occurs twice, not even in two chains. -/
theorem nodup_entries (b : Buckets K V hash) : (b.entries.map Prod.fst).Nodup := by
  rw [entries,List.map_flatten,List.nodup_flatten]
  constructor
  · intro c hc
    obtain ⟨d,hd,rfl⟩ := List.mem_map.mp hc
    exact b.nodup d hd
  · rw [List.pairwise_map,List.pairwise_iff_getElem]
    intro i j hi hj hij k hki hkj
    obtain ⟨e,he,rfl⟩ := List.mem_map.mp hki
    obtain ⟨f,hf,hef⟩ := List.mem_map.mp hkj
    have h1 := b.home i _ (List.getElem?_eq_getElem hi) e he
    have h2 := b.home j _ (List.getElem?_eq_getElem hj) f hf
    rw [hef] at h2
    omega

theorem mem_entries_iff (b : Buckets K V hash) (k : K) (v : V) :
    (k,v)∈b.entries ↔ b.find k=some v := by
  rw [find,lookup_eq_some_iff_mem _ (b.chain_nodup k),entries,List.mem_flatten]
  constructor
  · intro ⟨c,hc,he⟩
    obtain ⟨i,hi,rfl⟩ := List.getElem_of_mem hc
    have hh := b.home i _ (List.getElem?_eq_getElem hi) _ he
    have hchain : b.chain k=b.chains[i] := by
      have h := b.getElem?_chain k
      rw [hh,List.getElem?_eq_getElem hi] at h
      exact (Option.some.inj h).symm
    rw [hchain]
    exact he
  · intro he
    exact ⟨b.chain k,List.getElem_mem (b.room k),he⟩

/-- Tables for the same map hold the same entries, whatever their chains. -/
theorem entries_perm (b c : Buckets K V hash) (h : c.find=b.find) : c.entries.Perm b.entries := by
  apply (List.perm_ext_iff_of_nodup (List.Nodup.of_map _ c.nodup_entries)
    (List.Nodup.of_map _ b.nodup_entries)).mpr
  intro ⟨k,v⟩
  rw [mem_entries_iff,mem_entries_iff,h]

/-- A table for a map with one more key holds one more entry. -/
theorem entries_perm_cons (b c : Buckets K V hash) (k : K) (v : V) (hf : b.find k=none)
    (h : c.find=Function.update b.find k (some v)) : c.entries.Perm ((k,v)::b.entries) := by
  have hfresh : (k,v)∉b.entries := by simp [mem_entries_iff,hf]
  apply (List.perm_ext_iff_of_nodup (List.Nodup.of_map _ c.nodup_entries)
    (List.nodup_cons.mpr ⟨hfresh,List.Nodup.of_map _ b.nodup_entries⟩)).mpr
  intro ⟨j,u⟩
  rw [mem_entries_iff,h,List.mem_cons,mem_entries_iff]
  by_cases hj : j=k
  · subst hj
    simp [hf,eq_comm]
  · simp [hj]

end Buckets
end Framework
