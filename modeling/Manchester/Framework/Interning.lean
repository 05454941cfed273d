import Mathlib.Data.List.Nodup

namespace Interning

-- A dictionary that gives each key the next name of a sequence, the first time it is asked.

variable {κ ν α β : Type*} [DecidableEq κ]

structure Table (κ ν : Type*) where
  mapping : List (κ × ν)
  next : Nat

def Table.empty : Table κ ν := ⟨[],0⟩

variable (name : Nat → ν)

def Table.intern (t : Table κ ν) (key : κ) : ν × Table κ ν :=
  match t.mapping.lookup key with
  | some value => (value,t)
  | none => (name t.next,⟨(key,name t.next)::t.mapping,t.next+1⟩)

/-- The name of a key, when the keys have been asked in this order. -/
def numbering (keys : List κ) (key : κ) : ν := name (keys.idxOf key)

/-- The table holds these keys, numbered in this order. -/
structure Numbers (t : Table κ ν) (keys : List κ) : Prop where
  nodup : keys.Nodup
  next : t.next=keys.length
  lookup : ∀ key,t.mapping.lookup key=if key∈keys then some (numbering name keys key) else none

theorem numbers_empty : Numbers name Table.empty ([] : List κ) :=
  ⟨List.nodup_nil,rfl,fun _ => by simp [Table.empty]⟩

theorem numbering_of_prefix {keys keys' : List κ} (h : keys <+: keys') {key : κ} (hk : key∈keys) :
    numbering name keys' key=numbering name keys key := by
  obtain ⟨rest,rfl⟩ := h
  rw [numbering,numbering,List.idxOf_append_of_mem hk]

theorem numbering_of_mem {keys : List κ} {key : κ} (hk : key∈keys) :
    ∃ i < keys.length,numbering name keys key=name i :=
  ⟨_,List.idxOf_lt_length_of_mem hk,rfl⟩

theorem numbering_inj {keys : List κ} (hname : ∀ i < keys.length,∀ j < keys.length,
    name i=name j → i=j) {a b : κ} (ha : a∈keys) (hb : b∈keys) :
    numbering name keys a=numbering name keys b ↔ a=b := by
  constructor
  · intro h
    have hidx := hname _ (List.idxOf_lt_length_of_mem ha) _ (List.idxOf_lt_length_of_mem hb) h
    exact (List.idxOf_inj ha).mp hidx
  · rintro rfl
    rfl

/-- One question: the key is in the table afterwards, and the answer is its name in every later
numbering. -/
theorem Table.intern_numbers {t : Table κ ν} {keys : List κ} (h : Numbers name t keys) (key : κ) :
    ∃ keys',keys <+: keys' ∧ keys'.length ≤ keys.length+1 ∧ key∈keys' ∧
      Numbers name (t.intern name key).2 keys' ∧
        (t.intern name key).1=numbering name keys' key := by
  by_cases hmem : key∈keys
  · have hlookup := h.lookup key
    rw [if_pos hmem] at hlookup
    refine ⟨keys,List.prefix_rfl,by omega,hmem,?_,?_⟩
    · rw [Table.intern,hlookup]
      exact h
    · rw [Table.intern,hlookup]
  · have hlookup := h.lookup key
    rw [if_neg hmem] at hlookup
    have hidx : (keys++[key]).idxOf key=keys.length := by
      rw [List.idxOf_append_of_notMem hmem,List.idxOf_cons_self,Nat.add_zero]
    have hnew : numbering name (keys++[key]) key=name t.next := by
      rw [numbering,hidx,h.next]
    refine ⟨keys++[key],List.prefix_append _ _,by simp,by simp,?_,?_⟩
    · rw [Table.intern,hlookup]
      refine ⟨?_,by simp [h.next],fun k => ?_⟩
      · rw [List.nodup_append]
        refine ⟨h.nodup,List.nodup_singleton _,?_⟩
        rintro a ha b hb rfl
        rw [List.mem_singleton] at hb
        exact hmem (hb ▸ ha)
      · by_cases hk : k=key
        · subst hk
          rw [List.lookup_cons_self,if_pos (by simp),hnew]
        · have hne : (k==key)=false := by simpa using hk
          rw [List.lookup_cons,hne,h.lookup k]
          by_cases hold : k∈keys
          · rw [if_pos hold,if_pos (by simp [hold]),
              numbering_of_prefix name (List.prefix_append _ _) hold]
          · rw [if_neg hold,if_neg (by simp [hold,hk])]
    · rw [Table.intern,hlookup,hnew]

/-- A step that asks for some keys: whatever is asked later, what it gives is what `code` makes of
the numbering of all keys in the end. -/
def Renames (step : Table κ ν → α → β × Table κ ν) (code : (κ → ν) → α → β)
    (asks : α → List κ) (a : α) : Prop :=
  ∀ t keys,Numbers name t keys → ∃ keys',keys <+: keys' ∧
    keys'.length ≤ keys.length+(asks a).length ∧ asks a ⊆ keys' ∧
      Numbers name (step t a).2 keys' ∧
        ∀ later,keys' <+: later → (step t a).1=code (numbering name later) a

/-- The step at each element of a list in turn, with one table. -/
def mapTable (step : Table κ ν → α → β × Table κ ν) :
    Table κ ν → List α → List β × Table κ ν
  | t,[] => ([],t)
  | t,a::as =>
    let (b,t) := step t a
    let (bs,t) := mapTable step t as
    (b::bs,t)

theorem Renames.list {step : Table κ ν → α → β × Table κ ν} {code : (κ → ν) → α → β}
    {asks : α → List κ} (as : List α) (h : ∀a∈as,Renames name step code asks a) :
    Renames name (mapTable step) (fun c => List.map (code c)) (List.flatMap asks) as := by
  induction as with
  | nil =>
    intro t keys ht
    exact ⟨keys,List.prefix_rfl,by simp,by simp,ht,fun _ _ => rfl⟩
  | cons a as ih =>
    intro t keys ht
    obtain ⟨keys1,hext1,hlength1,hsub1,ht1,hcode1⟩ := h a (by simp) t keys ht
    obtain ⟨keys2,hext2,hlength2,hsub2,ht2,hcode2⟩ :=
      ih (fun b hb => h b (by simp [hb])) _ keys1 ht1
    refine ⟨keys2,hext1.trans hext2,?_,?_,ht2,fun later hlater => ?_⟩
    · rw [List.flatMap_cons,List.length_append]
      omega
    · rw [List.flatMap_cons]
      exact List.append_subset.mpr ⟨List.Subset.trans hsub1 hext2.subset,hsub2⟩
    · show (step t a).1::(mapTable step (step t a).2 as).1=_
      rw [hcode1 later (hext2.trans hlater),hcode2 later hlater]
      rfl

end Interning
