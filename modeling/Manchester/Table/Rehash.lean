import Manchester.Table.Lookup
import Mathlib.Data.List.Perm.Basic
import Mathlib.Tactic.IntervalCases

namespace Manchester

open Probing

variable {κ ν : Type} {hash : κ → BitVec 32} {n m size : Nat} {map : κ → Option ν}
  {r : Rehash κ ν} {hand : List (κ × ν)} {key : κ} {val : ν} {i : Nat}

-- A bucket of the arrays belongs to the old table, to the new one, or to none of them; the elements
-- that are in neither are in hand.

/-- A bucket whose element is in one of the two tables. -/
abbrev Rehash.Used (n : Nat) (r : Rehash κ ν) (i : Nat) : Prop :=
  (i < n ∧ (r.flags i).Live) ∨ (r.newFlags i).Full

structure Rehash.Keeps (hash : κ → BitVec 32) (n m size : Nat) (map : κ → Option ν)
    (r : Rehash κ ν) (hand : List (κ × ν)) : Prop where
  apart : ∀ i < n,(r.flags i).Live → (r.newFlags i).isempty=true
  clean : ∀ i,(r.newFlags i).isdel=false
  inside : ∀ i,(r.newFlags i).Full → i < 2^m
  content : ∀ key val,map key=some val ↔
    (∃ i,r.Used n i ∧ r.keys i=key ∧ r.vals i=val) ∨ (key,val)∈hand
  unique : ∀ i j,r.Used n i → r.Used n j → r.keys i=r.keys j → i=j
  inHand : (hand.map Prod.fst).Nodup
  fresh : ∀ e∈hand,∀ i,r.Used n i → r.keys i ≠ e.1
  placed : ∀ i,(r.newFlags i).Full →
    Reaches (fun b => (r.newFlags b).Full) (2^m) (hash (r.keys i)).toNat i
  total : count (2^m) (r.Used n)+hand.length=size

namespace Rehash.Keeps

theorem perm {hand' : List (κ × ν)} (h : r.Keeps hash n m size map hand)
    (hperm : hand.Perm hand') : r.Keeps hash n m size map hand' :=
  ⟨h.apart,h.clean,h.inside,fun key val => by rw [h.content key val,hperm.mem_iff],h.unique,
    (hperm.map Prod.fst).nodup_iff.mp h.inHand,fun e he => h.fresh e (hperm.mem_iff.mpr he),
    h.placed,by rw [← hperm.length_eq]; exact h.total⟩

/-- An element of the old table is taken in the hand. -/
theorem take (h : r.Keeps hash n m size map hand) (hn : n ≤ 2^m) (hi : i < n)
    (hlive : (r.flags i).Live) :
    ({r with flags := setIsdelTrue r.flags i} : Rehash κ ν).Keeps hash n m size map
      ((r.keys i,r.vals i)::hand) := by
  have hused : r.Used n i := Or.inl ⟨hi,hlive⟩
  have hempty : ¬(r.newFlags i).Full := by simp [h.apart i hi hlive]
  have hiff : ∀ j,({r with flags := setIsdelTrue r.flags i} : Rehash κ ν).Used n j ↔
      j ≠ i ∧ r.Used n j := by
    intro j
    simp only [Used,setIsdelTrue_live]
    constructor
    · rintro (⟨hj,hne,hlive'⟩ | hfull)
      · exact ⟨hne,Or.inl ⟨hj,hlive'⟩⟩
      · exact ⟨fun heq => hempty (heq ▸ hfull),Or.inr hfull⟩
    · rintro ⟨hne,⟨hj,hlive'⟩ | hfull⟩
      · exact Or.inl ⟨hj,hne,hlive'⟩
      · exact Or.inr hfull
  refine ⟨fun j hj hlive' => h.apart j hj (setIsdelTrue_live.mp hlive').2,h.clean,h.inside,?_,
    fun j k hj hk => h.unique j k ((hiff j).mp hj).2 ((hiff k).mp hk).2,?_,?_,h.placed,?_⟩
  · intro key val
    rw [h.content key val,List.mem_cons,Prod.mk.injEq]
    constructor
    · rintro (⟨j,hj,rfl,rfl⟩ | hmem)
      · by_cases hji : j=i
        · exact Or.inr (Or.inl ⟨by rw [hji],by rw [hji]⟩)
        · exact Or.inl ⟨j,(hiff j).mpr ⟨hji,hj⟩,rfl,rfl⟩
      · exact Or.inr (Or.inr hmem)
    · rintro (⟨j,hj,rfl,rfl⟩ | ⟨rfl,rfl⟩ | hmem)
      · exact Or.inl ⟨j,((hiff j).mp hj).2,rfl,rfl⟩
      · exact Or.inl ⟨i,hused,rfl,rfl⟩
      · exact Or.inr hmem
  · refine List.nodup_cons.mpr ⟨?_,h.inHand⟩
    intro hmem
    obtain ⟨e,he,heq⟩ := List.mem_map.mp hmem
    exact h.fresh e he i hused heq.symm
  · intro e he j hj
    obtain ⟨hne,hj⟩ := (hiff j).mp hj
    obtain rfl | he := List.mem_cons.mp he
    · exact fun heq => hne (h.unique j i hj hused heq)
    · exact h.fresh e he j hj
  · have hcount := count_insert (n := 2^m) (b := i)
      (P := ({r with flags := setIsdelTrue r.flags i} : Rehash κ ν).Used n)
      (Q := r.Used n) (by omega) (fun hnot => ((hiff i).mp hnot).1 rfl) fun j _ => by
        rw [hiff j]
        by_cases hji : j=i
        · exact iff_of_true (hji ▸ hused) (Or.inl hji)
        · simp [hji]
    have htotal := h.total
    rw [List.length_cons]
    omega

/-- An element in the hand gets a bucket that no element has, the first one free on its way. -/
theorem put (h : r.Keeps hash n m size map ((key,val)::hand)) (hi : i < 2^m)
    (hunused : ¬r.Used n i)
    (hreach : Reaches (fun b => (r.newFlags b).Full) (2^m) (hash key).toNat i) :
    (r.write i key val).Keeps hash n m size map hand := by
  obtain ⟨hkeyFresh,hnodup⟩ := List.nodup_cons.mp h.inHand
  have hiff : ∀ j,(r.write i key val).Used n j ↔ j=i ∨ r.Used n j := by
    intro j
    simp only [Used,write,setIsemptyFalse_full]
    exact or_left_comm
  have hne : ∀ j,r.Used n j → j ≠ i := fun j hj heq => hunused (heq ▸ hj)
  have hkeys : ∀ j,r.Used n j → (r.write i key val).keys j=r.keys j :=
    fun j hj => write_key_of_ne (hne j hj)
  have hvals : ∀ j,r.Used n j → (r.write i key val).vals j=r.vals j :=
    fun j hj => write_val_of_ne (hne j hj)
  have hother : ∀ j,r.Used n j → r.keys j ≠ key := fun j hj =>
    h.fresh _ (List.mem_cons_self) j hj
  refine ⟨?_,?_,?_,?_,?_,hnodup,?_,?_,?_⟩
  · intro j hj hlive
    have hji : j ≠ i := hne j (Or.inl ⟨hj,hlive⟩)
    simpa [write,setIsemptyFalse,hji] using h.apart j hj hlive
  · intro j
    by_cases hji : j=i
    · simpa [write,setIsemptyFalse,hji] using h.clean i
    · simpa [write,setIsemptyFalse,hji] using h.clean j
  · intro j hj
    obtain rfl | hj := setIsemptyFalse_full.mp hj
    · exact hi
    · exact h.inside j hj
  · intro key' val'
    rw [h.content key' val',List.mem_cons,Prod.mk.injEq]
    constructor
    · rintro (⟨j,hj,rfl,rfl⟩ | ⟨rfl,rfl⟩ | hmem)
      · exact Or.inl ⟨j,(hiff j).mpr (Or.inr hj),hkeys j hj,hvals j hj⟩
      · exact Or.inl ⟨i,(hiff i).mpr (Or.inl rfl),write_key,write_val⟩
      · exact Or.inr hmem
    · rintro (⟨j,hj,hkey,hval⟩ | hmem)
      · obtain rfl | hj := (hiff j).mp hj
        · rw [write_key] at hkey
          rw [write_val] at hval
          exact Or.inr (Or.inl ⟨hkey.symm,hval.symm⟩)
        · rw [hkeys j hj] at hkey
          rw [hvals j hj] at hval
          exact Or.inl ⟨j,hj,hkey,hval⟩
      · exact Or.inr (Or.inr hmem)
  · intro j k hj hk heq
    obtain rfl | hj' := (hiff j).mp hj <;> obtain rfl | hk' := (hiff k).mp hk
    · rfl
    · rw [write_key,hkeys k hk'] at heq
      exact absurd heq.symm (hother k hk')
    · rw [write_key,hkeys j hj'] at heq
      exact absurd heq (hother j hj')
    · rw [hkeys j hj',hkeys k hk'] at heq
      exact h.unique j k hj' hk' heq
  · intro e he j hj
    obtain rfl | hj := (hiff j).mp hj
    · rw [write_key]
      exact fun heq => hkeyFresh (List.mem_map.mpr ⟨e,he,heq.symm⟩)
    · rw [hkeys j hj]
      exact h.fresh e (List.mem_cons_of_mem _ he) j hj
  · intro j hj
    have hgrows : ∀ b < 2^m,(r.newFlags b).Full → (setIsemptyFalse r.newFlags i b).Full :=
      fun b _ hb => setIsemptyFalse_full.mpr (Or.inr hb)
    obtain rfl | hj := setIsemptyFalse_full.mp hj
    · rw [write_key]
      exact hreach.mono hgrows
    · rw [hkeys j (Or.inr hj)]
      exact (h.placed j hj).mono hgrows
  · have hcount := count_insert (n := 2^m) (b := i) (P := r.Used n)
      (Q := (r.write i key val).Used n) hi hunused fun j _ => hiff j
    have htotal := h.total
    rw [List.length_cons] at htotal
    omega

/-- There is room in the new table for what is in the hand. -/
theorem exists_free (h : r.Keeps hash n m size map ((key,val)::hand)) (hsize : size ≤ 2^m) :
    ∃ b < 2^m,(r.newFlags b).isempty=true := by
  have hle : count (2^m) (fun i => (r.newFlags i).Full) ≤ count (2^m) (r.Used n) :=
    count_mono fun i _ hi => Or.inr hi
  have htotal := h.total
  rw [List.length_cons] at htotal
  obtain ⟨b,hb,hnot⟩ := exists_not_of_count_lt (n := 2^m)
    (P := fun i => (r.newFlags i).Full) (by omega)
  exact ⟨b,hb,by simpa using hnot⟩

end Rehash.Keeps

/-- The search for a free bucket ends at the first one. -/
theorem freePlace_first {newFlags : Nat → BucketFlags} {start k : Nat}
    (hstop : (newFlags (place (2^m) start k)).isempty=true)
    (hbefore : ∀ j < k,¬(newFlags (place (2^m) start j)).isempty=true) :
    ∀ d j fuel,j+d=k → d < fuel →
      freePlace newFlags (2^m-1) fuel (place (2^m) start j) j=some (place (2^m) start k) := by
  intro d
  induction d with
  | zero =>
    intro j fuel hj hfuel
    obtain ⟨fuel,rfl⟩ : ∃ f,fuel=f+1 := ⟨fuel-1,by omega⟩
    obtain rfl : j=k := hj
    rw [freePlace,if_pos hstop]
  | succ d ih =>
    intro j fuel hj hfuel
    obtain ⟨fuel,rfl⟩ : ∃ f,fuel=f+1 := ⟨fuel-1,by omega⟩
    rw [freePlace,if_neg (hbefore j (by omega)),and_mask]
    exact ih (j+1) fuel (by omega) (by omega)

theorem Rehash.Keeps.freePlace (h : r.Keeps hash n m size map ((key,val)::hand))
    (hsize : size ≤ 2^m) :
    ∃ i < 2^m,Manchester.freePlace r.newFlags (2^m-1) (2^m-1+1) ((hash key).toNat&&&(2^m-1)) 0=
        some i ∧
      (r.newFlags i).isempty=true ∧
      Reaches (fun b => (r.newFlags b).Full) (2^m) (hash key).toNat i := by
  obtain ⟨k,hk,hstop,hbefore⟩ := exists_first (hash key).toNat (h.exists_free hsize)
  have hpos := Nat.two_pow_pos m
  have hrun := freePlace_first hstop hbefore k 0 (2^m-1+1) (by omega) (by omega)
  rw [and_mask]
  exact ⟨_,place_lt hpos _ _,hrun,hstop,k,hk,rfl,fun j hj => by simpa using hbefore j hj⟩

/-- Every element that is kicked out makes the old table smaller by one. -/
theorem kickOut_keeps (hn : n ≤ 2^m) (hsize : size ≤ 2^m) :
    ∀ (fuel : Nat) (key : κ) (val : ν) (r : Rehash κ ν),
      r.Keeps hash n m size map [(key,val)] → count n (fun i => (r.flags i).Live) < fuel →
      ∃ r',kickOut hash n (2^m-1) fuel key val r=some r' ∧ r'.Keeps hash n m size map [] ∧
        ∀ i,(r'.flags i).Live → (r.flags i).Live := by
  intro fuel
  induction fuel with
  | zero =>
    intro key val r h hfuel
    exact absurd hfuel (Nat.not_lt_zero _)
  | succ fuel ih =>
    intro key val r h hfuel
    obtain ⟨i,hi,hplace,hempty,hreach⟩ := h.freePlace hsize
    have hnew : ¬(r.newFlags i).Full := by simp [hempty]
    rw [kickOut,hplace,Option.bind_some]
    by_cases hold : i < n ∧ (r.flags i).Live
    · obtain ⟨hin,hlive⟩ := hold
      have htaken := (h.take hn hin hlive).perm (List.Perm.swap _ _ _)
      have hput := htaken.put hi (by
        rintro (⟨-,hstill⟩ | hfull)
        · exact (setIsdelTrue_live.mp hstill).1 rfl
        · exact hnew hfull) hreach
      have hcount := count_insert (n := n) (b := i)
        (P := fun j => (setIsdelTrue r.flags i j).Live) (Q := fun j => (r.flags j).Live)
        hin (fun hnot => (setIsdelTrue_live.mp hnot).1 rfl) fun j _ => by
          rw [setIsdelTrue_live]
          by_cases hji : j=i
          · exact iff_of_true (hji ▸ hlive) (Or.inl hji)
          · simp [hji]
      have hless : count n (fun j => (setIsdelTrue r.flags i j).Live) < fuel := by omega
      obtain ⟨r',hrun,hkeeps,hless⟩ := ih _ _ _ hput hless
      refine ⟨r',?_,hkeeps,fun j hj => (setIsdelTrue_live.mp (hless j hj)).2⟩
      simp only [if_pos (And.intro hin hlive)]
      exact hrun
    · simp only [if_neg hold]
      refine ⟨_,rfl,h.put hi ?_ hreach,fun _ hj => hj⟩
      rintro (hthere | hfull)
      · exact hold hthere
      · exact hnew hfull

theorem rehashBucket_keeps (hn : n ≤ 2^m) (hsize : size ≤ 2^m) (h : r.Keeps hash n m size map [])
    {j : Nat} (hj : j < n) :
    ∃ r',rehashBucket hash n (2^m-1) r j=some r' ∧ r'.Keeps hash n m size map [] ∧
      (∀ i,(r'.flags i).Live → (r.flags i).Live) ∧ ¬(r'.flags j).Live := by
  unfold rehashBucket
  by_cases hlive : (r.flags j).Live
  · obtain ⟨r',hrun,hkeeps,hless⟩ := kickOut_keeps hn hsize (n+1) _ _ _ (h.take hn hj hlive)
      (Nat.lt_succ_of_le (count_le n _))
    rw [if_pos hlive]
    exact ⟨r',hrun,hkeeps,fun i hi => (setIsdelTrue_live.mp (hless i hi)).2,
      fun hj => (setIsdelTrue_live.mp (hless j hj)).1 rfl⟩
  · rw [if_neg hlive]
    exact ⟨r,rfl,h,fun _ hi => hi,hlive⟩

/-- The loop over the buckets leaves nothing in the old table. -/
theorem rehashBuckets_keeps (hn : n ≤ 2^m) (hsize : size ≤ 2^m) :
    ∀ (l : List Nat) (r : Rehash κ ν),(∀ j∈l,j < n) → r.Keeps hash n m size map [] →
      ∃ r',l.foldlM (rehashBucket hash n (2^m-1)) r=some r' ∧ r'.Keeps hash n m size map [] ∧
        (∀ i,(r'.flags i).Live → (r.flags i).Live) ∧ ∀ j∈l,¬(r'.flags j).Live := by
  intro l
  induction l with
  | nil =>
    intro r _ h
    exact ⟨r,rfl,h,fun _ hi => hi,fun j hj => absurd hj List.not_mem_nil⟩
  | cons j l ih =>
    intro r hl h
    obtain ⟨r1,hfirst,h1,hless1,hgone⟩ := rehashBucket_keeps hn hsize h (hl j List.mem_cons_self)
    obtain ⟨r2,hrest,h2,hless2,hgone2⟩ := ih r1 (fun k hk => hl k (List.mem_cons_of_mem _ hk)) h1
    refine ⟨r2,?_,h2,fun i hi => hless1 i (hless2 i hi),fun k hk => ?_⟩
    · rw [List.foldlM_cons,hfirst]
      exact hrest
    · obtain rfl | hk := List.mem_cons.mp hk
      · exact fun hlive => hgone (hless2 k hlive)
      · exact hgone2 k hk

section Resize

variable {h : Khash κ ν}

/-- All elements are in the old table. -/
theorem Khash.Valid.rehash (hv : h.Valid hash) (hmap : h.Represents map)
    (hn : h.nBuckets ≤ 2^m) :
    (⟨h.flags,emptyFlags,h.keys,h.vals⟩ : Rehash κ ν).Keeps hash h.nBuckets m h.size map [] := by
  have hiff : ∀ i,(⟨h.flags,emptyFlags,h.keys,h.vals⟩ : Rehash κ ν).Used h.nBuckets i ↔
      i < h.nBuckets ∧ (h.flags i).Live := by
    intro i
    simp [Rehash.Used,emptyFlags]
  have hnone : ∀ i,¬(emptyFlags i).Full := fun i hi => Bool.noConfusion hi
  refine ⟨fun _ _ _ => rfl,fun _ => rfl,fun i hi => absurd hi (hnone i),?_,?_,List.nodup_nil,
    fun e he => absurd he List.not_mem_nil,fun i hi => absurd hi (hnone i),?_⟩
  · intro key val
    rw [hmap key val]
    constructor
    · rintro ⟨i,hi,hlive,hkey,hval⟩
      exact Or.inl ⟨i,(hiff i).mpr ⟨hi,hlive⟩,hkey,hval⟩
    · rintro (⟨i,hi,hkey,hval⟩ | hmem)
      · obtain ⟨hlt,hlive⟩ := (hiff i).mp hi
        exact ⟨i,hlt,hlive,hkey,hval⟩
      · exact absurd hmem List.not_mem_nil
  · intro i j hi hj heq
    obtain ⟨hi,hlive⟩ := (hiff i).mp hi
    obtain ⟨hj,hlive'⟩ := (hiff j).mp hj
    exact hv.unique i hi j hj hlive hlive' heq
  · rw [hv.live,List.length_nil,Nat.add_zero]
    have hsub : (Finset.range (2^m)).filter
        ((⟨h.flags,emptyFlags,h.keys,h.vals⟩ : Rehash κ ν).Used h.nBuckets)=
        (Finset.range h.nBuckets).filter fun i => (h.flags i).Live := by
      ext i
      simp only [Finset.mem_filter,Finset.mem_range,hiff]
      constructor
      · exact fun hi => hi.2
      · exact fun hi => ⟨Nat.lt_of_lt_of_le hi.1 hn,hi⟩
    exact congrArg Finset.card hsub

/-- The table with the new flags is one of the same map. -/
theorem Rehash.Keeps.table (h : r.Keeps hash n m size map []) (hold : ∀ j < n,¬(r.flags j).Live)
    (hm : 2 ≤ m) (hm' : m ≤ 31) (hsize : size ≤ hashUpper (2^m)) :
    let table : Khash κ ν := ⟨2^m,size,size,hashUpper (2^m),r.newFlags,r.keys,r.vals⟩
    table.Valid hash ∧ table.Represents map := by
  intro table
  have hused : ∀ i,r.Used n i ↔ (r.newFlags i).Full := fun i =>
    ⟨fun hi => hi.elim (fun hlive => absurd hlive.2 (hold i hlive.1)) id,Or.inr⟩
  have hlive : ∀ i,(r.newFlags i).Live ↔ (r.newFlags i).Full := fun i =>
    ⟨BucketFlags.Live.full,fun hfull => BucketFlags.live_iff.mpr ⟨hfull,h.clean i⟩⟩
  have htotal := h.total
  rw [List.length_nil,Nat.add_zero,count_congr fun i _ => hused i] at htotal
  refine ⟨⟨Or.inr ⟨m,hm,hm',rfl⟩,rfl,htotal.symm,?_,hsize,?_,?_⟩,?_⟩
  · exact htotal.symm.trans (count_congr fun i _ => (hlive i).symm)
  · exact fun i _ hi => h.placed i hi.full
  · intro i _ j _ hi hj heq
    exact h.unique i j ((hused i).mpr hi.full) ((hused j).mpr hj.full) heq
  · intro key val
    rw [h.content key val]
    constructor
    · rintro (⟨i,hi,hkey,hval⟩ | hmem)
      · have hfull := (hused i).mp hi
        exact ⟨i,h.inside i hfull,(hlive i).mpr hfull,hkey,hval⟩
      · exact absurd hmem List.not_mem_nil
    · rintro ⟨i,_,hi,hkey,hval⟩
      exact Or.inl ⟨i,(hused i).mpr hi.full,hkey,hval⟩

theorem khResize_spec (hv : h.Valid hash) (hmap : h.Represents map) (newNBuckets : Nat)
    (hm : 2 ≤ m) (hm' : m ≤ 31)
    (hround : (if (kroundup32 (BitVec.ofNat 32 newNBuckets)).toNat < 4 then 4
      else (kroundup32 (BitVec.ofNat 32 newNBuckets)).toNat)=2^m)
    (hn : h.nBuckets ≤ 2^m) (hsize : h.size < hashUpper (2^m)) :
    ∃ h',khResize hash h newNBuckets=some h' ∧ h'.Valid hash ∧ h'.Represents map ∧
      h'.nBuckets=2^m ∧ h'.size=h.size ∧ h'.nOccupied < h'.upperBound := by
  have hfour : 4 ≤ 2^m := Nat.pow_le_pow_right (n := 2) Nat.two_pos hm
  have hle : h.size ≤ 2^m := (hsize.trans (hashUpper_lt hfour)).le
  obtain ⟨r,hrun,hkeeps,-,hgone⟩ := rehashBuckets_keeps hn hle (List.range h.nBuckets) _
    (fun j hj => List.mem_range.mp hj) (hv.rehash hmap hn)
  obtain ⟨hvalid,hrep⟩ := hkeeps.table (fun j hj => hgone j (List.mem_range.mpr hj)) hm hm' hsize.le
  refine ⟨_,?_,hvalid,hrep,rfl,rfl,hsize⟩
  rw [khResize]
  simp only [hround,if_neg (Nat.not_le.mpr hsize),hrun,Option.map_some]

theorem kroundup32_up {k : Nat} (hk : k ≤ 30) :
    (kroundup32 (BitVec.ofNat 32 (2^k+1))).toNat=2^(k+1) := by
  interval_cases k <;> decide

theorem kroundup32_same {k : Nat} (hk : 2 ≤ k) (hk' : k ≤ 31) :
    (kroundup32 (BitVec.ofNat 32 (2^k-1))).toNat=2^k := by
  interval_cases k <;> decide

theorem hashUpper_half {n size : Nat} (h : 2*size < n) :
    size < hashUpper n := by
  unfold hashUpper
  omega

theorem hashUpper_double {n size : Nat} (hn : 4 ≤ n) (h : size ≤ hashUpper n) :
    size < hashUpper (2*n) := by
  unfold hashUpper at h ⊢
  omega

/-- With fewer than 2^30 keys there is room for another one, and the map is the same. -/
theorem makeRoom_spec (hv : h.Valid hash) (hmap : h.Represents map) (hsize : h.size < 2^30) :
    ∃ h' m,makeRoom hash h=some h' ∧ h'.Valid hash ∧ h'.Represents map ∧ h'.nBuckets=2^m ∧
      h'.size=h.size ∧ h'.nOccupied < h'.upperBound := by
  unfold makeRoom
  by_cases hroom : h.upperBound ≤ h.nOccupied
  · rw [if_pos hroom]
    by_cases hhalf : 2*h.size < h.nBuckets
    · obtain hzero | ⟨m,hm,hm',hn⟩ := hv.buckets
      · omega
      · have hfour : 4 ≤ 2^m := Nat.pow_le_pow_right (n := 2) Nat.two_pos hm
        obtain ⟨h',hrun,hspec⟩ := khResize_spec hv hmap (h.nBuckets-1) hm hm'
          (by rw [hn,kroundup32_same hm hm',if_neg (by omega)]) hn.le
          (hashUpper_half (hn ▸ hhalf))
        rw [if_pos hhalf]
        exact ⟨h',m,hrun,hspec⟩
    · rw [if_neg hhalf]
      obtain hzero | ⟨m,hm,hm',hn⟩ := hv.buckets
      · have hnone : h.size=0 := by rw [hv.live,hzero]; rfl
        obtain ⟨h',hrun,hspec⟩ := khResize_spec hv hmap (h.nBuckets+1) (m := 2)
          le_rfl (by decide) (by rw [hzero]; decide) (by omega) (by rw [hnone]; decide)
        exact ⟨h',2,hrun,hspec⟩
      · have hfour : 4 ≤ 2^m := Nat.pow_le_pow_right (n := 2) Nat.two_pos hm
        have hm30 : m ≤ 30 := by
          by_contra hbig
          have hle : 2^31 ≤ 2^m := Nat.pow_le_pow_right Nat.two_pos (by omega)
          omega
        have hupper : h.size < hashUpper (2^(m+1)) := by
          rw [Nat.pow_succ']
          refine hashUpper_double hfour ?_
          rw [← hn,← hv.bound]
          exact hv.size_le.trans hv.room
        have hdouble : 2^(m+1)=2*2^m := Nat.pow_succ'
        obtain ⟨h',hrun,hspec⟩ := khResize_spec hv hmap (h.nBuckets+1) (m := m+1)
          (by omega) (by omega) (by rw [hn,kroundup32_up hm30,if_neg (by omega)])
          (by omega) hupper
        exact ⟨h',m+1,hrun,hspec⟩
  · rw [if_neg hroom]
    obtain hzero | ⟨m,-,-,hn⟩ := hv.buckets
    · have hbound := hv.bound
      rw [hzero] at hbound
      have hnone : hashUpper 0=0 := rfl
      omega
    · exact ⟨h,m,rfl,hv,hmap,hn,rfl,Nat.not_le.mp hroom⟩

end Resize

end Manchester
