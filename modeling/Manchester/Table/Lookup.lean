import Manchester.Table.Khash

namespace Manchester

open Probing

variable {κ ν : Type} {hash : κ → BitVec 32}

structure Khash.Valid (hash : κ → BitVec 32) (h : Khash κ ν) : Prop where
  buckets : h.nBuckets=0 ∨ ∃ m,2 ≤ m ∧ m ≤ 31 ∧ h.nBuckets=2^m
  bound : h.upperBound=hashUpper h.nBuckets
  occupied : h.nOccupied=count h.nBuckets fun i => (h.flags i).Full
  live : h.size=count h.nBuckets fun i => (h.flags i).Live
  room : h.nOccupied ≤ h.upperBound
  placed : ∀ i < h.nBuckets,(h.flags i).Live →
    Reaches (fun b => (h.flags b).Full) h.nBuckets (hash (h.keys i)).toNat i
  unique : ∀ i < h.nBuckets,∀ j < h.nBuckets,(h.flags i).Live → (h.flags j).Live →
    h.keys i=h.keys j → i=j

def Khash.Has (h : Khash κ ν) (key : κ) (val : ν) : Prop :=
  ∃ i < h.nBuckets,(h.flags i).Live ∧ h.keys i=key ∧ h.vals i=val

/-- The table is one of a finite map. -/
def Khash.Represents (h : Khash κ ν) (map : κ → Option ν) : Prop :=
  ∀ key val,map key=some val ↔ h.Has key val

theorem khInit_valid [Inhabited κ] [Inhabited ν] : (khInit : Khash κ ν).Valid hash :=
  ⟨Or.inl rfl,by simp [khInit,hashUpper],rfl,rfl,le_rfl,fun i hi => absurd hi (Nat.not_lt_zero i),
    fun i hi => absurd hi (Nat.not_lt_zero i)⟩

theorem khInit_represents [Inhabited κ] [Inhabited ν] :
    (khInit : Khash κ ν).Represents fun _ => none := by
  intro key val
  constructor
  · intro h
    cases h
  · rintro ⟨i,hi,-⟩
    exact absurd hi (Nat.not_lt_zero i)

theorem hashUpper_lt {n : Nat} (hn : 4 ≤ n) : hashUpper n < n := by
  unfold hashUpper
  omega

namespace Khash.Valid

variable {h : Khash κ ν}

/-- A table with buckets has one that was never used. -/
theorem exists_empty (hv : h.Valid hash) (hpos : 0 < h.nBuckets) :
    ∃ i < h.nBuckets,(h.flags i).isempty=true := by
  have hfour : 4 ≤ h.nBuckets := by
    obtain hzero | ⟨m,hm,-,hn⟩ := hv.buckets
    · omega
    · have hle : 2^2 ≤ 2^m := Nat.pow_le_pow_right Nat.two_pos hm
      omega
  have hlt : count h.nBuckets (fun i => (h.flags i).Full) < h.nBuckets := by
    have hupper := hashUpper_lt hfour
    rw [← hv.bound] at hupper
    rw [← hv.occupied]
    exact Nat.lt_of_le_of_lt hv.room hupper
  obtain ⟨i,hi,hnot⟩ := exists_not_of_count_lt hlt
  exact ⟨i,hi,by simpa using hnot⟩

theorem size_le (hv : h.Valid hash) : h.size ≤ h.nOccupied := by
  rw [hv.live,hv.occupied]
  exact count_mono fun i _ hlive => hlive.full

end Khash.Valid

theorem and_mask {m : Nat} (x : Nat) : x&&&(2^m-1)=x%2^m := Nat.and_two_pow_sub_one_eq_mod x m

section Search

variable [DecidableEq κ] {h : Khash κ ν} {key : κ} {m start k : Nat}

theorem Khash.passes_iff {i : Nat} : h.passes key i=true ↔
    (h.flags i).Full ∧ ¬((h.flags i).Live ∧ h.keys i=key) := by
  simp only [passes,BucketFlags.Full,BucketFlags.live_iff,Bool.and_eq_true,Bool.not_eq_true',
    Bool.or_eq_true,bne_iff_ne,ne_eq]
  constructor
  · rintro ⟨hfull,hdel | hne⟩
    · refine ⟨hfull,fun hlive => ?_⟩
      rw [hlive.1.2] at hdel
      cases hdel
    · exact ⟨hfull,fun hlive => hne hlive.2⟩
  · rintro ⟨hfull,hnot⟩
    refine ⟨hfull,?_⟩
    by_cases hdel : (h.flags i).isdel=true
    · exact Or.inl hdel
    · exact Or.inr fun heq => hnot ⟨⟨hfull,Bool.eq_false_iff.mpr hdel⟩,heq⟩

/-- The probes that pass do not come back to the first bucket. -/
theorem getLoop_first (hk : k < 2^m)
    (hstop : h.passes key (place (2^m) start k)=false)
    (hbefore : ∀ j < k,h.passes key (place (2^m) start j)=true) :
    ∀ d j fuel,j+d=k → d < fuel →
      getLoop h key (2^m-1) (place (2^m) start 0) fuel (place (2^m) start j) j=
        some (if (h.flags (place (2^m) start k)).iseither then h.nBuckets
          else place (2^m) start k) := by
  intro d
  induction d with
  | zero =>
    intro j fuel hj hfuel
    obtain ⟨fuel,rfl⟩ : ∃ f,fuel=f+1 := ⟨fuel-1,by omega⟩
    obtain rfl : j=k := hj
    rw [getLoop,hstop]
    rfl
  | succ d ih =>
    intro j fuel hj hfuel
    obtain ⟨fuel,rfl⟩ : ∃ f,fuel=f+1 := ⟨fuel-1,by omega⟩
    have hnext : (place (2^m) start j+(j+1))&&&(2^m-1)=place (2^m) start (j+1) := and_mask _
    have hne : place (2^m) start (j+1) ≠ place (2^m) start 0 := by
      intro hback
      have hzero := place_injective (by omega) (Nat.two_pow_pos m) hback
      omega
    rw [getLoop,if_pos (hbefore j (by omega))]
    simp only [hnext,if_neg hne]
    exact ih (j+1) fuel (by omega) (by omega)

/-- The last deleted bucket before, if there is one, is kept. -/
theorem putLoop_first (hk : k < 2^m)
    (hstop : h.passes key (place (2^m) start k)=false)
    (hbefore : ∀ j < k,h.passes key (place (2^m) start j)=true) :
    ∀ d j fuel site,j+d=k → d < fuel →
      (site=h.nBuckets ∨ ∃ i < k,site=place (2^m) start i ∧ (h.flags site).isdel=true) →
      ∃ site',putLoop h key (2^m-1) (place (2^m) start 0) fuel (place (2^m) start j) j site=
          some (place (2^m) start k,site',h.nBuckets) ∧
        (site'=h.nBuckets ∨ ∃ i < k,site'=place (2^m) start i ∧ (h.flags site').isdel=true) := by
  intro d
  induction d with
  | zero =>
    intro j fuel site hj hfuel hsite
    obtain ⟨fuel,rfl⟩ : ∃ f,fuel=f+1 := ⟨fuel-1,by omega⟩
    obtain rfl : j=k := hj
    refine ⟨site,?_,hsite⟩
    rw [putLoop,hstop]
    rfl
  | succ d ih =>
    intro j fuel site hj hfuel hsite
    obtain ⟨fuel,rfl⟩ : ∃ f,fuel=f+1 := ⟨fuel-1,by omega⟩
    have hnext : (place (2^m) start j+(j+1))&&&(2^m-1)=place (2^m) start (j+1) := and_mask _
    have hne : place (2^m) start (j+1) ≠ place (2^m) start 0 := by
      intro hback
      have hzero := place_injective (by omega) (Nat.two_pow_pos m) hback
      omega
    rw [putLoop,if_pos (hbefore j (by omega))]
    simp only [hnext,if_neg hne]
    refine ih (j+1) fuel _ (by omega) (by omega) ?_
    split_ifs with hdel
    · exact Or.inr ⟨j,by omega,rfl,hdel⟩
    · exact hsite

/-- A search stops at a bucket that is empty or has the key. -/
theorem Khash.Valid.search (hv : h.Valid hash) (hn : h.nBuckets=2^m) (key : κ) :
    ∃ k < 2^m,h.passes key (place (2^m) (hash key).toNat k)=false ∧
      ∀ j < k,h.passes key (place (2^m) (hash key).toNat j)=true := by
  obtain ⟨i,hi,hempty⟩ := hv.exists_empty (by rw [hn]; exact Nat.two_pow_pos m)
  obtain ⟨k,hk,hstop,hbefore⟩ := exists_first (hash key).toNat
    (P := fun i => h.passes key i=false) ⟨i,hn ▸ hi,by simp [passes,hempty]⟩
  exact ⟨k,hk,hstop,fun j hj => by simpa using hbefore j hj⟩

/-- A key that is there is where its search stops. -/
theorem Khash.Valid.stops_at (hv : h.Valid hash) (hn : h.nBuckets=2^m) {i : Nat}
    (hi : i < h.nBuckets) (hlive : (h.flags i).Live) (hkey : h.keys i=key)
    (hstop : h.passes key (place (2^m) (hash key).toNat k)=false)
    (hbefore : ∀ j < k,h.passes key (place (2^m) (hash key).toNat j)=true) :
    place (2^m) (hash key).toNat k=i := by
  obtain ⟨k',hk',hplace,hfull⟩ := hv.placed i hi hlive
  rw [hkey,hn] at hplace hfull
  rw [hn] at hk'
  rcases Nat.lt_trichotomy k k' with hlt | rfl | hlt
  · have hpass := Khash.passes_iff.not.mp (Bool.eq_false_iff.mp hstop)
    have hthere : (h.flags (place (2^m) (hash key).toNat k)).Live ∧
        h.keys (place (2^m) (hash key).toNat k)=key := by
      by_contra hnot
      exact hpass ⟨hfull k hlt,hnot⟩
    exact hv.unique _ (hn ▸ place_lt (Nat.two_pow_pos m) _ _) i hi hthere.1 hlive
      (hthere.2.trans hkey.symm)
  · exact hplace
  · have hpass := hbefore k' hlt
    rw [hplace] at hpass
    exact absurd ⟨hlive,hkey⟩ (Khash.passes_iff.mp hpass).2

end Search

section Operations

variable [DecidableEq κ] {h : Khash κ ν} {map : κ → Option ν}

/-- A search ends. It ends at `kh_end` when the map has nothing for the key, and else at a bucket
with the value of the key. -/
theorem khGet_spec (hv : h.Valid hash) (hmap : h.Represents map) (key : κ) :
    ∃ x,khGet hash h key=some x ∧
      match map key with
      | none => x=h.nBuckets
      | some val => x < h.nBuckets ∧ (h.flags x).Live ∧ h.keys x=key ∧ h.vals x=val := by
  obtain hzero | ⟨m,-,-,hn⟩ := hv.buckets
  · have hnone : map key=none := by
      cases hkey : map key with
      | none => rfl
      | some val =>
        obtain ⟨i,hi,-⟩ := (hmap key val).mp hkey
        omega
    rw [khGet,if_pos hzero,hnone]
    exact ⟨0,rfl,hzero.symm⟩
  · obtain ⟨k,hk,hstop,hbefore⟩ := hv.search hn key
    have hpos := Nat.two_pow_pos m
    have hrun := getLoop_first hk hstop hbefore k 0 (2*2^m) (by omega) (by omega)
    have hget : khGet hash h key=some (if (h.flags (place (2^m) (hash key).toNat k)).iseither
        then h.nBuckets else place (2^m) (hash key).toNat k) := by
      rw [khGet,if_neg (by omega)]
      simp only [hn,and_mask]
      rw [hn] at hrun
      exact hrun
    have hbucket : place (2^m) (hash key).toNat k < h.nBuckets := hn ▸ place_lt hpos _ _
    cases hkey : map key with
    | none =>
      have heither : (h.flags (place (2^m) (hash key).toNat k)).iseither=true := by
        by_contra hnot
        have hlive : (h.flags (place (2^m) (hash key).toNat k)).Live := Bool.eq_false_iff.mpr hnot
        have hpass := Khash.passes_iff.not.mp (Bool.eq_false_iff.mp hstop)
        by_cases hsame : h.keys (place (2^m) (hash key).toNat k)=key
        · have hsome := (hmap key _).mpr ⟨_,hbucket,hlive,hsame,rfl⟩
          rw [hkey] at hsome
          cases hsome
        · exact hpass ⟨hlive.full,fun hthere => hsame hthere.2⟩
      rw [heither,if_pos rfl] at hget
      exact ⟨_,hget,rfl⟩
    | some val =>
      obtain ⟨i,hi,hlive,hsame,hval⟩ := (hmap key val).mp hkey
      have hat := hv.stops_at hn hi hlive hsame hstop hbefore
      rw [hat,if_neg (Bool.eq_false_iff.mp hlive)] at hget
      exact ⟨i,hget,hi,hlive,hsame,hval⟩

end Operations

section Delete

variable {h : Khash κ ν} {map : κ → Option ν}

theorem Khash.Valid.delete (hv : h.Valid hash) {x : Nat} (hx : x < h.nBuckets)
    (hlive : (h.flags x).Live) : (khDel h x).Valid hash := by
  rw [khDel,if_pos ⟨Nat.ne_of_lt hx,hlive⟩]
  refine ⟨hv.buckets,hv.bound,?_,?_,hv.room,?_,?_⟩
  · exact hv.occupied.trans (count_congr fun i _ => setIsdelTrue_full.symm)
  · have hcount := count_insert (n := h.nBuckets) (b := x)
      (P := fun i => ((setIsdelTrue h.flags x) i).Live) (Q := fun i => (h.flags i).Live)
      hx (fun hnot => (setIsdelTrue_live.mp hnot).1 rfl) fun i _ => by
        rw [setIsdelTrue_live]
        by_cases hi : i=x
        · exact iff_of_true (hi ▸ hlive) (Or.inl hi)
        · simp [hi]
    have hsize := hv.live
    change h.size-1=count h.nBuckets fun i => ((setIsdelTrue h.flags x) i).Live
    omega
  · intro i hi hi'
    exact (hv.placed i hi (setIsdelTrue_live.mp hi').2).mono fun b _ hb =>
      setIsdelTrue_full.mpr hb
  · intro i hi j hj hi' hj'
    exact hv.unique i hi j hj (setIsdelTrue_live.mp hi').2 (setIsdelTrue_live.mp hj').2

theorem Khash.Represents.delete [DecidableEq κ] (hv : h.Valid hash) (hmap : h.Represents map)
    {x : Nat}
    (hx : x < h.nBuckets) (hlive : (h.flags x).Live) :
    (khDel h x).Represents (Function.update map (h.keys x) none) := by
  rw [khDel,if_pos ⟨Nat.ne_of_lt hx,hlive⟩]
  intro key val
  by_cases hkey : key=h.keys x
  · subst hkey
    rw [Function.update_self]
    constructor
    · intro hnone
      cases hnone
    · rintro ⟨i,hi,hi',hsame,-⟩
      obtain ⟨hne,hi'⟩ := setIsdelTrue_live.mp hi'
      exact absurd (hv.unique i hi x hx hi' hlive hsame) hne
  · rw [Function.update_of_ne hkey,hmap key val]
    constructor
    · rintro ⟨i,hi,hi',rfl,hval⟩
      exact ⟨i,hi,setIsdelTrue_live.mpr ⟨fun heq => hkey (by rw [heq]),hi'⟩,rfl,hval⟩
    · rintro ⟨i,hi,hi',hsame,hval⟩
      exact ⟨i,hi,(setIsdelTrue_live.mp hi').2,hsame,hval⟩

end Delete

end Manchester
