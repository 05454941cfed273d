import Manchester.Table.Rehash
import Mathlib.Data.Set.Card

namespace Manchester

open Probing

variable {κ ν : Type} {hash : κ → BitVec 32} {h : Khash κ ν} {map : κ → Option ν} {key : κ}
  {val : ν} {m x : Nat}

/-- The bucket that a search for a key to be put ends at: its own, or one that it may get. -/
def Khash.SiteOf (hash : κ → BitVec 32) (h : Khash κ ν) (key : κ) (x : Nat) : Prop :=
  ((h.flags x).Live ∧ h.keys x=key) ∨
    (¬(h.flags x).Live ∧ (∀ i < h.nBuckets,(h.flags i).Live → h.keys i ≠ key) ∧
      Reaches (fun b => (h.flags b).Full) h.nBuckets (hash key).toNat x)

theorem findSite_spec [DecidableEq κ] (hv : h.Valid hash) (hn : h.nBuckets=2^m) (key : κ) :
    ∃ x,findSite hash h key=some x ∧ x < h.nBuckets ∧ h.SiteOf hash key x := by
  obtain ⟨k,hk,hstop,hbefore⟩ := hv.search hn key
  have hpos := Nat.two_pow_pos m
  have hlt : ∀ j,place (2^m) (hash key).toNat j < h.nBuckets := fun j => hn ▸ place_lt hpos _ _
  have hfull : ∀ j < k,(h.flags (place (2^m) (hash key).toNat j)).Full := fun j hj =>
    (Khash.passes_iff.mp (hbefore j hj)).1
  have habsent : (h.flags (place (2^m) (hash key).toNat k)).isempty=true →
      ∀ i < h.nBuckets,(h.flags i).Live → h.keys i ≠ key := by
    intro hempty i hi hlive hkey
    have hat := hv.stops_at hn hi hlive hkey hstop hbefore
    rw [hat,hlive.full] at hempty
    cases hempty
  have hfree : ∀ x,(h.flags x).isempty=true → ¬(h.flags x).Live := by
    intro x hempty hlive
    rw [hlive.full] at hempty
    cases hempty
  have hreach : ∀ j ≤ k,Reaches (fun b => (h.flags b).Full) h.nBuckets (hash key).toNat
      (place (2^m) (hash key).toNat j) := by
    intro j hj
    rw [hn]
    exact ⟨j,Nat.lt_of_le_of_lt hj hk,rfl,fun i hi => hfull i (Nat.lt_of_lt_of_le hi hj)⟩
  by_cases hfirst : (h.flags (place (2^m) (hash key).toNat 0)).isempty=true
  · have hzero : k=0 := by
      by_contra hne
      have hfull0 := hfull 0 (by omega)
      rw [hfull0] at hfirst
      cases hfirst
    subst hzero
    refine ⟨_,?_,hlt 0,Or.inr ⟨hfree _ hfirst,habsent hfirst,hreach 0 le_rfl⟩⟩
    unfold findSite
    simp only [hn,and_mask]
    exact if_pos hfirst
  · obtain ⟨site,hrun,hsite⟩ := putLoop_first hk hstop hbefore k 0 (2*2^m) h.nBuckets (by omega)
      (by omega) (Or.inl rfl)
    have hfind : findSite hash h key=some (if (h.flags (place (2^m) (hash key).toNat k)).isempty &&
        site != h.nBuckets then site else place (2^m) (hash key).toNat k) := by
      unfold findSite
      simp only [hn,and_mask]
      rw [hn] at hrun
      refine (if_neg hfirst).trans ?_
      rw [place] at hrun
      rw [hrun,Option.map_some,if_pos rfl]
    by_cases hempty : (h.flags (place (2^m) (hash key).toNat k)).isempty=true
    · obtain rfl | ⟨j,hj,rfl,hdel⟩ := hsite
      · rw [hempty,Bool.true_and,bne_self_eq_false,if_neg Bool.false_ne_true] at hfind
        exact ⟨_,hfind,hlt k,Or.inr ⟨hfree _ hempty,habsent hempty,hreach k le_rfl⟩⟩
      · have hne : (place (2^m) (hash key).toNat j != h.nBuckets)=true :=
          bne_iff_ne.mpr (Nat.ne_of_lt (hlt j))
        rw [hempty,hne,Bool.true_and,if_pos rfl] at hfind
        refine ⟨_,hfind,hlt j,Or.inr ⟨?_,habsent hempty,hreach j hj.le⟩⟩
        intro hlive
        rw [(BucketFlags.live_iff.mp hlive).2] at hdel
        cases hdel
    · rw [Bool.eq_false_iff.mpr hempty,Bool.false_and,if_neg Bool.false_ne_true] at hfind
      refine ⟨_,hfind,hlt k,Or.inl ?_⟩
      by_contra hnot
      exact Khash.passes_iff.not.mp (Bool.eq_false_iff.mp hstop)
        ⟨Bool.eq_false_iff.mpr hempty,hnot⟩

/-- A key that is there keeps its bucket, and gets a new value. -/
theorem Khash.Represents.setValue [DecidableEq κ] (hv : h.Valid hash) (hmap : h.Represents map)
    (hx : x < h.nBuckets) (hlive : (h.flags x).Live) :
    (khSetValue h x val).Represents (Function.update map (h.keys x) (some val)) := by
  intro key v
  by_cases hkey : key=h.keys x
  · subst hkey
    rw [Function.update_self,Option.some.injEq]
    constructor
    · rintro rfl
      exact ⟨x,hx,hlive,rfl,Function.update_self ..⟩
    · rintro ⟨i,hi,hi',hsame,hval⟩
      obtain rfl := hv.unique i hi x hx hi' hlive hsame
      exact (Function.update_self ..).symm.trans hval
  · rw [Function.update_of_ne hkey,hmap key v]
    have hother : ∀ i,h.keys i=key → (khSetValue h x val).vals i=h.vals i := fun i hi =>
      Function.update_of_ne (fun heq => hkey (by rw [← hi,heq])) ..
    constructor
    · rintro ⟨i,hi,hi',hsame,hval⟩
      exact ⟨i,hi,hi',hsame,(hother i hsame).trans hval⟩
    · rintro ⟨i,hi,hi',hsame,hval⟩
      exact ⟨i,hi,hi',hsame,(hother i hsame).symm.trans hval⟩

/-- A key that is not there gets a bucket. -/
theorem Khash.Valid.claim (hv : h.Valid hash) (hroom : h.nOccupied < h.upperBound)
    (hx : x < h.nBuckets) (hfree : ¬(h.flags x).Live)
    (habsent : ∀ i < h.nBuckets,(h.flags i).Live → h.keys i ≠ key)
    (hreach : Reaches (fun b => (h.flags b).Full) h.nBuckets (hash key).toNat x) :
    (claimSite h key x).1.Valid hash ∧ (claimSite h key x).1.flags=setIsbothFalse h.flags x ∧
      (claimSite h key x).1.keys=Function.update h.keys x key ∧
      (claimSite h key x).1.vals=h.vals ∧ (claimSite h key x).1.nBuckets=h.nBuckets := by
  have hne : ∀ i,(h.flags i).Live → i ≠ x := fun i hi heq => hfree (heq ▸ hi)
  have hlive : h.size+1=count h.nBuckets fun i => (setIsbothFalse h.flags x i).Live := by
    rw [hv.live]
    exact (count_insert hx hfree fun i _ => setIsbothFalse_live).symm
  have hplaced : ∀ i < h.nBuckets,(setIsbothFalse h.flags x i).Live →
      Reaches (fun b => (setIsbothFalse h.flags x b).Full) h.nBuckets
        (hash (Function.update h.keys x key i)).toNat i := by
    intro i hi hi'
    have hgrows : ∀ b < h.nBuckets,(h.flags b).Full → (setIsbothFalse h.flags x b).Full :=
      fun b _ hb => setIsbothFalse_full.mpr (Or.inr hb)
    obtain rfl | hi' := setIsbothFalse_live.mp hi'
    · rw [Function.update_self]
      exact hreach.mono hgrows
    · rw [Function.update_of_ne (hne i hi')]
      exact (hv.placed i hi hi').mono hgrows
  have hunique : ∀ i < h.nBuckets,∀ j < h.nBuckets,(setIsbothFalse h.flags x i).Live →
      (setIsbothFalse h.flags x j).Live →
        Function.update h.keys x key i=Function.update h.keys x key j → i=j := by
    intro i hi j hj hi' hj' heq
    obtain rfl | hli := setIsbothFalse_live.mp hi' <;>
      obtain rfl | hlj := setIsbothFalse_live.mp hj'
    · rfl
    · rw [Function.update_self,Function.update_of_ne (hne j hlj)] at heq
      exact absurd heq.symm (habsent j hj hlj)
    · rw [Function.update_self,Function.update_of_ne (hne i hli)] at heq
      exact absurd heq (habsent i hi hli)
    · rw [Function.update_of_ne (hne i hli),Function.update_of_ne (hne j hlj)] at heq
      exact hv.unique i hi j hj hli hlj heq
  unfold claimSite
  by_cases hempty : (h.flags x).isempty=true
  · have hfull : ¬(h.flags x).Full := by simp [hempty]
    have hocc : h.nOccupied+1=count h.nBuckets fun i => (setIsbothFalse h.flags x i).Full := by
      rw [hv.occupied]
      exact (count_insert hx hfull fun i _ => setIsbothFalse_full).symm
    rw [if_pos hempty]
    exact ⟨⟨hv.buckets,hv.bound,hocc,hlive,hroom,hplaced,hunique⟩,rfl,rfl,rfl,rfl⟩
  · have hfull : (h.flags x).Full := Bool.eq_false_iff.mpr hempty
    have hdel : (h.flags x).isdel=true := by
      by_contra hnot
      exact hfree (BucketFlags.live_iff.mpr ⟨hfull,Bool.eq_false_iff.mpr hnot⟩)
    have hocc : h.nOccupied=count h.nBuckets fun i => (setIsbothFalse h.flags x i).Full := by
      rw [hv.occupied]
      refine count_congr fun i _ => ?_
      rw [setIsbothFalse_full]
      exact ⟨Or.inr,fun hi => hi.elim (fun heq => heq ▸ hfull) id⟩
    rw [if_neg hempty,if_pos hdel]
    exact ⟨⟨hv.buckets,hv.bound,hocc,hlive,hroom.le,hplaced,hunique⟩,rfl,rfl,rfl,rfl⟩

theorem Khash.Valid.withValue (hv : h.Valid hash) (x : Nat) (val : ν) :
    (khSetValue h x val).Valid hash :=
  ⟨hv.buckets,hv.bound,hv.occupied,hv.live,hv.room,hv.placed,hv.unique⟩

/-- `kh_put` and the assignment of the value are an update of the map. -/
theorem khPut_spec [DecidableEq κ] (hv : h.Valid hash) (hmap : h.Represents map)
    (hsize : h.size < 2^30) (key : κ) (val : ν) :
    ∃ h' x ret,khPut hash h key=some (h',x,ret) ∧ (khSetValue h' x val).Valid hash ∧
      (khSetValue h' x val).Represents (Function.update map key (some val)) := by
  obtain ⟨h1,m,hroom,hv1,hmap1,hn,-,hless⟩ := makeRoom_spec hv hmap hsize
  obtain ⟨x,hfind,hx,hsite⟩ := findSite_spec hv1 hn key
  refine ⟨(claimSite h1 key x).1,x,(claimSite h1 key x).2,?_,?_⟩
  · rw [khPut,hroom,Option.bind_some,hfind]
    rfl
  · obtain ⟨hlive,rfl⟩ | ⟨hfree,habsent,hreach⟩ := hsite
    · have hsame : (claimSite h1 (h1.keys x) x).1=h1 := by
        obtain ⟨hfull,hdel⟩ := BucketFlags.live_iff.mp hlive
        rw [claimSite,hfull,if_neg Bool.false_ne_true,hdel,if_neg Bool.false_ne_true]
      rw [hsame]
      exact ⟨hv1.withValue x val,hmap1.setValue hv1 hx hlive⟩
    · obtain ⟨hv2,hflags,hkeys,hvals,hbuckets⟩ := hv1.claim hless hx hfree habsent hreach
      refine ⟨hv2.withValue x val,fun key' val' => ?_⟩
      have hne : ∀ i,(h1.flags i).Live → i ≠ x := fun i hi heq => hfree (heq ▸ hi)
      have hval : (khSetValue (claimSite h1 key x).1 x val).vals=Function.update h1.vals x val := by
        rw [khSetValue,hvals]
      simp only [Khash.Has,hval]
      simp only [khSetValue,hflags,hkeys,hbuckets,setIsbothFalse_live]
      by_cases hkey : key'=key
      · subst hkey
        rw [Function.update_self,Option.some.injEq]
        constructor
        · rintro rfl
          exact ⟨x,hx,Or.inl rfl,Function.update_self ..,Function.update_self ..⟩
        · rintro ⟨i,hi,rfl | hlive,hsame,hvalue⟩
          · exact (Function.update_self ..).symm.trans hvalue
          · rw [Function.update_of_ne (hne i hlive)] at hsame
            exact absurd hsame (habsent i hi hlive)
      · rw [Function.update_of_ne hkey,hmap1 key' val']
        constructor
        · rintro ⟨i,hi,hlive,hsame,hvalue⟩
          refine ⟨i,hi,Or.inr hlive,?_,?_⟩
          · rwa [Function.update_of_ne (hne i hlive)]
          · rwa [Function.update_of_ne (hne i hlive)]
        · rintro ⟨i,hi,rfl | hlive,hsame,hvalue⟩
          · rw [Function.update_self] at hsame
            exact absurd hsame.symm hkey
          · rw [Function.update_of_ne (hne i hlive)] at hsame hvalue
            exact ⟨i,hi,hlive,hsame,hvalue⟩

theorem Khash.Valid.ncard_keys (hv : h.Valid hash) (hmap : h.Represents map) :
    {key | map key ≠ none}.ncard=h.size := by
  classical
  have himage : {key | map key ≠ none}=
      ↑(((Finset.range h.nBuckets).filter fun i => (h.flags i).Live).image h.keys) := by
    ext key
    simp only [Set.mem_ofPred_eq,Finset.coe_image,Set.mem_image,Finset.mem_coe,Finset.mem_filter,
      Finset.mem_range]
    constructor
    · intro hkey
      obtain ⟨val,hval⟩ := Option.ne_none_iff_exists'.mp hkey
      obtain ⟨i,hi,hlive,hsame,-⟩ := (hmap key val).mp hval
      exact ⟨i,⟨hi,hlive⟩,hsame⟩
    · rintro ⟨i,⟨hi,hlive⟩,hsame⟩
      rw [(hmap key (h.vals i)).mpr ⟨i,hi,hlive,hsame,rfl⟩]
      exact Option.some_ne_none _
  rw [himage,Set.ncard_coe_finset,Finset.card_image_of_injOn,hv.live]
  · rfl
  · intro i hi j hj heq
    obtain ⟨hi,hli⟩ := Finset.mem_filter.mp (Finset.mem_coe.mp hi)
    obtain ⟨hj,hlj⟩ := Finset.mem_filter.mp (Finset.mem_coe.mp hj)
    exact hv.unique i (Finset.mem_range.mp hi) j (Finset.mem_range.mp hj) hli hlj heq

/-- What the users of a table do with it: put a value under a key, look a key up, and delete a key
that is there. -/
inductive TableCall (κ ν : Type) where
  | put (key : κ) (val : ν)
  | get (key : κ)
  | del (key : κ)

section Runs

variable [DecidableEq κ]

/-- A call on the table, and the value that a lookup finds. -/
def TableCall.onTable (hash : κ → BitVec 32) (h : Khash κ ν) :
    TableCall κ ν → Option (Khash κ ν × Option ν)
  | .put key val => (khPut hash h key).map fun r => (khSetValue r.1 r.2.1 val,none)
  | .get key => (khGet hash h key).map fun k =>
    (h,if k=h.nBuckets then none else some (h.vals k))
  | .del key => (khGet hash h key).map fun k =>
    (if k=h.nBuckets then h else khDel h k,none)

def TableCall.onMap (map : κ → Option ν) : TableCall κ ν → (κ → Option ν) × Option ν
  | .put key val => (Function.update map key (some val),none)
  | .get key => (map,map key)
  | .del key => (Function.update map key none,none)

def tableRun (hash : κ → BitVec 32) : Khash κ ν → List (TableCall κ ν) →
    Option (Khash κ ν × List (Option ν))
  | h,[] => some (h,[])
  | h,call::calls =>
    (call.onTable hash h).bind fun r => (tableRun hash r.1 calls).map fun s => (s.1,r.2::s.2)

def mapRun : (κ → Option ν) → List (TableCall κ ν) → (κ → Option ν) × List (Option ν)
  | map,[] => (map,[])
  | map,call::calls =>
    let r := call.onMap map
    let s := mapRun r.1 calls
    (s.1,r.2::s.2)

/-- One call keeps the table one of the map, and finds what is in the map. -/
theorem TableCall.refines (hv : h.Valid hash) (hmap : h.Represents map) (hsize : h.size < 2^30)
    (call : TableCall κ ν) :
    ∃ h',call.onTable hash h=some (h',(call.onMap map).2) ∧ h'.Valid hash ∧
      h'.Represents (call.onMap map).1 := by
  cases call with
  | put key val =>
    obtain ⟨h',x,ret,hput,hv',hmap'⟩ := khPut_spec hv hmap hsize key val
    exact ⟨_,by rw [onTable,hput]; rfl,hv',hmap'⟩
  | get key =>
    obtain ⟨x,hget,hx⟩ := khGet_spec hv hmap key
    refine ⟨h,?_,hv,hmap⟩
    rw [onTable,hget,Option.map_some,onMap]
    cases hkey : map key with
    | none =>
      rw [hkey] at hx
      rw [if_pos hx]
    | some val =>
      rw [hkey] at hx
      rw [if_neg (Nat.ne_of_lt hx.1),hx.2.2.2]
  | del key =>
    obtain ⟨x,hget,hx⟩ := khGet_spec hv hmap key
    cases hkey : map key with
    | none =>
      rw [hkey] at hx
      refine ⟨h,by rw [onTable,hget,Option.map_some,if_pos hx]; rfl,hv,?_⟩
      rw [onMap,Function.update_eq_self_iff.mpr hkey.symm]
      exact hmap
    | some val =>
      rw [hkey] at hx
      obtain ⟨hlt,hlive,hsame,-⟩ := hx
      refine ⟨khDel h x,?_,hv.delete hlt hlive,?_⟩
      · rw [onTable,hget,Option.map_some,if_neg (Nat.ne_of_lt hlt)]
        rfl
      · have hdelete := hmap.delete hv hlt hlive
        rwa [hsame] at hdelete

/-- From a table of a map on, every sequence of calls finds what the map has, as long as there are
fewer than 2^30 keys. -/
theorem tableRun_refines (calls : List (TableCall κ ν)) :
    ∀ {h : Khash κ ν} {map : κ → Option ν},h.Valid hash → h.Represents map →
      (∀ before,before <+: calls → {key | (mapRun map before).1 key ≠ none}.ncard < 2^30) →
      ∃ h',tableRun hash h calls=some (h',(mapRun map calls).2) ∧ h'.Valid hash ∧
        h'.Represents (mapRun map calls).1 := by
  induction calls with
  | nil =>
    intro h map hv hmap _
    exact ⟨h,rfl,hv,hmap⟩
  | cons call calls ih =>
    intro h map hv hmap hsmall
    have hsize : h.size < 2^30 := by
      rw [← hv.ncard_keys hmap]
      exact hsmall [] (List.nil_prefix)
    obtain ⟨h1,hcall,hv1,hmap1⟩ := TableCall.refines hv hmap hsize call
    obtain ⟨h2,hrest,hv2,hmap2⟩ := ih hv1 hmap1 fun before hbefore =>
      hsmall (call::before) (List.cons_prefix_cons.mpr ⟨rfl,hbefore⟩)
    refine ⟨h2,?_,hv2,hmap2⟩
    rw [tableRun,hcall,Option.bind_some,hrest]
    rfl

/-- The library's table is a finite map. Every sequence of calls from `kh_init` on ends, whatever
the hash function, and finds under each key what was last put there, through all the searches past
deleted buckets, and through clearings and doublings of the table in place. -/
theorem khash_refines_map [Inhabited κ] [Inhabited ν] (hash : κ → BitVec 32)
    (calls : List (TableCall κ ν))
    (hsmall : ∀ before,before <+: calls →
      {key | (mapRun (fun _ => (none : Option ν)) before).1 key ≠ none}.ncard < 2^30) :
    ∃ h,tableRun hash khInit calls=some (h,(mapRun (fun _ => none) calls).2) ∧ h.Valid hash ∧
      h.Represents (mapRun (fun _ => none) calls).1 :=
  tableRun_refines calls khInit_valid khInit_represents hsmall

/-- Each call brings one key at most. -/
theorem ncard_mapRun_le (calls : List (TableCall κ ν)) :
    ∀ map : κ → Option ν,{key | map key ≠ none}.Finite →
      {key | (mapRun map calls).1 key ≠ none}.Finite ∧
        {key | (mapRun map calls).1 key ≠ none}.ncard ≤
          {key | map key ≠ none}.ncard+calls.length := by
  induction calls with
  | nil => exact fun map hfinite => ⟨hfinite,le_rfl⟩
  | cons call calls ih =>
    intro map hfinite
    have hstep : ∃ key,{k | (call.onMap map).1 k ≠ none} ⊆ insert key {k | map k ≠ none} := by
      cases call with
      | put key val =>
        refine ⟨key,fun k hk => ?_⟩
        by_cases heq : k=key
        · exact Or.inl heq
        · exact Or.inr (by simpa [TableCall.onMap,heq] using hk)
      | get key => exact ⟨key,fun k hk => Or.inr hk⟩
      | del key =>
        refine ⟨key,fun k hk => Or.inr ?_⟩
        by_cases heq : k=key
        · simp [TableCall.onMap,heq] at hk
        · simpa [TableCall.onMap,heq] using hk
    obtain ⟨key,hsub⟩ := hstep
    have hfinite' := (hfinite.insert key).subset hsub
    have hle := (Set.ncard_le_ncard hsub (hfinite.insert key)).trans (Set.ncard_insert_le key _)
    obtain ⟨hrest,hcount⟩ := ih _ hfinite'
    refine ⟨hrest,hcount.trans ?_⟩
    rw [List.length_cons]
    omega

/-- A value is found while another one of the same bucket comes and goes. -/
theorem khash_refines_map_collision :
    ∃ h,tableRun (fun _ : Nat => (0 : BitVec 32)) khInit
      [.put 1 10,.put 2 20,.del 1,.get 2,.get 1]=some (h,[none,none,none,some 20,none]) := by
  obtain ⟨h,hrun,-⟩ := khash_refines_map (ν := Nat) (fun _ : Nat => (0 : BitVec 32))
    [.put 1 10,.put 2 20,.del 1,.get 2,.get 1] fun before hbefore => by
      have hempty : {key : Nat | (fun _ => (none : Option Nat)) key ≠ none}=∅ := by simp
      obtain ⟨-,hle⟩ := ncard_mapRun_le before (fun _ => none)
        (by rw [hempty]; exact Set.finite_empty)
      have hlength : before.length ≤ 5 := hbefore.length_le
      rw [hempty,Set.ncard_empty] at hle
      omega
  exact ⟨h,hrun⟩

end Runs

end Manchester
