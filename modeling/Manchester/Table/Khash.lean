import Manchester.Framework.Probing
import Mathlib.Logic.Function.Basic

namespace Manchester

-- The hash table library: open addressing with two flags for each bucket. Allocations succeed.

/-- The two bits that the array of flags has for a bucket. -/
structure BucketFlags where
  isempty : Bool
  isdel : Bool
  deriving DecidableEq, Repr

namespace BucketFlags

def iseither (f : BucketFlags) : Bool := f.isempty || f.isdel

/-- A bucket with a key. -/
abbrev Live (f : BucketFlags) : Prop := f.iseither=false

/-- A bucket that ends no search. -/
abbrev Full (f : BucketFlags) : Prop := f.isempty=false

theorem live_iff {f : BucketFlags} : f.Live ↔ f.isempty=false ∧ f.isdel=false := by
  simp [Live,iseither]

theorem Live.full {f : BucketFlags} (h : f.Live) : f.Full := (live_iff.mp h).1

end BucketFlags

/-- The flags that memset leaves, each byte 0xaa. -/
def emptyFlags : Nat → BucketFlags := fun _ => ⟨true,false⟩

/-- What is in the arrays from `nBuckets` on is never read. -/
structure Khash (κ ν : Type) where
  nBuckets : Nat
  size : Nat
  nOccupied : Nat
  upperBound : Nat
  flags : Nat → BucketFlags
  keys : Nat → κ
  vals : Nat → ν

def kroundup32 (x : BitVec 32) : BitVec 32 :=
  let x := x-1
  let x := x ||| x >>> 1
  let x := x ||| x >>> 2
  let x := x ||| x >>> 4
  let x := x ||| x >>> 8
  let x := x ||| x >>> 16
  x+1

/-- `n * 0.77 + 0.5`, truncated. For a power of two the fraction is far from the next whole number,
and the rounding of the constant and of the sum does not show. -/
def hashUpper (n : Nat) : Nat := (77*n+50)/100

section Operations

variable {κ ν : Type}

def khInit [Inhabited κ] [Inhabited ν] : Khash κ ν :=
  ⟨0,0,0,0,emptyFlags,fun _ => default,fun _ => default⟩

section Search

variable [DecidableEq κ] (h : Khash κ ν) (key : κ) (mask last : Nat)

/-- The search goes on from a bucket. -/
def Khash.passes (i : Nat) : Bool :=
  !(h.flags i).isempty && ((h.flags i).isdel || h.keys i != key)

def getLoop : Nat → Nat → Nat → Option Nat
  | 0,_,_ => none
  | fuel+1,i,step =>
    if h.passes key i then
      let i := (i+(step+1))&&&mask
      if i=last then some h.nBuckets else getLoop fuel i (step+1)
    else some (if (h.flags i).iseither then h.nBuckets else i)

/-- The bucket and the last deleted one before it, and what a search that comes back has found. -/
def putLoop : Nat → Nat → Nat → Nat → Option (Nat × Nat × Nat)
  | 0,_,_,_ => none
  | fuel+1,i,step,site =>
    if h.passes key i then
      let site := if (h.flags i).isdel then i else site
      let i := (i+(step+1))&&&mask
      if i=last then some (i,site,site) else putLoop fuel i (step+1) site
    else some (i,site,h.nBuckets)

end Search

variable (hash : κ → BitVec 32)

/-- The bucket of a key; the number of buckets, which is `kh_end`, for a key that is not there.
No answer stands for a search that does not end. -/
def khGet [DecidableEq κ] (h : Khash κ ν) (key : κ) : Option Nat :=
  if h.nBuckets=0 then some 0
  else
    let mask := h.nBuckets-1
    let i := (hash key).toNat&&&mask
    getLoop h key mask i (2*h.nBuckets) i 0

/-- What the rehashing works on: the flags of the table before and after, over the same arrays. -/
structure Rehash (κ ν : Type) where
  flags : Nat → BucketFlags
  newFlags : Nat → BucketFlags
  keys : Nat → κ
  vals : Nat → ν

/-- The first bucket of the new table that is free. -/
def freePlace (newFlags : Nat → BucketFlags) (mask : Nat) : Nat → Nat → Nat → Option Nat
  | 0,_,_ => none
  | fuel+1,i,step =>
    if (newFlags i).isempty then some i
    else freePlace newFlags mask fuel ((i+(step+1))&&&mask) (step+1)

def setIsdelTrue (flags : Nat → BucketFlags) (i : Nat) : Nat → BucketFlags :=
  Function.update flags i {flags i with isdel := true}

def setIsemptyFalse (flags : Nat → BucketFlags) (i : Nat) : Nat → BucketFlags :=
  Function.update flags i {flags i with isempty := false}

def setIsbothFalse (flags : Nat → BucketFlags) (i : Nat) : Nat → BucketFlags :=
  Function.update flags i ⟨false,false⟩

section Flags

variable {flags : Nat → BucketFlags} {x i : Nat}

theorem setIsdelTrue_full : (setIsdelTrue flags x i).Full ↔ (flags i).Full := by
  by_cases hi : i=x <;> simp [setIsdelTrue,hi]

theorem setIsdelTrue_live : (setIsdelTrue flags x i).Live ↔ i ≠ x ∧ (flags i).Live := by
  by_cases hi : i=x <;> simp [setIsdelTrue,hi,BucketFlags.iseither]

theorem setIsemptyFalse_full : (setIsemptyFalse flags x i).Full ↔ i=x ∨ (flags i).Full := by
  by_cases hi : i=x <;> simp [setIsemptyFalse,hi]

theorem setIsbothFalse_full : (setIsbothFalse flags x i).Full ↔ i=x ∨ (flags i).Full := by
  by_cases hi : i=x <;> simp [setIsbothFalse,hi]

theorem setIsbothFalse_live : (setIsbothFalse flags x i).Live ↔ i=x ∨ (flags i).Live := by
  by_cases hi : i=x
  · simp only [setIsbothFalse,hi,Function.update_self,true_or,iff_true]
    rfl
  · simp [setIsbothFalse,hi]

end Flags

/-- The element is written to a bucket of the new table. -/
def Rehash.write (r : Rehash κ ν) (i : Nat) (key : κ) (val : ν) : Rehash κ ν :=
  ⟨r.flags,setIsemptyFalse r.newFlags i,Function.update r.keys i key,Function.update r.vals i val⟩

section Write

variable {r : Rehash κ ν} {i j : Nat} {key : κ} {val : ν}

@[simp] theorem Rehash.write_key : (r.write i key val).keys i=key := Function.update_self ..

@[simp] theorem Rehash.write_val : (r.write i key val).vals i=val := Function.update_self ..

theorem Rehash.write_key_of_ne (h : j ≠ i) : (r.write i key val).keys j=r.keys j :=
  Function.update_of_ne h ..

theorem Rehash.write_val_of_ne (h : j ≠ i) : (r.write i key val).vals j=r.vals j :=
  Function.update_of_ne h ..

end Write

/-- The element goes to its place. One of the old table that is there is kicked out, and goes to
its own. -/
def kickOut (nBuckets newMask : Nat) : Nat → κ → ν → Rehash κ ν → Option (Rehash κ ν)
  | 0,_,_,_ => none
  | fuel+1,key,val,r =>
    (freePlace r.newFlags newMask (newMask+1) ((hash key).toNat&&&newMask) 0).bind fun i =>
      if i < nBuckets ∧ (r.flags i).Live then
        kickOut nBuckets newMask fuel (r.keys i) (r.vals i)
          {r.write i key val with flags := setIsdelTrue r.flags i}
      else some (r.write i key val)

def rehashBucket (nBuckets newMask : Nat) (r : Rehash κ ν) (j : Nat) : Option (Rehash κ ν) :=
  if (r.flags j).Live then
    kickOut hash nBuckets newMask (nBuckets+1) (r.keys j) (r.vals j)
      {r with flags := setIsdelTrue r.flags j}
  else some r

/-- The number of buckets is rounded up to a power of two. A table that would be too small is left
as it is. -/
def khResize (h : Khash κ ν) (newNBuckets : Nat) : Option (Khash κ ν) :=
  let rounded := (kroundup32 (BitVec.ofNat 32 newNBuckets)).toNat
  let newNBuckets := if rounded < 4 then 4 else rounded
  if hashUpper newNBuckets ≤ h.size then some h
  else
    ((List.range h.nBuckets).foldlM (rehashBucket hash h.nBuckets (newNBuckets-1))
      ⟨h.flags,emptyFlags,h.keys,h.vals⟩).map fun r =>
        ⟨newNBuckets,h.size,h.size,hashUpper newNBuckets,r.newFlags,r.keys,r.vals⟩

/-- A table that is full is cleared of its deleted buckets, or has its buckets doubled. -/
def makeRoom (h : Khash κ ν) : Option (Khash κ ν) :=
  if h.upperBound ≤ h.nOccupied then
    if 2*h.size < h.nBuckets then khResize hash h (h.nBuckets-1)
    else khResize hash h (h.nBuckets+1)
  else some h

/-- The bucket that a key is put in. -/
def findSite [DecidableEq κ] (h : Khash κ ν) (key : κ) : Option Nat :=
  let mask := h.nBuckets-1
  let i := (hash key).toNat&&&mask
  if (h.flags i).isempty then some i
  else (putLoop h key mask i (2*h.nBuckets) i 0 h.nBuckets).map fun r =>
    let (i,site,x) := r
    if x=h.nBuckets then
      if (h.flags i).isempty && site != h.nBuckets then site else i
    else x

/-- The number that `ret` gets is 1 for a bucket that was never used, 2 for a deleted one, and 0
when the key is there. -/
def claimSite (h : Khash κ ν) (key : κ) (x : Nat) : Khash κ ν × Nat :=
  if (h.flags x).isempty then
    ({h with
      keys := Function.update h.keys x key
      flags := setIsbothFalse h.flags x
      size := h.size+1
      nOccupied := h.nOccupied+1},1)
  else if (h.flags x).isdel then
    ({h with
      keys := Function.update h.keys x key
      flags := setIsbothFalse h.flags x
      size := h.size+1},2)
  else (h,0)

def khPut [DecidableEq κ] (h : Khash κ ν) (key : κ) : Option (Khash κ ν × Nat × Nat) :=
  (makeRoom hash h).bind fun h => (findSite hash h key).map fun x =>
    ((claimSite h key x).1,x,(claimSite h key x).2)

/-- `kh_value(h, x) = val` -/
def khSetValue (h : Khash κ ν) (x : Nat) (val : ν) : Khash κ ν :=
  {h with vals := Function.update h.vals x val}

def khDel (h : Khash κ ν) (x : Nat) : Khash κ ν :=
  if x ≠ h.nBuckets ∧ (h.flags x).Live then
    {h with flags := setIsdelTrue h.flags x,size := h.size-1}
  else h

end Operations

end Manchester
