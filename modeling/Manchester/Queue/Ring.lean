import Manchester.Queue.SharedQueue
import Mathlib.Data.Int.ModEq

namespace Manchester

section Slots

variable (maxCount elementSize : Nat)

theorem slot_fits (k : Nat) (hm : 0 < maxCount) :
    elementSize*(k%maxCount)+elementSize ≤ maxCount*elementSize := by
  have hk : k%maxCount+1 ≤ maxCount := Nat.mod_lt k hm
  calc
    elementSize*(k%maxCount)+elementSize = (k%maxCount+1)*elementSize := by ring
    _ ≤ maxCount*elementSize := Nat.mul_le_mul_right _ hk

/-- The pointer update walks the slots in order and wraps behind the last one. -/
theorem nextSlot_eq (k : Nat) (hm : 0 < maxCount) (he : 0 < elementSize) :
    nextSlot maxCount elementSize (elementSize*(k%maxCount))=
      elementSize*((k+1)%maxCount) := by
  have hk := Nat.mod_lt k hm
  have hsum : elementSize*(k%maxCount)+elementSize=(k%maxCount+1)*elementSize := by ring
  rw [nextSlot,hsum]
  by_cases hlast : k%maxCount+1=maxCount
  · have hz : (k+1)%maxCount=0 := by rw [← Nat.mod_add_mod,hlast,Nat.mod_self]
    rw [if_pos (by rw [hlast]),hz,Nat.mul_zero]
  · have hne : (k%maxCount+1)*elementSize≠maxCount*elementSize := fun h =>
      hlast (Nat.eq_of_mul_eq_mul_right he h)
    have hs : (k+1)%maxCount=k%maxCount+1 := by
      rw [← Nat.mod_add_mod,Nat.mod_eq_of_lt (by omega)]
    rw [if_neg hne,hs,Nat.mul_comm]

/-- Two elements less than a full turn apart sit in different slots. -/
theorem slots_apart (j k : Nat) (hjk : j < k) (hk : k < j+maxCount) :
    elementSize*(j%maxCount)+elementSize ≤ elementSize*(k%maxCount) ∨
      elementSize*(k%maxCount)+elementSize ≤ elementSize*(j%maxCount) := by
  have hne : j%maxCount≠k%maxCount := by
    intro h
    have hd : maxCount∣k-j := (Nat.modEq_iff_dvd' hjk.le).mp h
    have hle := Nat.le_of_dvd (by omega) hd
    omega
  rcases Nat.lt_or_gt_of_ne hne with h | h
  · left
    calc
      elementSize*(j%maxCount)+elementSize = elementSize*(j%maxCount+1) := by ring
      _ ≤ elementSize*(k%maxCount) := Nat.mul_le_mul_left _ h
  · right
    calc
      elementSize*(k%maxCount)+elementSize = elementSize*(k%maxCount+1) := by ring
      _ ≤ elementSize*(j%maxCount) := Nat.mul_le_mul_left _ h

end Slots

section Invariant

variable {Pid : Type*} [Fintype Pid] (maxCount elementSize : Nat)

/-- What ties the semaphores, the pointers and the calls in progress together. Element k of
`added` lives in slot k mod `max_count` until it is removed. -/
structure QueueInv (s : QueueState Pid elementSize) : Prop where
  dataLength : s.data.length=maxCount*elementSize
  tailSlot : s.tail=elementSize*(s.added.length%maxCount)
  headSlot : s.head=elementSize*(s.removed.length%maxCount)
  writes : s.canWriteLock+tally Call.holdsWrite s.call+s.added.length=
    maxCount+s.removed.length
  reads : s.canReadLock+tally Call.holdsRead s.call+s.removed.length=s.added.length
  sizes : ∀e∈s.added,e.length=elementSize
  inOrder : s.removed=s.added.take s.removed.length
  stored : ∀ k (h : k < s.added.length),s.removed.length ≤ k →
    Bytes.slice s.data (elementSize*(k%maxCount)) elementSize=s.added[k]

variable {maxCount elementSize} {s : QueueState Pid elementSize}

theorem queueNew_inv : QueueInv maxCount elementSize
    (queueNew maxCount elementSize : QueueState Pid elementSize) where
  dataLength := List.length_replicate
  tailSlot := by simp [queueNew]
  headSlot := by simp [queueNew]
  writes := by simp [queueNew,tally,Call.holdsWrite]
  reads := by simp [queueNew,tally,Call.holdsRead]
  sizes := by simp [queueNew]
  inOrder := rfl
  stored := by simp [queueNew]

/-- A writer between its wait and its copy has a free slot at the tail. -/
theorem QueueInv.roomToWrite (h : QueueInv maxCount elementSize s) (p : Pid)
    (element : Element elementSize) (hp : s.call p=.addEnter element) :
    s.added.length < s.removed.length+maxCount := by
  have ht := le_tally Call.holdsWrite s.call p
  have hh := h.writes
  rw [hp] at ht
  change 1 ≤ _ at ht
  omega

/-- A reader between its wait and its copy has an unread element at the head. -/
theorem QueueInv.elementToRead (h : QueueInv maxCount elementSize s) (p : Pid)
    (hp : s.call p=.removeEnter) : s.removed.length < s.added.length := by
  have ht := le_tally Call.holdsRead s.call p
  have hh := h.reads
  rw [hp] at ht
  change 1 ≤ _ at ht
  omega

theorem QueueInv.removed_le (h : QueueInv maxCount elementSize s) :
    s.removed.length ≤ s.added.length := by
  have hh := h.reads
  omega

theorem QueueInv.unread_le (h : QueueInv maxCount elementSize s) :
    s.added.length ≤ s.removed.length+maxCount := by
  have hh := h.writes
  omega

theorem QueueInv.elementAtHead (h : QueueInv maxCount elementSize s)
    (hlt : s.removed.length < s.added.length) :
    elementAtHead elementSize s=s.added[s.removed.length] := by
  rw [Manchester.elementAtHead,h.headSlot]
  exact h.stored _ hlt le_rfl

variable [DecidableEq Pid]

/-- A step outside the critical sections only moves permits. -/
theorem QueueInv.movePermits (h : QueueInv maxCount elementSize s) (p : Pid)
    (c : Call elementSize) (w r : Nat)
    (hw : w+c.holdsWrite=s.canWriteLock+(s.call p).holdsWrite)
    (hr : r+c.holdsRead=s.canReadLock+(s.call p).holdsRead) :
    QueueInv maxCount elementSize
      ({s with canWriteLock := w,canReadLock := r}.setCall p c) where
  dataLength := h.dataLength
  tailSlot := h.tailSlot
  headSlot := h.headSlot
  writes := by
    have ht := tally_update Call.holdsWrite s.call p c
    have hh := h.writes
    change w+tally Call.holdsWrite (Function.update s.call p c)+s.added.length=_
    change _ = maxCount+s.removed.length
    omega
  reads := by
    have ht := tally_update Call.holdsRead s.call p c
    have hh := h.reads
    change r+tally Call.holdsRead (Function.update s.call p c)+s.removed.length=_
    change _ = s.added.length
    omega
  sizes := h.sizes
  inOrder := h.inOrder
  stored := h.stored

theorem QueueInv.copyIn (h : QueueInv maxCount elementSize s) (hm : 0 < maxCount)
    (he : 0 < elementSize) (p : Pid) (element : Element elementSize)
    (hp : s.call p=.addEnter element) :
    QueueInv maxCount elementSize
      ((Manchester.copyIn maxCount elementSize s element).setCall p .addPost) := by
  have room := h.roomToWrite p element hp
  have fits : s.tail+element.1.length ≤ s.data.length := by
    rw [h.tailSlot,element.2,h.dataLength]
    exact slot_fits maxCount elementSize _ hm
  have le := h.removed_le
  have tw := tally_update Call.holdsWrite s.call p .addPost
  have tr := tally_update Call.holdsRead s.call p .addPost
  rw [hp] at tw tr
  change _+1=_+0 at tw
  change _+0=_+1 at tr
  have hw := h.writes
  have hr := h.reads
  refine ⟨?_,?_,h.headSlot,?_,?_,?_,?_,?_⟩
  · exact (Bytes.length_overwrite _ _ _ fits).trans h.dataLength
  · change nextSlot maxCount elementSize s.tail=elementSize*((s.added++[element.1]).length%_)
    rw [h.tailSlot,nextSlot_eq _ _ _ hm he,List.length_append]
    rfl
  · change s.canWriteLock+tally _ (Function.update s.call p .addPost)+
      (s.added++[element.1]).length=maxCount+s.removed.length
    rw [List.length_append,List.length_singleton]
    omega
  · change s.canReadLock+tally _ (Function.update s.call p .addPost)+s.removed.length=
      (s.added++[element.1]).length
    rw [List.length_append,List.length_singleton]
    omega
  · intro e hmem
    rcases List.mem_append.mp hmem with hm | hm
    · exact h.sizes e hm
    · rw [List.mem_singleton.mp hm]
      exact element.2
  · change s.removed=(s.added++[element.1]).take s.removed.length
    rw [List.take_append_of_le_length le]
    exact h.inOrder
  · intro k hk hunread
    change Bytes.slice (Bytes.overwrite s.data s.tail element.1) _ _=(s.added++[element.1])[k]
    change k < (s.added++[element.1]).length at hk
    change s.removed.length ≤ k at hunread
    rw [List.length_append,List.length_singleton] at hk
    rcases Nat.lt_succ_iff_lt_or_eq.mp hk with hold | rfl
    · -- an older element: its slot is not the one being written
      rw [List.getElem_append_left hold,← h.stored k hold hunread]
      apply Bytes.slice_overwrite_disjoint _ _ _ _ _ fits
      rw [element.2,h.tailSlot]
      exact slots_apart maxCount elementSize k _ hold (by omega)
    · rw [List.getElem_concat_length rfl,h.tailSlot.symm]
      have hself := Bytes.slice_overwrite_self s.data element.1 s.tail fits
      rwa [element.2] at hself

theorem QueueInv.copyOut (h : QueueInv maxCount elementSize s) (hm : 0 < maxCount)
    (he : 0 < elementSize) (p : Pid) (hp : s.call p=.removeEnter) :
    QueueInv maxCount elementSize ((Manchester.copyOut maxCount elementSize s).setCall p
      (.removePost (Manchester.elementAtHead elementSize s))) := by
  have lt := h.elementToRead p hp
  have element := h.elementAtHead lt
  have tw := tally_update Call.holdsWrite s.call p
    (.removePost (Manchester.elementAtHead elementSize s))
  have tr := tally_update Call.holdsRead s.call p
    (.removePost (Manchester.elementAtHead elementSize s))
  rw [hp] at tw tr
  change _+0=_+1 at tw
  change _+1=_+0 at tr
  have hw := h.writes
  have hr := h.reads
  refine ⟨h.dataLength,h.tailSlot,?_,?_,?_,h.sizes,?_,?_⟩
  · change nextSlot maxCount elementSize s.head=
      elementSize*((s.removed++[_]).length%maxCount)
    rw [h.headSlot,nextSlot_eq _ _ _ hm he,List.length_append]
    rfl
  · change s.canWriteLock+tally _ (Function.update s.call p _)+s.added.length=
      maxCount+(s.removed++[_]).length
    rw [List.length_append,List.length_singleton]
    omega
  · change s.canReadLock+tally _ (Function.update s.call p _)+(s.removed++[_]).length=
      s.added.length
    rw [List.length_append,List.length_singleton]
    omega
  · change s.removed++[Manchester.elementAtHead elementSize s]=
      s.added.take (s.removed++[_]).length
    rw [List.length_append,List.length_singleton,List.take_succ_eq_append_getElem lt,
      ← h.inOrder,element]
  · intro k hk hunread
    change (s.removed++[_]).length ≤ k at hunread
    rw [List.length_append,List.length_singleton] at hunread
    exact h.stored k hk (by omega)

/-- Every step of every process keeps the invariant. -/
theorem QueueStep.inv {t : QueueState Pid elementSize} (hm : 0 < maxCount) (he : 0 < elementSize)
    (h : QueueInv maxCount elementSize s) (hs : QueueStep maxCount elementSize s t) :
    QueueInv maxCount elementSize t := by
  cases hs with
  | callAdd p element hp => exact h.movePermits p _ _ _ (by rw [hp]; rfl) (by rw [hp]; rfl)
  | waitWrite p element hp hpos =>
    refine h.movePermits p _ _ _ ?_ (by rw [hp]; rfl)
    rw [hp]
    change s.canWriteLock-1+1=s.canWriteLock+0
    omega
  | copyIn p element hp => exact h.copyIn hm he p element hp
  | postRead p hp => exact h.movePermits p _ _ _ (by rw [hp]; rfl) (by rw [hp]; rfl)
  | callRemove p hp => exact h.movePermits p _ _ _ (by rw [hp]; rfl) (by rw [hp]; rfl)
  | waitRead p hp hpos =>
    refine h.movePermits p _ _ _ (by rw [hp]; rfl) ?_
    rw [hp]
    change s.canReadLock-1+1=s.canReadLock+0
    omega
  | copyOut p hp => exact h.copyOut hm he p hp
  | postWrite p element hp => exact h.movePermits p _ _ _ (by rw [hp]; rfl) (by rw [hp]; rfl)

theorem QueueReachable.inv (hm : 0 < maxCount) (he : 0 < elementSize)
    (hr : QueueReachable maxCount elementSize s) : QueueInv maxCount elementSize s :=
  Transition.Reachable.invariant hr (fun _ h => h ▸ queueNew_inv)
    (fun _ _ h hs => hs.inv hm he h)

end Invariant

end Manchester
