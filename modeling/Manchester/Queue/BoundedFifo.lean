import Manchester.Queue.Ring

namespace Manchester

section Safety

variable {Pid : Type*} [Fintype Pid] [DecidableEq Pid] (maxCount elementSize : Nat)

/-- The promise of a bounded first-in first-out queue, for one state of the shared memory. -/
structure QueueSafe (s : QueueState Pid elementSize) : Prop where
  /-- What came out is what went in first. -/
  prefixRemoved : s.removed <+: s.added
  bounded : s.added.length ≤ s.removed.length+maxCount
  dataLength : s.data.length=maxCount*elementSize
  headOnSlot : ∃i,i < maxCount ∧ s.head=elementSize*i
  tailOnSlot : ∃i,i < maxCount ∧ s.tail=elementSize*i
  /-- Every unread element is complete in its slot. -/
  unreadIntact : ∀ k (h : k < s.added.length),s.removed.length ≤ k →
    Bytes.slice s.data (elementSize*(k%maxCount)) elementSize=s.added[k]
  /-- A writer about to copy does not aim at the slot of an unread element. -/
  writeIsFree : ∀ p element,s.call p=.addEnter element →
    ∀ k,k < s.added.length → s.removed.length ≤ k →
      elementSize*(k%maxCount)+elementSize ≤ s.tail ∨ s.tail+elementSize ≤ elementSize*(k%maxCount)
  /-- A reader about to copy finds the oldest unread element, completely written. -/
  readIsWritten : ∀ p,s.call p=.removeEnter →
    ∃ h : s.removed.length < s.added.length,
      elementAtHead elementSize s=s.added[s.removed.length]

variable {maxCount elementSize} {s t : QueueState Pid elementSize}

omit [DecidableEq Pid] in
theorem QueueInv.safe (h : QueueInv maxCount elementSize s) (hm : 0 < maxCount) :
    QueueSafe maxCount elementSize s where
  prefixRemoved := by
    rw [h.inOrder]
    exact List.take_prefix _ _
  bounded := h.unread_le
  dataLength := h.dataLength
  headOnSlot := ⟨_,Nat.mod_lt _ hm,h.headSlot⟩
  tailOnSlot := ⟨_,Nat.mod_lt _ hm,h.tailSlot⟩
  unreadIntact := h.stored
  writeIsFree := by
    intro p element hp k hk hunread
    have room := h.roomToWrite p element hp
    rw [h.tailSlot]
    exact slots_apart maxCount elementSize k _ hk (by omega)
  readIsWritten := fun p hp => ⟨h.elementToRead p hp,h.elementAtHead (h.elementToRead p hp)⟩

theorem queue_bounded_fifo (hm : 0 < maxCount) (he : 0 < elementSize)
    (hr : QueueReachable maxCount elementSize s) : QueueSafe maxCount elementSize s :=
  (QueueReachable.inv hm he hr).safe hm

/-- One slot, which process 0 has just filled: the ring is full and both pointers wrapped. -/
theorem queue_bounded_fifo_full_ring : ∃s : QueueState (Fin 2) 1,
    s.added=[[7]] ∧ s.canWriteLock=0 ∧ s.tail=0 ∧ QueueSafe 1 1 s := by
  have start : QueueReachable 1 1 (queueNew 1 1 : QueueState (Fin 2) 1) := .start rfl
  have called := start.next (.callAdd _ 0 ⟨[7],rfl⟩ rfl)
  have entered := called.next (.waitWrite _ 0 ⟨[7],rfl⟩ rfl (by decide))
  have copied := entered.next (.copyIn _ 0 ⟨[7],rfl⟩ rfl)
  exact ⟨_,rfl,rfl,rfl,queue_bounded_fifo (by decide) (by decide) copied⟩

def QueueInv.unread (h : QueueInv maxCount elementSize s) : Framework.Fifo (List UInt8) maxCount :=
  ⟨s.added.drop s.removed.length,by
    have hle := h.unread_le
    rw [List.length_drop]
    omega⟩

/-- A critical section is one operation of the abstract queue; every other step is none. -/
theorem QueueStep.unread (hm : 0 < maxCount) (he : 0 < elementSize)
    (h : QueueInv maxCount elementSize s) (hs : QueueStep maxCount elementSize s t) :
    (hs.inv hm he h).unread=h.unread ∨ Framework.Fifo.Step h.unread (hs.inv hm he h).unread := by
  cases hs with
  | copyIn p element hp =>
    right
    have room : h.unread.items.length < maxCount := by
      have hroom := h.roomToWrite p element hp
      have hle := h.removed_le
      change (s.added.drop s.removed.length).length < maxCount
      rw [List.length_drop]
      omega
    have step := Framework.Fifo.Step.put h.unread element.1 room
    convert step using 1
    ext1
    exact List.drop_append_of_le_length h.removed_le
  | copyOut p hp =>
    right
    have lt := h.elementToRead p hp
    have nonempty : h.unread.items≠[] := by
      intro hnil
      have hlen := List.drop_eq_nil_iff.mp hnil
      omega
    have step := Framework.Fifo.Step.get h.unread nonempty
    convert step using 1
    ext1
    change s.added.drop (s.removed++[_]).length=(s.added.drop s.removed.length).tail
    rw [List.length_append,List.tail_drop]
    rfl
  | callAdd | waitWrite | postRead | callRemove | waitRead | postWrite => exact .inl rfl

theorem queue_refines_fifo (hm : 0 < maxCount) (he : 0 < elementSize)
    (hr : QueueReachable maxCount elementSize s) :
    ∃q : Framework.Fifo (List UInt8) maxCount,
      Transition.Reachable (· = .empty) Framework.Fifo.Step q ∧
      q.items=s.added.drop s.removed.length := by
  have hsim : ∃q : Framework.Fifo (List UInt8) maxCount,
      Transition.Reachable (· = .empty) Framework.Fifo.Step q ∧
        ∃h : QueueInv maxCount elementSize s,q=h.unread := by
    apply Transition.Reachable.simulation hr
    · intro s h
      subst h
      exact ⟨_,rfl,queueNew_inv,rfl⟩
    · rintro s t q ⟨h,rfl⟩ _ hs
      rcases hs.unread hm he h with heq | hstep
      · exact ⟨_,.refl,hs.inv hm he h,heq.symm⟩
      · exact ⟨_,.single hstep,hs.inv hm he h,rfl⟩
  obtain ⟨q,hq,h,rfl⟩ := hsim
  exact ⟨_,hq,rfl⟩

end Safety

end Manchester
