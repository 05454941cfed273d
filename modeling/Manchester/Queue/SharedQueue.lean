import Manchester.Framework.Bytes
import Manchester.Framework.Fifo
import Manchester.Framework.Transition
import Mathlib.Algebra.BigOperators.Group.Finset.Basic
import Mathlib.Algebra.Order.BigOperators.Group.Finset
import Mathlib.Data.Fintype.Basic

namespace Manchester

/-- A queue element: `element_size` bytes, the length every caller passes. -/
abbrev Element (elementSize : Nat) := {bytes : List UInt8 // bytes.length=elementSize}

/-- How far a process has come in its current `queue_add` or `queue_remove`. -/
inductive Call (elementSize : Nat) where
  | idle
  | addWait (element : Element elementSize)
  | addEnter (element : Element elementSize)
  | addPost
  | removeWait
  | removeEnter
  | removePost (element : List UInt8)

/-- The shared memory, the two semaphores and the calls in progress. The last two fields
record the copies made so far, in the order of the critical sections. -/
structure QueueState (Pid : Type*) (elementSize : Nat) where
  canWriteLock : Nat
  canReadLock : Nat
  head : Nat
  tail : Nat
  data : List UInt8
  call : Pid → Call elementSize
  added : List (List UInt8)
  removed : List (List UInt8)

section Operations

variable {Pid : Type*} [DecidableEq Pid] (maxCount elementSize : Nat)

def queueNew : QueueState Pid elementSize where
  canWriteLock := maxCount
  canReadLock := 0
  head := 0
  tail := 0
  data := List.replicate (maxCount*elementSize) 0
  call := fun _ => .idle
  added := []
  removed := []

/-- The next slot, wrapping at the end of the data area. -/
def nextSlot (pos : Nat) : Nat :=
  if pos+elementSize=maxCount*elementSize then 0 else pos+elementSize

def QueueState.setCall {elementSize : Nat} (s : QueueState Pid elementSize) (p : Pid)
    (c : Call elementSize) : QueueState Pid elementSize :=
  {s with call := Function.update s.call p c}

/-- The critical section of `queue_add`. -/
def copyIn (s : QueueState Pid elementSize) (element : Element elementSize) :
    QueueState Pid elementSize :=
  {s with
    data := Bytes.overwrite s.data s.tail element.1
    tail := nextSlot maxCount elementSize s.tail
    added := s.added++[element.1]}

/-- The bytes the critical section of `queue_remove` copies out. -/
def elementAtHead (s : QueueState Pid elementSize) : List UInt8 :=
  Bytes.slice s.data s.head elementSize

/-- The critical section of `queue_remove`. -/
def copyOut (s : QueueState Pid elementSize) : QueueState Pid elementSize :=
  {s with
    head := nextSlot maxCount elementSize s.head
    removed := s.removed++[elementAtHead elementSize s]}

/-- One step of one process: it starts a call, passes a semaphore, runs its critical section
under the mutex, or posts the other semaphore and returns. -/
inductive QueueStep : QueueState Pid elementSize → QueueState Pid elementSize → Prop where
  | callAdd (s : QueueState Pid elementSize) (p : Pid) (element : Element elementSize)
      (h : s.call p=.idle) : QueueStep s (s.setCall p (.addWait element))
  | waitWrite (s : QueueState Pid elementSize) (p : Pid) (element : Element elementSize)
      (h : s.call p=.addWait element) (hp : 0 < s.canWriteLock) :
      QueueStep s ({s with canWriteLock := s.canWriteLock-1}.setCall p (.addEnter element))
  | copyIn (s : QueueState Pid elementSize) (p : Pid) (element : Element elementSize)
      (h : s.call p=.addEnter element) :
      QueueStep s ((copyIn maxCount elementSize s element).setCall p .addPost)
  | postRead (s : QueueState Pid elementSize) (p : Pid) (h : s.call p=.addPost) :
      QueueStep s ({s with canReadLock := s.canReadLock+1}.setCall p .idle)
  | callRemove (s : QueueState Pid elementSize) (p : Pid) (h : s.call p=.idle) :
      QueueStep s (s.setCall p .removeWait)
  | waitRead (s : QueueState Pid elementSize) (p : Pid) (h : s.call p=.removeWait)
      (hp : 0 < s.canReadLock) :
      QueueStep s ({s with canReadLock := s.canReadLock-1}.setCall p .removeEnter)
  | copyOut (s : QueueState Pid elementSize) (p : Pid) (h : s.call p=.removeEnter) :
      QueueStep s ((copyOut maxCount elementSize s).setCall p
        (.removePost (elementAtHead elementSize s)))
  | postWrite (s : QueueState Pid elementSize) (p : Pid) (element : List UInt8)
      (h : s.call p=.removePost element) :
      QueueStep s ({s with canWriteLock := s.canWriteLock+1}.setCall p .idle)

/-- The states of a queue after `queue_new`, under any interleaving. -/
def QueueReachable (s : QueueState Pid elementSize) : Prop :=
  Transition.Reachable (· = queueNew maxCount elementSize) (QueueStep maxCount elementSize) s

end Operations

-- Every unit of a semaphore is a slot; a process between its wait and its post holds one.

def Call.holdsWrite {n : Nat} : Call n → Nat
  | .addEnter _ => 1
  | .removePost _ => 1
  | _ => 0

def Call.holdsRead {n : Nat} : Call n → Nat
  | .addPost => 1
  | .removeEnter => 1
  | _ => 0

section Permits

variable {Pid : Type*} [Fintype Pid] [DecidableEq Pid] {n : Nat}

def tally (w : Call n → Nat) (call : Pid → Call n) : Nat := ∑ p,w (call p)

theorem tally_update (w : Call n → Nat) (call : Pid → Call n) (p : Pid) (c : Call n) :
    tally w (Function.update call p c)+w (call p)=tally w call+w c := by
  have hnew : tally w (Function.update call p c)=
      w c+∑ q∈Finset.univ.erase p,w (call q) := by
    rw [tally,← Finset.add_sum_erase _ _ (Finset.mem_univ p),Function.update_self]
    congr 1
    apply Finset.sum_congr rfl
    intro q hq
    rw [Function.update_of_ne (Finset.ne_of_mem_erase hq)]
  have hold : tally w call=w (call p)+∑ q∈Finset.univ.erase p,w (call q) := by
    rw [tally,← Finset.add_sum_erase _ _ (Finset.mem_univ p)]
  omega

omit [DecidableEq Pid] in
theorem le_tally (w : Call n → Nat) (call : Pid → Call n) (p : Pid) :
    w (call p) ≤ tally w call :=
  Finset.single_le_sum (f := fun q => w (call q)) (fun _ _ => Nat.zero_le _) (Finset.mem_univ p)

end Permits

end Manchester
