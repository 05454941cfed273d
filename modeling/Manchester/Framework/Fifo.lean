import Mathlib.Data.List.Basic

namespace Framework

/-- A first-in first-out queue that never holds more than `cap` items. -/
structure Fifo (α : Type*) (cap : Nat) where
  items : List α
  bound : items.length ≤ cap

namespace Fifo

variable {α : Type*} {cap : Nat}

@[ext] theorem ext (q r : Fifo α cap) (h : q.items=r.items) : q=r := by
  cases q
  cases r
  cases h
  rfl

def empty : Fifo α cap := ⟨[],Nat.zero_le _⟩

def put (q : Fifo α cap) (x : α) (h : q.items.length < cap) : Fifo α cap :=
  ⟨q.items++[x],by rw [List.length_append]; exact h⟩

/-- The queue without its oldest item. -/
def rest (q : Fifo α cap) : Fifo α cap :=
  ⟨q.items.tail,by rw [List.length_tail]; exact Nat.le_trans (Nat.sub_le _ _) q.bound⟩

/-- One operation: append where there is room, or take the oldest item. -/
inductive Step : Fifo α cap → Fifo α cap → Prop where
  | put (q : Fifo α cap) (x : α) (h : q.items.length < cap) : Step q (q.put x h)
  | get (q : Fifo α cap) (h : q.items≠[]) : Step q q.rest

end Fifo
end Framework
