import Manchester.Framework.Fifo
import Manchester.Framework.Transition
import Mathlib.Data.Multiset.AddSub
import Mathlib.Logic.Function.Basic

namespace Framework

/-- A bounded queue together with all that has been taken from it. -/
structure Channel (α : Type*) (cap : Nat) where
  taken : List α
  queue : Fifo α cap

namespace Channel

variable {α : Type*} {cap : Nat}

def empty : Channel α cap := ⟨[],Fifo.empty⟩

/-- All that has ever been put, in order. -/
def sent (c : Channel α cap) : List α := c.taken++c.queue.items

def put (c : Channel α cap) (x : α) (h : c.queue.items.length < cap) : Channel α cap :=
  ⟨c.taken,c.queue.put x h⟩

/-- The channel once its oldest message x has been taken. -/
def take (c : Channel α cap) (x : α) : Channel α cap := ⟨c.taken++[x],c.queue.rest⟩

@[simp] theorem taken_put (c : Channel α cap) (x : α) (h : c.queue.items.length < cap) :
    (c.put x h).taken=c.taken := rfl

@[simp] theorem taken_take (c : Channel α cap) (x : α) : (c.take x).taken=c.taken++[x] := rfl

@[simp] theorem items_put (c : Channel α cap) (x : α) (h : c.queue.items.length < cap) :
    (c.put x h).queue.items=c.queue.items++[x] := rfl

@[simp] theorem items_take (c : Channel α cap) (x : α) :
    (c.take x).queue.items=c.queue.items.tail := rfl

@[simp] theorem sent_empty : (empty : Channel α cap).sent=[] := rfl

@[simp] theorem sent_put (c : Channel α cap) (x : α) (h : c.queue.items.length < cap) :
    (c.put x h).sent=c.sent++[x] := (List.append_assoc _ _ _).symm

theorem sent_take (c : Channel α cap) (x : α) (rest : List α) (h : c.queue.items=x::rest) :
    (c.take x).sent=c.sent := by
  simp [sent,h]

theorem taken_prefix (c : Channel α cap) : c.taken <+: c.sent := List.prefix_append _ _

end Channel

section Transducers

variable {σ α β : Type*}

/-- The state of a process after a list of inputs, and all that it has put out. -/
def transduce (f : σ → α → σ × List β) (s : σ) : List α → σ × List β
  | [] => (s,[])
  | x::xs =>
    let (s1,out) := f s x
    let (s2,later) := transduce f s1 xs
    (s2,out++later)

theorem transduce_append (f : σ → α → σ × List β) (s : σ) (xs ys : List α) :
    transduce f s (xs++ys)=
      ((transduce f (transduce f s xs).1 ys).1,
        (transduce f s xs).2++(transduce f (transduce f s xs).1 ys).2) := by
  induction xs generalizing s with
  | nil => rfl
  | cons x xs ih => simp [transduce,ih]

theorem transduce_mono (f : σ → α → σ × List β) (s : σ) {xs ys : List α} (h : xs <+: ys) :
    (transduce f s xs).2 <+: (transduce f s ys).2 := by
  obtain ⟨rest,rfl⟩ := h
  rw [transduce_append]
  exact List.prefix_append _ _

end Transducers

/-- Processes that pass messages on through channels. Process i alone writes channel i, and it
alone reads the channel `source i`. -/
structure Network (ι : Type) where
  source : ι → ι
  reader : Function.Injective source
  Msg : ι → Type
  Local : ι → Type
  /-- What a round takes from outside the network. -/
  Env : ι → Type
  /-- A round: the new local state and the messages to put. None is a process that is stuck. -/
  react : ∀ i,Env i → Local i → Msg (source i) → Option (Local i × List (Msg i))

namespace Network

variable {ι : Type} [DecidableEq ι] (N : Network ι) {cap cap' : Nat}

/-- `pending` holds what the current round still has to put. -/
structure State (cap : Nat) where
  channel : ∀ i,Channel (N.Msg i) cap
  locals : ∀ i,N.Local i
  pending : ∀ i,List (N.Msg i)

variable {N}

namespace State

variable (s : N.State cap)

/-- Process i has taken x and come to the state `new`, with `out` to put. -/
def afterTake (i : ι) (x : N.Msg (N.source i)) (new : N.Local i) (out : List (N.Msg i)) :
    N.State cap where
  channel := Function.update s.channel (N.source i) ((s.channel (N.source i)).take x)
  locals := Function.update s.locals i new
  pending := Function.update s.pending i out

/-- Process i has put y. -/
def afterPut (i : ι) (y : N.Msg i) (rest : List (N.Msg i))
    (hroom : (s.channel i).queue.items.length < cap) : N.State cap where
  channel := Function.update s.channel i ((s.channel i).put y hroom)
  locals := s.locals
  pending := Function.update s.pending i rest

variable {s}

theorem sent_afterTake {i : ι} {x : N.Msg (N.source i)} {rest : List (N.Msg (N.source i))}
    (hitems : (s.channel (N.source i)).queue.items=x::rest) (new : N.Local i)
    (out : List (N.Msg i)) (j : ι) :
    ((s.afterTake i x new out).channel j).sent=(s.channel j).sent := by
  unfold afterTake
  by_cases hj : j=N.source i
  · subst hj
    simp only [Function.update_self]
    exact Channel.sent_take _ x rest hitems
  · simp only [Function.update_of_ne hj]

theorem taken_afterTake_self (i : ι) (x : N.Msg (N.source i)) (new : N.Local i)
    (out : List (N.Msg i)) :
    ((s.afterTake i x new out).channel (N.source i)).taken=
      (s.channel (N.source i)).taken++[x] := by
  simp [afterTake]

theorem taken_afterTake_of_ne (i : ι) (x : N.Msg (N.source i)) (new : N.Local i)
    (out : List (N.Msg i)) {j : ι} (hj : j ≠ N.source i) :
    ((s.afterTake i x new out).channel j).taken=(s.channel j).taken := by
  simp [afterTake,Function.update_of_ne hj]

theorem taken_afterPut (i : ι) (y : N.Msg i) (rest : List (N.Msg i))
    (hroom : (s.channel i).queue.items.length < cap) (j : ι) :
    ((s.afterPut i y rest hroom).channel j).taken=(s.channel j).taken := by
  unfold afterPut
  by_cases hj : j=i
  · subst hj
    simp
  · simp only [Function.update_of_ne hj]

/-- The messages of process i that have not been taken yet: in its channel or in its hand. -/
def held (s : N.State cap) (i : ι) : Multiset (N.Msg i) :=
  ↑(s.channel i).queue.items+↑(s.pending i)

theorem held_afterPut {i : ι} {y : N.Msg i} {rest : List (N.Msg i)}
    (hpending : s.pending i=y::rest) (hroom : (s.channel i).queue.items.length < cap) (j : ι) :
    (s.afterPut i y rest hroom).held j=s.held j := by
  by_cases hj : j=i
  · subst hj
    simp [held,afterPut,hpending]
  · simp [held,afterPut,Function.update_of_ne hj]

theorem held_afterTake_self {i : ι} (hne : N.source i ≠ i) (hidle : s.pending i=[])
    (x : N.Msg (N.source i)) (new : N.Local i) (out : List (N.Msg i)) :
    (s.afterTake i x new out).held i=s.held i+↑out := by
  simp [held,afterTake,Function.update_of_ne hne.symm,hidle]

theorem held_afterTake_source {i : ι} (hne : N.source i ≠ i) {x : N.Msg (N.source i)}
    {rest : List (N.Msg (N.source i))} (hitems : (s.channel (N.source i)).queue.items=x::rest)
    (new : N.Local i) (out : List (N.Msg i)) :
    s.held (N.source i)=x::ₘ(s.afterTake i x new out).held (N.source i) := by
  simp [held,afterTake,Function.update_of_ne hne,hitems]

theorem held_afterTake_of_ne {i j : ι} (hj : j ≠ i) (hsource : j ≠ N.source i)
    (x : N.Msg (N.source i)) (new : N.Local i) (out : List (N.Msg i)) :
    (s.afterTake i x new out).held j=s.held j := by
  simp [held,afterTake,Function.update_of_ne hj,Function.update_of_ne hsource]

end State

/-- A round begins with a message that is taken, and goes on with what it puts, one by one. -/
inductive Step : N.State cap → N.State cap → Prop where
  | take (s : N.State cap) (i : ι) (env : N.Env i) (x : N.Msg (N.source i))
      (rest : List (N.Msg (N.source i))) (new : N.Local i) (out : List (N.Msg i))
      (hidle : s.pending i=[]) (hitems : (s.channel (N.source i)).queue.items=x::rest)
      (hreact : N.react i env (s.locals i) x=some (new,out)) : Step s (s.afterTake i x new out)
  | put (s : N.State cap) (i : ι) (y : N.Msg i) (rest : List (N.Msg i))
      (hpending : s.pending i=y::rest) (hroom : (s.channel i).queue.items.length < cap) :
      Step s (s.afterPut i y rest hroom)

/-- Empty channels, and each process at its start with what it puts before its first round. -/
structure Starts (start : ∀ i,N.Local i → List (N.Msg i) → Prop) (s : N.State cap) : Prop where
  channel : ∀ i,s.channel i=Channel.empty
  process : ∀ i,start i (s.locals i) (s.pending i)

/-- What process i can have come to, and put out in all, by the messages it has taken. -/
inductive Ran (start : ∀ i,N.Local i → List (N.Msg i) → Prop) (i : ι) :
    List (N.Msg (N.source i)) → N.Local i → List (N.Msg i) → Prop where
  | start {here : N.Local i} {out : List (N.Msg i)} (h : start i here out) : Ran start i [] here out
  | round {xs : List (N.Msg (N.source i))} {here new : N.Local i} {before out : List (N.Msg i)}
      {env : N.Env i} {x : N.Msg (N.source i)} (h : Ran start i xs here before)
      (hreact : N.react i env here x=some (new,out)) : Ran start i (xs++[x]) new (before++out)

variable {start : ∀ i,N.Local i → List (N.Msg i) → Prop}

/-- Every process is where its own rounds have led it, whatever the others did in between. -/
def Separate (start : ∀ i,N.Local i → List (N.Msg i) → Prop) (s : N.State cap) : Prop :=
  ∀ i,Ran start i (s.channel (N.source i)).taken (s.locals i) ((s.channel i).sent++s.pending i)

omit [DecidableEq ι] in
theorem Starts.separate {s : N.State cap} (h : Starts start s) : Separate start s := by
  intro i
  rw [h.channel,h.channel]
  exact .start (h.process i)

theorem Step.separate {s t : N.State cap} (hs : Step s t) (h : Separate start s) :
    Separate start t := by
  intro j
  have hj := h j
  cases hs with
  | take i env x rest new out hidle hitems hreact =>
    -- taking a message leaves all that was ever put as it is
    rw [State.sent_afterTake hitems]
    by_cases hji : j=i
    · subst hji
      rw [hidle,List.append_nil] at hj
      have hround := Ran.round hj hreact
      simpa [State.taken_afterTake_self,State.afterTake] using hround
    · have hsource : N.source j ≠ N.source i := fun h => hji (N.reader h)
      rw [State.taken_afterTake_of_ne i x new out hsource]
      simpa [State.afterTake,Function.update_of_ne hji] using hj
  | put i y rest hpending hroom =>
    rw [State.taken_afterPut]
    by_cases hji : j=i
    · subst hji
      rw [hpending] at hj
      simpa [State.afterPut] using hj
    · simpa [State.afterPut,Function.update_of_ne hji] using hj

theorem Reachable.separate {s : N.State cap}
    (hr : Transition.Reachable (Starts start) Step s) : Separate start s :=
  hr.invariant (fun _ h => h.separate) (fun _ _ h hs => hs.separate h)

omit [DecidableEq ι] in
/-- A process that answers each of its messages as `f` does, while its local state is in P, has put
out what `f` makes of them. -/
theorem Ran.transduce {i : ι} {xs : List (N.Msg (N.source i))} {here : N.Local i}
    {out : List (N.Msg i)} (h : Ran start i xs here out) {P : N.Local i → Prop}
    (f : N.Local i → N.Msg (N.source i) → N.Local i × List (N.Msg i))
    (hstart : ∀ first burst,start i first burst → P first)
    (hf : ∀x∈xs,∀ env here r,P here → N.react i env here x=some r → r=f here x ∧ P r.1) :
    P here ∧ ∃ first burst,start i first burst ∧ here=(transduce f first xs).1 ∧
      out=burst++(transduce f first xs).2 := by
  induction h with
  | start h => exact ⟨hstart _ _ h,_,_,h,rfl,(List.append_nil _).symm⟩
  | round h hreact ih =>
    rename_i xs here new before out env x
    obtain ⟨hhere,first,burst,hfirst,hlocal,hbefore⟩ := ih fun y hy => hf y (by simp [hy])
    obtain ⟨hround,hnew⟩ := hf x (by simp) env here _ hhere hreact
    refine ⟨hnew,first,burst,hfirst,?_,?_⟩
    · rw [transduce_append,← hlocal]
      simp [Framework.transduce,← hround]
    · rw [transduce_append,← hlocal,hbefore]
      simp [Framework.transduce,← hround]

omit [DecidableEq ι] in
/-- What holds of the first messages and of the answers of each round holds of all messages. -/
theorem Ran.forall_out {i : ι} {xs : List (N.Msg (N.source i))} {here : N.Local i}
    {out : List (N.Msg i)} (h : Ran start i xs here out) {Q : N.Msg i → Prop}
    (hstart : ∀ first burst,start i first burst → ∀y∈burst,Q y)
    (hround : ∀x∈xs,∀ env here r,N.react i env here x=some r → ∀y∈r.2,Q y) : ∀y∈out,Q y := by
  induction h with
  | start h => exact hstart _ _ h
  | round h hreact ih =>
    intro y hy
    obtain hy | hy := List.mem_append.mp hy
    · exact ih (fun x hx => hround x (by simp [hx])) y hy
    · exact hround _ (by simp) _ _ _ hreact y hy

/-- A message goes from the hand of its writer to its channel: all that a process can see of the
others is as before. -/
structure Delivered (s t : N.State cap) : Prop where
  held : ∀ j,t.held j=s.held j
  taken : ∀ j,(t.channel j).taken=(s.channel j).taken
  locals : ∀ j,t.locals j=s.locals j

/-- Process i has taken x, come to the state `new`, and has `out` in its hand. -/
structure Took (s t : N.State cap) (i : ι) (x : N.Msg (N.source i)) (new : N.Local i)
    (out : List (N.Msg i)) : Prop where
  source : s.held (N.source i)=x::ₘt.held (N.source i)
  self : t.held i=s.held i+↑out
  others : ∀ j,j ≠ i → j ≠ N.source i → t.held j=s.held j
  taken : (t.channel (N.source i)).taken=(s.channel (N.source i)).taken++[x]
  takenOthers : ∀ j,j ≠ N.source i → (t.channel j).taken=(s.channel j).taken
  here : t.locals i=new
  elsewhere : ∀ j,j ≠ i → t.locals j=s.locals j

theorem State.delivered_afterPut {s : N.State cap} {i : ι} {y : N.Msg i} {rest : List (N.Msg i)}
    (hpending : s.pending i=y::rest) (hroom : (s.channel i).queue.items.length < cap) :
    Delivered s (s.afterPut i y rest hroom) where
  held := State.held_afterPut hpending hroom
  taken := State.taken_afterPut i y rest hroom
  locals := fun _ => rfl

theorem State.took_afterTake {s : N.State cap} {i : ι} (hne : N.source i ≠ i)
    (hidle : s.pending i=[]) {x : N.Msg (N.source i)} {rest : List (N.Msg (N.source i))}
    (hitems : (s.channel (N.source i)).queue.items=x::rest) (new : N.Local i)
    (out : List (N.Msg i)) : Took s (s.afterTake i x new out) i x new out where
  source := State.held_afterTake_source hne hitems new out
  self := State.held_afterTake_self hne hidle x new out
  others := fun _ hj hsource => State.held_afterTake_of_ne hj hsource x new out
  taken := State.taken_afterTake_self i x new out
  takenOthers := fun _ hj => State.taken_afterTake_of_ne i x new out hj
  here := by simp [State.afterTake]
  elsewhere := by
    intro j hj
    simp [State.afterTake,Function.update_of_ne hj]

theorem Step.spec (hne : ∀ i,N.source i ≠ i) {s t : N.State cap} (hs : Step s t) :
    Delivered s t ∨ ∃ i env x new out,N.react i env (s.locals i) x=some (new,out) ∧
      Took s t i x new out := by
  cases hs with
  | put i y rest hpending hroom => exact Or.inl (State.delivered_afterPut hpending hroom)
  | take i env x rest new out hidle hitems hreact =>
    exact Or.inr ⟨i,env,x,new,out,hreact,State.took_afterTake (hne i) hidle hitems new out⟩

/-- One of two histories continues the other. -/
def Comparable {α : Type*} (xs ys : List α) : Prop := xs <+: ys ∨ ys <+: xs

theorem Comparable.mono {α β : Type*} {xs ys : List α} (h : Comparable xs ys)
    {f : List α → List β} (hf : ∀ xs ys,xs <+: ys → f xs <+: f ys) : Comparable (f xs) (f ys) :=
  h.imp (hf _ _) (hf _ _)

theorem Comparable.of_prefixes {α : Type*} {xs ys xs' ys' : List α} (h : Comparable xs ys)
    (hx : xs' <+: xs) (hy : ys' <+: ys) : Comparable xs' ys' := by
  obtain h | h := h
  · exact List.prefix_or_prefix_of_prefix (hx.trans h) hy
  · exact List.prefix_or_prefix_of_prefix hx (hy.trans h)

/-- The processes put out what the functions `F` make of the messages they have taken. -/
def Follows (F : ∀ i,List (N.Msg (N.source i)) → List (N.Msg i)) (s : N.State cap) : Prop :=
  ∀ i,(s.channel i).sent++s.pending i=F i (s.channel (N.source i)).taken

variable {F : ∀ i,List (N.Msg (N.source i)) → List (N.Msg i)}

omit [DecidableEq ι] in
theorem Follows.sent_prefix {s : N.State cap} (h : Follows F s) (i : ι) :
    (s.channel i).sent <+: F i (s.channel (N.source i)).taken :=
  ⟨s.pending i,h i⟩

/-- A step takes only what had been put before it. -/
theorem Step.taken_prefix {s t : N.State cap} (hs : Step s t) (j : ι) :
    (t.channel j).taken <+: (s.channel j).sent := by
  cases hs with
  | take i env x rest new out hidle hitems hreact =>
    rw [← State.sent_afterTake hitems new out]
    exact Channel.taken_prefix _
  | put i y rest hpending hroom =>
    rw [State.taken_afterPut]
    exact Channel.taken_prefix _

theorem Step.taken_mono {s t : N.State cap} (hs : Step s t) (j : ι) :
    (s.channel j).taken <+: (t.channel j).taken := by
  cases hs with
  | take i env x rest new out hidle hitems hreact =>
    by_cases hj : j=N.source i
    · subst hj
      rw [State.taken_afterTake_self]
      exact List.prefix_append _ _
    · simp [State.taken_afterTake_of_ne i x new out hj]
  | put i y rest hpending hroom => simp [State.taken_afterPut]

/-- Two runs of the same functions, in any order and with any capacities, have put the same
messages into each channel as far as both have come. The induction is on the first run. -/
theorem histories_comparable {t : N.State cap'}
    (hF : ∀ i xs ys,xs <+: ys → F i xs <+: F i ys) (ht : Follows F t) {s : N.State cap}
    (hs : Transition.Reachable (Starts start) (fun a b => Step a b ∧ Follows F b) s) (i : ι) :
    Comparable (s.channel i).sent (t.channel i).sent := by
  induction hs generalizing i with
  | start h =>
    left
    rw [h.channel i]
    exact List.nil_prefix
  | next _ h ih =>
    rename_i a b _
    obtain ⟨hstep,hfollows⟩ := h
    have hleft : (b.channel i).sent <+: F i (a.channel (N.source i)).sent :=
      (hfollows.sent_prefix i).trans (hF i _ _ (hstep.taken_prefix (N.source i)))
    have hright : (t.channel i).sent <+: F i (t.channel (N.source i)).sent :=
      (ht.sent_prefix i).trans (hF i _ _ (Channel.taken_prefix _))
    exact ((ih (N.source i)).mono (hF i)).of_prefixes hleft hright

end Network
end Framework
