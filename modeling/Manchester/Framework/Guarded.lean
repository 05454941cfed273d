import Manchester.Framework.Network

namespace Framework.Network

variable {ι : Type} [DecidableEq ι] {N : Network ι} {cap : Nat}

/-- A step of the network whose round, if it begins one, is allowed. -/
inductive GuardedStep (ok : ∀ i,N.Env i → N.Local i → N.Msg (N.source i) → Prop) :
    N.State cap → N.State cap → Prop where
  | take (s : N.State cap) (i : ι) (env : N.Env i) (x : N.Msg (N.source i))
      (rest : List (N.Msg (N.source i))) (new : N.Local i) (out : List (N.Msg i))
      (hidle : s.pending i=[]) (hitems : (s.channel (N.source i)).queue.items=x::rest)
      (hreact : N.react i env (s.locals i) x=some (new,out)) (hok : ok i env (s.locals i) x) :
      GuardedStep ok s (s.afterTake i x new out)
  | put (s : N.State cap) (i : ι) (y : N.Msg i) (rest : List (N.Msg i))
      (hpending : s.pending i=y::rest) (hroom : (s.channel i).queue.items.length < cap) :
      GuardedStep ok s (s.afterPut i y rest hroom)

variable {ok : ∀ i,N.Env i → N.Local i → N.Msg (N.source i) → Prop} {s t : N.State cap}

/-- All messages that have ever been made, and all local states, are of the given kind. -/
structure Carries (Q : ∀ i,N.Msg i → Prop) (L : ∀ i,N.Local i → Prop) (s : N.State cap) :
    Prop where
  messages : ∀ i,∀x∈(s.channel i).sent++s.pending i,Q i x
  locals : ∀ i,L i (s.locals i)

variable {Q : ∀ i,N.Msg i → Prop} {L : ∀ i,N.Local i → Prop}

/-- An allowed round of process i on a message of the kind keeps to the kind. -/
def Answers (ok : ∀ i,N.Env i → N.Local i → N.Msg (N.source i) → Prop) (Q : ∀ i,N.Msg i → Prop)
    (L : ∀ i,N.Local i → Prop) (i : ι) : Prop :=
  ∀ env here x new out,ok i env here x → L i here → Q (N.source i) x →
    N.react i env here x=some (new,out) → L i new ∧ ∀y∈out,Q i y

omit [DecidableEq ι] in
theorem Carries.taken (h : Carries Q L s) {i : ι} {x : N.Msg i} (hx : x∈(s.channel i).taken) :
    Q i x :=
  h.messages i x (List.mem_append_left _ (List.mem_append_left _ hx))

theorem Carries.step (hanswers : ∀ i,Answers ok Q L i) (h : Carries Q L s)
    (hs : GuardedStep ok s t) : Carries Q L t := by
  cases hs with
  | take i env x rest new out hidle hitems hreact hok =>
    have hx : Q (N.source i) x := by
      apply h.messages
      simp [Channel.sent,hitems]
    obtain ⟨hnew,hout⟩ := hanswers i env (s.locals i) x new out hok (h.locals i) hx hreact
    constructor
    · intro j y hy
      rw [State.sent_afterTake hitems] at hy
      obtain hy | hy := List.mem_append.mp hy
      · exact h.messages j y (List.mem_append_left _ hy)
      · by_cases hji : j=i
        · subst hji
          simp only [State.afterTake,Function.update_self] at hy
          exact hout y hy
        · simp only [State.afterTake,Function.update_of_ne hji] at hy
          exact h.messages j y (List.mem_append_right _ hy)
    · intro j
      by_cases hji : j=i
      · subst hji
        simpa [State.afterTake] using hnew
      · simpa [State.afterTake,Function.update_of_ne hji] using h.locals j
  | put i y rest hpending hroom =>
    refine ⟨?_,h.locals⟩
    intro j z hz
    apply h.messages j z
    by_cases hji : j=i
    · subst hji
      rw [hpending]
      simpa [State.afterPut] using hz
    · simpa [State.afterPut,Function.update_of_ne hji] using hz

/-- What holds of the messages at the start and is kept by every allowed round holds of all
messages of a run of allowed rounds. -/
theorem Carries.reachable {init : N.State cap → Prop}
    (hr : Transition.Reachable init (GuardedStep ok) s) (hinit : ∀ s,init s → Carries Q L s)
    (hanswers : ∀ i,Answers ok Q L i) : Carries Q L s :=
  hr.invariant hinit fun _ _ h hs => h.step hanswers hs

end Framework.Network
