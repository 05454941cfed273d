import Manchester.Framework.Network
import Mathlib.Algebra.BigOperators.Group.Finset.Basic
import Mathlib.Algebra.Order.BigOperators.Group.Finset
import Mathlib.Data.Fintype.BigOperators
import Mathlib.Tactic.Ring

namespace Framework
namespace Network

variable {ι : Type} [DecidableEq ι] {N : Network ι} {cap : Nat} {s t : N.State cap}

/-- The process has a message to put, and its channel is full. -/
def WaitsForRoom (s : N.State cap) (i : ι) : Prop :=
  s.pending i ≠ [] ∧ (s.channel i).queue.items.length=cap

/-- The process has nothing to put, and nothing to take. -/
def WaitsForMessage (s : N.State cap) (i : ι) : Prop :=
  s.pending i=[] ∧ (s.channel (N.source i)).queue.items=[]

def Blocked (s : N.State cap) (i : ι) : Prop := WaitsForRoom s i ∨ WaitsForMessage s i

/-- All are blocked, and not because there is nothing left to do. -/
def Deadlocked (s : N.State cap) : Prop := (∀ i,Blocked s i) ∧ ∃ i,WaitsForRoom s i

/-- Going from reader to writer, each process comes to each other one. -/
def IsRing (N : Network ι) : Prop := ∀ i j,∃ k,N.source^[k] i=j

omit [DecidableEq ι] in
/-- In a ring the reader of a full channel is itself blocked by a full channel, and so on all the
way round. -/
theorem Deadlocked.waitsForRoom (hring : IsRing N) (hcap : 0 < cap) (h : Deadlocked s) (i : ι) :
    WaitsForRoom s i := by
  obtain ⟨hblocked,j,hj⟩ := h
  obtain ⟨k,hk⟩ := hring i j
  induction k generalizing i with
  | zero =>
    obtain rfl : i=j := hk
    exact hj
  | succ k ih =>
    have hsource : WaitsForRoom s (N.source i) := ih (N.source i) hk
    obtain hroom | ⟨-,hempty⟩ := hblocked i
    · exact hroom
    · have hfull := hsource.2
      rw [hempty,List.length_nil] at hfull
      omega

/-- The messages of process i that no one has taken yet. -/
def load (s : N.State cap) (i : ι) : Nat := (s.held i).card

omit [DecidableEq ι] in
theorem load_eq (s : N.State cap) (i : ι) :
    load s i=(s.channel i).queue.items.length+(s.pending i).length := by
  simp [load,State.held]

/-- Two sums whose terms agree at all but two places. -/
theorem sum_eq_off_pair [Fintype ι] {f g : ι → Nat} {i k : ι} (hne : i ≠ k)
    (h : ∀ j,j ≠ i → j ≠ k → f j=g j) : ∑ j,f j+(g i+g k)=∑ j,g j+(f i+f k) := by
  have hmem : k∈Finset.univ.erase i := Finset.mem_erase.mpr ⟨hne.symm,Finset.mem_univ k⟩
  have hsplit : ∀ w : ι → Nat,∑ j,w j=w i+(w k+∑ j ∈ (Finset.univ.erase i).erase k,w j) := by
    intro w
    rw [Finset.add_sum_erase _ w hmem,Finset.add_sum_erase _ w (Finset.mem_univ i)]
  have hrest : ∑ j ∈ (Finset.univ.erase i).erase k,f j=
      ∑ j ∈ (Finset.univ.erase i).erase k,g j := by
    apply Finset.sum_congr rfl
    intro j hj
    obtain ⟨hjk,hj⟩ := Finset.mem_erase.mp hj
    exact h j (Finset.mem_erase.mp hj).1 hjk
  rw [hsplit f,hsplit g,hrest]
  omega

section Counting

variable [Fintype ι]

def messages (s : N.State cap) : Nat := ∑ i,load s i

omit [DecidableEq ι] in
/-- A deadlock takes a ring that is full to the brim. -/
theorem Deadlocked.messages_le (hring : IsRing N) (hcap : 0 < cap) (h : Deadlocked s) :
    Fintype.card ι*(cap+1) ≤ messages s := by
  have hload : ∀i∈(Finset.univ : Finset ι),cap+1 ≤ load s i := by
    intro i _
    obtain ⟨hpending,hfull⟩ := h.waitsForRoom hring hcap i
    have hpos := List.length_pos_of_ne_nil hpending
    rw [load_eq]
    omega
  have hsum := Finset.card_nsmul_le_sum Finset.univ (load s) (cap+1) hload
  simpa [messages] using hsum

omit [DecidableEq ι] in
theorem Delivered.messages (h : Delivered s t) : messages t=messages s :=
  Finset.sum_congr rfl fun i _ => congrArg Multiset.card (h.held i)

theorem Took.messages (hne : ∀ i,N.source i ≠ i) {i : ι} {x : N.Msg (N.source i)}
    {new : N.Local i} {out : List (N.Msg i)} (h : Took s t i x new out) :
    Network.messages t+1=Network.messages s+out.length := by
  have hsum := sum_eq_off_pair (f := load t) (g := load s) (hne i).symm
    fun j hj hsource => congrArg Multiset.card (h.others j hj hsource)
  have hsource : load s (N.source i)=load t (N.source i)+1 := by
    simp [load,h.source]
  have hself : load t i=load s i+out.length := by
    simp [load,h.self]
  unfold Network.messages
  omega

end Counting

/-- All messages that are on their way, and all local states, are of the given kind. -/
structure Keeps (P : ∀ i,N.Msg i → Prop) (L : ∀ i,N.Local i → Prop) (s : N.State cap) : Prop where
  held : ∀ i,∀x∈s.held i,P i x
  locals : ∀ i,L i (s.locals i)

section Kinds

variable {P : ∀ i,N.Msg i → Prop} {L : ∀ i,N.Local i → Prop}

omit [DecidableEq ι] in
theorem Keeps.delivered (h : Keeps P L s) (ht : Delivered s t) : Keeps P L t where
  held := fun i x hx => h.held i x (ht.held i ▸ hx)
  locals := fun i => ht.locals i ▸ h.locals i

omit [DecidableEq ι] in
theorem Keeps.oldest (h : Keeps P L s) {i : ι} {x : N.Msg i} {rest : List (N.Msg i)}
    (hitems : (s.channel i).queue.items=x::rest) : P i x := by
  apply h.held i x
  simp [State.held,hitems]

theorem Keeps.took (h : Keeps P L s) {i : ι} {x : N.Msg (N.source i)} {new : N.Local i}
    {out : List (N.Msg i)} (ht : Took s t i x new out) (hnew : L i new) (hout : ∀y∈out,P i y) :
    Keeps P L t where
  held := by
    intro j y hy
    by_cases hji : j=i
    · subst hji
      rw [ht.self,Multiset.mem_add] at hy
      obtain hy | hy := hy
      · exact h.held j y hy
      · exact hout y hy
    · apply h.held j y
      by_cases hsource : j=N.source i
      · subst hsource
        rw [ht.source]
        exact Multiset.mem_cons_of_mem hy
      · rwa [← ht.others j hji hsource]
  locals := by
    intro j
    by_cases hji : j=i
    · subst hji
      rw [ht.here]
      exact hnew
    · rw [ht.elsewhere j hji]
      exact h.locals j

/-- A round of process i on messages of the kind keeps to the kind, and puts at most one message. -/
def Thrifty (P : ∀ i,N.Msg i → Prop) (L : ∀ i,N.Local i → Prop) (i : ι) : Prop :=
  ∀ env here x new out,L i here → P (N.source i) x → N.react i env here x=some (new,out) →
    L i new ∧ (∀y∈out,P i y) ∧ out.length ≤ 1

variable [Fintype ι]

theorem Keeps.step (hne : ∀ i,N.source i ≠ i) (hthrifty : ∀ i,Thrifty P L i) (h : Keeps P L s)
    (hs : Step s t) : Keeps P L t ∧ messages t ≤ messages s := by
  obtain hput | ⟨i,env,x,new,out,hreact,htook⟩ := hs.spec hne
  · exact ⟨h.delivered hput,Nat.le_of_eq hput.messages⟩
  · have hx : P (N.source i) x := h.held _ _ (by rw [htook.source]; exact Multiset.mem_cons_self _ _)
    obtain ⟨hnew,hout,hlength⟩ := hthrifty i env _ x new out (h.locals i) hx hreact
    have hcount := htook.messages hne
    exact ⟨h.took htook hnew hout,by omega⟩

/-- Where no round puts more than it takes, a ring that starts with too few messages to fill all
channels and all hands never comes to a deadlock. -/
theorem Keeps.not_deadlocked (hring : IsRing N) (hcap : 0 < cap) (hne : ∀ i,N.source i ≠ i)
    (hthrifty : ∀ i,Thrifty P L i) {init : N.State cap → Prop}
    (h0 : ∀ s,init s → Keeps P L s ∧ messages s < Fintype.card ι*(cap+1))
    (hr : Transition.Reachable init Step s) : ¬Deadlocked s := by
  have hinv : Keeps P L s ∧ messages s < Fintype.card ι*(cap+1) := by
    apply hr.invariant h0
    intro s t ⟨hkeeps,hfew⟩ hs
    obtain ⟨hkeeps',hle⟩ := hkeeps.step hne hthrifty hs
    exact ⟨hkeeps',by omega⟩
  intro hdead
  have hfull := hdead.messages_le hring hcap
  omega

/-- Process i answers each message of the kind with one of the kind. -/
def Relays (P : ∀ i,N.Msg i → Prop) (L : ∀ i,N.Local i → Prop) (i : ι) : Prop :=
  ∀ env here x,L i here → P (N.source i) x →
    ∃ new y,N.react i env here x=some (new,[y]) ∧ L i new ∧ P i y

/-- The ring holds n messages, and only process `first` may have more than one in its hand. -/
structure Flooded (P : ∀ i,N.Msg i → Prop) (L : ∀ i,N.Local i → Prop) (first : ι) (n : Nat)
    (s : N.State cap) : Prop where
  keeps : Keeps P L s
  messages : Network.messages s=n
  short : ∀ i,i ≠ first → (s.pending i).length ≤ 1

/-- How far the messages still have to go, with two steps for each process on the way. -/
def distance (height : ι → Nat) (s : N.State cap) : Nat :=
  ∑ i,(height i*(2*load s i)+(s.pending i).length)

variable {first : ι} {n : Nat}

omit [DecidableEq ι] in
/-- With so many messages in the ring, `first` is still busy with its own and takes none. -/
theorem Flooded.busy (h : Flooded P L first n s) (hn : Fintype.card ι*(cap+1) ≤ n) :
    s.pending first ≠ [] := by
  intro hidle
  have hle : ∀i∈(Finset.univ : Finset ι),load s i ≤ cap+1 := by
    intro i _
    rw [load_eq]
    have hbound := (s.channel i).queue.bound
    by_cases hi : i=first
    · subst hi
      rw [hidle,List.length_nil]
      omega
    · have hshort := h.short i hi
      omega
  have hless : ∃i∈(Finset.univ : Finset ι),load s i < cap+1 := by
    refine ⟨first,Finset.mem_univ _,?_⟩
    rw [load_eq,hidle]
    exact Nat.lt_succ_of_le (s.channel first).queue.bound
  have hsum := Finset.sum_lt_sum hle hless
  have hcount := h.messages
  rw [Network.messages] at hcount
  rw [hcount,Finset.sum_const_nat fun _ _ => rfl,Finset.card_univ] at hsum
  omega

theorem distance_afterPut (height : ι → Nat) {i : ι} {y : N.Msg i} {rest : List (N.Msg i)}
    (hpending : s.pending i=y::rest) (hroom : (s.channel i).queue.items.length < cap) :
    distance height (s.afterPut i y rest hroom) < distance height s := by
  have hload : ∀ j,load (s.afterPut i y rest hroom) j=load s j := fun j =>
    congrArg Multiset.card (State.held_afterPut hpending hroom j)
  have hself : (s.afterPut i y rest hroom).pending i=rest := by simp [State.afterPut]
  apply Finset.sum_lt_sum
  · intro j _
    rw [hload]
    by_cases hj : j=i
    · subst hj
      rw [hself,hpending,List.length_cons]
      omega
    · simp [State.afterPut,Function.update_of_ne hj]
  · refine ⟨i,Finset.mem_univ _,?_⟩
    rw [hload,hself,hpending,List.length_cons]
    omega

theorem distance_afterTake (height : ι → Nat) {i : ι} (hne : N.source i ≠ i)
    (hheight : height (N.source i)=height i+1) {x : N.Msg (N.source i)}
    {rest : List (N.Msg (N.source i))} (hidle : s.pending i=[])
    (hitems : (s.channel (N.source i)).queue.items=x::rest) (new : N.Local i) (y : N.Msg i) :
    distance height (s.afterTake i x new [y]) < distance height s := by
  obtain ⟨t,ht⟩ : ∃ t,t=s.afterTake i x new [y] := ⟨_,rfl⟩
  rw [← ht]
  have hpending : ∀ j,j ≠ i → t.pending j=s.pending j := by
    intro j hj
    simp [ht,State.afterTake,Function.update_of_ne hj]
  have hself : t.pending i=[y] := by simp [ht,State.afterTake]
  have hloadSource : load s (N.source i)=load t (N.source i)+1 := by
    simp [load,ht,State.held_afterTake_source hne hitems new [y]]
  have hloadSelf : load t i=load s i+1 := by
    simp [load,ht,State.held_afterTake_self hne hidle]
  have hsum := sum_eq_off_pair (f := fun j => height j*(2*load t j)+(t.pending j).length)
    (g := fun j => height j*(2*load s j)+(s.pending j).length) hne.symm (by
      intro j hj hsource
      simp only [hpending j hj]
      rw [load,ht,State.held_afterTake_of_ne hj hsource]
      rfl)
  simp only [hself,hidle,hpending _ hne,hheight,hloadSource,hloadSelf,List.length_cons,
    List.length_nil] at hsum
  unfold distance
  have hi : height i*(2*(load s i+1))=height i*(2*load s i)+2*height i := by ring
  have hsource : (height i+1)*(2*(load t (N.source i)+1))=
      (height i+1)*(2*load t (N.source i))+2*height i+2 := by ring
  omega

theorem Flooded.step (hne : ∀ i,N.source i ≠ i) (hrelays : ∀ i,i ≠ first → Relays P L i)
    (hn : Fintype.card ι*(cap+1) ≤ n) (height : ι → Nat)
    (hheight : ∀ i,i ≠ first → height (N.source i)=height i+1) (h : Flooded P L first n s)
    (hs : Step s t) : Flooded P L first n t ∧ distance height t < distance height s := by
  cases hs with
  | put i y rest hpending hroom =>
    have hput := State.delivered_afterPut hpending hroom
    refine ⟨⟨h.keeps.delivered hput,hput.messages.trans h.messages,?_⟩,
      distance_afterPut height hpending hroom⟩
    intro j hj
    have hshort := h.short j hj
    by_cases hji : j=i
    · subst hji
      rw [hpending,List.length_cons] at hshort
      simp only [State.afterPut,Function.update_self]
      omega
    · simpa [State.afterPut,Function.update_of_ne hji] using hshort
  | take i env x rest new out hidle hitems hreact =>
    have hi : i ≠ first := by
      rintro rfl
      exact h.busy hn hidle
    obtain ⟨new',y,hrelay,hnew,hy⟩ :=
      hrelays i hi env _ x (h.keeps.locals i) (h.keeps.oldest hitems)
    obtain ⟨rfl,rfl⟩ := Prod.mk.inj (Option.some.inj (hreact.symm.trans hrelay))
    have htook := State.took_afterTake (hne i) hidle hitems new [y]
    refine ⟨⟨h.keeps.took htook hnew ?_,?_,?_⟩,
      distance_afterTake height (hne i) (hheight i hi) hidle hitems new y⟩
    · intro z hz
      rwa [List.mem_singleton.mp hz]
    · have hcount := htook.messages hne
      rw [h.messages,List.length_singleton] at hcount
      omega
    · intro j hj
      by_cases hji : j=i
      · subst hji
        simp [State.afterTake]
      · simpa [State.afterTake,Function.update_of_ne hji] using h.short j hj

omit [DecidableEq ι] in
/-- Where nothing can move any more, everything is blocked. -/
theorem Flooded.deadlocked [DecidableEq ι] (henv : ∀ i,Nonempty (N.Env i))
    (hrelays : ∀ i,i ≠ first → Relays P L i) (hn : Fintype.card ι*(cap+1) ≤ n)
    (h : Flooded P L first n s) (hfinal : ∀ t,¬Step s t) : Deadlocked s := by
  have hbusy := h.busy hn
  have hroom : ∀ i,s.pending i ≠ [] → WaitsForRoom s i := by
    intro i hpending
    obtain ⟨y,rest,hcons⟩ := List.exists_cons_of_ne_nil hpending
    refine ⟨hpending,?_⟩
    by_contra hspace
    have hbound := (s.channel i).queue.bound
    exact hfinal _ (.put s i y rest hcons (by omega))
  refine ⟨fun i => ?_,first,hroom first hbusy⟩
  by_cases hpending : s.pending i=[]
  · right
    refine ⟨hpending,?_⟩
    have hi : i ≠ first := by
      rintro rfl
      exact hbusy hpending
    cases hitems : (s.channel (N.source i)).queue.items with
    | nil => rfl
    | cons x rest =>
      obtain ⟨env⟩ := henv i
      obtain ⟨new,y,hrelay,-⟩ :=
        hrelays i hi env _ x (h.keeps.locals i) (h.keeps.oldest hitems)
      exact absurd (.take s i env x rest new [y] hpending hitems hrelay) (hfinal _)
  · exact Or.inl (hroom i hpending)

/-- A ring with that many messages comes to a deadlock, if every process but one passes each of
them on. -/
theorem Flooded.exists_deadlocked (hne : ∀ i,N.source i ≠ i) (henv : ∀ i,Nonempty (N.Env i))
    (hrelays : ∀ i,i ≠ first → Relays P L i) (hn : Fintype.card ι*(cap+1) ≤ n)
    (height : ι → Nat) (hheight : ∀ i,i ≠ first → height (N.source i)=height i+1)
    {init : N.State cap → Prop} (hr : Transition.Reachable init Step s)
    (h : Flooded P L first n s) : ∃ t,Transition.Reachable init Step t ∧ Deadlocked t := by
  obtain ⟨t,ht,hflooded,hfinal⟩ := hr.exists_final (distance height)
    (fun s t h hs => h.step hne hrelays hn height hheight hs) h
  exact ⟨t,ht,hflooded.deadlocked henv hrelays hn hfinal⟩

end Kinds

end Network
end Framework
