import Manchester.Matching.Pairing
import Mathlib.Data.List.Count

namespace Manchester

/-- No two MATCHING_BOTH tokens share tag, address and input port. -/
def DistinctArrivals (tokens : List TokenType) : Prop :=
  ((tokens.filter (fun t => Pairs t)).map
    (fun t => (tokenToKey t,destinationToInput t.destination))).Nodup

theorem DistinctArrivals.ports {tokens : List TokenType} (h : DistinctArrivals tokens)
    (key : KeyType) :
    ((arrivals key tokens).map (fun t => destinationToInput t.destination)).Nodup := by
  have hsub : (arrivals key tokens).Sublist (tokens.filter (fun t => Pairs t)) := by
    have he : arrivals key tokens=
        (tokens.filter (fun t => Pairs t)).filter (fun t => tokenToKey t=key) := by
      rw [arrivals,List.filter_filter]
      congr 1
      funext t
      rw [Bool.eq_iff_iff]
      simp [and_comm]
    rw [he]
    exact List.filter_sublist
  have hpairs := h.sublist (hsub.map _)
  rw [List.nodup_iff_pairwise_ne,List.pairwise_map] at hpairs ⊢
  apply hpairs.imp_of_mem
  intro a b ha hb hne heq
  have hka := (arrivals_spec key tokens a ha).2
  have hkb := (arrivals_spec key tokens b hb).2
  exact hne (Prod.ext (hka.trans hkb.symm) heq)

/-- A port is one bit, so at most two tokens of one key can have different ports. -/
theorem ports_cases (l : List TokenType)
    (h : (l.map (fun t => destinationToInput t.destination)).Nodup) :
    l=[] ∨ (∃a,l=[a]) ∨ ∃ a b,l=[a,b] ∧
      destinationToInput a.destination≠destinationToInput b.destination := by
  match l,h with
  | [],_ => exact .inl rfl
  | [a],_ => exact .inr (.inl ⟨a,rfl⟩)
  | [a,b],h => exact .inr (.inr ⟨a,b,rfl,by simpa using h⟩)
  | a::b::c::rest,h =>
    exfalso
    simp only [List.map_cons,List.nodup_cons,List.mem_cons,not_or] at h
    rcases destinationToInput_cases a.destination with ha | ha <;>
      rcases destinationToInput_cases b.destination with hb | hb <;>
      rcases destinationToInput_cases c.destination with hc | hc <;>
      simp [ha,hb,hc] at h

theorem readyTokenPair_comm (a b : TokenType)
    (h : destinationToInput a.destination≠destinationToInput b.destination) :
    readyTokenPairFromTokens a b=readyTokenPairFromTokens b a := by
  have hne : inputTwo≠inputOne := by decide
  rw [readyTokenPairFromTokens,readyTokenPairFromTokens]
  rcases destinationToInput_cases a.destination with ha | ha <;>
    rcases destinationToInput_cases b.destination with hb | hb
  · exact absurd (ha.trans hb.symm) h
  · rw [if_pos ha,if_neg (by rw [hb]; exact hne)]
  · rw [if_neg (by rw [ha]; exact hne),if_pos hb]
  · exact absurd (ha.trans hb.symm) h

/-- Under one key the order of arrival does not matter. -/
theorem pairUp_perm (l m : List TokenType) (hp : l.Perm m)
    (h : (l.map (fun t => destinationToInput t.destination)).Nodup) :
    pairUp l=pairUp m ∧ leftover l=leftover m := by
  rcases ports_cases l h with rfl | ⟨a,rfl⟩ | ⟨a,b,rfl,hab⟩
  · rw [List.nil_perm.mp hp]
    exact ⟨rfl,rfl⟩
  · rw [List.singleton_perm.mp hp]
    exact ⟨rfl,rfl⟩
  · have hm : m=[a,b] ∨ m=[b,a] := by
      match m,hp.length_eq with
      | [c,d],_ =>
        have hc : c=a ∨ c=b := by simpa using hp.mem_iff.mpr (List.mem_cons_self (a := c))
        rcases hc with rfl | rfl
        · have hd := List.singleton_perm.mp (List.Perm.cons_inv hp)
          exact .inl (by rw [hd])
        · have hs := List.singleton_perm.mp
            (List.Perm.cons_inv ((List.Perm.swap a c []).trans hp))
          exact .inr (by rw [hs])
    rcases hm with rfl | rfl
    · exact ⟨rfl,rfl⟩
    · simp only [pairUp,leftover,readyTokenPair_comm b a (Ne.symm hab)]
      exact ⟨trivial,trivial⟩

theorem arrivals_perm {tokens us : List TokenType} (key : KeyType) (hp : tokens.Perm us) :
    (arrivals key tokens).Perm (arrivals key us) := hp.filter _

theorem pairs_of_key (tokens : List TokenType) (key : KeyType) :
    (runReference (fun _ => none) tokens).2.filter (fun p => IsPairOf key p)=
      pairUp (arrivals key tokens) ∧
    (runReference (fun _ => none) tokens).1 key=leftover (arrivals key tokens) := by
  simpa using runReference_key _ own_none tokens key

section Permutation

variable {tokens us : List TokenType}

theorem count_of_none (tokens : List TokenType) (p : ReadyTokenPairType) (h : p.token2=none) :
    (runReference (fun _ => none) tokens).2.count p=
      ((tokens.filter (fun t => Passes t)).map (fun t => ⟨t,none⟩)).count p := by
  rw [← runReference_passed (fun _ => none) tokens,List.count_filter]
  rw [h]
  rfl

theorem count_of_some (tokens : List TokenType) (p : ReadyTokenPairType)
    (h : p.token2.isSome) :
    (runReference (fun _ => none) tokens).2.count p=
      (pairUp (arrivals (tokenToKey p.token1) tokens)).count p := by
  rw [← (pairs_of_key tokens (tokenToKey p.token1)).1,List.count_filter]
  exact decide_eq_true ⟨h,rfl⟩

theorem runReference_perm (hd : DistinctArrivals tokens) (hp : tokens.Perm us) :
    (runReference (fun _ => none) tokens).2.Perm (runReference (fun _ => none) us).2 := by
  rw [List.perm_iff_count]
  intro p
  cases h2 : p.token2 with
  | none =>
    rw [count_of_none tokens p h2,count_of_none us p h2]
    exact ((hp.filter _).map _).count_eq p
  | some second =>
    have hsome : p.token2.isSome := by rw [h2]; rfl
    rw [count_of_some tokens p hsome,count_of_some us p hsome,
      (pairUp_perm _ _ (arrivals_perm _ hp) (hd.ports _)).1]

theorem runReference_waiting_perm (hd : DistinctArrivals tokens) (hp : tokens.Perm us) :
    (runReference (fun _ => none) tokens).1=(runReference (fun _ => none) us).1 := by
  funext key
  rw [(pairs_of_key tokens key).2,(pairs_of_key us key).2]
  exact (pairUp_perm _ _ (arrivals_perm key hp) (hd.ports key)).2

/-- Two tables that stand for one map hold the same entries. -/
theorem Faithful.entries_perm {t u : TokenWaitingTableType} {w : WaitingMap} (ht : Faithful t w)
    (hu : Faithful u w) : t.entries.Perm u.entries := by
  rw [List.perm_ext_iff_of_nodup ht.unique.of_map hu.unique.of_map]
  intro e
  exact (ht.agrees e.1 e.2).symm.trans (hu.agrees e.1 e.2)

theorem pairs_of_both (hd : DistinctArrivals tokens) (a b : TokenType) (ha : a∈tokens)
    (hb : b∈tokens) (hpa : Pairs a) (hpb : Pairs b) (hk : tokenToKey a=tokenToKey b)
    (hia : destinationToInput a.destination=inputOne)
    (hib : destinationToInput b.destination=inputTwo) :
    (runReference (fun _ => none) tokens).2.filter (fun p => IsPairOf (tokenToKey a) p)=
      [⟨a,some b⟩] := by
  have hma : a∈arrivals (tokenToKey a) tokens := List.mem_filter.mpr ⟨ha,by simp [hpa]⟩
  have hmb : b∈arrivals (tokenToKey a) tokens := List.mem_filter.mpr ⟨hb,by simp [hpb,hk]⟩
  have hne : a≠b := by
    rintro rfl
    exact absurd (hia.symm.trans hib) (by decide)
  have hport : destinationToInput b.destination≠inputOne := by rw [hib]; decide
  rw [(pairs_of_key tokens _).1]
  rcases ports_cases _ (hd.ports (tokenToKey a)) with h | ⟨c,h⟩ | ⟨c,d,h,_⟩
  · rw [h] at hma
    simp at hma
  · rw [h] at hma hmb
    exact absurd ((List.mem_singleton.mp hma).trans (List.mem_singleton.mp hmb).symm) hne
  · rw [h] at hma hmb ⊢
    simp only [List.mem_cons,List.not_mem_nil,or_false] at hma hmb
    rcases hma with rfl | rfl <;> rcases hmb with rfl | rfl
    · exact absurd rfl hne
    · simp [pairUp,readyTokenPairFromTokens,hport]
    · simp [pairUp,readyTokenPairFromTokens,hia]
    · exact absurd rfl hne

theorem pairs_of_missing (hd : DistinctArrivals tokens) (key : KeyType)
    (h : ¬∃ a b,a∈tokens ∧ b∈tokens ∧ Pairs a ∧ Pairs b ∧ tokenToKey a=key ∧ tokenToKey b=key ∧
      destinationToInput a.destination=inputOne ∧ destinationToInput b.destination=inputTwo) :
    (runReference (fun _ => none) tokens).2.filter (fun p => IsPairOf key p)=[] := by
  rw [(pairs_of_key tokens key).1]
  rcases ports_cases _ (hd.ports key) with he | ⟨c,he⟩ | ⟨c,d,he,hne⟩
  · rw [he]; rfl
  · rw [he]; rfl
  · exfalso
    have hc : c∈arrivals key tokens := by rw [he]; simp
    have hd' : d∈arrivals key tokens := by rw [he]; simp
    have hsc := arrivals_spec key tokens c hc
    have hsd := arrivals_spec key tokens d hd'
    have hmc := (List.mem_filter.mp hc).1
    have hmd := (List.mem_filter.mp hd').1
    rcases destinationToInput_cases c.destination with h1 | h1 <;>
      rcases destinationToInput_cases d.destination with h2 | h2
    · exact hne (h1.trans h2.symm)
    · exact h ⟨c,d,hmc,hmd,hsc.1,hsd.1,hsc.2,hsd.2,h1,h2⟩
    · exact h ⟨d,c,hmd,hmc,hsd.1,hsc.1,hsd.2,hsc.2,h2,h1⟩
    · exact hne (h1.trans h2.symm)

theorem count_passed (t : TokenType) (h : Passes t) :
    (runReference (fun _ => none) tokens).2.count ⟨t,none⟩=tokens.count t := by
  have hinj : Function.Injective (fun t : TokenType => (⟨t,none⟩ : ReadyTokenPairType)) := by
    intro a b hab
    exact congrArg ReadyTokenPairType.token1 hab
  rw [count_of_none tokens _ rfl,List.count_map_of_injective _ _ hinj,
    List.count_filter (by simpa using h)]

end Permutation

/-- Arrival order is immaterial: any permutation of the tokens gives the same pairs, each as
often, and leaves the same tokens waiting. A key that received both ports gives exactly one pair,
any other key none, and a token without partner goes on as often as it came. -/
theorem matching_order_independent (size : Nat) (hs : 0 < size) (stale : Nat → List TableListType)
    (tokens us : List TokenType) (hd : DistinctArrivals tokens) (hp : tokens.Perm us) :
    let run := runMatchingUnit (newTokenWaitingTable size stale)
    (run tokens).2.Perm (run us).2 ∧
    (run tokens).1.entries.Perm (run us).1.entries ∧
    (∀ a b,a∈tokens → b∈tokens → Pairs a → Pairs b → tokenToKey a=tokenToKey b →
      destinationToInput a.destination=inputOne → destinationToInput b.destination=inputTwo →
      (run tokens).2.filter (fun p => IsPairOf (tokenToKey a) p)=[⟨a,some b⟩]) ∧
    (∀ key,(¬∃ a b,a∈tokens ∧ b∈tokens ∧ Pairs a ∧ Pairs b ∧ tokenToKey a=key ∧
        tokenToKey b=key ∧ destinationToInput a.destination=inputOne ∧
        destinationToInput b.destination=inputTwo) →
      (run tokens).2.filter (fun p => IsPairOf key p)=[]) ∧
    (∀ t,Passes t → (run tokens).2.count ⟨t,none⟩=tokens.count t) := by
  intro run
  have hsend (l : List TokenType) : (run l).2=(runReference (fun _ => none) l).2 :=
    runMatchingUnit_sends size hs stale l
  have hfaithful (l : List TokenType) := runMatchingUnit_faithful size hs stale l
  refine ⟨?_,?_,?_,?_,?_⟩
  · rw [hsend,hsend]
    exact runReference_perm hd hp
  · have hu := hfaithful us
    rw [← runReference_waiting_perm hd hp] at hu
    exact (hfaithful tokens).entries_perm hu
  · rw [hsend]
    exact fun a b => pairs_of_both hd a b
  · rw [hsend]
    exact fun key => pairs_of_missing hd key
  · rw [hsend]
    exact fun t => count_passed t

private def waitingFor (address input : BitVec 32) (data : DataType) : TokenType :=
  ⟨createDestination address input matchingBoth,data,noTag⟩

/-- Two instructions in one bucket; the second order unlinks the older entry first. -/
theorem matching_order_independent_collision :
    let run := runMatchingUnit (newTokenWaitingTable 1 fun _ => [])
    (run [waitingFor 1 0 10,waitingFor 2 0 20,waitingFor 2 1 21]).2.Perm
      (run [waitingFor 2 1 21,waitingFor 1 0 10,waitingFor 2 0 20]).2 ∧
    (run [waitingFor 1 0 10,waitingFor 2 0 20,waitingFor 2 1 21]).1.entries.Perm
      (run [waitingFor 2 1 21,waitingFor 1 0 10,waitingFor 2 0 20]).1.entries := by
  have h := matching_order_independent 1 (by decide) (fun _ => [])
    [waitingFor 1 0 10,waitingFor 2 0 20,waitingFor 2 1 21]
    [waitingFor 2 1 21,waitingFor 1 0 10,waitingFor 2 0 20]
    (by unfold DistinctArrivals; decide) (by decide)
  exact ⟨h.1,h.2.1⟩

end Manchester
