import Manchester.Matching.Pairing
import Mathlib.Data.Multiset.AddSub

namespace Manchester

def TokenWaitingTableType.waiting (t : TokenWaitingTableType) : Multiset TokenType :=
  ↑(t.entries.map Prod.snd)

/-- The table stands for a map of MATCHING_BOTH tokens under their own keys. -/
def TokenWaitingTableType.Valid (t : TokenWaitingTableType) : Prop :=
  ∃ (size : Nat) (b : Framework.Buckets KeyType TokenType (keyToIndex size)),
    Represents t b ∧ WaitingMap.Own b.find

/-- The ways in which a token is matched: the tables before and after, and the pairs sent on. -/
inductive Matched (t t' : TokenWaitingTableType) (token : TokenType) :
    List ReadyTokenPairType → Prop where
  | passed (h : Passes token) (hw : t'.waiting=t.waiting) : Matched t t' token [⟨token,none⟩]
  | stored (h : Pairs token) (hw : t'.waiting=token::ₘt.waiting) : Matched t t' token []
  | paired (found : TokenType) (h : Pairs token) (hfound : Pairs found)
      (hkey : tokenToKey found=tokenToKey token) (hw : t.waiting=found::ₘt'.waiting) :
      Matched t t' token [readyTokenPairFromTokens token found]
  | dropped (h : ¬Passes token) (hpair : ¬Pairs token) (hw : t'.waiting=t.waiting) :
      Matched t t' token []

theorem Represents.entries {size : Nat} {t : TokenWaitingTableType}
    {b : Framework.Buckets KeyType TokenType (keyToIndex size)} (h : Represents t b) :
    t.entries=b.entries := by
  rw [TokenWaitingTableType.entries,Framework.Buckets.entries,h.chains,List.flatMap_def]

theorem newTokenWaitingTable_valid (size : Nat) (hs : 0 < size)
    (stale : Nat → List TableListType) :
    (newTokenWaitingTable size stale).Valid ∧ (newTokenWaitingTable size stale).waiting=0 := by
  have hrep := newTokenWaitingTable_represents size hs stale
  constructor
  · refine ⟨size,_,hrep,?_⟩
    rw [emptyBuckets_find]
    exact own_none
  · rw [TokenWaitingTableType.waiting,hrep.entries,Framework.Buckets.entries,emptyBuckets]
    simp

theorem matchToken_matched {t : TokenWaitingTableType} (h : t.Valid) (token : TokenType) :
    (matchToken t token).1.Valid ∧
      Matched t (matchToken t token).1 token (matchToken t token).2 := by
  obtain ⟨size,b,hb,hown⟩ := h
  obtain ⟨c,hc,hstep⟩ := hb.matchToken token
  have hsame : c.find=b.find → (matchToken t token).1.waiting=t.waiting := by
    intro hfind
    rw [TokenWaitingTableType.waiting,TokenWaitingTableType.waiting,hc.entries,hb.entries,
      Multiset.coe_eq_coe]
    exact (b.entries_perm c hfind).map _
  have hmore : ∀ {t1 t2 : TokenWaitingTableType}
      {b1 b2 : Framework.Buckets KeyType TokenType (keyToIndex size)},Represents t1 b1 →
      Represents t2 b2 → ∀ key v,b1.find key=none →
        b2.find=Function.update b1.find key (some v) → t2.waiting=v::ₘt1.waiting := by
    intro t1 t2 b1 b2 h1 h2 key v hnone hfind
    rw [TokenWaitingTableType.waiting,TokenWaitingTableType.waiting,h1.entries,h2.entries,
      Multiset.cons_coe,Multiset.coe_eq_coe]
    exact (b1.entries_perm_cons b2 key v hnone hfind).map _
  rw [matchReference] at hstep
  by_cases hpass : Passes token
  · rw [if_pos hpass,Prod.mk.injEq] at hstep
    rw [hstep.2]
    exact ⟨⟨size,c,hc,hstep.1 ▸ hown⟩,.passed hpass (hsame hstep.1)⟩
  rw [if_neg hpass] at hstep
  by_cases hpair : Pairs token
  · rw [if_pos hpair] at hstep
    cases hwaits : b.find (tokenToKey token) with
    | none =>
      simp only [hwaits,Prod.mk.injEq] at hstep
      rw [hstep.2]
      refine ⟨⟨size,c,hc,?_⟩,.stored hpair (hmore hb hc _ token hwaits hstep.1)⟩
      rw [hstep.1]
      exact hown.store token hpair
    | some found =>
      simp only [hwaits,Prod.mk.injEq] at hstep
      obtain ⟨hfoundPairs,hkey⟩ := hown _ _ hwaits
      rw [hstep.2]
      have hback : b.find=Function.update c.find (tokenToKey token) (some found) := by
        rw [hstep.1,Function.update_idem,← hwaits,Function.update_eq_self]
      refine ⟨⟨size,c,hc,?_⟩,.paired found hpair hfoundPairs hkey
        (hmore hc hb _ found (by rw [hstep.1,Function.update_self]) hback)⟩
      rw [hstep.1]
      exact hown.clear _
  · rw [if_neg hpair,Prod.mk.injEq] at hstep
    rw [hstep.2]
    exact ⟨⟨size,c,hc,hstep.1 ▸ hown⟩,.dropped hpass hpair (hsame hstep.1)⟩

end Manchester
