import Manchester.Matching.Reference
import Mathlib.Data.List.Perm.Basic

namespace Manchester

/-- The MATCHING_BOTH tokens of one tag and address, in order of arrival. -/
def arrivals (key : KeyType) (tokens : List TokenType) : List TokenType :=
  tokens.filter (fun t => Pairs t ∧ tokenToKey t=key)

/-- Tokens of one key are paired first with second, third with fourth, and so on. -/
def pairUp : List TokenType → List ReadyTokenPairType
  | a::b::rest => readyTokenPairFromTokens b a::pairUp rest
  | _ => []

def leftover : List TokenType → Option TokenType
  | [] => none
  | [a] => some a
  | _::_::rest => leftover rest

/-- A pair of two tokens under the given key. -/
def IsPairOf (key : KeyType) (p : ReadyTokenPairType) : Prop :=
  p.token2.isSome ∧ tokenToKey p.token1=key

instance (key : KeyType) (p : ReadyTokenPairType) : Decidable (IsPairOf key p) :=
  inferInstanceAs (Decidable (_ ∧ _))

theorem readyTokenPair_tokens (a b : TokenType) :
    readyTokenPairFromTokens a b=⟨a,some b⟩ ∨ readyTokenPairFromTokens a b=⟨b,some a⟩ := by
  rw [readyTokenPairFromTokens]
  split_ifs
  · exact .inl rfl
  · exact .inr rfl

theorem isPairOf_readyTokenPair (key : KeyType) (a b : TokenType) (h : tokenToKey a=tokenToKey b) :
    IsPairOf key (readyTokenPairFromTokens a b) ↔ tokenToKey a=key := by
  rcases readyTokenPair_tokens a b with he | he
  · simp [IsPairOf,he]
  · simp [IsPairOf,he,h]

/-- Every waiting token is a MATCHING_BOTH token that waits under its own key. -/
def WaitingMap.Own (w : WaitingMap) : Prop :=
  ∀ key token,w key=some token → Pairs token ∧ tokenToKey token=key

theorem WaitingMap.Own.store {w : WaitingMap} (hw : w.Own) (token : TokenType) (h : Pairs token) :
    WaitingMap.Own (Function.update w (tokenToKey token) (some token)) := by
  intro key t ht
  by_cases hk : key=tokenToKey token
  · subst hk
    rw [Function.update_self] at ht
    cases ht
    exact ⟨h,rfl⟩
  · rw [Function.update_of_ne hk] at ht
    exact hw key t ht

theorem WaitingMap.Own.clear {w : WaitingMap} (hw : w.Own) (key : KeyType) :
    WaitingMap.Own (Function.update w key none) := by
  intro j t ht
  by_cases hk : j=key
  · subst hk
    rw [Function.update_self] at ht
    cases ht
  · rw [Function.update_of_ne hk] at ht
    exact hw j t ht

theorem arrivals_cons_of_ne (key : KeyType) (token : TokenType) (tokens : List TokenType)
    (h : ¬(Pairs token ∧ tokenToKey token=key)) :
    arrivals key (token::tokens)=arrivals key tokens := by
  rw [arrivals,List.filter_cons,if_neg (by simpa using h)]
  rfl

theorem arrivals_cons_self (token : TokenType) (tokens : List TokenType) (h : Pairs token) :
    arrivals (tokenToKey token) (token::tokens)=token::arrivals (tokenToKey token) tokens := by
  rw [arrivals,List.filter_cons,if_pos (by simpa using h)]
  rfl

/-- Under each key the matcher pairs the token that waits with the arrivals, two by two. -/
theorem runReference_key (w : WaitingMap) (hw : w.Own) (tokens : List TokenType) (key : KeyType) :
    (runReference w tokens).2.filter (fun p => IsPairOf key p)=
      pairUp ((w key).toList++arrivals key tokens) ∧
    (runReference w tokens).1 key=leftover ((w key).toList++arrivals key tokens) := by
  induction tokens generalizing w with
  | nil =>
    cases hk : w key <;> simp [runReference,arrivals,pairUp,leftover,hk]
  | cons token tokens ih =>
    rw [runReference,matchReference]
    by_cases hpass : Passes token
    · have hne : ¬(Pairs token ∧ tokenToKey token=key) := fun h => h.1.not_passes hpass
      rw [if_pos hpass,arrivals_cons_of_ne key token tokens hne]
      simpa [IsPairOf] using ih w hw
    rw [if_neg hpass]
    by_cases hpair : Pairs token
    · rw [if_pos hpair]
      cases hwk : w (tokenToKey token) with
      | none =>
        have h := ih _ (hw.store token hpair)
        by_cases hk : tokenToKey token=key
        · subst hk
          rw [Function.update_self] at h
          rw [hwk,arrivals_cons_self token tokens hpair]
          simpa using h
        · rw [Function.update_of_ne (Ne.symm hk)] at h
          rw [arrivals_cons_of_ne key token tokens (fun hh => hk hh.2)]
          simpa using h
      | some found =>
        have hfound := hw _ _ hwk
        have h := ih _ (hw.clear (tokenToKey token))
        have hp := isPairOf_readyTokenPair key token found hfound.2.symm
        by_cases hk : tokenToKey token=key
        · have hpk := hp.mpr hk
          subst hk
          rw [Function.update_self] at h
          rw [hwk,arrivals_cons_self token tokens hpair]
          simp only [List.cons_append,List.nil_append,List.filter_cons,hpk,decide_true,if_true,
            Option.toList_some,pairUp,leftover]
          rw [h.1,h.2]
          exact ⟨rfl,rfl⟩
        · have hpk : ¬IsPairOf key (readyTokenPairFromTokens token found) := fun hh => hk (hp.mp hh)
          rw [Function.update_of_ne (Ne.symm hk)] at h
          rw [arrivals_cons_of_ne key token tokens (fun hh => hk hh.2)]
          simpa [List.filter_cons,hpk] using h
    · rw [if_neg hpair,arrivals_cons_of_ne key token tokens (fun hh => hpair hh.1)]
      simpa using ih w hw

/-- Tokens that need no partner are sent on as they come. -/
theorem runReference_passed (w : WaitingMap) (tokens : List TokenType) :
    (runReference w tokens).2.filter (fun p => p.token2.isNone)=
      (tokens.filter (fun t => Passes t)).map (fun t => ⟨t,none⟩) := by
  induction tokens generalizing w with
  | nil => rfl
  | cons token tokens ih =>
    rw [runReference,matchReference,List.filter_cons]
    by_cases hpass : Passes token
    · simp [hpass,ih]
    have hd : ¬decide (Passes token)=true := by simpa using hpass
    rw [if_neg hpass,if_neg hd]
    by_cases hpair : Pairs token
    · rw [if_pos hpair]
      cases hwk : w (tokenToKey token) with
      | none => simp [ih]
      | some found =>
        rcases readyTokenPair_tokens token found with he | he <;> simp [he,ih]
    · rw [if_neg hpair]
      simp [ih]

/-- What the assertions of the matching unit and of the instruction store ask of a pair. -/
def ValidPair (p : ReadyTokenPairType) : Prop :=
  ∃second,p.token2=some second ∧ p.token1.tag=second.tag ∧
    destinationToAddress p.token1.destination=destinationToAddress second.destination ∧
    destinationToInput p.token1.destination=inputOne ∧
    destinationToInput second.destination=inputTwo

/-- Of the tokens of one key, first and second differ in their port, third and fourth, … -/
def PortsDiffer : List TokenType → Prop
  | a::b::rest =>
    destinationToInput a.destination≠destinationToInput b.destination ∧ PortsDiffer rest
  | _ => True

theorem validPair_iff (a b : TokenType) (h : tokenToKey a=tokenToKey b) :
    ValidPair (readyTokenPairFromTokens b a) ↔
      destinationToInput a.destination≠destinationToInput b.destination := by
  have htag : a.tag=b.tag := congrArg KeyType.tag h
  have haddr : destinationToAddress a.destination=destinationToAddress b.destination :=
    congrArg KeyType.destination h
  have hne : inputOne≠inputTwo := by decide
  rw [readyTokenPairFromTokens]
  rcases destinationToInput_cases a.destination with ha | ha <;>
    rcases destinationToInput_cases b.destination with hb | hb <;>
    simp [ValidPair,ha,hb,htag,haddr,hne,hne.symm]

theorem pairUp_valid_iff (l : List TokenType) (key : KeyType) (h : ∀t∈l,tokenToKey t=key) :
    (∀p∈pairUp l,ValidPair p) ↔ PortsDiffer l := by
  induction l using pairUp.induct with
  | case1 a b rest ih =>
    have hab : tokenToKey a=tokenToKey b := (h a (by simp)).trans (h b (by simp)).symm
    rw [pairUp,PortsDiffer,List.forall_mem_cons,validPair_iff a b hab,
      ih (fun t ht => h t (by simp [ht]))]
  | case2 l hl =>
    cases l with
    | nil => simp [pairUp,PortsDiffer]
    | cons a l =>
      cases l with
      | nil => simp [pairUp,PortsDiffer]
      | cons b rest => exact absurd rfl (hl a b rest)

theorem mem_pairUp_pairs (l : List TokenType) (h : ∀t∈l,Pairs t) (p : ReadyTokenPairType)
    (hp : p∈pairUp l) : Pairs p.token1 := by
  induction l using pairUp.induct with
  | case1 a b rest ih =>
    rcases List.mem_cons.mp hp with rfl | hp
    · rcases readyTokenPair_tokens b a with he | he <;> rw [he] <;> exact h _ (by simp)
    · exact ih (fun t ht => h t (by simp [ht])) hp
  | case2 l hl =>
    rw [pairUp] at hp
    · simp at hp
    · exact hl

theorem arrivals_spec (key : KeyType) (tokens : List TokenType) :
    ∀t∈arrivals key tokens,Pairs t ∧ tokenToKey t=key := by
  intro t ht
  simpa using (List.mem_filter.mp ht).2

theorem own_none : WaitingMap.Own (fun _ => none) := fun _ _ h => by cases h

/-- The pairs sent for MATCHING_BOTH tokens are exactly those of the keys. -/
theorem mem_runReference_pairs (tokens : List TokenType) (p : ReadyTokenPairType) :
    p∈(runReference (fun _ => none) tokens).2 ∧ Pairs p.token1 ↔
      p∈pairUp (arrivals (tokenToKey p.token1) tokens) := by
  have hkey := (runReference_key _ own_none tokens (tokenToKey p.token1)).1
  have hpassed := runReference_passed (fun _ => none) tokens
  simp only [Option.toList_none,List.nil_append] at hkey
  constructor
  · intro ⟨hmem,hpair⟩
    rw [← hkey,List.mem_filter]
    refine ⟨hmem,?_⟩
    cases h2 : p.token2 with
    | none =>
      have hp : p∈(runReference (fun _ => none) tokens).2.filter (fun p => p.token2.isNone) :=
        List.mem_filter.mpr ⟨hmem,by rw [h2]; rfl⟩
      rw [hpassed] at hp
      obtain ⟨t,ht,rfl⟩ := List.mem_map.mp hp
      have hpass : Passes t := by simpa using (List.mem_filter.mp ht).2
      exact absurd hpass hpair.not_passes
    | some second => simp [IsPairOf,h2]
  · intro hp
    have hpair := mem_pairUp_pairs _ (fun t ht => (arrivals_spec _ _ t ht).1) p hp
    rw [← hkey,List.mem_filter] at hp
    exact ⟨hp.1,hpair⟩

theorem runReference_valid_iff (tokens : List TokenType) :
    (∀p∈(runReference (fun _ => none) tokens).2,Pairs p.token1 → ValidPair p) ↔
      ∀ key,PortsDiffer (arrivals key tokens) := by
  constructor
  · intro h key
    rw [← pairUp_valid_iff _ key (fun t ht => (arrivals_spec key tokens t ht).2)]
    intro p hp
    have hown : tokenToKey p.token1=key := by
      have hkey := (runReference_key _ own_none tokens key).1
      simp only [Option.toList_none,List.nil_append] at hkey
      rw [← hkey,List.mem_filter] at hp
      exact (of_decide_eq_true hp.2).2
    have hmem := (mem_runReference_pairs tokens p).mpr (hown ▸ hp)
    exact h p hmem.1 hmem.2
  · intro h p hp hpair
    have hmem := (mem_runReference_pairs tokens p).mp ⟨hp,hpair⟩
    exact (pairUp_valid_iff _ _ (fun t ht => (arrivals_spec _ tokens t ht).2)).mpr (h _) p hmem

/-- The pairs the unit sends for MATCHING_BOTH tokens are all valid exactly when, under every
tag and address, each token that completes a pair differs in its port from the one that waits. -/
theorem matching_pairs_valid_iff (size : Nat) (hs : 0 < size) (stale : Nat → List TableListType)
    (tokens : List TokenType) :
    (∀p∈(runMatchingUnit (newTokenWaitingTable size stale) tokens).2,
      Pairs p.token1 → ValidPair p) ↔
      ∀ key,PortsDiffer (arrivals key tokens) := by
  rw [runMatchingUnit_sends size hs stale tokens]
  exact runReference_valid_iff tokens

private def leftToken (data : DataType) : TokenType :=
  ⟨createDestination 3 inputOne matchingBoth,data,noTag⟩

private def rightToken (data : DataType) : TokenType :=
  ⟨createDestination 3 inputTwo matchingBoth,data,noTag⟩

/-- Both operands of instruction 3, right one first: the pair sent is valid. -/
theorem matching_pairs_valid_both_ports :
    0 < 2048 ∧
      ∀p∈(runMatchingUnit (newTokenWaitingTable 2048 fun _ => []) [rightToken 7,leftToken 5]).2,
        Pairs p.token1 → ValidPair p := by
  refine ⟨by decide,(matching_pairs_valid_iff 2048 (by decide) _ _).mpr ?_⟩
  intro key
  have hpl : Pairs (leftToken 5) := by decide
  have hpr : Pairs (rightToken 7) := by decide
  have hsame : tokenToKey (rightToken 7)=tokenToKey (leftToken 5) := by decide
  by_cases hk : tokenToKey (leftToken 5)=key
  · simp only [arrivals,List.filter_cons,List.filter_nil,hpl,hpr,hsame,hk,and_self,decide_true,
      if_true]
    exact ⟨by decide,trivial⟩
  · simp only [arrivals,List.filter_cons,List.filter_nil,hsame,hk,and_false,decide_false,
      Bool.false_eq_true,if_false]
    trivial

/-- Two tokens for the same port of the same instruction under the same tag are paired: the
assertion that their ports differ fails, and in a release build the pair goes on. -/
theorem matching_pairs_same_port :
    ¬∀p∈(runMatchingUnit (newTokenWaitingTable 2048 fun _ => []) [leftToken 5,leftToken 7]).2,
      Pairs p.token1 → ValidPair p := by
  rw [runMatchingUnit_sends 2048 (by decide),runReference_valid_iff]
  intro h
  exact (h (tokenToKey (leftToken 5))).1 rfl

end Manchester
