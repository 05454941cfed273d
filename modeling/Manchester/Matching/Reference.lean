import Manchester.Framework.Buckets
import Manchester.Matching.MatchingUnit

namespace Manchester

def Passes (token : TokenType) : Prop :=
  destinationToMatchingFunction token.destination=matchingOne ∨
    destinationToMatchingFunction token.destination=matchingAny

def Pairs (token : TokenType) : Prop :=
  destinationToMatchingFunction token.destination=matchingBoth

instance (token : TokenType) : Decidable (Passes token) :=
  inferInstanceAs (Decidable (_ ∨ _))
instance (token : TokenType) : Decidable (Pairs token) :=
  inferInstanceAs (Decidable (_=_))

theorem Pairs.not_passes {token : TokenType} (h : Pairs token) : ¬Passes token := by
  intro hp
  rcases hp with hp | hp <;> exact absurd (h.symm.trans hp) (by decide)

abbrev WaitingMap := KeyType → Option TokenType

def matchReference (w : WaitingMap) (token : TokenType) : WaitingMap × List ReadyTokenPairType :=
  if Passes token then (w,[⟨token,none⟩])
  else if Pairs token then
    match w (tokenToKey token) with
    | none => (Function.update w (tokenToKey token) (some token),[])
    | some found =>
      (Function.update w (tokenToKey token) none,[readyTokenPairFromTokens token found])
  else (w,[])

def runReference (w : WaitingMap) : List TokenType → WaitingMap × List ReadyTokenPairType
  | [] => (w,[])
  | token::tokens =>
    let (w1,sent) := matchReference w token
    let (w2,later) := runReference w1 tokens
    (w2,sent++later)

theorem keyEqual_iff (k j : KeyType) : keyEqual k j=(k==j) := by
  cases k
  cases j
  rw [Bool.eq_iff_iff]
  simp [keyEqual]

theorem findInChain_eq_lookup (key : KeyType) (c : List TableListType) :
    findInChain key c=c.lookup key := by
  induction c with
  | nil => rfl
  | cons cur next ih =>
    rw [findInChain,List.lookup_cons,keyEqual_iff,ih]
    cases key==cur.1 <;> rfl

theorem unlinkFromChain_eq_eraseP (key : KeyType) (c : List TableListType) :
    unlinkFromChain key c=c.eraseP (fun e => e.1==key) := by
  induction c with
  | nil => rfl
  | cons cur next ih =>
    rw [unlinkFromChain,List.eraseP_cons,keyEqual_iff,ih]
    cases cur.1==key <;> rfl

/-- The entries of a bucket; the marker decides, not the pointer. -/
def TableElements.chained (e : TableElements) : List TableListType :=
  match e.elementType with
  | .EMPTY => []
  | .LIST => e.element

/-- The table holds the chains of `b`, and a bucket marked LIST is not empty. -/
structure Represents {size : Nat} (t : TokenWaitingTableType)
    (b : Framework.Buckets KeyType TokenType (keyToIndex size)) : Prop where
  size : t.tableSize=size
  chains : b.chains=t.table.map TableElements.chained
  marked : ∀e∈t.table,e.elementType=.LIST → e.element≠[]

namespace Represents

variable {size : Nat} {t : TokenWaitingTableType}
  {b : Framework.Buckets KeyType TokenType (keyToIndex size)}

theorem bucket_get (h : Represents t b) (key : KeyType) :
    t.table[keyToIndex size key]?=some (t.bucket key) := by
  have hlt : keyToIndex size key < t.table.length := by
    have hroom := b.room key
    rwa [h.chains,List.length_map] at hroom
  rw [TokenWaitingTableType.bucket,h.size,List.getD_eq_getElem _ _ hlt,
    List.getElem?_eq_getElem hlt]

theorem chain_eq (h : Represents t b) (key : KeyType) : b.chain key=(t.bucket key).chained := by
  have hb := b.getElem?_chain key
  rw [h.chains,List.getElem?_map,h.bucket_get key] at hb
  exact (Option.some.inj hb).symm

theorem setBucket (h : Represents t b) (key : KeyType) (e : TableElements)
    (c : Framework.Buckets KeyType TokenType (keyToIndex size))
    (hc : c.chains=b.chains.set (keyToIndex size key) e.chained)
    (hm : e.elementType=.LIST → e.element≠[]) : Represents (t.setBucket key e) c where
  size := h.size
  chains := by rw [hc,TokenWaitingTableType.setBucket,List.map_set,h.chains,h.size]
  marked := by
    intro f hf
    rcases List.mem_or_eq_of_mem_set hf with hf | rfl
    · exact h.marked f hf
    · exact hm

theorem add (h : Represents t b) (key : KeyType) (token : TokenType) (hf : b.find key=none) :
    Represents (t.addToWaitingTable key token) (b.insert key token hf) := by
  refine h.setBucket key ⟨.LIST,(key,token)::(t.bucket key).chained⟩ _ ?_ (fun _ => by simp)
  rw [← h.chain_eq key]
  rfl

theorem remove (h : Represents t b) (key : KeyType) (hl : (t.bucket key).elementType=.LIST) :
    Represents (t.removeFromWaitingTable key) (b.erase key) := by
  have hchain : b.chain key=(t.bucket key).element := by
    rw [h.chain_eq,TableElements.chained,hl]
  have hne := h.marked _ (List.mem_of_getElem? (h.bucket_get key)) hl
  have herase : (b.erase key).chains=
      b.chains.set (keyToIndex size key) ((b.chain key).eraseP (fun e => e.1==key)) := rfl
  rw [hchain] at herase
  rw [TokenWaitingTableType.removeFromWaitingTable]
  cases helem : (t.bucket key).element with
  | nil => exact absurd helem hne
  | cons first next =>
    rw [helem,List.eraseP_cons] at herase
    cases hk : first.1==key with
    | true =>
      rw [hk] at herase
      cases next with
      | nil =>
        simp only [keyEqual_iff,hk,if_true]
        exact h.setBucket key _ _ herase (by simp)
      | cons second more =>
        simp only [keyEqual_iff,hk,if_true]
        refine h.setBucket key _ _ ?_ (by simp)
        rw [herase,TableElements.chained,hl]
        rfl
    | false =>
      rw [hk] at herase
      simp only [keyEqual_iff,hk,Bool.false_eq_true,if_false]
      refine h.setBucket key _ _ ?_ (by simp)
      rw [herase,TableElements.chained,hl,unlinkFromChain_eq_eraseP]
      rfl

/-- One token: the table goes on standing for the map, and the same pairs are sent. -/
theorem matchToken (h : Represents t b) (token : TokenType) :
    ∃c : Framework.Buckets KeyType TokenType (keyToIndex size),
      Represents (matchToken t token).1 c ∧
      (c.find,(Manchester.matchToken t token).2)=matchReference b.find token := by
  rw [Manchester.matchToken,matchReference]
  dsimp only
  by_cases hpass : Passes token
  · have hp := hpass
    rw [Passes] at hp
    rw [if_pos hp,if_pos hpass]
    exact ⟨b,h,rfl⟩
  have hp := hpass
  rw [Passes] at hp
  rw [if_neg hp,if_neg hpass]
  by_cases hpair : Pairs token
  · have hb := hpair
    rw [Pairs] at hb
    rw [if_pos hb,if_pos hpair]
    have hfind : b.find (tokenToKey token)=
        (t.bucket (tokenToKey token)).chained.lookup (tokenToKey token) := by
      rw [Framework.Buckets.find,h.chain_eq]
    cases hl : (t.bucket (tokenToKey token)).elementType with
    | EMPTY =>
      have hnone : b.find (tokenToKey token)=none := by
        rw [hfind,TableElements.chained,hl]
        rfl
      refine ⟨_,h.add _ token hnone,?_⟩
      rw [hnone,Framework.Buckets.find_insert]
    | LIST =>
      rw [TableElements.chained,hl] at hfind
      change b.find _=(t.bucket (tokenToKey token)).element.lookup _ at hfind
      dsimp only
      rw [findInChain_eq_lookup,← hfind]
      cases hf : b.find (tokenToKey token) with
      | none =>
        refine ⟨_,h.add _ token hf,?_⟩
        rw [Framework.Buckets.find_insert]
      | some found =>
        refine ⟨_,h.remove _ hl,?_⟩
        rw [Framework.Buckets.find_erase]
  · have hb := hpair
    rw [Pairs] at hb
    rw [if_neg hb,if_neg hpair]
    exact ⟨b,h,rfl⟩

theorem runMatchingUnit (h : Represents t b) (tokens : List TokenType) :
    ∃c : Framework.Buckets KeyType TokenType (keyToIndex size),
      Represents (runMatchingUnit t tokens).1 c ∧
      (c.find,(Manchester.runMatchingUnit t tokens).2)=runReference b.find tokens := by
  induction tokens generalizing t b with
  | nil => exact ⟨b,h,rfl⟩
  | cons token tokens ih =>
    obtain ⟨c,hc,hstep⟩ := h.matchToken token
    obtain ⟨d,hd,hrun⟩ := ih hc
    refine ⟨d,hd,?_⟩
    rw [runReference,← hstep]
    change _=((runReference c.find tokens).1,_++(runReference c.find tokens).2)
    rw [← hrun]
    rfl

end Represents

theorem keyToIndex_lt (size : Nat) (hs : 0 < size) (key : KeyType) : keyToIndex size key < size :=
  Nat.mod_lt _ hs

def emptyBuckets (size : Nat) (hs : 0 < size) :
    Framework.Buckets KeyType TokenType (keyToIndex size) where
  chains := List.replicate size []
  home := by
    intro i c hc e he
    rw [(List.mem_replicate.mp (List.mem_of_getElem? hc)).2] at he
    simp at he
  nodup := by
    intro c hc
    rw [(List.mem_replicate.mp hc).2]
    simp
  room := fun key => by rw [List.length_replicate]; exact keyToIndex_lt size hs key

theorem newTokenWaitingTable_represents (size : Nat) (hs : 0 < size)
    (stale : Nat → List TableListType) :
    Represents (newTokenWaitingTable size stale) (emptyBuckets size hs) where
  size := rfl
  chains := by
    rw [newTokenWaitingTable,List.map_map,emptyBuckets]
    exact (List.eq_replicate_iff.mpr ⟨by simp,by simp [TableElements.chained]⟩).symm
  marked := by
    intro e he
    obtain ⟨i,_,rfl⟩ := List.mem_map.mp he
    simp

theorem emptyBuckets_find (size : Nat) (hs : 0 < size) :
    (emptyBuckets size hs).find=fun _ => none := by
  funext key
  have hc : (emptyBuckets size hs).chain key=[] := by
    have h := (emptyBuckets size hs).getElem?_chain key
    exact (List.mem_replicate.mp (List.mem_of_getElem? h)).2
  rw [Framework.Buckets.find,hc]
  rfl

/-- Every entry of the table, bucket by bucket. -/
def TokenWaitingTableType.entries (t : TokenWaitingTableType) : List TableListType :=
  t.table.flatMap TableElements.chained

/-- The table as a faithful picture of a finite map. -/
structure Faithful (t : TokenWaitingTableType) (w : WaitingMap) : Prop where
  home : ∀ i e,t.table[i]?=some e → ∀x∈e.chained,keyToIndex t.tableSize x.1=i
  unique : (t.entries.map Prod.fst).Nodup
  empty : ∀e∈t.table,e.elementType=.EMPTY ↔ e.chained=[]
  agrees : ∀ key token,w key=some token ↔ (key,token)∈t.entries

theorem Represents.faithful {size : Nat} {t : TokenWaitingTableType}
    {b : Framework.Buckets KeyType TokenType (keyToIndex size)} (h : Represents t b) :
    Faithful t b.find := by
  have hentries : t.entries=b.entries := by
    rw [Framework.Buckets.entries,h.chains]
    rfl
  constructor
  · intro i e he x hx
    rw [h.size]
    refine b.home i e.chained ?_ x hx
    rw [h.chains,List.getElem?_map,he]
    rfl
  · rw [hentries]
    exact b.nodup_entries
  · intro e he
    rw [TableElements.chained]
    cases hl : e.elementType with
    | EMPTY => simp
    | LIST => simpa using h.marked e he hl
  · intro key token
    rw [hentries,b.mem_entries_iff]

theorem runMatchingUnit_represents (size : Nat) (hs : 0 < size) (stale : Nat → List TableListType)
    (tokens : List TokenType) :
    ∃b : Framework.Buckets KeyType TokenType (keyToIndex size),
      Represents (runMatchingUnit (newTokenWaitingTable size stale) tokens).1 b ∧
      (b.find,(runMatchingUnit (newTokenWaitingTable size stale) tokens).2)=
        runReference (fun _ => none) tokens := by
  obtain ⟨b,hb,hrun⟩ :=
    (newTokenWaitingTable_represents size hs stale).runMatchingUnit tokens
  rw [emptyBuckets_find] at hrun
  exact ⟨b,hb,hrun⟩

theorem runMatchingUnit_faithful (size : Nat) (hs : 0 < size) (stale : Nat → List TableListType)
    (tokens : List TokenType) :
    Faithful (runMatchingUnit (newTokenWaitingTable size stale) tokens).1
      (runReference (fun _ => none) tokens).1 := by
  obtain ⟨b,hb,hrun⟩ := runMatchingUnit_represents size hs stale tokens
  rw [← hrun]
  exact hb.faithful

theorem runMatchingUnit_sends (size : Nat) (hs : 0 < size) (stale : Nat → List TableListType)
    (tokens : List TokenType) :
    (runMatchingUnit (newTokenWaitingTable size stale) tokens).2=
      (runReference (fun _ => none) tokens).2 := by
  obtain ⟨b,_,hrun⟩ := runMatchingUnit_represents size hs stale tokens
  rw [← hrun]

/-- The waiting table is a faithful map after every token, and the pairs sent are those of the
matcher that uses the map; neither depends on the table size, on collisions or on what the
uninitialised pointers hold. -/
theorem matching_unit_refines_map (size : Nat) (hs : 0 < size) (stale : Nat → List TableListType)
    (tokens : List TokenType) :
    Faithful (runMatchingUnit (newTokenWaitingTable size stale) tokens).1
      (runReference (fun _ => none) tokens).1 ∧
    (runMatchingUnit (newTokenWaitingTable size stale) tokens).2=
      (runReference (fun _ => none) tokens).2 :=
  ⟨runMatchingUnit_faithful size hs stale tokens,runMatchingUnit_sends size hs stale tokens⟩

private def operand (address input : BitVec 32) (data : DataType) : TokenType :=
  ⟨createDestination address input matchingBoth,data,noTag⟩

/-- Three instructions share the only bucket; the middle entry of the chain is unlinked. -/
theorem matching_unit_refines_map_one_bucket :
    let tokens := [operand 1 0 10,operand 2 0 20,operand 3 0 30,operand 2 1 21]
    Faithful (runMatchingUnit (newTokenWaitingTable 1 fun _ => []) tokens).1
      (runReference (fun _ => none) tokens).1 ∧
    (runMatchingUnit (newTokenWaitingTable 1 fun _ => []) tokens).2=
      [⟨operand 2 0 20,some (operand 2 1 21)⟩] := by
  intro tokens
  have h := matching_unit_refines_map 1 (by decide) (fun _ => []) tokens
  exact ⟨h.1,by decide⟩

end Manchester
