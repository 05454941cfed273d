import Manchester.Machine.Types

namespace Manchester

structure KeyType where
  tag : TagType
  destination : DestinationType
  deriving DecidableEq, Repr

/-- A node of a chain; the `next` pointer is the rest of the list. -/
abbrev TableListType := KeyType × TokenType

inductive TableElementType where
  | EMPTY | LIST
  deriving DecidableEq, Repr

/-- A bucket. The pointer of an EMPTY bucket is stale: `element` then holds whatever it did. -/
structure TableElements where
  elementType : TableElementType
  element : List TableListType
  deriving DecidableEq, Repr

structure TokenWaitingTableType where
  tableSize : Nat
  table : List TableElements
  deriving DecidableEq, Repr

def tokenToKey (token : TokenType) : KeyType :=
  ⟨token.tag,destinationToAddress token.destination⟩

/-- The sum of tag and address wraps at 64 bits before the division. -/
def keyToIndex (tableSize : Nat) (key : KeyType) : Nat :=
  (key.tag+key.destination.setWidth 64).toNat%tableSize

def keyEqual (key1 key2 : KeyType) : Bool :=
  key1.tag==key2.tag && key1.destination==key2.destination

def readyTokenPairFromTokens (token1 token2 : TokenType) : ReadyTokenPairType :=
  if destinationToInput token1.destination=inputOne then ⟨token1,some token2⟩
  else ⟨token2,some token1⟩

/-- The loop over a chain that stops at the first entry of the key. -/
def findInChain (key : KeyType) : List TableListType → Option TokenType
  | [] => none
  | cur::next => if keyEqual key cur.1 then some cur.2 else findInChain key next

/-- The loop that unlinks the first entry of the key. -/
def unlinkFromChain (key : KeyType) : List TableListType → List TableListType
  | [] => []
  | cur::next => if keyEqual cur.1 key then next else cur::unlinkFromChain key next

namespace TokenWaitingTableType

/-- The bucket of a key. -/
def bucket (t : TokenWaitingTableType) (key : KeyType) : TableElements :=
  t.table.getD (keyToIndex t.tableSize key) ⟨.EMPTY,[]⟩

def setBucket (t : TokenWaitingTableType) (key : KeyType) (b : TableElements) :
    TokenWaitingTableType :=
  {t with table := t.table.set (keyToIndex t.tableSize key) b}

def addToWaitingTable (t : TokenWaitingTableType) (key : KeyType) (token : TokenType) :
    TokenWaitingTableType :=
  let element := t.bucket key
  let next := match element.elementType with
    | .EMPTY => []
    | .LIST => element.element
  t.setBucket key ⟨.LIST,(key,token)::next⟩

/-- Required that key exists in the waiting table. -/
def removeFromWaitingTable (t : TokenWaitingTableType) (key : KeyType) : TokenWaitingTableType :=
  let element := t.bucket key
  match element.element with
  | [] => t
  | first::next =>
    if keyEqual first.1 key then
      match next with
      | [] => t.setBucket key {element with elementType := .EMPTY}
      | _::_ => t.setBucket key {element with element := next}
    else t.setBucket key {element with element := first::unlinkFromChain key next}

end TokenWaitingTableType

/-- The empty table. The pointers are not initialised: bucket i holds some chain `stale i`. -/
def newTokenWaitingTable (maxTableSize : Nat) (stale : Nat → List TableListType) :
    TokenWaitingTableType where
  tableSize := maxTableSize
  table := (List.range maxTableSize).map (fun i => ⟨.EMPTY,stale i⟩)

/-- One round of the loop: the new table and the pairs sent on. The table is private to the
unit, so the removal of a matched entry is shown together with the lookup. -/
def matchToken (t : TokenWaitingTableType) (nextToken : TokenType) :
    TokenWaitingTableType × List ReadyTokenPairType :=
  let matchingFunction := destinationToMatchingFunction nextToken.destination
  if matchingFunction=matchingOne ∨ matchingFunction=matchingAny then (t,[⟨nextToken,none⟩])
  else if matchingFunction=matchingBoth then
    let key := tokenToKey nextToken
    let element := t.bucket key
    match element.elementType with
    | .EMPTY => (t.addToWaitingTable key nextToken,[])
    | .LIST =>
      match findInChain key element.element with
      | none => (t.addToWaitingTable key nextToken,[])
      | some found => (t.removeFromWaitingTable key,[readyTokenPairFromTokens nextToken found])
  else (t,[])

/-- The unit after a sequence of tokens, with every pair it has sent on. -/
def runMatchingUnit (t : TokenWaitingTableType) :
    List TokenType → TokenWaitingTableType × List ReadyTokenPairType
  | [] => (t,[])
  | token::tokens =>
    let (t1,sent) := matchToken t token
    let (t2,later) := runMatchingUnit t1 tokens
    (t2,sent++later)

end Manchester
