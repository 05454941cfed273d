import Manchester.Framework.Bytes
import Manchester.Machine.Types

namespace Manchester

-- The switch between the machine and its output addresses.

/-- One call of `printf`. -/
inductive Output where
  | decimal (value : Int)
  | string (bytes : List UInt8)
  deriving DecidableEq, Repr

/-- The bytes from the data of a token on: its data, its tag, and what lies behind the record. -/
def tokenMemory (behind : List UInt8) (token : TokenType) : List UInt8 :=
  Bytes.ofNatLE 8 token.data.toNat++Bytes.ofNatLE 8 token.tag.toNat++behind

/-- What a token prints, if it is for an output. -/
def printToken (behind : List UInt8) (token : TokenType) : Option Output :=
  if token.destination=outputdDestination then some (.decimal token.data.toInt)
  else if token.destination=outputsDestination then
    some (.string ((tokenMemory behind token).takeWhile (· != 0)))
  else none

/-- The destinations whose tokens stay in the switch. -/
def isSwitchDestination (d : DestinationType) : Bool :=
  d==outputdDestination || d==outputsDestination || d==registerInputHandlerDestination ||
    d==deregisterInputHandlerDestination || d==devNullDestination

/-- One round of the loop: what has been printed, and the token if it goes on. -/
def switchToken (behind : List UInt8) (printed : List Output) (nextToken : TokenType) :
    List Output × List TokenType :=
  (printed++(printToken behind nextToken).toList,
    if isSwitchDestination nextToken.destination then [] else [nextToken])

end Manchester
