import Manchester.Framework.Bytes
import Manchester.Machine.Types

namespace Manchester

-- The SEPHI file: a header, four tables and the instruction records.

def magicBytes : List UInt8 := [0x73,0x65,0x70,0x68,0x69,0x41,0x4c,0x44]

def referenceMaxSize : Nat := 256

/-- The union `flags`, held as its raw byte. -/
abbrev Flags := BitVec 8

namespace Flags

def isFirstDestination (f : Flags) : Bool := f.getLsbD 0
def isSecondDestination (f : Flags) : Bool := f.getLsbD 1
def isFirstLiteral (f : Flags) : Bool := f.getLsbD 2
def isSecondLiteral (f : Flags) : Bool := f.getLsbD 3

/-- The undocumented bit 0x80. -/
def changesOpcode (f : Flags) : Bool := (f &&& 0x80)!=0

end Flags

structure DestinationToUpdate where
  instructionNumber : BitVec 32
  flags : Flags
  deriving DecidableEq, Repr

/-- The name is what C reads of the 256 bytes once the last is set to zero. -/
structure ExternalReference where
  destination : DestinationToUpdate
  name : List UInt8
  deriving DecidableEq, Repr

structure ExportSymbol where
  localDestination : DestinationType
  name : List UInt8
  deriving DecidableEq, Repr

structure SephiHeader where
  magicBytes : List UInt8
  numConstant : BitVec 16
  numToFix : BitVec 16
  numExternalRef : BitVec 16
  numExported : BitVec 16
  deriving DecidableEq, Repr

-- Sizes of the C records, padding included.

def sephiHeaderSize : Nat := 16
def destinationToUpdateSize : Nat := 8
def externalReferenceSize : Nat := 264
def exportSymbolSize : Nat := 260
def instructionSize : Nat := 40

/-- A little-endian field of the buffer. -/
def readWord (width : Nat) (content : List UInt8) (off : Nat) : BitVec width :=
  BitVec.ofNat width (Bytes.toNatLE (Bytes.slice content off (width/8)))

/-- A C string in a buffer of `referenceMaxSize` bytes whose last byte is set to zero. -/
def readName (content : List UInt8) (off : Nat) : List UInt8 :=
  (Bytes.slice content off (referenceMaxSize-1)).takeWhile (· != 0)

def readHeader (content : List UInt8) : SephiHeader :=
  ⟨Bytes.slice content 0 8,readWord 16 content 8,readWord 16 content 10,
    readWord 16 content 12,readWord 16 content 14⟩

def readDestinationToUpdate (content : List UInt8) (off : Nat) : DestinationToUpdate :=
  ⟨readWord 32 content off,readWord 8 content (off+4)⟩

def readExternalReference (content : List UInt8) (off : Nat) : ExternalReference :=
  ⟨readDestinationToUpdate content off,readName content (off+8)⟩

def readExportSymbol (content : List UInt8) (off : Nat) : ExportSymbol :=
  ⟨readWord 32 content off,readName content (off+4)⟩

def readInstruction (content : List UInt8) (off : Nat) : Instruction where
  opcode := readWord 32 content off
  destination1 := readWord 32 content (off+4)
  destination2 := readWord 32 content (off+8)
  marker := readWord 8 content (off+12)
  literal1 := readWord 64 content (off+16)
  literal2 := readWord 64 content (off+24)
  instructionLiteral := readWord 32 content (off+32)

def readTable {α : Type} (readRecord : List UInt8 → Nat → α) (size n : Nat)
    (content : List UInt8) (off : Nat) : List α :=
  (List.range n).map fun i => readRecord content (off+size*i)

@[simp] theorem readTable_length {α : Type} (readRecord : List UInt8 → Nat → α) (size n : Nat)
    (content : List UInt8) (off : Nat) : (readTable readRecord size n content off).length=n := by
  simp [readTable]

/-- The tables of a file that passes the checks on its header and size. -/
structure Sephi where
  constants : List DestinationToUpdate
  toFix : List DestinationToUpdate
  externalReferences : List ExternalReference
  exports : List ExportSymbol
  instructions : List Instruction
  deriving DecidableEq, Repr

/-- The first part of `load_file`, up to the check of the instruction size. -/
def parseSephi (content : List UInt8) : Option Sephi :=
  let fileSize := content.length
  if fileSize < sephiHeaderSize then none
  else
    let header := readHeader content
    if header.magicBytes ≠ magicBytes then none
    else
      let constants := sephiHeaderSize
      let toFix := constants+destinationToUpdateSize*header.numConstant.toNat
      let externalReferences := toFix+destinationToUpdateSize*header.numToFix.toNat
      let exports := externalReferences+externalReferenceSize*header.numExternalRef.toNat
      let startInstructions := exports+exportSymbolSize*header.numExported.toNat
      if fileSize < constants ∨ fileSize < toFix ∨ fileSize < externalReferences ∨
          fileSize < exports ∨ fileSize < startInstructions then none
      else if (fileSize-startInstructions)%instructionSize ≠ 0 then none
      else some {
        constants := readTable readDestinationToUpdate destinationToUpdateSize
          header.numConstant.toNat content constants
        toFix := readTable readDestinationToUpdate destinationToUpdateSize
          header.numToFix.toNat content toFix
        externalReferences := readTable readExternalReference externalReferenceSize
          header.numExternalRef.toNat content externalReferences
        exports := readTable readExportSymbol exportSymbolSize
          header.numExported.toNat content exports
        instructions := readTable readInstruction instructionSize
          ((fileSize-startInstructions)/instructionSize) content startInstructions
      }

end Manchester
