/-
Scripts: a list of chunks, and the views of it that are held ready. The bytes, the text and the
multisignature terms of a script all follow from its chunks; a view is held when it was at hand at
construction or has been asked for, and all are dropped together when the chunks may change. The one
view that need not follow from the chunks is a set of terms that a script was built from.
-/
import CoinScript.Script.Error
import CoinScript.Script.Multisig

namespace CoinScript

/-- The views of a script that can be held. -/
inductive View where
  | data
  | text
  | multisig
  deriving DecidableEq

/-- What is held of each view. -/
structure HeldViews where
  data : Option Bytes := none
  text : Option String := none
  multisig : Option (Option Multisig) := none
  deriving DecidableEq

structure Script where
  chunks : List Chunk := []
  held : HeldViews := {}

namespace Script

/-- The script of no chunk. -/
def empty : Script := {}

/-- Chunks with the bytes that they were decoded from. -/
def ofDecoded (chunks : List Chunk) (bytes : Bytes) : Script :=
  { chunks := chunks, held := { data := some bytes } }

/-- The script that a byte string spells; a push cut short anywhere spoils it all. -/
def parse (bytes : Bytes) : Except CodecError Script :=
  (decodeAll bytes).map fun chunks => ofDecoded chunks bytes

/-- The script that a hexadecimal text spells, blanks around it ignored. -/
def ofHex (text : String) : Except ScriptError Script :=
  match Hex.decode? (Text.trim text) with
  | none => .error .invalidHex
  | some bytes => (parse bytes).mapError .codec

/-! ## Views -/

/-- The bytes of the script. -/
def data (s : Script) : Bytes := s.held.data.getD (serialize s.chunks)

/-- The text of the script: names of opcodes and payloads in hexadecimal. -/
def text (s : Script) : String := s.held.text.getD (disassemble s.chunks)

/-- The multisignature terms of the script. -/
def multisig? (s : Script) : Option Multisig := s.held.multisig.getD (Multisig.ofChunks? s.chunks)

/-- Holds a view from now on. What is held already stays. -/
def hold (s : Script) : View → Script
  | .data => { s with held := { s.held with data := some s.data } }
  | .text => { s with held := { s.held with text := some s.text } }
  | .multisig => { s with held := { s.held with multisig := some s.multisig? } }

/-- Drops every held view. -/
def invalidate (s : Script) : Script := { s with held := {} }

@[simp] theorem chunks_hold (s : Script) (v : View) : (s.hold v).chunks = s.chunks := by
  cases v <;> rfl

/-- Holding a view changes no answer. -/
@[simp] theorem data_hold (s : Script) (v : View) : (s.hold v).data = s.data := by
  cases v <;> rfl

@[simp] theorem text_hold (s : Script) (v : View) : (s.hold v).text = s.text := by
  cases v <;> rfl

@[simp] theorem multisig?_hold (s : Script) (v : View) : (s.hold v).multisig? = s.multisig? := by
  cases v <;> rfl

/-- Scripts are equal when their bytes are. -/
instance : BEq Script := ⟨fun a b => a.data == b.data⟩

def size (s : Script) : Nat := s.data.length

def toHex (s : Script) : String := Hex.encode s.data

/-- The text that names the type with both forms of the script. -/
def describe (s : Script) : String :=
  "Script \x7b hex: \"" ++ s.toHex ++ "\", asm: \"" ++ s.text ++ "\" \x7d"

/-! ## Chunks by index -/

/-- The position that an index names: from the start, or from the end if it is negative. -/
def position? (s : Script) (index : Int) : Option Nat :=
  let resolved := if index < 0 then index + s.chunks.length else index
  if 0 ≤ resolved ∧ resolved < s.chunks.length then some resolved.toNat else none

def chunkAt (s : Script) (index : Int) : Except IndexError Chunk :=
  match (s.position? index).bind (s.chunks[·]?) with
  | some c => .ok c
  | none => .error ⟨index, s.chunks.length⟩

/-- The opcode at an index, the invalid one for a push. -/
def opcodeAt (s : Script) (index : Int) : Except IndexError UInt8 :=
  (s.chunkAt index).map fun c => c.operation.asOpcode

/-- The payload at an index, none for an opcode. -/
def pushedDataAt (s : Script) (index : Int) : Except IndexError (Option Bytes) :=
  (s.chunkAt index).map fun c => c.operation.payload?

/-! ## Runs of chunks -/

/-- The script that spells some chunks of another, with spans of its own. -/
def ofRun (chunks : List Chunk) : Script :=
  let bytes := serialize chunks
  match decodeAll bytes with
  | .ok decoded => ofDecoded decoded bytes
  | .error _ => empty

/-- The chunks from a position on, if there are so many. -/
def subScriptFrom? (s : Script) (position : Nat) : Option Script :=
  if position ≤ s.chunks.length then some (ofRun (s.chunks.drop position)) else none

/-- The chunks before a position, if there are so many. -/
def subScriptTo? (s : Script) (position : Nat) : Option Script :=
  if position ≤ s.chunks.length then some (ofRun (s.chunks.take position)) else none

end Script

end CoinScript
