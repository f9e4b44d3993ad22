/-
Edits of a script. An edit that gets as far as new bytes drops every held view first, decodes the
bytes anew, and keeps the old chunks if they do not decode; an edit that is refused before that, and
a deletion that finds nothing, leave the script as it is. Refused opcodes and bytes that do not
decode draw a remark.
-/
import CoinScript.Action
import CoinScript.Log.Note
import CoinScript.Script.Basic

namespace CoinScript

/-- A change of a script. -/
abbrev Edit := Action Log.Remark ScriptError Script

namespace Script

/-- Replaces the chunks by those of new bytes. -/
def rebuild (bytes : Bytes) : Edit Unit := do
  Action.modify invalidate
  match decodeAll bytes with
  | .ok chunks => Action.modify fun _ => ofDecoded chunks bytes
  | .error cause =>
    Action.report ⟨.undecodableEdit, s!"rejected script edit: {cause.message}"⟩
    Action.fail (.codec cause)

/-- Replaces the chunks by those of the bytes so far and a tail. -/
def extend (tail : Bytes) : Edit Unit := do
  let s ← Action.get
  rebuild (s.data ++ tail)

/-- The byte cannot stand in a script by itself. -/
def isUnappendable (op : UInt8) : Bool := Op.isPushDataLead op || op == Op.invalid

/-- Appends one opcode. A byte that announces a push does not decode without its payload. -/
def appendOpcode (op : UInt8) : Edit Unit :=
  if isUnappendable op then do
    Action.report ⟨.loneOpcode, "rejected standalone opcode " ++ Hex.ofByte op⟩
    Action.fail (.invalidOpcode op)
  else extend [op]

/-- Appends the shortest push of some data. -/
def appendData (payload : Bytes) : Edit Unit :=
  if payload.isEmpty then Action.fail .emptyData
  else do
    let push ← Action.ofExcept ((encodePush payload .minimal).mapError .codec)
    extend push

/-- Appends all of another script. -/
def appendScript (other : Script) : Edit Unit :=
  if other.data.isEmpty then Action.fail .emptyScript else extend other.data

/-- Keeps the chunks that pass and counts the others. -/
def retain (keep : Chunk → Bool) : Edit Nat := do
  let s ← Action.get
  let kept := s.chunks.filter keep
  let removed := s.chunks.length - kept.length
  if removed = 0 then return 0
  rebuild (serialize kept)
  return removed

/-- Deletes every push of the data, whatever its form, and counts them. -/
def deleteData (payload : Bytes) : Edit Nat :=
  if payload.isEmpty then return 0
  else retain fun c => c.operation.payload? != some payload

/-- Deletes every chunk that starts with the byte, push or not, and counts them. -/
def deleteOpcode (op : UInt8) : Edit Nat := retain fun c => c.operation.lead != op

end Script

end CoinScript
