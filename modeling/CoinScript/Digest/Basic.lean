/-
Digests: byte strings of a fixed length, and the suite of digest functions that scripts and
addresses commit to. Everything that hashes takes its suite as an argument, so what is proved about
it holds for every choice of functions; `Digests.standard` is the choice that programs run with.
-/
import CoinScript.Bytes

namespace CoinScript

/-- A byte string of length `n`. -/
def Digest (n : Nat) := { bs : Bytes // bs.length = n }

instance (n : Nat) : DecidableEq (Digest n) := inferInstanceAs (DecidableEq (Subtype _))

/-- Twenty bytes. -/
abbrev Hash160 := Digest 20

/-- Thirty-two bytes. -/
abbrev Hash256 := Digest 32

namespace Digest

variable {n : Nat}

/-- The bytes of a digest. -/
def bytes (d : Digest n) : Bytes := d.val

@[simp] theorem length_bytes (d : Digest n) : d.bytes.length = n := d.property

/-- A byte string as a digest, if it has the length. -/
def ofBytes? (n : Nat) (bs : Bytes) : Option (Digest n) :=
  if h : bs.length = n then some ⟨bs, h⟩ else none

theorem ofBytes?_bytes (d : Digest n) : ofBytes? n d.bytes = some d :=
  dif_pos d.property

theorem bytes_injective {a b : Digest n} (h : a.bytes = b.bytes) : a = b := Subtype.ext h

end Digest

/-- The digest functions in use: one for each hashing instruction of a script. -/
structure Digests where
  /-- The shorter of the two plain digests that addresses are built from. -/
  ripemd160 : Bytes → Hash160
  sha1 : Bytes → Hash160
  sha256 : Bytes → Hash256
  /-- What templates and addresses commit to. -/
  hash160 : Bytes → Hash160
  /-- What the checksum of an address is cut from. -/
  hash256 : Bytes → Hash256

end CoinScript
