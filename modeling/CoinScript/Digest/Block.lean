/-
What the block digests share: words of four bytes in either byte order, the padding that ends a
message on a block boundary, and the absorption of a message in blocks of sixty-four bytes.
-/
import CoinScript.Bytes

namespace CoinScript.Digest

/-! ## Words -/

/-- Which byte of a word comes first. -/
inductive ByteOrder where
  | mostFirst
  | leastFirst

/-- The word spelt by four bytes. -/
def ByteOrder.word : ByteOrder → UInt8 → UInt8 → UInt8 → UInt8 → UInt32
  | mostFirst, a, b, c, d => a.toUInt32 <<< 24 ||| b.toUInt32 <<< 16 ||| c.toUInt32 <<< 8 ||| d.toUInt32
  | leastFirst, a, b, c, d => d.toUInt32 <<< 24 ||| c.toUInt32 <<< 16 ||| b.toUInt32 <<< 8 ||| a.toUInt32

/-- The four bytes of a word. -/
def ByteOrder.bytes : ByteOrder → UInt32 → Bytes
  | mostFirst, w => [(w >>> 24).toUInt8, (w >>> 16).toUInt8, (w >>> 8).toUInt8, w.toUInt8]
  | leastFirst, w => [w.toUInt8, (w >>> 8).toUInt8, (w >>> 16).toUInt8, (w >>> 24).toUInt8]

/-- The words of a block; a tail of fewer than four bytes has no word. -/
def ByteOrder.words (order : ByteOrder) : Bytes → List UInt32
  | a :: b :: c :: d :: rest => order.word a b c d :: order.words rest
  | _ => []

/-- The bytes of a number of eight bytes. -/
def ByteOrder.lengthField : ByteOrder → Nat → Bytes
  | mostFirst, n => (Bytes.ofNatLE 8 n).reverse
  | leastFirst, n => Bytes.ofNatLE 8 n

@[simp] theorem ByteOrder.length_bytes (order : ByteOrder) (w : UInt32) : (order.bytes w).length = 4 := by
  cases order <;> rfl

/-- Moves the bits of a word up, the top ones coming in below. -/
def rotateUp (w : UInt32) (n : UInt32) : UInt32 := w <<< n ||| w >>> (32 - n)

/-- Moves the bits of a word down, the bottom ones coming in above. -/
def rotateDown (w : UInt32) (n : UInt32) : UInt32 := w >>> n ||| w <<< (32 - n)

/-! ## Messages -/

/-- The message, the byte 0x80, zeros up to eight bytes short of a whole block, and the length of
the message in bits. -/
def pad (order : ByteOrder) (message : Bytes) : Bytes :=
  message ++ 0x80 :: List.replicate ((119 - message.length % 64) % 64) 0 ++
    order.lengthField (8 * message.length)

/-- Compresses each whole block of the input into the state, in order. -/
def absorb {σ : Type} (order : ByteOrder) (compress : σ → List UInt32 → σ) (state : σ)
    (input : Bytes) : σ :=
  match h : input.drop 63 with
  | [] => state
  | _ :: rest =>
    have : rest.length < input.length := by
      have hlen := congrArg List.length h
      simp only [List.length_drop, List.length_cons] at hlen
      omega
    absorb order compress (compress state (order.words (input.take 64))) rest
termination_by input.length

/-- A padded message is a whole number of blocks. -/
theorem length_pad (order : ByteOrder) (message : Bytes) : (pad order message).length % 64 = 0 := by
  have hfield : (order.lengthField (8 * message.length)).length = 8 := by
    cases order <;> simp [ByteOrder.lengthField]
  simp only [pad, List.length_append, List.length_cons, List.length_replicate, hfield]
  omega

end CoinScript.Digest
