/-
The digest suite that programs run with: the three plain digests, and the two composed ones. A hash
of twenty bytes is the shorter digest of the longer one, a hash of thirty-two bytes the longer one
taken twice.
-/
import CoinScript.Digest.Ripemd160
import CoinScript.Digest.Sha1
import CoinScript.Digest.Sha256

namespace CoinScript.Digests

/-- The digests in use on every network. -/
def standard : Digests where
  ripemd160 := Digest.Ripemd160.hash
  sha1 := Digest.Sha1.hash
  sha256 := Digest.Sha256.hash
  hash160 := fun bs => Digest.Ripemd160.hash (Digest.Sha256.hash bs).bytes
  hash256 := fun bs => Digest.Sha256.hash (Digest.Sha256.hash bs).bytes

end CoinScript.Digests
