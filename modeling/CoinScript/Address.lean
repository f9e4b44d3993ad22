/-
Addresses: a network, a kind of destination and a hash, and their text. The text is the Base58 form
of two version bytes, the hash, and the first four bytes of the digest of both as a checksum. The
version bytes tell the kind, and tell the main network from the two test networks.
-/
import CoinScript.Base58
import CoinScript.Digest.Basic
import CoinScript.PublicKey

namespace CoinScript

inductive Network where
  | mainnet
  | testnet
  | regtest
  deriving DecidableEq

inductive AddressKind where
  | pubKeyHash
  | scriptHash
  /-- A destination that no script template pays to. -/
  | other
  deriving DecidableEq

def AddressKind.name : AddressKind → String
  | pubKeyHash => "PubKeyHash"
  | scriptHash => "ScriptHash"
  | other => "Other"

/-- Why a text is no address, or an address has no text. -/
inductive AddressError where
  | invalidLength
  | invalidCharacter
  | invalidChecksum
  | unknownVersion
  | notEncodable
  deriving DecidableEq

def AddressError.message : AddressError → String
  | invalidLength => "invalid address length"
  | invalidCharacter => "invalid base58 character"
  | invalidChecksum => "invalid address checksum"
  | unknownVersion => "unknown address prefix"
  | notEncodable => "address kind has no base58 form"

/-- A destination. Its hash may have any length; only twenty bytes can be paid to. -/
structure Address where
  network : Network
  kind : AddressKind
  hash : Bytes
  deriving DecidableEq

/-! ## Version bytes -/

/-- The version bytes of a kind of address on a network. -/
def Network.version? : Network → AddressKind → Option Bytes
  | .mainnet, .pubKeyHash => some [0x1c, 0xb8]
  | .mainnet, .scriptHash => some [0x1c, 0xbd]
  | .testnet, .pubKeyHash | .regtest, .pubKeyHash => some [0x1d, 0x25]
  | .testnet, .scriptHash | .regtest, .scriptHash => some [0x1c, 0xba]
  | _, .other => none

/-- The kind of address that version bytes announce on a network. -/
def Network.kindOfVersion? (network : Network) (version : Bytes) : Option AddressKind :=
  [AddressKind.pubKeyHash, .scriptHash].find? fun kind => network.version? kind == some version

/-! ## Texts with a checksum -/

namespace Base58

/-- The first four bytes of the digest of a payload. -/
def checksum (digests : Digests) (payload : Bytes) : Bytes :=
  (digests.hash256 payload).bytes.take 4

/-- The text of a payload with its checksum behind it. -/
def encodeChecked (digests : Digests) (payload : Bytes) : String :=
  encode (payload ++ checksum digests payload)

/-- The payload of a text whose last four bytes are its checksum. -/
def decodeChecked (digests : Digests) (text : String) : Except AddressError Bytes :=
  if text.isEmpty then .error .invalidLength
  else
    match decode? text with
    | none => .error .invalidCharacter
    | some bytes =>
      if bytes.length < 4 then .error .invalidLength
      else
        let payload := bytes.take (bytes.length - 4)
        if bytes.drop (bytes.length - 4) = checksum digests payload then .ok payload
        else .error .invalidChecksum

end Base58

/-! ## Addresses -/

namespace Address

def p2pkh (network : Network) (hash : Hash160) : Address := ⟨network, .pubKeyHash, hash.bytes⟩

def p2sh (network : Network) (hash : Hash160) : Address := ⟨network, .scriptHash, hash.bytes⟩

/-- The address that pays to a key. -/
def ofPublicKey (digests : Digests) (network : Network) (key : PublicKey) : Address :=
  p2pkh network (digests.hash160 key.bytes)

/-- The address that pays to whoever knows a script and can satisfy it. -/
def ofScriptBytes (digests : Digests) (network : Network) (script : Bytes) : Address :=
  p2sh network (digests.hash160 script)

/-- The text of an address. -/
def toBase58 (digests : Digests) (address : Address) : Except AddressError String :=
  match address.network.version? address.kind with
  | none => .error .notEncodable
  | some version => .ok (Base58.encodeChecked digests (version ++ address.hash))

/-- The address that a text spells on a network. A wrong version is found before a wrong length. -/
def ofBase58 (digests : Digests) (text : String) (network : Network) : Except AddressError Address :=
  match Base58.decodeChecked digests text with
  | .error e => .error e
  | .ok payload =>
    match network.kindOfVersion? (payload.take 2) with
    | none => .error .unknownVersion
    | some kind =>
      if (payload.drop 2).length = 20 then .ok ⟨network, kind, payload.drop 2⟩
      else .error .invalidLength

end Address

end CoinScript
