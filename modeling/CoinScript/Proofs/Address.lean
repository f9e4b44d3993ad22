/-
Address texts as a codec. A text with a checksum is the text of one payload, since Base58 is a bijection
and the checksum follows from the payload, and the two version bytes in front of a payload tell its kind.
So an address is read from a text on a network exactly if it is on that network, has a hash of twenty
bytes and has that text. No version bytes of the main network mean anything on the test networks, nor
the other way round, so a text is not read on the wrong side.
-/
import CoinScript.Address
import CoinScript.Digest.Standard
import CoinScript.Proofs.Base58

namespace CoinScript

/-! ## Texts with a checksum -/

namespace Base58

variable {digests : Digests} {payload : Bytes} {text : String}

@[simp] theorem length_checksum (digests : Digests) (payload : Bytes) :
    (checksum digests payload).length = 4 := by
  rw [checksum, List.length_take, Digest.length_bytes]
  rfl

theorem isEmpty_encodeChecked (digests : Digests) (payload : Bytes) :
    (encodeChecked digests payload).isEmpty = false := by
  have hlen := length_checksum digests payload
  rw [← Bool.not_eq_true, String.isEmpty_iff, encodeChecked, encode_eq_empty_iff]
  intro hnil
  rw [(List.append_eq_nil_iff.1 hnil).2] at hlen
  cases hlen

theorem decodeChecked_encodeChecked (digests : Digests) (payload : Bytes) :
    decodeChecked digests (encodeChecked digests payload) = .ok payload := by
  have hread : decode? (encodeChecked digests payload) = some (payload ++ checksum digests payload) :=
    decode?_eq_some_iff.2 rfl
  have hlen : (payload ++ checksum digests payload).length = payload.length + 4 := by simp
  unfold decodeChecked
  rw [if_neg (by simp [isEmpty_encodeChecked]), hread]
  dsimp only
  rw [if_neg (by omega), hlen, Nat.add_sub_cancel, List.take_left, List.drop_left, if_pos rfl]

/-- A text is read as a payload exactly if it is the text of that payload. -/
theorem decodeChecked_eq_ok_iff :
    decodeChecked digests text = .ok payload ↔ encodeChecked digests payload = text := by
  constructor
  · intro h
    unfold decodeChecked at h
    split at h
    · cases h
    · split at h
      · cases h
      · next bytes hbytes =>
        split at h
        · cases h
        · dsimp only at h
          split at h
          · next hsum =>
            cases h
            rw [encodeChecked, ← hsum, List.take_append_drop]
            exact decode?_eq_some_iff.1 hbytes
          · cases h
  · rintro rfl
    exact decodeChecked_encodeChecked digests payload

end Base58

/-! ## Version bytes -/

namespace Network

variable {network : Network} {kind : AddressKind} {version : Bytes}

/-- The side of the split that a network is on: a test network or the main one. -/
def isTest : Network → Bool
  | mainnet => false
  | testnet | regtest => true

theorem length_version (h : network.version? kind = some version) : version.length = 2 := by
  cases network <;> cases kind <;> cases h <;> rfl

theorem exists_version_iff : (∃ version, network.version? kind = some version) ↔ kind ≠ .other := by
  cases network <;> cases kind <;> simp [version?]

/-- On one network the version bytes tell the kinds apart. -/
theorem kindOfVersion?_eq_some_iff :
    network.kindOfVersion? version = some kind ↔ network.version? kind = some version := by
  constructor
  · intro h
    simpa using List.find?_some h
  · intro h
    cases network <;> cases kind <;> cases h <;> decide

theorem kindOfVersion?_of_other_side {other : Network} (hside : other.isTest ≠ network.isTest)
    (h : network.version? kind = some version) : other.kindOfVersion? version = none := by
  cases network <;> cases other <;> first | exact absurd rfl hside | (cases kind <;> cases h <;> decide)

end Network

/-! ## Addresses -/

namespace Address

variable {digests : Digests} {address : Address} {text : String} {network : Network}

theorem toBase58_eq_ok_iff :
    address.toBase58 digests = .ok text ↔
      ∃ version, address.network.version? address.kind = some version ∧
        Base58.encodeChecked digests (version ++ address.hash) = text := by
  unfold toBase58
  cases address.network.version? address.kind <;> simp

theorem exists_toBase58 (digests : Digests) (hkind : address.kind ≠ .other) :
    ∃ text, address.toBase58 digests = .ok text := by
  obtain ⟨version, hversion⟩ := Network.exists_version_iff.2 hkind
  exact ⟨_, toBase58_eq_ok_iff.2 ⟨version, hversion, rfl⟩⟩

theorem ofBase58_encodeChecked {version : Bytes} (hversion : version.length = 2) (hash : Bytes)
    (network : Network) :
    ofBase58 digests (Base58.encodeChecked digests (version ++ hash)) network =
      match network.kindOfVersion? version with
      | none => .error .unknownVersion
      | some kind => if hash.length = 20 then .ok ⟨network, kind, hash⟩ else .error .invalidLength := by
  have htake : (version ++ hash).take 2 = version := List.take_left' hversion
  have hdrop : (version ++ hash).drop 2 = hash := List.drop_left' hversion
  cases hkind : network.kindOfVersion? version <;>
    simp [ofBase58, Base58.decodeChecked_encodeChecked, htake, hdrop, hkind]

/-- An address is read from a text on a network exactly if it is there, its hash has twenty bytes and the
text is its own. -/
theorem ofBase58_eq_ok_iff :
    ofBase58 digests text network = .ok address ↔
      address.network = network ∧ address.hash.length = 20 ∧ address.toBase58 digests = .ok text := by
  constructor
  · intro h
    unfold ofBase58 at h
    split at h
    · cases h
    · next payload hpayload =>
      split at h
      · cases h
      · next kind hkind =>
        split at h
        · next hlen =>
          cases h
          refine ⟨rfl, hlen, toBase58_eq_ok_iff.2 ⟨_, Network.kindOfVersion?_eq_some_iff.1 hkind, ?_⟩⟩
          rw [List.take_append_drop]
          exact Base58.decodeChecked_eq_ok_iff.1 hpayload
        · cases h
  · rintro ⟨rfl, hlen, htext⟩
    obtain ⟨version, hversion, rfl⟩ := toBase58_eq_ok_iff.1 htext
    rw [ofBase58_encodeChecked (Network.length_version hversion),
      Network.kindOfVersion?_eq_some_iff.2 hversion]
    exact if_pos hlen

/-- Address texts are canonical and keep the networks apart. Every address with a template has a text, from
which it is read on its network if its hash has twenty bytes; with any other hash the length is refused,
and on the other side of the split the version is. What is read from a text is an address on the network
asked for, with twenty bytes and a template, whose text is that one; so no two texts spell one address. -/
theorem base58_canonical (digests : Digests) :
    (∀ address : Address, address.kind ≠ .other →
      ∃ text, address.toBase58 digests = .ok text ∧
        ofBase58 digests text address.network =
          (if address.hash.length = 20 then .ok address else .error .invalidLength) ∧
        ∀ other : Network, other.isTest ≠ address.network.isTest →
          ofBase58 digests text other = .error .unknownVersion) ∧
    (∀ (text : String) (network : Network) (address : Address),
      ofBase58 digests text network = .ok address →
        address.network = network ∧ address.hash.length = 20 ∧ address.kind ≠ .other ∧
          address.toBase58 digests = .ok text) ∧
    ∀ (text text' : String) (network network' : Network) (address : Address),
      ofBase58 digests text network = .ok address → ofBase58 digests text' network' = .ok address →
        text = text' := by
  refine ⟨fun address hkind => ?_, fun text network address h => ?_, fun text text' network network' address h h' => ?_⟩
  · obtain ⟨text, htext⟩ := exists_toBase58 digests hkind
    obtain ⟨version, hversion, rfl⟩ := toBase58_eq_ok_iff.1 htext
    refine ⟨_, htext, ?_, fun other hside => ?_⟩
    · rw [ofBase58_encodeChecked (Network.length_version hversion),
        Network.kindOfVersion?_eq_some_iff.2 hversion]
    · rw [ofBase58_encodeChecked (Network.length_version hversion),
        Network.kindOfVersion?_of_other_side hside hversion]
  · obtain ⟨hnetwork, hlen, htext⟩ := ofBase58_eq_ok_iff.1 h
    obtain ⟨version, hversion, -⟩ := toBase58_eq_ok_iff.1 htext
    exact ⟨hnetwork, hlen, Network.exists_version_iff.1 ⟨version, hversion⟩, htext⟩
  · obtain ⟨-, -, htext⟩ := ofBase58_eq_ok_iff.1 h
    obtain ⟨-, -, htext'⟩ := ofBase58_eq_ok_iff.1 h'
    rw [htext] at htext'
    exact Except.ok.inj htext'

/-- An address of a test network, its text read on both sides of the split, and a hash that is too short. -/
theorem base58_canonical_of_test_address :
    let address : Address := ⟨.testnet, .scriptHash, List.replicate 20 0x22⟩
    let short : Address := ⟨.regtest, .pubKeyHash, [0x11, 0x11]⟩
    (∃ text, ofBase58 Digests.standard text .testnet = .ok address ∧
      address.toBase58 Digests.standard = .ok text ∧
      ofBase58 Digests.standard text .mainnet = .error .unknownVersion ∧
      ∀ text', ofBase58 Digests.standard text' .testnet = .ok address → text' = text) ∧
    ∃ text, short.toBase58 Digests.standard = .ok text ∧
      ofBase58 Digests.standard text .regtest = .error .invalidLength := by
  intro address short
  obtain ⟨hwritten, hread, hunique⟩ := base58_canonical Digests.standard
  obtain ⟨text, -, hback, hwrong⟩ := hwritten address (by decide)
  rw [if_pos (by decide)] at hback
  obtain ⟨shortText, hshort, hrefused, -⟩ := hwritten short (by decide)
  rw [if_neg (by decide)] at hrefused
  exact ⟨⟨text, hback, (hread text .testnet address hback).2.2.2, hwrong .mainnet (by decide),
    fun text' h => hunique text' text .testnet .testnet address h hback⟩, shortText, hshort, hrefused⟩

end Address

end CoinScript
