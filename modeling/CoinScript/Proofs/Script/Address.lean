/-
Scripts and addresses determine each other. A reachable script is what its own bytes parse to, so it has
an address exactly if its bytes are one of the two templates around a hash, in no other push form; the
address is that hash, of the kind of the template. The script built for that address has the same chunks
as the one the address was read off, and its text reads back as the address. The other way round, every
address that has a template is the address of the script built for it.
-/
import CoinScript.Proofs.Address
import CoinScript.Proofs.Script.Coherence
import CoinScript.Proofs.Script.Recognition

namespace CoinScript

theorem Address.exists_hash_of_template {address : Address} (hkind : address.kind ≠ .other)
    (hlen : address.hash.length = 20) :
    ∃ (network : Network) (hash : Hash160), address = p2pkh network hash ∨ address = p2sh network hash := by
  obtain ⟨network, kind, bytes⟩ := address
  refine ⟨network, ⟨bytes, hlen⟩, ?_⟩
  cases kind with
  | pubKeyHash => exact .inl rfl
  | scriptHash => exact .inr rfl
  | other => exact absurd rfl hkind

namespace Script

variable {s : Script} {network : Network} {address : Address}

/-! ## Templates in the bytes of a script -/

/-- But for what it holds, a coherent script is what its bytes parse to. -/
theorem Coherent.parse_data (h : Coherent s) : parse s.data = .ok (ofDecoded s.chunks s.data) :=
  parse_eq_ok_iff.2 ⟨s.chunks, h.data_eq ▸ h.chunks, rfl⟩

theorem Coherent.isPayToPublicKeyHash_iff (h : Coherent s) :
    s.isPayToPublicKeyHash = true ↔ ∃ hash, s.data = Output.p2pkh hash := by
  rw [← Output.isP2pkh_iff, Output.isP2pkh_eq_of_parse h.parse_data]
  rfl

theorem Coherent.isPayToScriptHash_iff (h : Coherent s) :
    s.isPayToScriptHash = true ↔ ∃ hash, s.data = Output.p2sh hash := by
  rw [← Output.isP2sh_iff, Output.isP2sh_eq_of_parse h.parse_data]
  rfl

theorem p2pkh_ne_p2sh (hash hash' : Hash160) : Output.p2pkh hash ≠ Output.p2sh hash' := by
  intro h
  have hlen := congrArg List.length h
  simp [Output.p2pkh, Output.p2sh] at hlen

/-! ## The address of a script -/

theorem Coherent.chunks_of_parse {parsed : Script} (h : Coherent s) (hparse : parse s.data = .ok parsed) :
    s.chunks = parsed.chunks := by
  rw [h.parse_data] at hparse
  cases hparse
  rfl

theorem Coherent.pushedHash?_of_parse {parsed : Script} (h : Coherent s) (hparse : parse s.data = .ok parsed)
    (position : Nat) : s.pushedHash? position = parsed.pushedHash? position := by
  unfold pushedHash?
  rw [h.chunks_of_parse hparse]

theorem Coherent.toAddress?_p2pkh (h : Coherent s) {hash : Hash160} (hdata : s.data = Output.p2pkh hash)
    (network : Network) : s.toAddress? network = some (.p2pkh network hash) := by
  have hparse : parse s.data = .ok (p2pkh hash) := hdata ▸ parse_p2pkh hash
  have hpushed : s.pushedHash? 2 = some hash := by
    rw [h.pushedHash?_of_parse hparse]
    exact Digest.ofBytes?_bytes hash
  unfold toAddress?
  rw [if_pos (h.isPayToPublicKeyHash_iff.2 ⟨hash, hdata⟩), hpushed]
  rfl

theorem Coherent.toAddress?_p2sh (h : Coherent s) {hash : Hash160} (hdata : s.data = Output.p2sh hash)
    (network : Network) : s.toAddress? network = some (.p2sh network hash) := by
  have hparse : parse s.data = .ok (ofDecoded (place 0 (Output.p2shOps hash)) (Output.p2sh hash)) :=
    hdata ▸ parse_p2sh hash
  have hpushed : s.pushedHash? 1 = some hash := by
    rw [h.pushedHash?_of_parse hparse]
    exact Digest.ofBytes?_bytes hash
  have hother : ¬ s.isPayToPublicKeyHash = true := by
    rw [h.isPayToPublicKeyHash_iff, hdata]
    rintro ⟨hash', heq⟩
    exact p2pkh_ne_p2sh hash' hash heq.symm
  unfold toAddress?
  rw [if_neg hother, if_pos (h.isPayToScriptHash_iff.2 ⟨hash, hdata⟩), hpushed]
  rfl

/-- A coherent script has an address exactly if its bytes are a template, and then that of its hash. -/
theorem Coherent.toAddress?_eq_some_iff (h : Coherent s) :
    s.toAddress? network = some address ↔
      ∃ hash : Hash160, (s.data = Output.p2pkh hash ∧ address = .p2pkh network hash) ∨
        (s.data = Output.p2sh hash ∧ address = .p2sh network hash) := by
  constructor
  · intro haddress
    by_cases hkey : s.isPayToPublicKeyHash = true
    · obtain ⟨hash, hdata⟩ := h.isPayToPublicKeyHash_iff.1 hkey
      rw [h.toAddress?_p2pkh hdata] at haddress
      cases haddress
      exact ⟨hash, .inl ⟨hdata, rfl⟩⟩
    · by_cases hscript : s.isPayToScriptHash = true
      · obtain ⟨hash, hdata⟩ := h.isPayToScriptHash_iff.1 hscript
        rw [h.toAddress?_p2sh hdata] at haddress
        cases haddress
        exact ⟨hash, .inr ⟨hdata, rfl⟩⟩
      · simp [toAddress?, hkey, hscript] at haddress
  · rintro ⟨hash, ⟨hdata, rfl⟩ | ⟨hdata, rfl⟩⟩
    · exact h.toAddress?_p2pkh hdata network
    · exact h.toAddress?_p2sh hdata network

/-! ## The script of an address -/

theorem aroundPush_hash (before after : Bytes) (hash : Hash160) :
    aroundPush before hash.bytes after =
      (parse (before ++ Output.hashLead :: hash.bytes ++ after)).mapError .codec := by
  rw [aroundPush, Output.encodePush_hash]
  rfl

theorem ofAddress_p2pkh (network : Network) (hash : Hash160) :
    ofAddress (.p2pkh network hash) = .ok (p2pkh hash) := by
  have hparse : aroundPush [Op.dup, Op.hash160] hash.bytes [Op.equalVerify, Op.checkSig] =
      (parse (Output.p2pkh hash)).mapError .codec := aroundPush_hash _ _ hash
  rw [parse_p2pkh] at hparse
  unfold ofAddress
  rw [if_neg (by simp [Address.p2pkh])]
  exact hparse

theorem ofAddress_p2sh (network : Network) (hash : Hash160) :
    ofAddress (.p2sh network hash) = .ok (ofDecoded (place 0 (Output.p2shOps hash)) (Output.p2sh hash)) := by
  have hparse : aroundPush [Op.hash160] hash.bytes [Op.equal] =
      (parse (Output.p2sh hash)).mapError .codec := aroundPush_hash _ _ hash
  rw [parse_p2sh] at hparse
  unfold ofAddress
  rw [if_neg (by simp [Address.p2sh])]
  exact hparse

/-- The script built for the address of a script is that script again, chunk by chunk. -/
theorem Coherent.ofAddress_of_toAddress? (h : Coherent s) (haddress : s.toAddress? network = some address) :
    ∃ built, ofAddress address = .ok built ∧ (built == s) = true ∧ built.chunks = s.chunks := by
  rcases h.toAddress?_eq_some_iff.1 haddress with ⟨hash, ⟨hdata, rfl⟩ | ⟨hdata, rfl⟩⟩
  · refine ⟨_, ofAddress_p2pkh network hash, ?_, (h.chunks_of_parse (hdata ▸ parse_p2pkh hash)).symm⟩
    exact beq_iff_data_eq.2 hdata.symm
  · refine ⟨_, ofAddress_p2sh network hash, ?_, (h.chunks_of_parse (hdata ▸ parse_p2sh hash)).symm⟩
    exact beq_iff_data_eq.2 hdata.symm

/-- An address with a template is the address of the script built for it. -/
theorem exists_ofAddress (hkind : address.kind ≠ .other) (hlen : address.hash.length = 20) :
    ∃ built, ofAddress address = .ok built ∧ built.toAddress? address.network = some address := by
  obtain ⟨network, hash, rfl | rfl⟩ := Address.exists_hash_of_template hkind hlen
  · exact ⟨_, ofAddress_p2pkh network hash, (coherent_p2pkh hash).toAddress?_p2pkh rfl network⟩
  · have hbuilt := ofAddress_p2sh network hash
    exact ⟨_, hbuilt, (coherent_of_ofAddress hbuilt).toAddress?_p2sh rfl network⟩

/-! ## Both ways -/

/-- Scripts and addresses determine each other. A reachable script has an address exactly if its bytes are
one of the two templates, and then the one with the hash and the kind of the template; the script built
for that address is equal to it with the same chunks, and the text of that address reads back as it. Every
address with a template and twenty bytes is the address of the script built for it; the script that pays
to the hash of a key, written out chunk by chunk, has the chunks of its bytes; and no script is built for
a hash of any other length, nor, that said, for a destination without a template. -/
theorem toAddress?_ofAddress_inverse (digests : Digests) :
    (∀ s : Script, Reachable s → ∀ (network : Network) (address : Address),
      (s.toAddress? network = some address ↔
        ∃ hash : Hash160, (s.data = Output.p2pkh hash ∧ address = ⟨network, .pubKeyHash, hash.bytes⟩) ∨
          (s.data = Output.p2sh hash ∧ address = ⟨network, .scriptHash, hash.bytes⟩)) ∧
      (s.toAddress? network = some address →
        (∃ built, ofAddress address = .ok built ∧ (built == s) = true ∧ built.chunks = s.chunks) ∧
        ∃ text, address.toBase58 digests = .ok text ∧
          Address.ofBase58 digests text network = .ok address)) ∧
    (∀ address : Address, address.kind ≠ .other → address.hash.length = 20 →
      ∃ built, ofAddress address = .ok built ∧ built.toAddress? address.network = some address) ∧
    (∀ hash : Hash160, decodeAll (Output.p2pkh hash) = .ok (p2pkh hash).chunks) ∧
    (∀ address : Address, address.hash.length ≠ 20 →
      ofAddress address = .error (.invalidAddressHash address.hash.length)) ∧
    ∀ address : Address, address.hash.length = 20 → address.kind = .other →
      ofAddress address = .error (.unsupportedAddress .other) := by
  refine ⟨fun s hs network address => ⟨hs.coherent.toAddress?_eq_some_iff, fun haddress => ?_⟩,
    fun address => exists_ofAddress, fun hash => ?_, fun address hlen => ?_, fun address hlen hkind => ?_⟩
  · refine ⟨hs.coherent.ofAddress_of_toAddress? haddress, ?_⟩
    have htemplate : address.network = network ∧ address.kind ≠ .other ∧ address.hash.length = 20 := by
      rcases hs.coherent.toAddress?_eq_some_iff.1 haddress with ⟨hash, ⟨-, rfl⟩ | ⟨-, rfl⟩⟩
      · exact ⟨rfl, by simp [Address.p2pkh], Digest.length_bytes hash⟩
      · exact ⟨rfl, by simp [Address.p2sh], Digest.length_bytes hash⟩
    obtain ⟨hnetwork, hkind, hlen⟩ := htemplate
    obtain ⟨text, htext⟩ := Address.exists_toBase58 digests hkind
    exact ⟨text, htext, Address.ofBase58_eq_ok_iff.2 ⟨hnetwork, hlen, htext⟩⟩
  · obtain ⟨chunks, hchunks, heq⟩ := parse_eq_ok_iff.1 (parse_p2pkh hash)
    rw [hchunks, heq]
    rfl
  · unfold ofAddress
    exact if_pos hlen
  · unfold ofAddress
    rw [if_neg (not_not_intro hlen), hkind]

/-- A script that pays to the hash of a script, one that only resembles it because it pushes the hash in a
longer form, and two destinations that no script is built for. -/
theorem toAddress?_ofAddress_inverse_of_longer_push :
    let hash : Hash160 := ⟨List.replicate 20 0x07, rfl⟩
    let address : Address := .p2sh .testnet hash
    let paying := ofDecoded (place 0 (Output.p2shOps hash)) (Output.p2sh hash)
    let resembling := ofDecoded [⟨.opcode Op.hash160, 0, 1⟩, ⟨.push Op.pushData1 hash.bytes, 1, 23⟩,
      ⟨.opcode Op.equal, 23, 24⟩] ([Op.hash160, Op.pushData1, 0x14] ++ hash.bytes ++ [Op.equal])
    Reachable paying ∧ paying.toAddress? .testnet = some address ∧
      (∃ built, ofAddress address = .ok built ∧ (built == paying) = true ∧ built.chunks = paying.chunks) ∧
      Reachable resembling ∧ resembling.toAddress? .testnet = none ∧
      (∃ built, ofAddress address = .ok built ∧ built.toAddress? .testnet = some address) ∧
      ofAddress ⟨.testnet, .other, [0x07]⟩ = .error (.invalidAddressHash 1) ∧
      ofAddress ⟨.testnet, .other, hash.bytes⟩ = .error (.unsupportedAddress .other) := by
  intro hash address paying resembling
  obtain ⟨hscript, hbuilt, -, hlength, hkind⟩ := toAddress?_ofAddress_inverse Digests.standard
  have hpaying : Reachable paying := .parse (parse_p2sh hash)
  have haddress : paying.toAddress? .testnet = some address :=
    (hscript paying hpaying .testnet address).1.2 ⟨hash, .inr ⟨rfl, rfl⟩⟩
  have hparse : parse ([Op.hash160, Op.pushData1, 0x14] ++ hash.bytes ++ [Op.equal]) = .ok resembling :=
    parse_eq_ok_iff.2 ⟨_, decodeAll_eq_ok_iff.2 ⟨by decide, rfl⟩, rfl⟩
  have hresembling : Reachable resembling := .parse hparse
  refine ⟨hpaying, haddress, ((hscript paying hpaying .testnet address).2 haddress).1, hresembling, ?_,
    hbuilt address (by decide) rfl, hlength _ (by decide), hkind _ rfl rfl⟩
  rw [Option.eq_none_iff_forall_ne_some]
  intro other hother
  -- the longer form gives it a length that neither template has
  obtain ⟨hash', ⟨hdata, -⟩ | ⟨hdata, -⟩⟩ := (hscript resembling hresembling .testnet other).1.1 hother
  · have hlen := congrArg List.length hdata
    simp [Output.p2pkh] at hlen
    cases hlen
  · have hlen := congrArg List.length hdata
    simp [Output.p2sh] at hlen
    cases hlen

end Script

end CoinScript
