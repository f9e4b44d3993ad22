/-
The held views of a script never lie. Whatever it was made from and however it was edited, the
chunks of a script are what their own bytes decode to, and each view that is held is the one that
the chunks give. One exception is allowed: a script built from terms with an empty key holds those
terms although its chunks, which push that key by an opcode, spell none.

Coherence holds of every constructor's script, and rebuilding keeps it whether the new bytes decode
or not; since an edit rebuilds the script or leaves it alone, it holds of every reachable script.
-/
import CoinScript.Proofs.Script.Edit
import CoinScript.Proofs.Script.Multisig

namespace CoinScript.Script

/-! ## Reachable scripts -/

/-- The scripts that can be made and edited into being. A copy of a script is that script, so it is
not listed; an edit that fails counts with the state that it leaves. -/
inductive Reachable : Script → Prop where
  | empty : Reachable .empty
  | parse {bytes : Bytes} {s : Script} : Script.parse bytes = .ok s → Reachable s
  | ofHex {text : String} {s : Script} : Script.ofHex text = .ok s → Reachable s
  | ofAddress {address : Address} {s : Script} : Script.ofAddress address = .ok s → Reachable s
  | ofMultisig {keys : List PublicKey} {required : Nat} {s : Script} :
      Script.ofMultisig keys required = .ok s → Reachable s
  | p2pkh (hash : Hash160) : Reachable (Script.p2pkh hash)
  | subScriptFrom {s part : Script} {position : Nat} :
      Reachable s → s.subScriptFrom? position = some part → Reachable part
  | subScriptTo {s part : Script} {position : Nat} :
      Reachable s → s.subScriptTo? position = some part → Reachable part
  | appendOpcode {s : Script} (op : UInt8) : Reachable s → Reachable ((appendOpcode op).run s).state
  | appendData {s : Script} (payload : Bytes) : Reachable s → Reachable ((appendData payload).run s).state
  | appendScript {s other : Script} :
      Reachable s → Reachable other → Reachable ((appendScript other).run s).state
  | deleteData {s : Script} (payload : Bytes) : Reachable s → Reachable ((deleteData payload).run s).state
  | deleteOpcode {s : Script} (op : UInt8) : Reachable s → Reachable ((deleteOpcode op).run s).state
  | invalidate {s : Script} : Reachable s → Reachable s.invalidate
  /-- Asking for a view holds it from then on. -/
  | hold {s : Script} (view : View) : Reachable s → Reachable (s.hold view)

/-! ## Coherence -/

/-- The terms are those that a script with an empty key and exactly these chunks was built from, and
the chunks spell none. -/
def Seeded (chunks : List Chunk) (terms : Multisig) : Prop :=
  (∃ key ∈ terms.keys, key.bytes = []) ∧
    (∃ seed, ofMultisig terms.keys terms.required = .ok seed ∧ seed.chunks = chunks) ∧
    Multisig.ofChunks? chunks = none

/-- The chunks are what their bytes decode to, and every held view is the one that they give, except
for terms that the script was built from and that do not show in them. -/
structure Coherent (s : Script) : Prop where
  chunks : decodeAll (serialize s.chunks) = .ok s.chunks
  data : ∀ bytes, s.held.data = some bytes → bytes = serialize s.chunks
  text : ∀ text, s.held.text = some text → text = " ".intercalate (s.chunks.map fun c => c.operation.text)
  multisig : ∀ terms?, s.held.multisig = some terms? →
    terms? = Multisig.ofChunks? s.chunks ∨ ∃ terms, terms? = some terms ∧ Seeded s.chunks terms

theorem coherent_ofDecoded {bytes : Bytes} {chunks : List Chunk} (h : decodeAll bytes = .ok chunks) :
    Coherent (ofDecoded chunks bytes) where
  chunks := decodeAll_serialize_of_decodeAll h
  data _ hheld := by cases hheld; exact (serialize_of_decodeAll h).symm
  text _ hheld := by cases hheld
  multisig _ hheld := by cases hheld

/-- Dropping the views leaves nothing that could lie. -/
theorem Coherent.invalidate {s : Script} (h : Coherent s) : Coherent s.invalidate where
  chunks := h.chunks
  data _ hheld := by cases hheld
  text _ hheld := by cases hheld
  multisig _ hheld := by cases hheld

theorem Coherent.data_eq {s : Script} (h : Coherent s) : s.data = serialize s.chunks := by
  rw [Script.data]
  cases hheld : s.held.data with
  | none => rfl
  | some bytes => exact h.data bytes hheld

theorem Coherent.text_eq {s : Script} (h : Coherent s) : s.text = disassemble s.chunks := by
  rw [Script.text]
  cases hheld : s.held.text with
  | none => rfl
  | some text => exact h.text text hheld

theorem Coherent.multisig?_eq {s : Script} (h : Coherent s) :
    s.multisig? = Multisig.ofChunks? s.chunks ∨ ∃ terms, s.multisig? = some terms ∧ Seeded s.chunks terms := by
  rw [Script.multisig?]
  cases hheld : s.held.multisig with
  | none => exact .inl rfl
  | some terms? => exact h.multisig terms? hheld

/-- What is asked for was right, so it may be held. -/
theorem Coherent.hold {s : Script} (h : Coherent s) (view : View) : Coherent (s.hold view) := by
  cases view with
  | data => exact { h with data := fun _ hheld => by cases hheld; exact h.data_eq }
  | text => exact { h with text := fun _ hheld => by cases hheld; exact h.text_eq }
  | multisig => exact { h with multisig := fun _ hheld => by cases hheld; exact h.multisig?_eq }

/-! ## Constructors -/

theorem coherent_empty : Coherent .empty where
  chunks := decodeFrom_nil 0
  data _ hheld := by cases hheld
  text _ hheld := by cases hheld
  multisig _ hheld := by cases hheld

theorem coherent_of_parse {bytes : Bytes} {s : Script} (h : parse bytes = .ok s) : Coherent s := by
  obtain ⟨chunks, hbytes, rfl⟩ := parse_eq_ok_iff.1 h
  exact coherent_ofDecoded hbytes

theorem coherent_of_mapError_parse {bytes : Bytes} {s : Script}
    (h : (parse bytes).mapError ScriptError.codec = .ok s) : Coherent s := by
  cases hparse : parse bytes with
  | error cause => rw [hparse] at h; cases h
  | ok parsed =>
    rw [hparse] at h
    cases h
    exact coherent_of_parse hparse

theorem coherent_of_ofHex {text : String} {s : Script} (h : ofHex text = .ok s) : Coherent s := by
  rw [ofHex] at h
  split at h
  · cases h
  · exact coherent_of_mapError_parse h

theorem coherent_of_aroundPush {before payload after : Bytes} {s : Script}
    (h : aroundPush before payload after = .ok s) : Coherent s := by
  rw [aroundPush] at h
  split at h
  · cases h
  · exact coherent_of_mapError_parse h

theorem coherent_of_ofAddress {address : Address} {s : Script} (h : ofAddress address = .ok s) :
    Coherent s := by
  rw [ofAddress] at h
  split at h
  · cases h
  · split at h
    · exact coherent_of_aroundPush h
    · exact coherent_of_aroundPush h
    · cases h

theorem coherent_p2pkh (hash : Hash160) : Coherent (p2pkh hash) :=
  coherent_of_parse (parse_p2pkh hash)

/-- The terms that a script was built from are those that its chunks spell, or one of the keys is
empty and they spell none. -/
theorem coherent_of_ofMultisig {keys : List PublicKey} {required : Nat} {s : Script}
    (h : ofMultisig keys required = .ok s) : Coherent s := by
  obtain ⟨hle, hroom, requiredOp, countOp, hrequired, hcount, hs⟩ := ofMultisig_eq_ok_iff.1 h
  have hops := wellFormed_multisigOps hrequired hcount hroom
  have hcoherent := coherent_of_parse (parse_flatMap_bytes hops)
  subst hs
  refine { chunks := hcoherent.chunks, data := hcoherent.data, text := hcoherent.text, multisig := ?_ }
  intro terms? hheld
  cases hheld
  -- an empty key is the one reason for chunks to keep the terms to themselves
  by_cases hempty : ∃ key ∈ keys, key.bytes = []
  · obtain ⟨key, hkey, hnil⟩ := hempty
    exact .inr ⟨_, rfl, ⟨key, hkey, hnil⟩, ⟨_, h, rfl⟩, ofChunks?_multisigOf_of_empty_key hkey hnil⟩
  · refine .inl (ofChunks?_multisigOf hrequired hcount hle hroom ?_).symm
    exact fun key hkey hnil => hempty ⟨key, hkey, hnil⟩

theorem coherent_ofRun (chunks : List Chunk) : Coherent (ofRun chunks) := by
  unfold ofRun
  dsimp only
  split
  · next h => exact coherent_ofDecoded h
  · exact coherent_empty

/-! ## Edits -/

/-- Rebuilding keeps coherence: by the new chunks if the bytes decode, and by dropping every view if
they do not. -/
theorem Coherent.rebuild {s : Script} (h : Coherent s) (bytes : Bytes) :
    Coherent ((rebuild bytes).run s).state := by
  cases hbytes : decodeAll bytes with
  | ok chunks => rw [run_rebuild_ok hbytes]; exact coherent_ofDecoded hbytes
  | error cause => rw [run_rebuild_error hbytes]; exact h.invalidate

theorem Coherent.rebuilt {s after : Script} (h : Coherent s) (hafter : Rebuilt s after) : Coherent after := by
  rcases hafter with rfl | ⟨bytes, rfl⟩
  · exact h
  · exact h.rebuild bytes

theorem Reachable.coherent {s : Script} (h : Reachable s) : Coherent s := by
  induction h with
  | empty => exact coherent_empty
  | parse h => exact coherent_of_parse h
  | ofHex h => exact coherent_of_ofHex h
  | ofAddress h => exact coherent_of_ofAddress h
  | ofMultisig h => exact coherent_of_ofMultisig h
  | p2pkh hash => exact coherent_p2pkh hash
  | subScriptFrom _ hpart _ =>
    obtain ⟨-, hpart⟩ := Option.ite_none_right_eq_some.1 hpart
    cases hpart
    exact coherent_ofRun _
  | subScriptTo _ hpart _ =>
    obtain ⟨-, hpart⟩ := Option.ite_none_right_eq_some.1 hpart
    cases hpart
    exact coherent_ofRun _
  | appendOpcode op _ ih => exact ih.rebuilt (rebuilt_appendOpcode op _)
  | appendData payload _ ih => exact ih.rebuilt (rebuilt_appendData payload _)
  | appendScript _ _ ih _ => exact ih.rebuilt (rebuilt_appendScript _ _)
  | deleteData payload _ ih => exact ih.rebuilt (rebuilt_deleteData payload _)
  | deleteOpcode op _ ih => exact ih.rebuilt (rebuilt_deleteOpcode op _)
  | invalidate _ ih => exact ih.invalidate
  | hold view _ ih => exact ih.hold view

/-! ## What coherent scripts show -/

/-- Whatever terms a script shows, one to all of at most sixteen keys are required, and each key has a
chunk beside three others. -/
theorem Coherent.bounds {s : Script} (h : Coherent s) {terms : Multisig} (hterms : s.multisig? = some terms) :
    1 ≤ terms.required ∧ terms.required ≤ terms.keys.length ∧ terms.keys.length ≤ 16 ∧
      s.chunks.length = terms.keys.length + 3 := by
  rcases h.multisig?_eq with heq | ⟨seedTerms, heq, -, ⟨seed, hseed, hchunks⟩, -⟩ <;> rw [hterms] at heq
  · simpa using (Multisig.ofChunks?_eq_some_iff.1 heq.symm).bounds
  · cases heq
    obtain ⟨hle, -, requiredOp, countOp, hrequired, hcount, rfl⟩ := ofMultisig_eq_ok_iff.1 hseed
    have hone := (Op.ofSmallInt?_eq_some_iff.1 hrequired).1.1
    have hsixteen := (Op.ofSmallInt?_eq_some_iff.1 hcount).1.2
    refine ⟨hone, hle, hsixteen, ?_⟩
    rw [← hchunks, multisigOf, length_place, multisigOps]
    simp

theorem beq_iff_data_eq {a b : Script} : (a == b) = true ↔ a.data = b.data := by
  show (a.data == b.data) = true ↔ a.data = b.data
  exact beq_iff_eq

/-- Coherent scripts with the same bytes have the same chunks and the same text. -/
theorem Coherent.chunks_eq_of_beq {s other : Script} (hs : Coherent s) (hother : Coherent other)
    (h : (s == other) = true) : s.chunks = other.chunks ∧ s.text = other.text := by
  -- the bytes of each decode to its chunks, and they are the same bytes
  have hdata := beq_iff_data_eq.1 h
  rw [hs.data_eq, hother.data_eq] at hdata
  have hdecode := hs.chunks
  rw [hdata, hother.chunks] at hdecode
  have hchunks : s.chunks = other.chunks := (Except.ok.inj hdecode).symm
  exact ⟨hchunks, by rw [hs.text_eq, hother.text_eq, hchunks]⟩

/-- The views of a reachable script follow from its chunks, but for the terms of a script built with
an empty key; the terms it shows are within bounds; and reachable scripts that count as equal have
the same chunks and the same text. -/
theorem views_follow_chunks {s other : Script} (hs : Reachable s) (hother : Reachable other) :
    Coherent s ∧
      (∀ terms, s.multisig? = some terms →
        1 ≤ terms.required ∧ terms.required ≤ terms.keys.length ∧ terms.keys.length ≤ 16 ∧
          s.chunks.length = terms.keys.length + 3) ∧
      ((s == other) = true → s.chunks = other.chunks ∧ s.text = other.text) :=
  ⟨hs.coherent, fun _ hterms => hs.coherent.bounds hterms, hs.coherent.chunks_eq_of_beq hother.coherent⟩

/-- A script built with an empty key is equal to the one that its bytes decode to, which shows no
terms. -/
theorem views_follow_chunks_of_empty_key :
    let s := multisigOf [⟨[]⟩] 1 0x51 0x51
    let other := ofDecoded [⟨.opcode 0x51, 0, 1⟩, ⟨.opcode 0x00, 1, 2⟩, ⟨.opcode 0x51, 2, 3⟩,
      ⟨.opcode 0xae, 3, 4⟩] [0x51, 0x00, 0x51, 0xae]
    Reachable s ∧ Reachable other ∧ Coherent s ∧ s.multisig? = some ⟨1, [⟨[]⟩]⟩ ∧
      (1 ≤ 1 ∧ 1 ≤ 1 ∧ 1 ≤ 16 ∧ s.chunks.length = 1 + 3) ∧ other.multisig? = none ∧
      (s == other) = true ∧ s.chunks = other.chunks ∧ s.text = other.text := by
  intro s other
  have hbuilt : ofMultisig [⟨[]⟩] 1 = .ok s :=
    ofMultisig_eq_ok_iff.2 ⟨by decide, by decide, 0x51, 0x51, by decide, by decide, rfl⟩
  have hparse : parse [0x51, 0x00, 0x51, 0xae] = .ok other :=
    parse_eq_ok_iff.2 ⟨_, decodeAll_eq_ok_iff.2 ⟨by decide, rfl⟩, rfl⟩
  have hs : Reachable s := .ofMultisig hbuilt
  have hother : Reachable other := .parse hparse
  have hbeq : (s == other) = true := by decide
  obtain ⟨hcoherent, hbounds, heq⟩ := views_follow_chunks hs hother
  exact ⟨hs, hother, hcoherent, rfl, hbounds ⟨1, [⟨[]⟩]⟩ rfl, rfl, hbeq, heq hbeq⟩

end CoinScript.Script
