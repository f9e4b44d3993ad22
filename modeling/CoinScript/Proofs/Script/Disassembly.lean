/-
The text of a script tells its operations apart. Tokens have no blank, so a text with its blanks taken out gives back
the tokens, unless there was none: no token and one empty token are written the same. A token gives back what the
operation does: no two bytes share a name, an unknown byte is spelt out behind a name that no known one has, and a
name starts with a letter that is no hexadecimal digit. So two scripts have the same text if they do the same in the
same order, whatever the forms of their pushes, and else only if one is empty and the other a single empty push.
-/
import CoinScript.Proofs.Script.PushForms

namespace CoinScript

/-! ## Hexadecimal tokens -/

namespace Hex

theorem encode_injective : Function.Injective encode := fun a b h => by
  have hread := decode?_encode a
  rw [h, decode?_encode] at hread
  exact (Option.some.inj hread).symm

theorem toList_encode (bs : Bytes) : (encode bs).toList = encodeChars bs := String.toList_ofList

theorem exists_digitChar_of_mem {c : Char} {bs : Bytes} (h : c ∈ encodeChars bs) : ∃ n < 16, c = Nat.digitChar n := by
  unfold encodeChars at h
  obtain ⟨b, -, hc⟩ := List.mem_flatMap.1 h
  have hb := b.toNat_lt
  unfold byteChars at hc
  rcases List.mem_pair.1 hc with rfl | rfl
  · exact ⟨b.toNat / 16, by omega, rfl⟩
  · exact ⟨b.toNat % 16, by omega, rfl⟩

theorem not_mem_encodeChars {c : Char} (hc : ∀ n < 16, c ≠ Nat.digitChar n) (bs : Bytes) : c ∉ encodeChars bs := by
  intro hmem
  obtain ⟨n, hn, rfl⟩ := exists_digitChar_of_mem hmem
  exact hc n hn rfl

theorem blank_not_mem_encodeChars (bs : Bytes) : ' ' ∉ encodeChars bs := not_mem_encodeChars (by decide) bs

end Hex

/-! ## Names -/

namespace Op

variable {op other : UInt8} {name : String}

/-- The names that stand for one byte alone. -/
def names : List String := "OP_0" :: "OP_INVALIDOPCODE" :: runNames

/-- Where the name of a byte stands among the names, if it has one. -/
def slot (op : UInt8) : Nat :=
  if op = zero then 0 else if op = invalid then 1 else op.toNat - pushData1.toNat + 2

theorem nodup_names : names.Nodup := by
  unfold names runNames
  simp

/-- A name starts with a letter that is no hexadecimal digit, has no blank, and does not go on like the name that
unknown bytes share. -/
theorem shape_of_mem_names :
    ∀ name ∈ names, name.toList.head? = some 'O' ∧ name.toList[3]? ≠ some 'U' ∧ ' ' ∉ name.toList := by
  decide +kernel

theorem getElem?_slot (h : knownName? op = some name) : names[slot op]? = some name := by
  unfold knownName? at h
  unfold slot
  split_ifs at h ⊢
  · exact h
  · exact h
  · exact h

theorem mem_names (h : knownName? op = some name) : name ∈ names := List.mem_of_getElem? (getElem?_slot h)

/-- Each of the three places that a name can have is that of one byte. -/
theorem slot_cases (h : knownName? op = some name) :
    (op.toNat = 0 ∧ slot op = 0) ∨ (op.toNat = 255 ∧ slot op = 1) ∨ (76 ≤ op.toNat ∧ slot op = op.toNat - 76 + 2) := by
  unfold knownName? at h
  unfold slot
  split_ifs at h ⊢ with hzero hinvalid hlow
  · exact .inl ⟨by rw [hzero]; rfl, rfl⟩
  · exact .inr (.inl ⟨by rw [hinvalid]; rfl, rfl⟩)
  · exact .inr (.inr ⟨UInt8.le_iff_toNat_le.1 (UInt8.not_lt.1 hlow), rfl⟩)

/-- No two bytes share a name. -/
theorem eq_of_knownName?_eq (hop : knownName? op = some name) (hother : knownName? other = some name) : op = other := by
  have hslot := getElem?_slot hop
  have hslot' := getElem?_slot hother
  have hlt : slot op < names.length := (List.getElem?_eq_some_iff.1 hslot).1
  have heq : slot op = slot other := by rw [← List.getElem?_inj hlt nodup_names, hslot, hslot']
  have hplace := slot_cases hop
  have hplace' := slot_cases hother
  exact UInt8.toNat_inj.1 (by omega)

/-! ## Tokens of opcodes -/

theorem toList_unknown (op : UInt8) :
    ("OP_UNKNOWN_" ++ Hex.ofByte op).toList =
      ['O', 'P', '_', 'U', 'N', 'K', 'N', 'O', 'W', 'N', '_', '0', 'x'] ++ Hex.encodeChars [op] := by
  unfold Hex.ofByte
  rw [String.toList_append, String.toList_append, Hex.toList_encode]
  rfl

theorem eq_of_unknown_eq (h : "OP_UNKNOWN_" ++ Hex.ofByte op = "OP_UNKNOWN_" ++ Hex.ofByte other) : op = other := by
  have hchars := congrArg String.toList h
  rw [toList_unknown, toList_unknown, ← Hex.toList_encode, ← Hex.toList_encode] at hchars
  have hencode : Hex.encode [op] = Hex.encode [other] := String.toList_inj.1 (List.append_cancel_left hchars)
  exact List.singleton_inj.1 (Hex.encode_injective hencode)

theorem shape_token (op : UInt8) : (token op).toList.head? = some 'O' ∧ ' ' ∉ (token op).toList := by
  unfold token
  cases h : knownName? op with
  | some name =>
    obtain ⟨hhead, -, hblank⟩ := shape_of_mem_names name (mem_names h)
    exact ⟨hhead, hblank⟩
  | none =>
    rw [Option.getD_none, toList_unknown]
    refine ⟨rfl, fun hmem => ?_⟩
    rcases List.mem_append.1 hmem with hfront | hdigits
    · exact absurd hfront (by decide)
    · exact Hex.blank_not_mem_encodeChars [op] hdigits

theorem token_ne_unknown (h : knownName? op = some name) : name ≠ "OP_UNKNOWN_" ++ Hex.ofByte other := by
  obtain ⟨-, hletter, -⟩ := shape_of_mem_names name (mem_names h)
  rintro rfl
  rw [toList_unknown] at hletter
  exact hletter rfl

/-- The token of an opcode tells its byte. -/
theorem token_injective : Function.Injective token := by
  intro op other h
  unfold token at h
  cases hop : knownName? op with
  | some name =>
    cases hother : knownName? other with
    | some name' =>
      rw [hop, hother, Option.getD_some, Option.getD_some] at h
      exact eq_of_knownName?_eq (h ▸ hop) hother
    | none =>
      rw [hop, hother, Option.getD_some, Option.getD_none] at h
      exact absurd h (token_ne_unknown hop)
  | none =>
    cases hother : knownName? other with
    | some name' =>
      rw [hop, hother, Option.getD_some, Option.getD_none] at h
      exact absurd h.symm (token_ne_unknown hother)
    | none =>
      rw [hop, hother, Option.getD_none, Option.getD_none] at h
      exact eq_of_unknown_eq h

end Op

/-! ## Tokens of operations -/

namespace Operation

variable {op other : Operation}

theorem blank_not_mem_text (op : Operation) : ' ' ∉ op.text.toList := by
  cases op with
  | opcode byte => exact (Op.shape_token byte).2
  | push lead payload =>
    unfold text
    rw [Hex.toList_encode]
    exact Hex.blank_not_mem_encodeChars payload

theorem token_ne_encode (byte : UInt8) (payload : Bytes) : Op.token byte ≠ Hex.encode payload := by
  intro h
  have hhead := (Op.shape_token byte).1
  rw [h, Hex.toList_encode] at hhead
  exact Hex.not_mem_encodeChars (c := 'O') (by decide) payload (List.mem_of_head? hhead)

/-- The token of an operation tells what it does, and nothing else. -/
theorem text_eq_iff : op.text = other.text ↔ op.content = other.content := by
  rcases op with byte | ⟨lead, payload⟩ <;> rcases other with byte' | ⟨lead', payload'⟩ <;> unfold text content
  · rw [Op.token_injective.eq_iff, Sum.inl.injEq]
  · exact iff_of_false (token_ne_encode byte payload') nofun
  · exact iff_of_false (token_ne_encode byte' payload).symm nofun
  · rw [Hex.encode_injective.eq_iff, Sum.inr.injEq]

theorem text_eq_empty_iff : op.text = "" ↔ op.content = .inr [] := by
  have hempty : (push Op.pushData1 []).text = "" := rfl
  rw [← hempty, text_eq_iff]
  rfl

end Operation

/-! ## Texts -/

/-- Without its blanks a text of tokens gives back the tokens; that of no token reads as one empty token. -/
theorem splitOn_intercalate_tokens {tokens : List (List Char)} (h : ∀ token ∈ tokens, ' ' ∉ token) :
    ([' '].intercalate tokens).splitOn ' ' = if tokens = [] then [[]] else tokens := by
  split
  · next hnone =>
    rw [hnone]
    rfl
  · next hsome => exact List.splitOn_intercalate ' ' h hsome

theorem eq_iff_splitOn_eq {text other : String} : text = other ↔ text.toList.splitOn ' ' = other.toList.splitOn ' ' := by
  constructor
  · rintro rfl
    rfl
  · intro h
    have htext : [' '].intercalate (text.toList.splitOn ' ') = text.toList := List.intercalate_splitOn ' '
    have hother : [' '].intercalate (other.toList.splitOn ' ') = other.toList := List.intercalate_splitOn ' '
    apply String.toList_inj.1
    rw [← htext, h, hother]

theorem toList_disassemble (chunks : List Chunk) :
    (disassemble chunks).toList = [' '].intercalate (chunks.map fun c => c.operation.text.toList) := by
  unfold disassemble
  rw [String.toList_intercalate, List.map_map]
  rfl

namespace Script

variable {bytes bytes' : Bytes} {a b : Script}

/-- The tokens of a script. -/
def tokens (s : Script) : List (List Char) := s.operations.map fun op => op.text.toList

theorem tokens_eq_nil_iff : a.tokens = [] ↔ a.contents = [] := by
  unfold tokens contents
  rw [List.map_eq_nil_iff, List.map_eq_nil_iff]

/-- Scripts have the same tokens exactly if they do the same. -/
theorem tokens_eq_iff : a.tokens = b.tokens ↔ a.contents = b.contents := by
  unfold tokens contents
  generalize a.operations = ops
  generalize b.operations = others
  induction ops generalizing others with
  | nil => cases others <;> simp
  | cons op ops ih =>
    cases others with
    | nil => simp
    | cons other others =>
      simp only [List.map_cons, List.cons.injEq, String.toList_inj, Operation.text_eq_iff, ih]

/-- The one empty token is that of an empty push. -/
theorem tokens_eq_singleton_nil_iff : a.tokens = [[]] ↔ a.contents = [.inr []] := by
  unfold tokens contents
  simp [List.map_eq_singleton_iff, Operation.text_eq_empty_iff]

theorem splitOn_text (h : parse bytes = .ok a) :
    a.text.toList.splitOn ' ' = if a.contents = [] then [[]] else a.tokens := by
  have htokens : a.text.toList = [' '].intercalate a.tokens := by
    rw [(coherent_of_parse h).text_eq, toList_disassemble]
    simp [tokens, operations, Function.comp_def]
  have hblank : ∀ token ∈ a.tokens, ' ' ∉ token := by
    intro token htoken
    obtain ⟨op, -, rfl⟩ := List.mem_map.1 htoken
    exact op.blank_not_mem_text
  rw [htokens, splitOn_intercalate_tokens hblank]
  simp only [tokens_eq_nil_iff]

theorem text_eq_empty_iff (h : parse bytes = .ok a) : a.text = "" ↔ a.contents = [] ∨ a.contents = [.inr []] := by
  have hempty : a.text = "" ↔ a.text.toList.splitOn ' ' = [[]] := eq_iff_splitOn_eq
  rw [hempty, splitOn_text h]
  split
  · next hnone => simp [hnone]
  · next hsome => rw [tokens_eq_singleton_nil_iff, or_iff_right hsome]

/-- Two parsed scripts have the same text exactly if they have the same contents, opcodes by their byte and pushes
by their payload in whatever form, or one is the empty script and the other a single push of the empty payload.
These two, and no other, have the empty text. -/
theorem text_tells_contents (ha : parse bytes = .ok a) (hb : parse bytes' = .ok b) :
    (a.text = b.text ↔
      a.contents = b.contents ∨ (a.contents = [] ∧ b.contents = [.inr []]) ∨
        (a.contents = [.inr []] ∧ b.contents = [])) ∧
      (a.text = "" ↔ a.contents = [] ∨ a.contents = [.inr []]) := by
  refine ⟨?_, text_eq_empty_iff ha⟩
  rw [eq_iff_splitOn_eq, splitOn_text ha, splitOn_text hb]
  by_cases hnone : a.contents = [] <;> by_cases hnone' : b.contents = []
  · simp [hnone, hnone']
  · rw [if_pos hnone, if_neg hnone', eq_comm, tokens_eq_singleton_nil_iff]
    simp [hnone, hnone', Ne.symm hnone']
  · rw [if_neg hnone, if_pos hnone', tokens_eq_singleton_nil_iff]
    simp [hnone', hnone]
  · rw [if_neg hnone, if_neg hnone', tokens_eq_iff]
    simp [hnone, hnone']

/-- Two pushes of a byte behind an opcode have the same text; and an empty push has that of the empty script,
though it does something else. -/
theorem text_tells_contents_of_forms :
    let long := ofDecoded [⟨.opcode 0x76, 0, 1⟩, ⟨.push 0x4c [0xaa], 1, 4⟩] [0x76, 0x4c, 0x01, 0xaa]
    let short := ofDecoded [⟨.opcode 0x76, 0, 1⟩, ⟨.push 0x01 [0xaa], 1, 3⟩] [0x76, 0x01, 0xaa]
    let push := ofDecoded [⟨.push 0x4c [], 0, 2⟩] [0x4c, 0x00]
    (parse [0x76, 0x4c, 0x01, 0xaa] = .ok long ∧ parse [0x76, 0x01, 0xaa] = .ok short ∧ long.text = short.text) ∧
      parse [0x4c, 0x00] = .ok push ∧ parse [] = .ok (ofDecoded [] []) ∧ push.text = (ofDecoded [] []).text ∧
      push.contents ≠ (ofDecoded [] []).contents ∧ push.text ≠ short.text := by
  intro long short push
  have hlong : parse [0x76, 0x4c, 0x01, 0xaa] = .ok long :=
    parse_eq_ok_iff.2 ⟨_, decodeAll_eq_ok_iff.2 ⟨by decide, rfl⟩, rfl⟩
  have hshort : parse [0x76, 0x01, 0xaa] = .ok short :=
    parse_eq_ok_iff.2 ⟨_, decodeAll_eq_ok_iff.2 ⟨by decide, rfl⟩, rfl⟩
  have hpush : parse [0x4c, 0x00] = .ok push :=
    parse_eq_ok_iff.2 ⟨_, decodeAll_eq_ok_iff.2 ⟨by decide, rfl⟩, rfl⟩
  have hempty : parse [] = .ok (ofDecoded [] []) :=
    parse_eq_ok_iff.2 ⟨_, decodeAll_eq_ok_iff.2 ⟨by decide, rfl⟩, rfl⟩
  have hsame : long.text = short.text := (text_tells_contents hlong hshort).1.2 (.inl rfl)
  have hboth : push.text = (ofDecoded [] []).text := (text_tells_contents hpush hempty).1.2 (.inr (.inr ⟨rfl, rfl⟩))
  have hother : push.text ≠ short.text := fun h => by
    rcases (text_tells_contents hpush hshort).1.1 h with h | ⟨h, -⟩ | ⟨-, h⟩ <;> cases h
  exact ⟨⟨hlong, hshort, hsame⟩, hpush, hempty, hboth, nofun, hother⟩

end Script

end CoinScript
