/-
The Base58 form of byte strings as a bijection. Every byte string is the reading of its text, and every
text over the alphabet is the text of what it reads as; no other text reads as anything. A text is its
digits, written each with a character of its own, and the digits are the bytes written anew in base 58
behind as many zeros, so both ways rest on the change of base being undone by the one back.
-/
import CoinScript.Base58
import CoinScript.Proofs.Radix

namespace CoinScript.Base58

open Radix

variable {bs ds : Bytes} {text : String}

/-! ## Characters and digits -/

theorem digitOfChar?_eq_some_iff {c : Char} {d : UInt8} :
    digitOfChar? c = some d ↔ d < 58 ∧ c = charOfDigit d := by
  constructor
  · intro h
    obtain ⟨i, hi, rfl⟩ := Option.map_eq_some_iff.1 h
    obtain ⟨hlen, hchar, -⟩ := List.idxOf?_eq_some_iff.1 hi
    have hlt : i < 58 := length_alphabet ▸ hlen
    have hi : i.toUInt8.toNat = i := Nat.mod_eq_of_lt (by omega)
    refine ⟨UInt8.lt_iff_toNat_lt.2 (hi.symm ▸ hlt), ?_⟩
    rw [charOfDigit, hi, List.getD_eq_getElem?_getD, List.getElem?_eq_getElem hlen, hchar]
    rfl
  · rintro ⟨hd, rfl⟩
    exact digitOfChar?_charOfDigit hd

/-- A text has digits exactly if it is their characters. -/
theorem mapM_digitOfChar?_eq_some_iff {cs : List Char} :
    cs.mapM digitOfChar? = some ds ↔ (∀ d ∈ ds, d < 58) ∧ cs = ds.map charOfDigit := by
  induction cs generalizing ds with
  | nil => cases ds <;> simp
  | cons c cs ih =>
    rw [List.mapM_cons]
    simp only [Option.bind_eq_bind, Option.bind_eq_some_iff, Option.pure_def, Option.some.injEq, ih,
      digitOfChar?_eq_some_iff]
    constructor
    · rintro ⟨d, ⟨hd, rfl⟩, rest, ⟨hrest, rfl⟩, rfl⟩
      exact ⟨List.forall_mem_cons.2 ⟨hd, hrest⟩, rfl⟩
    · rintro ⟨hlt, hchars⟩
      cases ds with
      | nil => cases hchars
      | cons d rest =>
        obtain ⟨rfl, rfl⟩ := List.cons.inj hchars
        obtain ⟨hd, hrest⟩ := List.forall_mem_cons.1 hlt
        exact ⟨d, ⟨hd, rfl⟩, rest, ⟨hrest, rfl⟩, rfl⟩

theorem isSome_mapM_digitOfChar?_iff {cs : List Char} :
    (cs.mapM digitOfChar?).isSome ↔ ∀ c ∈ cs, c ∈ alphabet := by
  induction cs with
  | nil => simp
  | cons c cs ih =>
    have hc : (digitOfChar? c).isSome ↔ c ∈ alphabet := by
      rw [digitOfChar?, Option.isSome_map, List.isSome_idxOf?]
    rw [List.mapM_cons, List.forall_mem_cons, ← hc, ← ih]
    cases digitOfChar? c with
    | none => simp
    | some d => cases cs.mapM digitOfChar? <;> simp

/-! ## Bytes of texts -/

/-- The bytes of a text. -/
def bytesOf (text : String) : Bytes := text.toUTF8.data.toList

theorem bytesOf_eq (text : String) : bytesOf text = text.toList.flatMap String.utf8EncodeChar := by
  rw [bytesOf, String.toUTF8, ← String.utf8Encode_toList, List.utf8Encode, List.toList_data_toByteArray]

theorem utf8EncodeChar_of_lt {c : Char} (h : c.toNat < 128) :
    String.utf8EncodeChar c = [UInt8.ofNat c.toNat] := by
  rw [String.utf8EncodeChar]
  exact if_pos (Nat.le_of_lt_succ h)

/-- A character behind the first 128 starts with a byte that is none of them. -/
theorem exists_mem_utf8EncodeChar {c : Char} (h : 128 ≤ c.toNat) :
    ∃ b ∈ String.utf8EncodeChar c, 128 ≤ b.toNat := by
  have hmany : ¬ c.val.toNat ≤ 127 := Nat.not_le_of_lt h
  rw [String.utf8EncodeChar]
  simp only [if_neg hmany]
  split
  · exact ⟨_, List.mem_cons_self, by simp; omega⟩
  · split
    · exact ⟨_, List.mem_cons_self, by simp; omega⟩
    · exact ⟨_, List.mem_cons_self, by simp; omega⟩

theorem mem_bytesOf_alphabet_iff {b : UInt8} :
    b ∈ bytesOf (String.ofList alphabet) ↔ ∃ c ∈ alphabet, b.toNat = c.toNat ∧ c.toNat < 128 := by
  have hall : (alphabet.all fun c => c.toNat < 128) = true := by decide
  have hsmall : ∀ c ∈ alphabet, c.toNat < 128 := fun c hc => of_decide_eq_true (List.all_eq_true.1 hall c hc)
  rw [bytesOf_eq, String.toList_ofList, List.mem_flatMap]
  constructor
  · rintro ⟨c, hc, hb⟩
    rw [utf8EncodeChar_of_lt (hsmall c hc), List.mem_singleton] at hb
    have hlt := hsmall c hc
    refine ⟨c, hc, ?_, hlt⟩
    rw [hb, UInt8.toNat_ofNat']
    omega
  · rintro ⟨c, hc, hb, hlt⟩
    refine ⟨c, hc, ?_⟩
    rw [utf8EncodeChar_of_lt hlt, ← hb, UInt8.ofNat_toNat]
    exact List.mem_singleton_self b

/-- The bytes of a text are all of the alphabet exactly if its characters are. -/
theorem forall_mem_bytesOf_iff (text : String) :
    (∀ b ∈ bytesOf text, b ∈ bytesOf (String.ofList alphabet)) ↔ ∀ c ∈ text.toList, c ∈ alphabet := by
  constructor
  · intro h c hc
    rw [bytesOf_eq, List.forall_mem_flatMap] at h
    by_cases hlt : c.toNat < 128
    · have hbyte := h c hc (UInt8.ofNat c.toNat) (utf8EncodeChar_of_lt hlt ▸ List.mem_singleton_self _)
      obtain ⟨c', hmem, heq, -⟩ := mem_bytesOf_alphabet_iff.1 hbyte
      rw [UInt8.toNat_ofNat'] at heq
      have hsame : c = c' := Char.toNat_inj.1 (by omega)
      exact hsame ▸ hmem
    · obtain ⟨b, hb, hlarge⟩ := exists_mem_utf8EncodeChar (Nat.le_of_not_lt hlt)
      obtain ⟨c', -, heq, hlt'⟩ := mem_bytesOf_alphabet_iff.1 (h c hc b hb)
      omega
  · intro h b hb
    rw [bytesOf_eq] at hb ⊢
    obtain ⟨c, hc, hbc⟩ := List.mem_flatMap.1 hb
    rw [String.toList_ofList]
    exact List.mem_flatMap.2 ⟨c, h c hc, hbc⟩

/-! ## Texts -/

theorem encode_eq (bs : Bytes) : encode bs = String.ofList ((recode 256 58 bs).map charOfDigit) := by
  rw [encode, recode, List.map_append, List.map_replicate]
  rfl

theorem decode?_eq (text : String) : decode? text = (text.toList.mapM digitOfChar?).map (recode 58 256) := by
  rw [decode?]
  cases text.toList.mapM digitOfChar? <;> rfl

theorem bytes_lt (bs : Bytes) : ∀ d ∈ bs, d.toNat < (256 : UInt32).toNat := fun d _ => d.toNat_lt

theorem digits_lt (h : ∀ d ∈ ds, d < 58) : ∀ d ∈ ds, d.toNat < (58 : UInt32).toNat :=
  fun d hd => UInt8.lt_iff_toNat_lt.1 (h d hd)

/-- A text spells a byte string exactly if it is its text. -/
theorem decode?_eq_some_iff : decode? text = some bs ↔ encode bs = text := by
  rw [decode?_eq, Option.map_eq_some_iff, encode_eq]
  constructor
  · rintro ⟨ds, hds, rfl⟩
    obtain ⟨hlt, hchars⟩ := mapM_digitOfChar?_eq_some_iff.1 hds
    have hback : recode 256 58 (recode 58 256 ds) = ds :=
      recode_recode (by decide) (by decide) (by decide) (by decide) (digits_lt hlt)
    rw [hback, ← hchars, String.ofList_toList]
  · rintro rfl
    refine ⟨recode 256 58 bs, ?_, ?_⟩
    · have hlt : ∀ d ∈ recode 256 58 bs, d.toNat < (58 : UInt32).toNat :=
        recode_lt (by decide) (by decide) (by decide) (bytes_lt bs)
      rw [String.toList_ofList]
      exact mapM_digitOfChar?_eq_some_iff.2 ⟨fun d hd => UInt8.lt_iff_toNat_lt.2 (hlt d hd), rfl⟩
    · exact recode_recode (by decide) (by decide) (by decide) (by decide) (bytes_lt bs)

theorem isSome_decode?_iff (text : String) :
    (decode? text).isSome ↔ ∀ b ∈ bytesOf text, b ∈ bytesOf (String.ofList alphabet) := by
  rw [decode?_eq, Option.isSome_map, isSome_mapM_digitOfChar?_iff, forall_mem_bytesOf_iff]

theorem encode_eq_empty_iff : encode bs = "" ↔ bs = [] := by
  rw [← decode?_eq_some_iff]
  have hempty : decode? "" = some [] := rfl
  rw [hempty, Option.some.injEq, eq_comm]

/-- Every byte string that is not empty is what its text spells, zeros in front included, and every text
that is not empty spells something exactly if its bytes are of the alphabet, and then is the text of it.
On the way every carry is below 256, the digits held are those of the number read, so that nothing is cut
off where a digit is put into a byte, and every digit of a text has a character. -/
theorem encode_bijective_exact :
    (∀ bs : Bytes, bs ≠ [] →
      encode bs ≠ "" ∧ decode? (encode bs) = some bs ∧
      CarriesBelow 256 256 58 bs ∧ toNats (convert 256 58 bs) = Nat.digits 58 (value 256 bs) ∧
      ∀ d ∈ convert 256 58 bs, d.toNat < alphabet.length) ∧
    ∀ text : String, text ≠ "" →
      ((decode? text).isSome ↔ ∀ b ∈ bytesOf text, b ∈ bytesOf (String.ofList alphabet)) ∧
      (∀ bs, decode? text = some bs → encode bs = text) ∧
      ∀ ds, text.toList.mapM digitOfChar? = some ds →
        CarriesBelow 256 58 256 ds ∧ toNats (convert 58 256 ds) = Nat.digits 256 (value 58 ds) := by
  refine ⟨fun bs hbs => ⟨?_, decode?_eq_some_iff.2 rfl, ?_, ?_, ?_⟩, fun text _ => ⟨isSome_decode?_iff text, ?_, ?_⟩⟩
  · exact fun hempty => hbs (encode_eq_empty_iff.1 hempty)
  · exact carriesBelow_source (by decide) (by decide) (by decide) (bytes_lt bs)
  · exact toNats_convert (by decide) (by decide) (by decide) (bytes_lt bs)
  · rw [length_alphabet]
    have hlt : ∀ d ∈ convert 256 58 bs, d.toNat < (58 : UInt32).toNat :=
      convert_lt (by decide) (by decide) (by decide) (bytes_lt bs)
    exact hlt
  · exact fun bs hbs => decode?_eq_some_iff.1 hbs
  · intro ds hds
    have hlt := digits_lt (mapM_digitOfChar?_eq_some_iff.1 hds).1
    refine ⟨CarriesBelow.mono (by decide) (carriesBelow_source (by decide) (by decide) (by decide) hlt), ?_⟩
    exact toNats_convert (by decide) (by decide) (by decide) hlt

/-- Two zeros in front and a number that takes a carry over every place. -/
theorem encode_bijective_exact_of_leading_zeros :
    decode? (encode [0, 0, 1, 2, 255]) = some [0, 0, 1, 2, 255] ∧ encode [0, 0, 1, 2, 3] = "11Ldp" ∧
      CarriesBelow 256 58 256 [0, 0, 19, 36, 47] := by
  have hbytes := encode_bijective_exact.1 [0, 0, 1, 2, 255] (by decide)
  have htext := encode_bijective_exact.2 "11Ldp" (by decide)
  have hread : decode? "11Ldp" = some [0, 0, 1, 2, 3] := by decide +kernel
  have hdigits : "11Ldp".toList.mapM digitOfChar? = some [0, 0, 19, 36, 47] := by decide
  exact ⟨hbytes.2.1, htext.2.1 _ hread, (htext.2.2 _ hdigits).1⟩

end CoinScript.Base58
