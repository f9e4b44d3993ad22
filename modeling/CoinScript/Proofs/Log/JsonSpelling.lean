/-
What the writer writes is what the reader reads. A text spells a value if the reader takes the value from its front,
whatever stands behind, as long as no number could go on there. Strings spell themselves, escape by escape; numbers
spell themselves; and an object spells its members if the texts of their values do.

No control character is in a text that is made of these, whatever the strings hold, so all of it is one line.
-/
import CoinScript.Proofs.Log.JsonReader
import Mathlib.Data.List.Forall2
import Mathlib.Tactic.SplitIfs

namespace CoinScript.Log.Json

/-! ## Strings -/

/-- A byte in two digits behind two zeros is the code unit of its number. -/
theorem codeUnit?_byteChars (b : UInt8) :
    codeUnit? '0' '0' (Nat.digitChar (b.toNat / 16)) (Nat.digitChar (b.toNat % 16)) = some b.toNat := by
  have hread : Hex.decodeChars [] ['0', '0', Nat.digitChar (b.toNat / 16), Nat.digitChar (b.toNat % 16)] =
      some [0, b] := Hex.decodeChars_encodeChars [0, b] []
  unfold codeUnit?
  rw [hread]
  simp

/-- What is behind a backslash and a `u` is a character if its code unit is no half of one. -/
theorem characters_codeUnit {a b c d : Char} {n : Nat} (hunit : codeUnit? a b c d = some n) (hlt : n < 0xd800)
    (rest : List Char) :
    characters ('\\' :: 'u' :: a :: b :: c :: d :: rest) =
      (characters rest).map fun (more, rest) => (Char.ofNat n :: more, rest) := by
  have hhigh : isHighSurrogate n = false := by
    unfold isHighSurrogate
    simp
    omega
  have hlow : isLowSurrogate n = false := by
    unfold isLowSurrogate
    simp
    omega
  rw [characters, hunit, Option.bind_eq_bind, Option.bind_some, hhigh, hlow]
  rfl

/-- A character that needs no escape stands for itself. -/
theorem characters_of_plain {c : Char} (hquote : c ≠ '"') (hbackslash : c ≠ '\\') (hcontrol : ¬ c.toNat < 0x20)
    (rest : List Char) :
    characters (c :: rest) = (characters rest).map fun (more, rest) => (c :: more, rest) := by
  rw [characters]
  · exact if_neg fun h => h.elim hbackslash hcontrol
  · exact hquote
  · exact fun _ _ _ _ _ h => absurd h hbackslash
  · exact fun _ _ h => absurd h hbackslash

/-- A character is read from what is written for it, and reading goes on behind. -/
theorem characters_escapeChar (c : Char) (rest : List Char) :
    characters (escapeChar c ++ rest) = (characters rest).map fun (more, rest) => (c :: more, rest) := by
  unfold escapeChar
  split
  any_goals rfl
  next hquote hbackslash _ _ _ _ _ =>
    split_ifs with hcontrol
    · have hb : (UInt8.ofNat c.toNat).toNat = c.toNat := by
        rw [UInt8.toNat_ofNat']
        omega
      have hunit := codeUnit?_byteChars (UInt8.ofNat c.toNat)
      have hread := characters_codeUnit hunit (by omega) rest
      rw [hb, Char.ofNat_toNat] at hread
      rw [← hread]
      unfold Hex.byteChars
      rw [hb]
      rfl
    · exact characters_of_plain hquote hbackslash hcontrol rest

/-- The characters of a string are read up to its closing quote. -/
theorem characters_flatMap_escapeChar (cs rest : List Char) :
    characters (cs.flatMap escapeChar ++ '"' :: rest) = some (cs, rest) := by
  induction cs with
  | nil => rfl
  | cons c cs ih =>
    rw [List.flatMap_cons, List.append_assoc, characters_escapeChar, ih]
    rfl

theorem toList_string (text : String) : (string text).toList = '"' :: (text.toList.flatMap escapeChar ++ ['"']) :=
  String.toList_ofList

/-! ## Numbers -/

theorem toList_number (n : Nat) : (number n).toList = Nat.toDigits 10 n := by
  have hlen : 1 - (Nat.toDigits 10 n).length = 0 := Nat.sub_eq_zero_of_le (List.length_pos_iff.2 Nat.toDigits_ne_nil)
  unfold number decimal
  rw [String.toList_ofList, List.leftpad, hlen]
  rfl

theorem isDigit_of_mem_toDigits {n : Nat} {c : Char} (h : c ∈ Nat.toDigits 10 n) : c.isDigit = true :=
  Nat.isDigit_of_mem_toDigits (by decide) (by decide) h

/-- No number but zero has a zero in front. -/
theorem head?_toDigits_ne_zero {n : Nat} (h : n ≠ 0) : (Nat.toDigits 10 n).head? ≠ some '0' := by
  have hdigit : ∀ n < 10, n ≠ 0 → Nat.digitChar n ≠ '0' := by decide
  induction n using Nat.strongRecOn with
  | ind n ih =>
    by_cases hlt : n < 10
    · rw [Nat.toDigits_of_lt_base hlt, List.head?_singleton, ne_eq, Option.some.injEq]
      exact hdigit n hlt h
    · rw [Nat.toDigits_of_base_le (by decide) (by omega), List.head?_append_of_ne_nil _ Nat.toDigits_ne_nil]
      exact ih (n / 10) (by omega) (by omega)

/-- Nothing stands in front that a number could go on with. -/
def Ended (rest : List Char) : Prop :=
  ∀ c ∈ rest.head?, c.isDigit = false ∧ c ≠ '.' ∧ c ≠ 'e' ∧ c ≠ 'E'

section Numbers

variable {rest : List Char}

theorem digits_toDigits (n : Nat) (h : Ended rest) :
    digits (Nat.toDigits 10 n ++ rest) = some (Nat.toDigits 10 n, rest) := by
  have hstop : rest.takeWhile Char.isDigit = [] ∧ rest.dropWhile Char.isDigit = rest := by
    cases rest with
    | nil => exact ⟨rfl, rfl⟩
    | cons c rest => simp [(h c rfl).1]
  have hempty : (Nat.toDigits 10 n).isEmpty = false := List.isEmpty_eq_false_iff.2 Nat.toDigits_ne_nil
  unfold digits
  rw [List.takeWhile_append_of_pos fun _ => isDigit_of_mem_toDigits,
    List.dropWhile_append_of_pos fun _ => isDigit_of_mem_toDigits, hstop.1, hstop.2, List.append_nil]
  dsimp only
  rw [hempty]
  rfl

theorem whole_toDigits (n : Nat) (h : Ended rest) :
    whole (Nat.toDigits 10 n ++ rest) = some (Nat.toDigits 10 n, rest) := by
  unfold whole
  rw [digits_toDigits n h, Option.bind_eq_bind, Option.bind_some]
  refine if_neg fun ⟨hzero, hmore⟩ => ?_
  by_cases hn : n = 0
  · rw [hn] at hmore
    exact hmore rfl
  · exact head?_toDigits_ne_zero hn hzero

theorem fraction_of_ended (h : Ended rest) : fraction rest = some ([], rest) := by
  unfold fraction
  split
  · exact absurd rfl (h '.' rfl).2.1
  · rfl

theorem exponent_of_ended (h : Ended rest) : exponent rest = some (0, rest) := by
  cases rest with
  | nil => rfl
  | cons c rest =>
    obtain ⟨-, -, hlower, hupper⟩ := h c rfl
    exact if_neg fun hmark => hmark.elim hlower hupper

theorem decimalNumber_toDigits (n : Nat) (h : Ended rest) :
    decimalNumber (Nat.toDigits 10 n ++ rest) = some (.number n 0, rest) := by
  have hsign : (Nat.toDigits 10 n ++ rest).head? ≠ some '-' := by
    rw [List.head?_append_of_ne_nil _ Nat.toDigits_ne_nil]
    intro hminus
    exact absurd (isDigit_of_mem_toDigits (List.mem_of_head? hminus)) (by decide)
  unfold decimalNumber
  rw [if_neg hsign]
  simp only [Option.bind_eq_bind, whole_toDigits n h, fraction_of_ended h, exponent_of_ended h, Option.bind_some,
    List.append_nil, Nat.ofDigitChars_toDigits (b := 10) (by decide) (by decide)]
  simp

end Numbers

/-! ## Values -/

/-- The text is read as the value wherever it stands in front of something that ends it, at this depth and beyond. -/
def Spells (depth : Nat) (text : String) (v : Value) : Prop :=
  ∀ d ≥ depth, ∀ rest, Ended rest → value d (text.toList ++ rest) = some (v, rest)

theorem spells_string (text : String) : Spells 1 (string text) (.string text) := by
  intro d hd rest _
  obtain ⟨d, rfl⟩ := Nat.exists_eq_add_of_le' hd
  rw [toList_string, List.cons_append, List.append_assoc]
  show (characters (text.toList.flatMap escapeChar ++ '"' :: rest)).map _ = _
  rw [characters_flatMap_escapeChar]
  simp

theorem value_of_isDigit {c : Char} (hc : c.isDigit = true) (d : Nat) (rest : List Char) :
    value (d + 1) (c :: rest) = decimalNumber (c :: rest) := by
  have hne : ∀ x : Char, x.isDigit = false → c ≠ x := by
    rintro x hx rfl
    rw [hc] at hx
    cases hx
  have hblank : skipBlanks (c :: rest) = c :: rest := by
    refine List.dropWhile_cons_of_neg ?_
    unfold isBlank
    simp [hne]
  have hword : word (c :: rest) = none := by
    unfold word
    split
    · next h => exact absurd (List.cons.inj h).1 (hne 'n' rfl)
    · next h => exact absurd (List.cons.inj h).1 (hne 't' rfl)
    · next h => exact absurd (List.cons.inj h).1 (hne 'f' rfl)
    · rfl
  rw [value, hblank]
  split
  · next h => exact absurd (List.cons.inj h).1 (hne '"' rfl)
  · next h => exact absurd (List.cons.inj h).1 (hne '[' rfl)
  · next h => exact absurd (List.cons.inj h).1 (hne '\x7b' rfl)
  · rw [hword]
    rfl

theorem spells_number (n : Nat) : Spells 1 (number n) (.number n 0) := by
  intro d hd rest hrest
  obtain ⟨d, rfl⟩ := Nat.exists_eq_add_of_le' hd
  obtain ⟨c, ds, hdigits⟩ := List.exists_cons_of_ne_nil (Nat.toDigits_ne_nil (n := n) (b := 10))
  have hc : c.isDigit = true := isDigit_of_mem_toDigits (hdigits ▸ List.mem_cons_self)
  rw [toList_number, hdigits, List.cons_append, value_of_isDigit hc, ← List.cons_append, ← hdigits]
  exact decimalNumber_toDigits n hrest

/-! ## Objects -/

theorem ended_cons {c : Char} (hdigit : c.isDigit = false) (hpoint : c ≠ '.') (hlower : c ≠ 'e') (hupper : c ≠ 'E')
    (rest : List Char) : Ended (c :: rest) := by
  rintro x ⟨⟩
  exact ⟨hdigit, hpoint, hlower, hupper⟩

section Lists

variable {α : Type} {item : Reader α} {close : Char} {cs rest : List Char} {a : α}

theorem skipBlanks_cons {c : Char} (h : isBlank c = false) (rest : List Char) : skipBlanks (c :: rest) = c :: rest :=
  List.dropWhile_cons_of_neg (by rw [h]; decide)

theorem separated_last (hitem : item cs = some (a, close :: rest)) (hblank : isBlank close = false) :
    separated item close cs = some ([a], rest) := by
  rw [separated, hitem]
  dsimp only
  rw [skipBlanks_cons hblank]
  exact if_pos rfl

theorem separated_more (hitem : item cs = some (a, ',' :: rest)) (hcomma : close ≠ ',')
    (hlt : rest.length < cs.length) :
    separated item close cs = (separated item close rest).map fun (more, rest) => (a :: more, rest) := by
  rw [separated, hitem]
  dsimp only
  rw [skipBlanks_cons rfl]
  dsimp only
  rw [if_neg hcomma.symm, if_pos ⟨rfl, hlt⟩]

/-- Items that are each read in front of what ends a value are read one after the other. -/
theorem separated_intercalate (hclose : ∀ rest, Ended (close :: rest)) (hblank : isBlank close = false)
    (hcomma : close ≠ ',') {written : List (List Char)} {items : List α}
    (h : List.Forall₂ (fun w a => ∀ rest, Ended rest → item (w ++ rest) = some (a, rest)) written items)
    (hne : written ≠ []) (rest : List Char) :
    separated item close ([','].intercalate written ++ close :: rest) = some (items, rest) := by
  induction h with
  | nil => exact absurd rfl hne
  | @cons w a written items hitem hrest ih =>
    cases hrest with
    | nil =>
      rw [List.intercalate_singleton]
      exact separated_last (hitem _ (hclose rest)) hblank
    | @cons w' a' written items hitem' hmore =>
      have hcommaEnds : Ended (',' :: ([','].intercalate (w' :: written) ++ close :: rest)) :=
        ended_cons rfl (by decide) (by decide) (by decide) _
      rw [List.intercalate_cons_cons, List.append_assoc, List.append_assoc, List.singleton_append,
        separated_more (hitem _ hcommaEnds) hcomma (by simp; omega), ih (List.cons_ne_nil _ _)]
      rfl

end Lists

/-- The characters of a member of an object. -/
def memberChars (m : String × String) : List Char := (string m.1).toList ++ ':' :: m.2.toList

theorem toList_object (members : List (String × String)) :
    (object members).toList = '\x7b' :: ([','].intercalate (members.map memberChars) ++ ['\x7d']) := by
  have hopen : "\x7b".toList = ['\x7b'] := rfl
  have hclose : "\x7d".toList = ['\x7d'] := rfl
  have hcomma : ",".toList = [','] := rfl
  have hcolon : ":".toList = [':'] := rfl
  unfold object memberChars
  simp only [String.toList_append, String.toList_intercalate, List.map_map, Function.comp_def, hopen, hclose, hcomma,
    hcolon, List.append_assoc, List.cons_append, List.nil_append]

theorem two_le_length_object (members : List (String × String)) : 2 ≤ (object members).length := by
  rw [← String.length_toList, toList_object]
  simp

/-- The first member starts with a quote. -/
theorem exists_intercalate_memberChars (m : String × String) (members : List (String × String)) (rest : List Char) :
    ∃ cs, [','].intercalate ((m :: members).map memberChars) ++ rest = '"' :: cs := by
  cases members <;> simp [memberChars, toList_string, List.intercalate_cons_cons]

/-- A member is read if its value is. -/
theorem member_of_spells {depth d : Nat} {name text : String} {v : Value} (h : Spells depth text v) (hd : depth ≤ d)
    {rest : List Char} (hrest : Ended rest) :
    member (value d) (memberChars (name, text) ++ rest) = some ((name, v), rest) := by
  have hname := characters_flatMap_escapeChar name.toList (':' :: text.toList ++ rest)
  have hvalue := h d hd rest hrest
  unfold memberChars member
  rw [toList_string]
  simp only [List.cons_append, List.append_assoc, List.nil_append] at hname ⊢
  rw [skipBlanks_cons rfl]
  simp only [hname, Option.bind_eq_bind, Option.bind_some, skipBlanks_cons (c := ':') rfl, hvalue, String.ofList_toList]

/-- The members of an object are read up to its end if their values are. -/
theorem listed_members {depth d : Nat} {written : List (String × String)} {members : List (String × Value)}
    (h : List.Forall₂ (fun w m => w.1 = m.1 ∧ Spells depth w.2 m.2) written members) (hd : depth ≤ d)
    (rest : List Char) :
    listed (member (value d)) '\x7d' ([','].intercalate (written.map memberChars) ++ '\x7d' :: rest) =
      some (members, rest) := by
  have hmembers : List.Forall₂ (fun w m => ∀ rest, Ended rest → member (value d) (w ++ rest) = some (m, rest))
      (written.map memberChars) members := by
    refine List.forall₂_map_left_iff.2 (h.imp ?_)
    rintro ⟨name, text⟩ ⟨_, v⟩ ⟨rfl, hspells⟩ rest hrest
    exact member_of_spells hspells hd hrest
  cases written with
  | nil =>
    cases h
    rfl
  | cons w written =>
    have hends (rest : List Char) : Ended ('\x7d' :: rest) := ended_cons rfl (by decide) (by decide) (by decide) rest
    have hread := separated_intercalate hends rfl (by decide) hmembers (List.cons_ne_nil _ _) rest
    -- what starts with a quote is not closed at once
    obtain ⟨cs, hcs⟩ := exists_intercalate_memberChars w written ('\x7d' :: rest)
    rw [hcs] at hread ⊢
    exact hread

/-- An object is read if the values of its members are. -/
theorem spells_object {depth : Nat} {written : List (String × String)} {members : List (String × Value)}
    (h : List.Forall₂ (fun w m => w.1 = m.1 ∧ Spells depth w.2 m.2) written members) :
    Spells (depth + 1) (object written) (.object members) := by
  intro d hd rest _
  obtain ⟨d, rfl⟩ := Nat.exists_eq_add_of_le' (Nat.le_of_add_left_le hd)
  have hlisted := listed_members h (Nat.le_of_add_le_add_right hd) rest
  rw [toList_object, List.cons_append, List.append_assoc]
  show (listed (member (value d)) '\x7d' _).map _ = _
  rw [List.singleton_append, hlisted]
  rfl

/-! ## Texts -/

theorem isBlank_iff {c : Char} : isBlank c = true ↔ c = ' ' ∨ c = '\t' ∨ c = '\n' ∨ c = '\r' := by
  unfold isBlank
  simp [or_assoc]

/-- A text that spells a value is read as it, also with blanks behind. -/
theorem read?_of_spells {depth : Nat} {text : String} {v : Value} (h : Spells depth text v) {blanks : String}
    (hblanks : blanks.toList.all isBlank = true) (hdepth : depth ≤ (text ++ blanks).length) :
    read? (text ++ blanks) = some v := by
  have hended : Ended blanks.toList := by
    intro c hc
    rcases isBlank_iff.1 (List.all_eq_true.1 hblanks c (List.mem_of_mem_head? hc)) with rfl | rfl | rfl | rfl <;> decide
  unfold read?
  rw [String.toList_append, h _ hdepth _ hended]
  exact if_pos hblanks

/-! ## One line -/

/-- No control character is in the text, so no line ends within it. -/
def Unbroken (cs : List Char) : Prop := ∀ c ∈ cs, 0x20 ≤ c.toNat

instance (cs : List Char) : Decidable (Unbroken cs) := List.decidableBAll (fun c : Char => 0x20 ≤ c.toNat) cs

theorem Unbroken.newline_not_mem {cs : List Char} (h : Unbroken cs) : '\n' ∉ cs :=
  fun hmem => absurd (h '\n' hmem) (by decide)

theorem unbroken_append {cs ds : List Char} : Unbroken (cs ++ ds) ↔ Unbroken cs ∧ Unbroken ds := List.forall_mem_append

theorem unbroken_cons {c : Char} {cs : List Char} : Unbroken (c :: cs) ↔ 0x20 ≤ c.toNat ∧ Unbroken cs :=
  List.forall_mem_cons

theorem unbroken_byteChars (b : UInt8) : Unbroken (Hex.byteChars b) := by
  have hdigit : ∀ n < 16, 0x20 ≤ (Nat.digitChar n).toNat := by decide
  have hlt := b.toNat_lt
  unfold Hex.byteChars
  rintro c hc
  rcases List.mem_pair.1 hc with rfl | rfl
  · exact hdigit _ (by omega)
  · exact hdigit _ (by omega)

/-- A control character is escaped, in its own letter or by its number. -/
theorem unbroken_escapeChar (c : Char) : Unbroken (escapeChar c) := by
  have hmark : Unbroken ['\\', 'u', '0', '0'] := by decide
  unfold escapeChar
  split
  any_goals decide
  split_ifs with hcontrol
  · exact unbroken_append.2 ⟨hmark, unbroken_byteChars _⟩
  · exact List.forall_mem_singleton.2 (Nat.le_of_not_lt hcontrol)

theorem unbroken_string (text : String) : Unbroken (string text).toList := by
  have hquote : Unbroken ['"'] := by decide
  rw [toList_string]
  exact unbroken_cons.2 ⟨by decide, unbroken_append.2
    ⟨List.forall_mem_flatMap.2 fun c _ => unbroken_escapeChar c, hquote⟩⟩

theorem unbroken_number (n : Nat) : Unbroken (number n).toList := by
  rw [toList_number]
  intro c hc
  have hdigit := isDigit_of_mem_toDigits hc
  rw [Char.isDigit, Bool.and_eq_true, decide_eq_true_iff, ge_iff_le, UInt32.le_iff_toNat_le] at hdigit
  exact Nat.le_trans (by decide) hdigit.1

theorem unbroken_intercalate {written : List (List Char)} (h : ∀ w ∈ written, Unbroken w) :
    Unbroken ([','].intercalate written) := by
  induction written with
  | nil => exact List.forall_mem_nil _
  | cons w rest ih =>
    obtain ⟨hw, hrest⟩ := List.forall_mem_cons.1 h
    cases rest with
    | nil =>
      rw [List.intercalate_singleton]
      exact hw
    | cons w' rest =>
      have hcomma : Unbroken [','] := by decide
      rw [List.intercalate_cons_cons]
      exact unbroken_append.2 ⟨unbroken_append.2 ⟨hw, hcomma⟩, ih hrest⟩

/-- An object is one line if the values of its members are. -/
theorem unbroken_object {members : List (String × String)} (h : ∀ m ∈ members, Unbroken m.2.toList) :
    Unbroken (object members).toList := by
  have hclose : Unbroken ['\x7d'] := by decide
  rw [toList_object]
  refine unbroken_cons.2 ⟨by decide, unbroken_append.2 ⟨unbroken_intercalate ?_, hclose⟩⟩
  intro w hw
  obtain ⟨m, hm, rfl⟩ := List.mem_map.1 hw
  exact unbroken_append.2 ⟨unbroken_string m.1, unbroken_cons.2 ⟨by decide, h m hm⟩⟩

end CoinScript.Log.Json
