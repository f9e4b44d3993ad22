/-
Numbers in words of sixty-four bits. A number can be read by moving each byte to its place in a word and clearing
the sign, and written by taking bytes off the low end of its magnitude. Each operation on words that may overflow
is taken only if it does not; the window of four bytes leaves so much room that none ever does, and the least
number of a word, whose magnitude is beyond the greatest, is written as well. Both ways are those without words.
-/
import CoinScript.Machine.Error
import CoinScript.Proofs.Number.Canonical

namespace CoinScript

/-- A word of sixty-four bits. As a number with a sign it is its `toInt`. -/
abbrev Word := BitVec 64

namespace Word

/-! ## Operations that may overflow -/

/-- The word moved up, if by fewer bits than it has. -/
def shiftLeft? (a : Word) (count : Nat) : Option Word := if count < 64 then some (a <<< count) else none

/-- The number with its sign turned, if a word holds it. -/
def negate? (a : Word) : Option Word := if a.negOverflow then none else some (-a)

/-- The sum, if a word holds it. -/
def sum? (a b : Word) : Option Word := if a.saddOverflow b then none else some (a + b)

/-- The difference, if a word holds it. -/
def difference? (a b : Word) : Option Word := if a.ssubOverflow b then none else some (a - b)

variable {a b : Word} {low k : Nat}

theorem shiftLeft?_eq_some (h : k < 64) : shiftLeft? a k = some (a <<< k) := if_pos h

theorem toNat_shiftLeft_of_lt (h : a.toNat * 2 ^ k < 2 ^ 64) : (a <<< k).toNat = a.toNat * 2 ^ k := by
  rw [BitVec.toNat_shiftLeft, Nat.shiftLeft_eq, Nat.mod_eq_of_lt h]

theorem exists_negate?_eq (h : a.toNat < 2 ^ 63) : ∃ w, negate? a = some w ∧ w.toInt = -(a.toNat : Int) := by
  have hvalue : a.toInt = a.toNat := BitVec.toInt_eq_toNat_of_lt (by omega)
  have hfits : ¬ a.negOverflow := by
    unfold BitVec.negOverflow
    rw [hvalue]
    simp
  exact ⟨-a, if_neg hfits, by rw [BitVec.toInt_neg_of_not_negOverflow hfits, hvalue]⟩

theorem exists_sum?_eq (h : (a.toInt + b.toInt).natAbs < 2 ^ 63) :
    ∃ w, sum? a b = some w ∧ w.toInt = a.toInt + b.toInt := by
  have hfits : ¬ a.saddOverflow b := by
    simp only [BitVec.saddOverflow, Bool.or_eq_true, decide_eq_true_eq]
    omega
  exact ⟨a + b, if_neg hfits, BitVec.toInt_add_of_not_saddOverflow hfits⟩

theorem exists_difference?_eq (h : (a.toInt - b.toInt).natAbs < 2 ^ 63) :
    ∃ w, difference? a b = some w ∧ w.toInt = a.toInt - b.toInt := by
  have hfits : ¬ a.ssubOverflow b := by
    simp only [BitVec.ssubOverflow, Bool.or_eq_true, decide_eq_true_eq]
    omega
  exact ⟨a - b, if_neg hfits, BitVec.toInt_sub_of_not_ssubOverflow hfits⟩

/-- A bit that stands above all others is cleared by its mask. -/
theorem toNat_and_not_of_top {mask : Word} (hlow : low < 2 ^ k) (ha : a.toNat = 2 ^ k + low)
    (hmask : mask.toNat = 2 ^ k) : (a &&& ~~~mask).toNat = low := by
  have hk : low < 2 ^ 64 := by omega
  have hcleared : a &&& ~~~mask = BitVec.ofNat 64 low := by
    refine BitVec.eq_of_getLsbD_eq fun i hi => ?_
    have hor : a.toNat = 2 ^ k ||| low := by
      have hor := Nat.two_pow_add_eq_or_of_lt hlow 1
      rwa [Nat.mul_one, ← ha] at hor
    rw [BitVec.getLsbD_and, BitVec.getLsbD_not, BitVec.getLsbD_ofNat, BitVec.getLsbD, BitVec.getLsbD, hor, hmask,
      Nat.testBit_or, Nat.testBit_two_pow]
    by_cases hbit : k = i
    · subst hbit
      simp [Nat.testBit_lt_two_pow hlow]
    · simp [hbit, hi]
  rw [hcleared, BitVec.toNat_ofNat, Nat.mod_eq_of_lt hk]

/-- The magnitude of every number of a word, the least one included, is a word. -/
theorem toNat_abs_eq_natAbs (w : Word) : w.abs.toNat = w.toInt.natAbs := by
  have hlt := w.isLt
  rw [BitVec.toNat_abs, BitVec.toInt_eq_msb_cond]
  split <;> omega

end Word

namespace Number

open Bytes Word

variable {v : Int} {bs : Bytes} {w : Word}

/-! ## Reading into a word -/

/-- The bytes put into a word, each above the one before, the first of them at a given place. -/
def gather? (gathered : Word) (place : Nat) : Bytes → Option Word
  | [] => some gathered
  | b :: bs => do
    let placed ← shiftLeft? (BitVec.ofNat 64 b.toNat) (8 * place)
    gather? (gathered ||| placed) (place + 1) bs

/-- The number that at most four bytes spell, read into a word: the bytes are gathered, a sign is cleared and the
rest negated. There is no outcome if an operation overflows. -/
def decodeByWord? (bs : Bytes) : Option (Except ExecError Word) :=
  match bs.getLast? with
  | none => some (.ok 0)
  | some last =>
    if maxSize < bs.length then some (.error .invalidNumber)
    else do
      let gathered ← gather? 0 0 bs
      if last &&& 0x80 ≠ 0 then
        let sign ← shiftLeft? 0x80 (8 * (bs.length - 1))
        let negated ← negate? (gathered &&& ~~~sign)
        return .ok negated
      else return .ok gathered

/-- A word has room for eight bytes, each of which adds what it counts at its place. -/
theorem exists_gather?_eq {place : Nat} (hplace : place + bs.length ≤ 8) (hw : w.toNat < 256 ^ place) :
    ∃ w', gather? w place bs = some w' ∧ w'.toNat = w.toNat + 256 ^ place * toNatLE bs := by
  induction bs generalizing w place with
  | nil => exact ⟨w, rfl, by simp [toNatLE]⟩
  | cons b bs ih =>
    rw [List.length_cons] at hplace
    have hb := b.toNat_lt
    have hpow : (2 : Nat) ^ (8 * place) = 256 ^ place := by
      rw [pow_mul]
      norm_num
    have hroom : 256 ^ place * 256 ≤ 2 ^ 64 := by
      rw [← pow_succ]
      exact (Nat.pow_le_pow_right (by omega) (show place + 1 ≤ 8 by omega)).trans (by norm_num)
    have hbyte : (BitVec.ofNat 64 b.toNat).toNat = b.toNat := by
      rw [BitVec.toNat_ofNat, Nat.mod_eq_of_lt (by omega)]
    have hbelow : b.toNat * 256 ^ place ≤ 255 * 256 ^ place := Nat.mul_le_mul_right _ (by omega)
    have hplaced : (BitVec.ofNat 64 b.toNat <<< (8 * place)).toNat = b.toNat * 256 ^ place := by
      rw [toNat_shiftLeft_of_lt, hbyte, hpow]
      rw [hbyte, hpow]
      omega
    -- the byte comes to stand above everything that was there
    have hor : (w ||| BitVec.ofNat 64 b.toNat <<< (8 * place)).toNat = w.toNat + b.toNat * 256 ^ place := by
      rw [BitVec.toNat_or, hplaced, Nat.or_comm, ← hpow, ← Nat.shiftLeft_eq,
        ← Nat.shiftLeft_add_eq_or_of_lt (by rwa [hpow]), Nat.add_comm]
    have hfits : (w ||| BitVec.ofNat 64 b.toNat <<< (8 * place)).toNat < 256 ^ (place + 1) := by
      rw [hor, pow_succ]
      omega
    obtain ⟨w', hgather, hvalue⟩ := ih (by omega) hfits
    refine ⟨w', ?_, ?_⟩
    · rw [gather?, shiftLeft?_eq_some (by omega)]
      exact hgather
    · rw [hvalue, hor, toNatLE]
      ring

theorem exists_gather?_zero_eq (hlen : bs.length ≤ 8) :
    ∃ w, gather? 0 0 bs = some w ∧ w.toNat = toNatLE bs := by
  have hplace : 0 + bs.length ≤ 8 := by omega
  obtain ⟨w, hgather, hw⟩ := exists_gather?_eq (w := 0) hplace (by decide)
  have hzero : BitVec.toNat (0 : Word) = 0 := rfl
  rw [pow_zero, Nat.one_mul, hzero, Nat.zero_add] at hw
  exact ⟨w, hgather, hw⟩

theorem toNat_signMask {k : Nat} (hk : k < 8) : ((0x80 : Word) <<< (8 * k)).toNat = 2 ^ (8 * k + 7) := by
  have hbyte : (0x80 : Word).toNat * 2 ^ (8 * k) = 2 ^ (8 * k + 7) := by
    rw [pow_add, Nat.mul_comm]
    rfl
  have hlt : 2 ^ (8 * k + 7) < 2 ^ 64 := Nat.pow_lt_pow_right (by omega) (by omega)
  rw [toNat_shiftLeft_of_lt (by rwa [hbyte]), hbyte]

/-- A number is read into a word without overflow. -/
theorem exists_decodeByWord?_eq (hlen : bs.length ≤ maxSize) :
    ∃ w, decodeByWord? bs = some (.ok w) ∧ w.toInt = value bs := by
  unfold decodeByWord?
  rcases List.eq_nil_or_concat' bs with rfl | ⟨front, last, rfl⟩
  · exact ⟨0, rfl, by decide⟩
  · have hfront : front.length ≤ 3 := by
      rw [List.length_append, List.length_singleton, maxSize] at hlen
      omega
    have hlt := magnitude_lt front last
    have hsmall : 256 ^ front.length ≤ 256 ^ 3 := Nat.pow_le_pow_right (by omega) hfront
    have hpow : 2 ^ (8 * front.length + 7) = 128 * 256 ^ front.length := sign_eq front.length
    obtain ⟨w, hgather, hw⟩ := exists_gather?_zero_eq (hlen.trans (by decide))
    rw [toNatLE_concat_eq_magnitude] at hw
    rw [List.getLast?_concat, value_concat]
    dsimp only
    rw [if_neg (Nat.not_lt.2 hlen)]
    simp only [hgather, Option.bind_eq_bind, Option.bind_some, top_bit_iff,
      List.length_append, List.length_singleton, Nat.add_sub_cancel]
    split at hw <;> rename_i hsign
    · have hmagnitude := toNat_and_not_of_top (by rwa [hpow]) (by rw [hw, hpow, Nat.add_comm])
        (toNat_signMask (show front.length < 8 by omega))
      obtain ⟨negated, hnegate, hvalue⟩ := exists_negate?_eq (by rw [hmagnitude]; omega)
      refine ⟨negated, ?_, ?_⟩
      · rw [if_pos hsign, shiftLeft?_eq_some (by omega), Option.bind_some, hnegate]
        rfl
      · rw [if_pos hsign, hvalue, hmagnitude]
    · refine ⟨w, by rw [if_neg hsign]; rfl, ?_⟩
      rw [if_neg hsign, BitVec.toInt_eq_toNat_of_lt (by omega), hw, Nat.add_zero]

theorem decodeByWord?_of_long (hlen : maxSize < bs.length) :
    decodeByWord? bs = some (.error .invalidNumber) := by
  unfold decodeByWord?
  rcases List.eq_nil_or_concat' bs with rfl | ⟨front, last, rfl⟩
  · cases hlen
  · rw [List.getLast?_concat]
    exact if_pos hlen

/-! ## Writing from a word -/

/-- The bytes of a word, taken off its low end until nothing is left. -/
def bytesOfWord (w : Word) : Bytes :=
  if w = 0 then [] else UInt8.ofNat (w &&& 0xff).toNat :: bytesOfWord (w >>> 8)
termination_by w.toNat
decreasing_by
  rename_i h
  have hpos : w.toNat ≠ 0 := fun hzero => h (BitVec.eq_of_toNat_eq hzero)
  rw [BitVec.toNat_ushiftRight, Nat.shiftRight_eq_div_pow]
  omega

/-- The bytes of a number kept in a word: those of its magnitude, with the sign in the last of them if that leaves
its top bit free, and in one byte more if not. -/
def encodeByWord (w : Word) : Bytes :=
  let bytes := bytesOfWord w.abs
  match bytes.getLast? with
  | none => []
  | some last =>
    if last &&& 0x80 ≠ 0 then bytes ++ [if w.slt 0 then 0x80 else 0]
    else if w.slt 0 then bytes.dropLast ++ [last ||| 0x80]
    else bytes

/-- The bytes of a word spell it, and the last of them is not zero. -/
theorem bytesOfWord_spec (w : Word) :
    toNatLE (bytesOfWord w) = w.toNat ∧ ∀ last ∈ (bytesOfWord w).getLast?, last.toNat ≠ 0 := by
  induction w using bytesOfWord.induct with
  | case1 =>
    unfold bytesOfWord
    simp [toNatLE]
  | case2 w hne ih =>
    obtain ⟨hvalue, hlast⟩ := ih
    have hlow : (UInt8.ofNat (w &&& 0xff).toNat).toNat = w.toNat % 256 := by
      have hand : (w &&& 0xff).toNat = w.toNat % 2 ^ 8 := Nat.and_two_pow_sub_one_eq_mod w.toNat 8
      rw [hand, UInt8.toNat_ofNat']
      omega
    have hhigh : (w >>> 8).toNat = w.toNat / 256 := by
      rw [BitVec.toNat_ushiftRight, Nat.shiftRight_eq_div_pow]
    have hpos : w.toNat ≠ 0 := fun hzero => hne (BitVec.eq_of_toNat_eq hzero)
    rw [bytesOfWord, if_neg hne]
    refine ⟨?_, ?_⟩
    · rw [toNatLE, hvalue, hlow, hhigh]
      omega
    · rw [List.getLast?_cons]
      cases hrest : (bytesOfWord (w >>> 8)).getLast? with
      | none =>
        -- nothing is left behind the only byte
        rw [List.getLast?_eq_none_iff] at hrest
        rw [hrest, hhigh] at hvalue
        simp only [toNatLE] at hvalue
        rintro _ ⟨⟩
        rw [Option.getD_none, hlow]
        omega
      | some last =>
        rintro _ ⟨⟩
        exact hlast last hrest

theorem toNat_or_sign {b : UInt8} (h : b.toNat < 128) : (b ||| 0x80).toNat = 128 + b.toNat := by
  have hbits := Nat.two_pow_add_eq_or_of_lt (show b.toNat < 2 ^ 7 from h) 1
  rw [UInt8.toNat_or, Nat.or_comm]
  exact hbits.symm

theorem encodeByWord_eq (w : Word) : encodeByWord w = encode w.toInt := by
  obtain ⟨hvalue, hlast⟩ := bytesOfWord_spec w.abs
  rw [toNat_abs_eq_natAbs] at hvalue
  have hneg : w.slt 0 = true ↔ w.toInt < 0 := BitVec.slt_iff_toInt_lt
  unfold encodeByWord
  rcases List.eq_nil_or_concat' (bytesOfWord w.abs) with hbytes | ⟨front, last, hbytes⟩
  · rw [hbytes] at hvalue ⊢
    have hzero : w.toInt = 0 := Int.natAbs_eq_zero.1 hvalue.symm
    rw [hzero]
    rfl
  · rw [hbytes] at hvalue hlast ⊢
    have hne : last.toNat ≠ 0 := hlast last (List.getLast?_concat)
    have hlt := last.toNat_lt
    simp only [List.getLast?_concat, List.dropLast_concat, top_bit_iff, hneg]
    split <;> rename_i htop
    · -- the last byte needs its top bit, so the sign has a byte of its own
      refine (encode_eq_of_canonical (canonical_concat_iff.2 (.inr ⟨last, List.getLast?_concat, htop⟩)) ?_).symm
      split <;> rename_i hsign
      · rw [value_concat_negative, hvalue]
        omega
      · rw [value_concat_zero, hvalue]
        omega
    · have hmod : last.toNat % 128 = last.toNat := by omega
      rw [toNatLE_concat] at hvalue
      split <;> rename_i hsign
      · have hor := toNat_or_sign (Nat.lt_of_not_le htop)
        refine (encode_eq_of_canonical (canonical_concat_iff.2 (.inl (by rw [hor]; omega))) ?_).symm
        have hclear : (last ||| 0x80).toNat % 128 = last.toNat := by omega
        rw [value_concat, magnitude, hclear, hvalue, if_pos (by omega)]
        omega
      · refine (encode_eq_of_canonical (canonical_concat_iff.2 (.inl (by omega))) ?_).symm
        rw [value_concat, magnitude, hmod, hvalue, if_neg htop]
        omega

/-! ## The window of four bytes -/

/-- Numbers are a canonical codec with a window of four bytes. A number is written in at most four bytes exactly if
its magnitude is below 2^31, and reads back exactly then; in words it is the same for all their numbers. Bytes are
read, and without overflow, exactly if there are at most four; the number that they spell is within those bounds and
takes no more bytes, and it is written as the very same exactly if none of them is there for the sign alone. -/
theorem codec_canonical_in_four_bytes :
    (∀ v : Int, ((encode v).length ≤ 4 ↔ v.natAbs ≤ 2 ^ 31 - 1) ∧
        decode? (encode v) = if v.natAbs ≤ 2 ^ 31 - 1 then some v else none) ∧
      (∀ w : Word, encodeByWord w = encode w.toInt ∧ decodeByWord? (encodeByWord w) =
        some (if w.toInt.natAbs ≤ 2 ^ 31 - 1 then .ok w else .error .invalidNumber)) ∧
      ∀ bs : Bytes, (bs.length ≤ 4 → ∃ v w, decode? bs = some v ∧ decodeByWord? bs = some (.ok w) ∧ w.toInt = v ∧
          v.natAbs ≤ 2 ^ 31 - 1 ∧ (encode v).length ≤ bs.length ∧ (encode v = bs ↔ Canonical bs)) ∧
        (4 < bs.length → decode? bs = none ∧ decodeByWord? bs = some (.error .invalidNumber)) := by
  have hwindow (v : Int) : (encode v).length ≤ 4 ↔ v.natAbs ≤ 2 ^ 31 - 1 := by
    rw [length_encode_le_iff]
    omega
  refine ⟨fun v => ⟨hwindow v, decode?_encode v⟩, fun w => ⟨encodeByWord_eq w, ?_⟩, fun bs => ⟨?_, ?_⟩⟩
  · rw [encodeByWord_eq]
    split <;> rename_i hle
    · obtain ⟨w', hdecode, hvalue⟩ := exists_decodeByWord?_eq ((hwindow w.toInt).2 hle)
      rw [value_encode] at hvalue
      rw [hdecode, BitVec.eq_of_toInt_eq hvalue]
    · exact decodeByWord?_of_long (Nat.lt_of_not_le fun hlen => hle ((hwindow w.toInt).1 hlen))
  · intro hlen
    have hdecode : decode? bs = some (value bs) := if_pos hlen
    obtain ⟨w, hword, hvalue⟩ := exists_decodeByWord?_eq hlen
    exact ⟨value bs, w, hdecode, hword, hvalue, natAbs_le_of_decode? hdecode, length_encode_value_le bs,
      encode_value_eq_iff bs⟩
  · intro hlen
    exact ⟨if_neg (Nat.not_le.2 hlen), decodeByWord?_of_long hlen⟩

/-- The least number of a word takes nine bytes and does not read back; a byte for the sign alone stays where the
byte before it has its top bit set, and goes where that is zero. -/
theorem codec_canonical_in_four_bytes_of_least_word :
    let least : Word := BitVec.intMin 64
    (encodeByWord least).length = 9 ∧ decodeByWord? (encodeByWord least) = some (.error .invalidNumber) ∧
      (∃ v, decode? [0x80, 0x80] = some v ∧ encode v = [0x80, 0x80]) ∧
      (∃ v, decode? [0x00, 0x80] = some v ∧ encode v ≠ [0x00, 0x80]) ∧ decode? [0, 0, 0, 0, 1] = none := by
  intro least
  obtain ⟨-, hwords, hbytes⟩ := codec_canonical_in_four_bytes
  obtain ⟨hencode, hdecode⟩ := hwords least
  have hleast : ¬ least.toInt.natAbs ≤ 2 ^ 31 - 1 := by decide
  rw [if_neg hleast] at hdecode
  obtain ⟨v, -, hv, -, -, -, -, hcanonical⟩ := (hbytes [0x80, 0x80]).1 (by decide)
  obtain ⟨v', -, hv', -, -, -, -, hpadded⟩ := (hbytes [0x00, 0x80]).1 (by decide)
  refine ⟨by rw [hencode]; decide, hdecode, ⟨v, hv, hcanonical.2 (.inr (.inr ⟨0x80, rfl, by decide⟩))⟩,
    ⟨v', hv', fun h => ?_⟩, ((hbytes [0, 0, 0, 0, 1]).2 (by decide)).1⟩
  have hnot : ¬ Canonical [0x00, 0x80] := by decide
  exact hnot (hpadded.1 h)

end Number

end CoinScript
