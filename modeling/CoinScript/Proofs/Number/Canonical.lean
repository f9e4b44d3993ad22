/-
Numbers on the stack as sign and magnitude. Bytes spell the number whose sign is the top bit of the last byte
and whose magnitude is the rest, so bytes of a given length reach just the magnitudes below that bit. A number is
written in the fewest bytes that reach it, and reads back; of the bytes that spell one number the shortest are
those whose last byte is not there for the sign alone, unless the byte before it needs its own top bit.
-/
import CoinScript.Number
import CoinScript.Proofs.Codec.Operation
import Mathlib.Data.List.Basic
import Mathlib.Tactic.Ring

namespace CoinScript

namespace Bytes

theorem toNatLE_append (front back : Bytes) :
    toNatLE (front ++ back) = toNatLE front + 256 ^ front.length * toNatLE back := by
  induction front with
  | nil => simp [toNatLE]
  | cons b front ih =>
    rw [List.cons_append, toNatLE, toNatLE, ih, List.length_cons]
    ring

theorem toNatLE_concat (front : Bytes) (last : UInt8) :
    toNatLE (front ++ [last]) = toNatLE front + 256 ^ front.length * last.toNat := by
  rw [toNatLE_append]
  simp [toNatLE]

theorem eq_of_toNatLE_eq {bs bs' : Bytes} (hlen : bs.length = bs'.length) (h : toNatLE bs = toNatLE bs') :
    bs = bs' := by
  rw [← ofNatLE_toNatLE bs, ← ofNatLE_toNatLE bs', hlen, h]

end Bytes

namespace Number

open Bytes

variable {v : Int} {n w : Nat} {front bs bs' : Bytes} {last second : UInt8}

/-! ## The top bit of a byte -/

theorem top_bit_iff (b : UInt8) : b &&& 0x80 ≠ 0 ↔ 128 ≤ b.toNat := by
  have hall : ∀ n < 256, n &&& 128 ≠ 0 ↔ 128 ≤ n := by decide +kernel
  rw [Ne, ← UInt8.toNat_inj, UInt8.toNat_and]
  exact hall b.toNat b.toNat_lt

theorem low_bits_iff (b : UInt8) : b &&& 0x7f ≠ 0 ↔ b.toNat % 128 ≠ 0 := by
  have hbits : (b &&& 0x7f).toNat = b.toNat % 2 ^ 7 := by
    rw [UInt8.toNat_and]
    exact Nat.and_two_pow_sub_one_eq_mod b.toNat 7
  rw [Ne, ← UInt8.toNat_inj, hbits]
  rfl

/-- The sign of bytes of a length counts as much as the top bit of the last of them. -/
theorem sign_eq (k : Nat) : 2 ^ (8 * (k + 1) - 1) = 128 * 256 ^ k := by
  rw [show 8 * (k + 1) - 1 = 7 + 8 * k by omega, pow_add, pow_mul]
  norm_num

/-! ## Magnitudes -/

/-- What bytes spell with the sign left out. -/
def magnitude (front : Bytes) (last : UInt8) : Nat := toNatLE front + 256 ^ front.length * (last.toNat % 128)

theorem magnitude_lt (front : Bytes) (last : UInt8) : magnitude front last < 128 * 256 ^ front.length := by
  have hfront := toNatLE_lt front
  have hlast : 256 ^ front.length * (last.toNat % 128) ≤ 256 ^ front.length * 127 :=
    Nat.mul_le_mul_left _ (by omega)
  unfold magnitude
  omega

/-- The bytes spell the magnitude, and the sign on top of it where there is one. -/
theorem toNatLE_concat_eq_magnitude (front : Bytes) (last : UInt8) :
    toNatLE (front ++ [last]) =
      magnitude front last + if 128 ≤ last.toNat then 128 * 256 ^ front.length else 0 := by
  have hlt := last.toNat_lt
  rw [toNatLE_concat, magnitude]
  split
  · have hbyte : last.toNat = last.toNat % 128 + 128 := by omega
    conv => lhs; rw [hbyte]
    ring
  · have hbyte : last.toNat % 128 = last.toNat := by omega
    rw [hbyte, Nat.add_zero]

theorem value_concat (front : Bytes) (last : UInt8) :
    value (front ++ [last]) =
      if 128 ≤ last.toNat then -(magnitude front last : Int) else (magnitude front last : Int) := by
  have hlt := magnitude_lt front last
  unfold value
  simp only [List.length_append, List.length_singleton, Nat.one_shiftLeft, sign_eq,
    toNatLE_concat_eq_magnitude]
  split <;> rename_i hsign
  · rw [if_pos (by omega)]
    omega
  · rw [if_neg (by omega)]
    omega

/-- A byte for the sign alone turns what the others spell. -/
theorem value_concat_negative (bs : Bytes) : value (bs ++ [0x80]) = -(toNatLE bs : Int) := by
  rw [value_concat, magnitude]
  simp

theorem value_concat_zero (bs : Bytes) : value (bs ++ [0]) = toNatLE bs := by
  rw [value_concat, magnitude]
  simp

theorem natAbs_value_concat (front : Bytes) (last : UInt8) :
    (value (front ++ [last])).natAbs = magnitude front last := by
  rw [value_concat]
  split <;> omega

/-- Bytes reach no magnitude as large as their sign. -/
theorem natAbs_value_lt (bs : Bytes) : (value bs).natAbs < 2 ^ (8 * bs.length - 1) := by
  rcases List.eq_nil_or_concat' bs with rfl | ⟨front, last, rfl⟩
  · decide
  · rw [natAbs_value_concat, List.length_append, List.length_singleton, sign_eq]
    exact magnitude_lt front last

/-- Bytes of one length that spell the same number, and not zero, are the same. -/
theorem eq_of_value_eq (hlen : bs.length = bs'.length) (hne : value bs ≠ 0) (h : value bs = value bs') :
    bs = bs' := by
  refine eq_of_toNatLE_eq hlen ?_
  unfold value at h hne
  simp only [hlen] at h hne
  generalize 1 <<< (8 * bs'.length - 1) = sign at h hne
  split at h <;> split at h <;> omega

/-! ## Writing -/

theorem width_le_iff (hn : n ≠ 0) (hw : 0 < w) : width n ≤ w ↔ n < 2 ^ (8 * w - 1) := by
  rw [← Nat.log2_lt hn, width]
  omega

theorem lt_sign_of_width (hn : n ≠ 0) : n < 2 ^ (8 * width n - 1) :=
  (width_le_iff hn (Nat.succ_pos _)).1 (Nat.le_refl _)

theorem length_encode (hv : v ≠ 0) : (encode v).length = width v.natAbs := by
  rw [encode, if_neg hv]
  exact length_ofNatLE _ _

/-- A number is written in so many bytes at most if they reach its magnitude. -/
theorem length_encode_le_iff (v : Int) (w : Nat) : (encode v).length ≤ w ↔ v.natAbs < 2 ^ (8 * w - 1) := by
  by_cases hv : v = 0
  · subst hv
    simp [encode]
  · rw [length_encode hv]
    rcases Nat.eq_zero_or_pos w with rfl | hw
    · simp [width, hv]
    · exact width_le_iff (by omega) hw

theorem toNatLE_encode (hv : v ≠ 0) :
    toNatLE (encode v) = v.natAbs + if v < 0 then 2 ^ (8 * width v.natAbs - 1) else 0 := by
  have hlt := lt_sign_of_width (n := v.natAbs) (by omega)
  have htwice : 256 ^ width v.natAbs = 2 * 2 ^ (8 * width v.natAbs - 1) := by
    rw [show width v.natAbs = (v.natAbs.log2 + 1) / 8 + 1 from rfl, sign_eq]
    ring
  rw [encode, if_neg hv]
  simp only [Nat.one_shiftLeft]
  rw [toNatLE_ofNatLE, Nat.mod_eq_of_lt]
  split <;> omega

/-- What is written reads back, however many bytes it takes. -/
theorem value_encode (v : Int) : value (encode v) = v := by
  by_cases hv : v = 0
  · subst hv
    decide
  · have hlt := lt_sign_of_width (n := v.natAbs) (by omega)
    unfold value
    simp only [Nat.one_shiftLeft, length_encode hv, toNatLE_encode hv]
    split <;> rename_i hneg
    · rw [if_pos (by omega)]
      omega
    · rw [if_neg (by omega)]
      omega

/-- The window that numbers are read from is four bytes wide. -/
theorem decode?_encode (v : Int) : decode? (encode v) = if v.natAbs ≤ 2 ^ 31 - 1 then some v else none := by
  rw [decode?, value_encode]
  refine if_congr ?_ rfl rfl
  rw [length_encode_le_iff, maxSize]
  omega

theorem natAbs_le_of_decode? (h : decode? bs = some v) : v.natAbs ≤ 2 ^ 31 - 1 := by
  unfold decode? at h
  split at h
  · rename_i hlen
    cases h
    have hlt := natAbs_value_lt bs
    have hmono : 2 ^ (8 * bs.length - 1) ≤ 2 ^ 31 := Nat.pow_le_pow_right (by omega) (by unfold maxSize at hlen; omega)
    omega
  · cases h

/-! ## The shortest spelling -/

/-- Bytes whose last one is not there for the sign alone: there is none, or it has a bit beside the sign, or the
byte before it has its top bit set. -/
def Canonical (bs : Bytes) : Prop :=
  bs = [] ∨ (∃ last ∈ bs.getLast?, last &&& 0x7f ≠ 0) ∨ ∃ second ∈ bs.dropLast.getLast?, second &&& 0x80 ≠ 0

instance (bs : Bytes) : Decidable (Canonical bs) :=
  inferInstanceAs (Decidable (_ ∨ (∃ last ∈ bs.getLast?, _) ∨ ∃ second ∈ bs.dropLast.getLast?, _))

theorem canonical_concat_iff : Canonical (front ++ [last]) ↔
    last.toNat % 128 ≠ 0 ∨ ∃ second ∈ front.getLast?, 128 ≤ second.toNat := by
  simp [Canonical, low_bits_iff, top_bit_iff]

/-- With one byte fewer the magnitude is out of reach. -/
theorem canonical_concat_iff_le :
    Canonical (front ++ [last]) ↔ 2 ^ (8 * front.length - 1) ≤ magnitude front last := by
  rw [canonical_concat_iff, magnitude]
  rcases List.eq_nil_or_concat' front with rfl | ⟨front, second, rfl⟩
  · simp [toNatLE]
    omega
  · have hlt := magnitude_lt front second
    have hpos : 0 < 256 ^ front.length := Nat.pow_pos (by omega)
    rw [toNatLE_concat_eq_magnitude, List.length_append, List.length_singleton, sign_eq]
    by_cases hlow : last.toNat % 128 = 0
    · -- nothing but the byte before the sign can reach so far
      simp [hlow]
      split <;> omega
    · have hmul : 256 ^ (front.length + 1) ≤ 256 ^ (front.length + 1) * (last.toNat % 128) :=
        Nat.le_mul_of_pos_right _ (by omega)
      rw [pow_succ] at hmul ⊢
      simp only [hlow, not_false_eq_true, true_or, true_iff, ne_eq]
      omega

theorem length_encode_value_le (bs : Bytes) : (encode (value bs)).length ≤ bs.length :=
  (length_encode_le_iff _ _).2 (natAbs_value_lt bs)

/-- Writing what bytes spell gives these bytes exactly if none is there for the sign alone. -/
theorem encode_value_eq_iff (bs : Bytes) : encode (value bs) = bs ↔ Canonical bs := by
  rcases List.eq_nil_or_concat' bs with rfl | ⟨front, last, rfl⟩
  · simp [Canonical, value, toNatLE, encode]
  · have hle := length_encode_value_le (front ++ [last])
    rw [canonical_concat_iff_le, ← natAbs_value_concat, ← Nat.not_lt, ← length_encode_le_iff]
    constructor
    · intro h
      rw [h, List.length_append, List.length_singleton]
      omega
    · intro h
      have hlen : (encode (value (front ++ [last]))).length = (front ++ [last]).length := by
        rw [List.length_append, List.length_singleton] at hle ⊢
        omega
      refine eq_of_value_eq hlen ?_ (value_encode _)
      rw [value_encode]
      intro hzero
      rw [hzero] at hlen
      simp [encode] at hlen

theorem encode_eq_of_canonical (h : Canonical bs) (hv : value bs = v) : encode v = bs := by
  rw [← hv]
  exact (encode_value_eq_iff bs).2 h

end Number

end CoinScript
