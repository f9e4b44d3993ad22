/-
What a change of base computes. While a number is read digit by digit, the digits held are those of the
part read so far, without a zero behind the last place; so the change of base ends with the digits of
the number in the new base. No word overflows and nothing is lost where a digit is put into a byte,
because every carry stays below the factor: a digit below the base times the factor, plus a carry below
the factor, is below the base times the factor.

A string of digits is the zeros in front of it and the digits of its number, so one that is written
anew in another base behind as many zeros can be written back.
-/
import CoinScript.Radix
import Mathlib.Data.List.Basic
import Mathlib.Data.List.Induction
import Mathlib.Data.List.TakeWhile
import Mathlib.Data.Nat.Digits.Lemmas
import Mathlib.Tactic.Ring

namespace CoinScript.Radix

/-- The digits, least significant first, as numbers. -/
def toNats (ds : Bytes) : List Nat := ds.map UInt8.toNat

/-- The carries of a multiplication: the one into each place, and what is left behind the last. -/
def carries (base factor : UInt32) : (digits : Bytes) → (carry : UInt32) → List UInt32
  | [], carry => leftovers base carry
  | d :: ds, carry => carry :: carries base factor ds ((d.toUInt32 * factor + carry) / base)

/-- Every carry of a change of base is below a bound: whichever digit is read next, all those of the
multiplication that takes it in are. -/
def CarriesBelow (bound source target : UInt32) (mostFirst : Bytes) : Prop :=
  ∀ read next, read ++ [next] <+: mostFirst →
    ∀ c ∈ carries target source (convert source target read) next.toUInt32, c < bound

variable {base factor source target carry : UInt32} {ds : Bytes} {d : UInt8}

/-! ## Single places -/

theorem toNat_lastDigit (hbase : 0 < base.toNat) (hbyte : base.toNat ≤ 256) (sum : UInt32) :
    (lastDigit base sum).toNat = sum.toNat % base.toNat := by
  have hlt : sum.toNat % base.toNat < base.toNat := Nat.mod_lt _ hbase
  rw [lastDigit, UInt32.toNat_toUInt8, UInt32.toNat_mod]
  exact Nat.mod_eq_of_lt (by omega)

/-- The sum of a place fits its word. -/
theorem toNat_sum (hfactor : factor.toNat ≤ 256) (hcarry : carry.toNat < factor.toNat) (d : UInt8) :
    (d.toUInt32 * factor + carry).toNat = d.toNat * factor.toNat + carry.toNat := by
  have hd : d.toNat < 256 := d.toNat_lt
  have hprod : d.toNat * factor.toNat ≤ 255 * 256 := Nat.mul_le_mul (by omega) hfactor
  rw [UInt32.toNat_add, UInt32.toNat_mul, UInt8.toNat_toUInt32]
  omega

/-- What is carried on stays below the factor. -/
theorem carry_lt (hbase : 0 < base.toNat) (hfactor : factor.toNat ≤ 256) (hcarry : carry.toNat < factor.toNat)
    (hd : d.toNat < base.toNat) : ((d.toUInt32 * factor + carry) / base).toNat < factor.toNat := by
  rw [UInt32.toNat_div, toNat_sum hfactor hcarry, Nat.div_lt_iff_lt_mul hbase]
  calc d.toNat * factor.toNat + carry.toNat
      < d.toNat * factor.toNat + factor.toNat := by omega
    _ = (d.toNat + 1) * factor.toNat := by ring
    _ ≤ base.toNat * factor.toNat := Nat.mul_le_mul_right _ hd
    _ = factor.toNat * base.toNat := Nat.mul_comm _ _

theorem leftovers_zero : leftovers base 0 = [] := by
  rw [leftovers, if_pos (.inl rfl)]

theorem leftovers_of_ne_zero (hbase : 2 ≤ base.toNat) (hcarry : carry ≠ 0) :
    leftovers base carry = carry :: leftovers base (carry / base) := by
  rw [leftovers, if_neg]
  rintro (hzero | hsmall)
  · exact hcarry hzero
  · have : base.toNat < 2 := UInt32.lt_iff_toNat_lt.1 hsmall
    omega

theorem leftovers_le (hbase : 2 ≤ base.toNat) : ∀ c ∈ leftovers base carry, c.toNat ≤ carry.toNat := by
  induction hn : carry.toNat using Nat.strong_induction_on generalizing carry with
  | _ n ih =>
    by_cases hcarry : carry = 0
    · rw [hcarry, leftovers_zero]
      exact List.forall_mem_nil _
    · have hpos : carry.toNat ≠ 0 := fun hzero => hcarry (UInt32.toNat_inj.1 hzero)
      have hless : (carry / base).toNat < n := by
        rw [UInt32.toNat_div, ← hn]
        exact Nat.div_lt_self (by omega) hbase
      rw [leftovers_of_ne_zero hbase hcarry]
      refine List.forall_mem_cons.2 ⟨hn.le, fun c hc => ?_⟩
      exact (ih _ hless rfl c hc).trans hless.le

theorem toNats_leftovers (hbase : 2 ≤ base.toNat) (hbyte : base.toNat ≤ 256) :
    toNats ((leftovers base carry).map (lastDigit base)) = Nat.digits base.toNat carry.toNat := by
  induction hn : carry.toNat using Nat.strong_induction_on generalizing carry with
  | _ n ih =>
    by_cases hcarry : carry = 0
    · rw [hcarry, leftovers_zero, ← hn, hcarry]
      exact (Nat.digits_zero _).symm
    · have hpos : carry.toNat ≠ 0 := fun hzero => hcarry (UInt32.toNat_inj.1 hzero)
      have hdiv : (carry / base).toNat = n / base.toNat := by rw [UInt32.toNat_div, hn]
      have hless : (carry / base).toNat < n := by
        rw [hdiv]
        exact Nat.div_lt_self (by omega) hbase
      rw [leftovers_of_ne_zero hbase hcarry, Nat.digits_eq_cons_digits_div hbase (hn ▸ hpos), ← hdiv,
        ← ih _ hless rfl, ← hn, ← toNat_lastDigit (by omega) hbyte]
      rfl

/-! ## Multiplication -/

/-- The digits of a number become those of the factor times it plus the carry. -/
theorem toNats_mulAdd (hbase : 2 ≤ base.toNat) (hbyte : base.toNat ≤ 256) (hfactor : factor.toNat ≤ 256)
    (hcarry : carry.toNat < factor.toNat) {n : Nat} (hds : toNats ds = Nat.digits base.toNat n) :
    toNats (mulAdd base factor ds carry) = Nat.digits base.toNat (factor.toNat * n + carry.toNat) := by
  induction ds generalizing carry n with
  | nil =>
    have hn : n = 0 := Nat.digits_eq_nil_iff_eq_zero.1 hds.symm
    rw [mulAdd, toNats_leftovers hbase hbyte, hn, Nat.mul_zero, Nat.zero_add]
  | cons d ds ih =>
    have hn : n ≠ 0 := by
      rintro rfl
      rw [Nat.digits_zero] at hds
      cases hds
    rw [Nat.digits_eq_cons_digits_div hbase hn] at hds
    obtain ⟨hd, hrest⟩ := List.cons.inj hds
    have hsum := toNat_sum hfactor hcarry d
    -- the lowest digit of `n` and its other digits are multiplied one after the other
    have hsplit : factor.toNat * n + carry.toNat =
        (d.toNat * factor.toNat + carry.toNat) + base.toNat * (factor.toNat * (n / base.toNat)) := by
      rw [hd]
      conv_lhs => rw [← Nat.mod_add_div n base.toNat]
      ring
    have hdigit : d.toNat < base.toNat := hd ▸ Nat.mod_lt _ (by omega)
    have hpos : factor.toNat * n + carry.toNat ≠ 0 := by
      have := Nat.mul_pos (Nat.zero_lt_of_lt hcarry) (Nat.pos_of_ne_zero hn)
      omega
    have hgoOn := ih (carry_lt (by omega) hfactor hcarry hdigit) hrest
    rw [UInt32.toNat_div, hsum] at hgoOn
    rw [Nat.digits_eq_cons_digits_div hbase hpos, hsplit, Nat.add_mul_mod_self_left,
      Nat.add_mul_div_left _ _ (by omega), Nat.add_comm (_ / _), ← hgoOn, ← hsum,
      ← toNat_lastDigit (by omega) hbyte]
    rfl

/-- Every carry of a multiplication of digits is below the factor. -/
theorem carries_lt (hbase : 2 ≤ base.toNat) (hfactor : factor.toNat ≤ 256) (hcarry : carry.toNat < factor.toNat)
    (hds : ∀ d ∈ ds, d.toNat < base.toNat) : ∀ c ∈ carries base factor ds carry, c.toNat < factor.toNat := by
  induction ds generalizing carry with
  | nil => exact fun c hc => (leftovers_le hbase c hc).trans_lt hcarry
  | cons d ds ih =>
    obtain ⟨hd, hrest⟩ := List.forall_mem_cons.1 hds
    exact List.forall_mem_cons.2 ⟨hcarry, ih (carry_lt (by omega) hfactor hcarry hd) hrest⟩

/-! ## Change of base -/

/-- The number that digits spell, most significant first. -/
def value (base : UInt32) (mostFirst : Bytes) : Nat := Nat.ofDigits base.toNat (toNats mostFirst.reverse)

theorem value_append_singleton (mostFirst : Bytes) (d : UInt8) :
    value base (mostFirst ++ [d]) = base.toNat * value base mostFirst + d.toNat := by
  rw [value, List.reverse_append, List.reverse_singleton, List.singleton_append, toNats, List.map_cons,
    Nat.ofDigits_cons, Nat.add_comm]
  rfl

theorem toNats_convert (htarget : 2 ≤ target.toNat) (hbyte : target.toNat ≤ 256) (hsource : source.toNat ≤ 256)
    {mostFirst : Bytes} (hdigits : ∀ d ∈ mostFirst, d.toNat < source.toNat) :
    toNats (convert source target mostFirst) = Nat.digits target.toNat (value source mostFirst) := by
  induction mostFirst using List.reverseRecOn with
  | nil => exact (Nat.digits_zero _).symm
  | append_singleton mostFirst d ih =>
    obtain ⟨hfront, hd⟩ := List.forall_mem_append.1 hdigits
    have hlast : d.toUInt32.toNat < source.toNat := by
      rw [UInt8.toNat_toUInt32]
      exact hd d (List.mem_singleton_self d)
    have hmul := toNats_mulAdd htarget hbyte hsource hlast (ih hfront)
    rw [UInt8.toNat_toUInt32] at hmul
    rw [convert, List.foldl_append, value_append_singleton]
    exact hmul

theorem convert_lt (htarget : 2 ≤ target.toNat) (hbyte : target.toNat ≤ 256) (hsource : source.toNat ≤ 256)
    {mostFirst : Bytes} (hdigits : ∀ d ∈ mostFirst, d.toNat < source.toNat) :
    ∀ d ∈ convert source target mostFirst, d.toNat < target.toNat := by
  intro d hd
  have hmem : d.toNat ∈ toNats (convert source target mostFirst) := List.mem_map_of_mem hd
  rw [toNats_convert htarget hbyte hsource hdigits] at hmem
  exact Nat.digits_lt_base htarget hmem

theorem carriesBelow_source (htarget : 2 ≤ target.toNat) (hbyte : target.toNat ≤ 256) (hsource : source.toNat ≤ 256)
    {mostFirst : Bytes} (hdigits : ∀ d ∈ mostFirst, d.toNat < source.toNat) :
    CarriesBelow source source target mostFirst := by
  intro read next hfront c hc
  obtain ⟨hread, hnext⟩ := List.forall_mem_append.1 fun d hd => hdigits d (hfront.subset hd)
  have hcarry : next.toUInt32.toNat < source.toNat := by
    rw [UInt8.toNat_toUInt32]
    exact hnext next (List.mem_singleton_self next)
  have hheld := convert_lt htarget hbyte hsource hread
  exact UInt32.lt_iff_toNat_lt.2 (carries_lt htarget hsource hcarry hheld c hc)

theorem CarriesBelow.mono {bound bound' : UInt32} {mostFirst : Bytes} (hle : bound ≤ bound')
    (h : CarriesBelow bound source target mostFirst) : CarriesBelow bound' source target mostFirst :=
  fun read next hfront c hc => UInt32.lt_of_lt_of_le (h read next hfront c hc) hle

/-! ## Zeros in front -/

/-- How many digits in front are zero. -/
def zerosInFront (mostFirst : Bytes) : Nat := (mostFirst.takeWhile (· == 0)).length

/-- The digits in base `target` of a number given by its digits in base `source`, behind as many zeros as
the given ones stand behind, most significant first. -/
def recode (source target : UInt32) (mostFirst : Bytes) : Bytes :=
  List.replicate (zerosInFront mostFirst) 0 ++ (convert source target mostFirst).reverse

theorem toNats_injective : Function.Injective toNats :=
  List.map_injective_iff.2 fun _ _ h => UInt8.toNat_inj.1 h

theorem value_replicate_append (n : Nat) (mostFirst : Bytes) :
    value base (List.replicate n 0 ++ mostFirst) = value base mostFirst := by
  rw [value, List.reverse_append, List.reverse_replicate, toNats, List.map_append, List.map_replicate]
  exact Nat.ofDigits_append_replicate_zero _

theorem zerosInFront_replicate_append {mostFirst : Bytes} (h : mostFirst.head? ≠ some 0) (n : Nat) :
    zerosInFront (List.replicate n 0 ++ mostFirst) = n := by
  have hnone : mostFirst.takeWhile (· == 0) = [] := by
    cases mostFirst with
    | nil => rfl
    | cons d rest => exact List.takeWhile_cons_of_neg (by simpa using h)
  rw [zerosInFront, List.takeWhile_append_of_pos (by simp), hnone, List.append_nil, List.length_replicate]

/-- A string of digits is the zeros in front and a rest that is empty or starts with another digit. -/
theorem exists_eq_replicate_append (mostFirst : Bytes) :
    ∃ rest, mostFirst = List.replicate (zerosInFront mostFirst) 0 ++ rest ∧ rest.head? ≠ some 0 := by
  refine ⟨mostFirst.dropWhile (· == 0), ?_, fun hhead => ?_⟩
  · have hzeros : mostFirst.takeWhile (· == 0) = List.replicate (zerosInFront mostFirst) 0 :=
      List.eq_replicate_iff.2 ⟨rfl, fun d hd => by simpa using List.mem_takeWhile_imp hd⟩
    rw [← hzeros, List.takeWhile_append_dropWhile]
  · have hnot := List.head?_dropWhile_not (· == (0 : UInt8)) mostFirst
    rw [hhead] at hnot
    simp at hnot

/-- Digits that do not start with a zero are the digits of their number. -/
theorem toNats_reverse_of_head?_ne_zero (hbase : 2 ≤ base.toNat) {mostFirst : Bytes}
    (hdigits : ∀ d ∈ mostFirst, d.toNat < base.toNat) (hhead : mostFirst.head? ≠ some 0) :
    toNats mostFirst.reverse = Nat.digits base.toNat (value base mostFirst) := by
  refine (Nat.digits_ofDigits base.toNat hbase _ ?_ ?_).symm
  · intro n hn
    obtain ⟨d, hd, rfl⟩ := List.mem_map.1 hn
    exact hdigits d (List.mem_reverse.1 hd)
  · intro hne hlast
    have hlast? : (toNats mostFirst.reverse).getLast? = some 0 := by
      rw [List.getLast?_eq_some_getLast hne, hlast]
    rw [toNats, List.getLast?_map, List.getLast?_reverse] at hlast?
    obtain ⟨d, hd, hzero⟩ := Option.map_eq_some_iff.1 hlast?
    exact hhead (hd.trans (congrArg some (UInt8.toNat_inj.1 hzero)))

/-- The zeros in front and the number determine the digits. -/
theorem eq_of_value_eq (hbase : 2 ≤ base.toNat) {a b : Bytes} (ha : ∀ d ∈ a, d.toNat < base.toNat)
    (hb : ∀ d ∈ b, d.toNat < base.toNat) (hzeros : zerosInFront a = zerosInFront b)
    (hvalue : value base a = value base b) : a = b := by
  obtain ⟨resta, ha', hheada⟩ := exists_eq_replicate_append a
  obtain ⟨restb, hb', hheadb⟩ := exists_eq_replicate_append b
  have hdigitsa : ∀ d ∈ resta, d.toNat < base.toNat := fun d hd => ha d (ha' ▸ List.mem_append_right _ hd)
  have hdigitsb : ∀ d ∈ restb, d.toNat < base.toNat := fun d hd => hb d (hb' ▸ List.mem_append_right _ hd)
  have hvaluea : value base a = value base resta := (congrArg _ ha').trans (value_replicate_append _ _)
  have hvalueb : value base b = value base restb := (congrArg _ hb').trans (value_replicate_append _ _)
  have hrest : toNats resta.reverse = toNats restb.reverse := by
    rw [toNats_reverse_of_head?_ne_zero hbase hdigitsa hheada,
      toNats_reverse_of_head?_ne_zero hbase hdigitsb hheadb, ← hvaluea, hvalue, hvalueb]
  rw [ha', hb', hzeros, List.reverse_injective (toNats_injective hrest)]

section Recode

variable {mostFirst : Bytes} (hsource : source.toNat ≤ 256) (htarget : 2 ≤ target.toNat)
  (hbyte : target.toNat ≤ 256) (hdigits : ∀ d ∈ mostFirst, d.toNat < source.toNat)

include hsource htarget hbyte hdigits

theorem recode_lt : ∀ d ∈ recode source target mostFirst, d.toNat < target.toNat := by
  intro d hd
  rcases List.mem_append.1 hd with hzero | hd
  · rw [List.eq_of_mem_replicate hzero]
    exact Nat.zero_lt_of_lt htarget
  · exact convert_lt htarget hbyte hsource hdigits d (List.mem_reverse.1 hd)

theorem value_recode : value target (recode source target mostFirst) = value source mostFirst := by
  rw [recode, value_replicate_append, value, List.reverse_reverse, toNats_convert htarget hbyte hsource hdigits,
    Nat.ofDigits_digits]

theorem zerosInFront_recode : zerosInFront (recode source target mostFirst) = zerosInFront mostFirst := by
  refine zerosInFront_replicate_append (fun hhead => ?_) _
  -- the digit in front would be the last digit of a number
  rw [List.head?_reverse] at hhead
  have hlast : (toNats (convert source target mostFirst)).getLast? = some 0 := by
    rw [toNats, List.getLast?_map, hhead]
    rfl
  rw [toNats_convert htarget hbyte hsource hdigits] at hlast
  have hne : Nat.digits target.toNat (value source mostFirst) ≠ [] := by
    intro hnil
    rw [hnil] at hlast
    cases hlast
  rw [List.getLast?_eq_some_getLast hne] at hlast
  exact Nat.getLast_digit_ne_zero _ (Nat.digits_ne_nil_iff_ne_zero.1 hne) (Option.some.inj hlast)

end Recode

/-- Digits written anew in another base are written back. -/
theorem recode_recode (hsource : 2 ≤ source.toNat) (hsource' : source.toNat ≤ 256) (htarget : 2 ≤ target.toNat)
    (htarget' : target.toNat ≤ 256) {mostFirst : Bytes} (hdigits : ∀ d ∈ mostFirst, d.toNat < source.toNat) :
    recode target source (recode source target mostFirst) = mostFirst := by
  have hlt := recode_lt hsource' htarget htarget' hdigits
  refine eq_of_value_eq hsource (recode_lt htarget' hsource hsource' hlt) hdigits ?_ ?_
  · rw [zerosInFront_recode htarget' hsource hsource' hlt, zerosInFront_recode hsource' htarget htarget' hdigits]
  · rw [value_recode htarget' hsource hsource' hlt, value_recode hsource' htarget htarget' hdigits]

end CoinScript.Radix
