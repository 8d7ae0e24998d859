import Mathlib.Algebra.Order.Field.Power
import Mathlib.Algebra.Order.Ring.Rat
import Mathlib.Data.Nat.Cast.Field
import Mathlib.Order.Monotone.Basic
import Mathlib.Tactic.Linarith
import Mathlib.Tactic.Positivity
import Mathlib.Tactic.Ring
import LoxLang.Decimal.Shortest

/-!
# Rounding to doubles

The doubles of one sign, in the order of their bits, are `doubleAt 0`, `doubleAt 1` and so on, in
units of the least one above zero. `Rounds` says that a number is nearest to one of them, where a
number halfway between two goes to the even one. So it rounds to one double only (`Rounds.unique`).
What `Binary.covers` accepts rounds to the double in question, and so do the digits that
`Binary.shortest` finds (`rounds_shortest`).
-/

namespace LoxLang.Decimal

variable {a n : Nat} {i j : Int}

/-! ## Comparisons -/

/-- The number that a decimal stands for. -/
def Digits.value (d : Digits) : Rat :=
  d.digits * 10 ^ d.exponent

theorem cast_scaled (n b : Nat) (hb : (b : Rat) ≠ 0) (i : Int) :
    (n : Rat) * b ^ i * (b : Rat) ^ (-i).toNat = n * (b : Rat) ^ i.toNat := by
  rw [mul_assoc, ← zpow_natCast, ← zpow_natCast, ← zpow_add₀ hb]
  congr 2
  omega

/-- Both sides of a comparison are multiplied by the same positive number. -/
theorem exists_scale (a : Nat) (i : Int) (n : Nat) (j : Int) : ∃ s : Rat, 0 < s ∧
    ((a * tens i * twos (-j) : Nat) : Rat) = a * 10 ^ i * s ∧
    ((n * twos j * tens (-i) : Nat) : Rat) = n * 2 ^ j * s := by
  have hten := cast_scaled a 10 (by norm_num) i
  have htwo := cast_scaled n 2 (by norm_num) j
  refine ⟨10 ^ (-i).toNat * 2 ^ (-j).toNat, by positivity, ?_, ?_⟩
  · simp only [tens, twos, Nat.pow_eq]
    push_cast at hten ⊢
    rw [← mul_assoc, hten]
  · simp only [tens, twos, Nat.pow_eq]
    push_cast at htwo ⊢
    rw [mul_comm (10 ^ (-i).toNat : Rat), ← mul_assoc, htwo]

theorem compareScaled_lt : compareScaled a i n j = .lt ↔ (a : Rat) * 10 ^ i < n * 2 ^ j := by
  obtain ⟨s, hs, ha, hn⟩ := exists_scale a i n j
  rw [compareScaled, Nat.compare_eq_lt, ← Nat.cast_lt (α := Rat), ha, hn, mul_lt_mul_iff_left₀ hs]

theorem compareScaled_gt : compareScaled a i n j = .gt ↔ (n : Rat) * 2 ^ j < a * 10 ^ i := by
  obtain ⟨s, hs, ha, hn⟩ := exists_scale a i n j
  rw [compareScaled, Nat.compare_eq_gt, ← Nat.cast_lt (α := Rat), ha, hn, mul_lt_mul_iff_left₀ hs]

theorem compareScaled_eq : compareScaled a i n j = .eq ↔ (a : Rat) * 10 ^ i = n * 2 ^ j := by
  obtain ⟨s, hs, ha, hn⟩ := exists_scale a i n j
  rw [compareScaled, Nat.compare_eq_eq, ← Nat.cast_inj (R := Rat), ha, hn, mul_left_inj' hs.ne']

/-! ## Doubles in order -/

/-- The doubles from zero up, counted in the order of their bits, in units of the least one. -/
def doubleAt (k : Nat) : Nat :=
  if k / 2 ^ 52 = 0 then k % 2 ^ 52 else (2 ^ 52 + k % 2 ^ 52) * 2 ^ (k / 2 ^ 52 - 1)

/-- The next double is one unit in the last place away. -/
theorem doubleAt_succ (k : Nat) : doubleAt (k + 1) = doubleAt k + 2 ^ (k / 2 ^ 52 - 1) := by
  have hsame (h : k % 2 ^ 52 + 1 < 2 ^ 52) :
      (k + 1) / 2 ^ 52 = k / 2 ^ 52 ∧ (k + 1) % 2 ^ 52 = k % 2 ^ 52 + 1 := by omega
  have hnext (h : ¬k % 2 ^ 52 + 1 < 2 ^ 52) :
      (k + 1) / 2 ^ 52 = k / 2 ^ 52 + 1 ∧ (k + 1) % 2 ^ 52 = 0 ∧ k % 2 ^ 52 = 2 ^ 52 - 1 := by omega
  unfold doubleAt
  by_cases h : k % 2 ^ 52 + 1 < 2 ^ 52
  · obtain ⟨he, hf⟩ := hsame h
    rw [he, hf]
    split
    · next h0 => rw [h0]; rfl
    · ring
  · obtain ⟨he, hf, hk⟩ := hnext h
    rw [he, hf, hk]
    rcases Nat.eq_zero_or_pos (k / 2 ^ 52) with h0 | hpos
    · rw [h0]
      rfl
    · obtain ⟨e, he'⟩ : ∃ e, k / 2 ^ 52 = e + 1 := ⟨k / 2 ^ 52 - 1, by omega⟩
      rw [he', if_neg (by omega), if_neg (by omega)]
      simp only [Nat.add_sub_cancel, pow_succ]
      omega

theorem strictMono_doubleAt : StrictMono doubleAt :=
  strictMono_nat_of_lt_succ fun k => by
    rw [doubleAt_succ]
    exact Nat.lt_add_of_pos_right (Nat.two_pow_pos _)

/-- Where a double stands among those of its sign. -/
def rank (bits : UInt64) : Nat :=
  exponentField bits * 2 ^ 52 + fractionField bits

theorem exponentField_eq (bits : UInt64) : exponentField bits = bits.toNat / 2 ^ 52 % 2 ^ 11 := by
  have hmask : (0x7ff : UInt64).toNat = 2 ^ 11 - 1 := rfl
  rw [exponentField, UInt64.toNat_and, UInt64.toNat_shiftRight, hmask,
    Nat.and_two_pow_sub_one_eq_mod, Nat.shiftRight_eq_div_pow]
  rfl

theorem fractionField_eq (bits : UInt64) : fractionField bits = bits.toNat % 2 ^ 52 := by
  have hmask : (0xfffffffffffff : UInt64).toNat = 2 ^ 52 - 1 := rfl
  rw [fractionField, UInt64.toNat_and, hmask, Nat.and_two_pow_sub_one_eq_mod]

theorem isNegative_eq (bits : UInt64) : isNegative bits = decide (2 ^ 63 ≤ bits.toNat) := by
  have hlt := bits.toNat_lt
  have hshift : (bits >>> 63).toNat = bits.toNat / 2 ^ 63 := by
    rw [UInt64.toNat_shiftRight, Nat.shiftRight_eq_div_pow]
    rfl
  rw [isNegative, Bool.eq_iff_iff, beq_iff_eq, decide_eq_true_iff, ← UInt64.toNat_inj, hshift]
  show bits.toNat / 2 ^ 63 = 1 ↔ _
  omega

/-- The sign and the rank of a double are all of it. -/
theorem eq_of_rank_eq {bits bits' : UInt64} (hsign : isNegative bits = isNegative bits')
    (hrank : rank bits = rank bits') : bits = bits' := by
  have hlt := bits.toNat_lt
  have hlt' := bits'.toNat_lt
  rw [isNegative_eq, isNegative_eq, decide_eq_decide] at hsign
  rw [rank, rank, exponentField_eq, exponentField_eq, fractionField_eq, fractionField_eq] at hrank
  rw [← UInt64.toNat_inj]
  omega

/-- The number, in units of the least double, lies between the midpoints around the double at `k`,
and on a midpoint only if `k` is even. -/
structure Rounds (q : Rat) (k : Nat) : Prop where
  low : (doubleAt (k - 1) + doubleAt k : Rat) ≤ 2 * q
  high : 2 * q ≤ doubleAt k + doubleAt (k + 1)
  even_low : (doubleAt (k - 1) + doubleAt k : Rat) = 2 * q → k % 2 = 0
  even_high : 2 * q = doubleAt k + doubleAt (k + 1) → k % 2 = 0

variable {q : Rat} {k l : Nat}

/-- No number rounds to two doubles. -/
theorem Rounds.not_lt (hk : Rounds q k) (hl : Rounds q l) : ¬k < l := by
  intro hlt
  have hpred : doubleAt k ≤ doubleAt (l - 1) := strictMono_doubleAt.monotone (by omega)
  have hsucc : doubleAt (k + 1) ≤ doubleAt l := strictMono_doubleAt.monotone hlt
  rw [← Nat.cast_le (α := Rat)] at hpred hsucc
  -- Both midpoints are the same number, so that both doubles are even and next to each other.
  have hlow : (doubleAt (l - 1) + doubleAt l : Rat) = 2 * q := by linarith [hk.high, hl.low]
  have hhigh : 2 * q = doubleAt k + doubleAt (k + 1) := by linarith [hk.high, hl.low]
  have hsame : (doubleAt k : Rat) = doubleAt (l - 1) := by linarith
  have hnext : k = l - 1 := strictMono_doubleAt.injective (Nat.cast_injective hsame)
  have := hk.even_high hhigh
  have := hl.even_low hlow
  omega

theorem Rounds.unique (hk : Rounds q k) (hl : Rounds q l) : k = l :=
  Nat.le_antisymm (Nat.not_lt.1 (hl.not_lt hk)) (Nat.not_lt.1 (hk.not_lt hl))

/-- A double rounds to itself. -/
theorem rounds_doubleAt (k : Nat) : Rounds (doubleAt k) k := by
  have hsucc : (doubleAt k : Rat) < doubleAt (k + 1) :=
    Nat.cast_lt.2 (strictMono_doubleAt (Nat.lt_succ_self k))
  have hpred : (doubleAt (k - 1) : Rat) ≤ doubleAt k :=
    Nat.cast_le.2 (strictMono_doubleAt.monotone (Nat.sub_le k 1))
  refine ⟨by linarith, by linarith, fun h => ?_, fun h => by linarith⟩
  have hsame : (doubleAt (k - 1) : Rat) = doubleAt k := by linarith
  have := strictMono_doubleAt.injective (Nat.cast_injective hsame)
  omega

/-! ## The interval that a double covers -/

/-- How many times the least double goes into one. -/
def leasts : Rat :=
  2 ^ (1074 : Int)

theorem leasts_pos : 0 < leasts :=
  zpow_pos two_pos _

variable {d : Digits}

section Covers

variable (bits : UInt64)

theorem fractionField_lt : fractionField bits < 2 ^ 52 := by
  rw [fractionField_eq]
  exact Nat.mod_lt _ (by norm_num)

theorem rank_div : rank bits / 2 ^ 52 = exponentField bits := by
  have := fractionField_lt bits
  unfold rank
  omega

theorem rank_mod : rank bits % 2 ^ 52 = fractionField bits := by
  have := fractionField_lt bits
  unfold rank
  omega

/-- The unit of the mantissa, in units of the least double. -/
def unit : Nat :=
  2 ^ (exponentField bits - 1)

theorem exponent_ofBits :
    (Binary.ofBits bits).exponent = ((exponentField bits - 1 : Nat) : Int) - 1074 := by
  unfold Binary.ofBits
  dsimp only
  split
  · next h => simp [h]
  · next h =>
    dsimp only
    omega

theorem doubleAt_rank : doubleAt (rank bits) = (Binary.ofBits bits).mantissa * unit bits := by
  rw [doubleAt, rank_div, rank_mod, unit, Binary.ofBits]
  split
  · next h => simp [h]
  · rfl

theorem doubleAt_rank_succ : doubleAt (rank bits + 1) = doubleAt (rank bits) + unit bits := by
  rw [doubleAt_succ, rank_div, unit]

theorem mantissa_mod : (Binary.ofBits bits).mantissa % 2 = rank bits % 2 := by
  unfold Binary.ofBits rank
  dsimp only
  split
  · next h => simp [h]
  · dsimp only
    omega

/-- The double below is one unit away, or half a unit where the unit gets smaller. -/
theorem spacing_below (hk : rank bits = k + 1) :
    if (Binary.ofBits bits).crowded then unit bits = 2 * 2 ^ (k / 2 ^ 52 - 1)
    else unit bits = 2 ^ (k / 2 ^ 52 - 1) := by
  have hdiv := rank_div bits
  have hmod := rank_mod bits
  have hf := fractionField_lt bits
  unfold Binary.ofBits unit
  dsimp only
  by_cases he : exponentField bits = 0
  · rw [if_pos he]
    have hk' : k / 2 ^ 52 = 0 := by omega
    rw [he, hk']
    rfl
  · rw [if_neg he]
    by_cases hc : fractionField bits = 0 ∧ 1 < exponentField bits
    · obtain ⟨e, he'⟩ : ∃ e, exponentField bits = e + 2 := ⟨exponentField bits - 2, by omega⟩
      have hk' : k / 2 ^ 52 = e + 1 := by omega
      rw [hk']
      simp [hc.1, he', pow_succ, mul_comm]
    · have hk' : k / 2 ^ 52 - 1 = exponentField bits - 1 := by omega
      have hnot : (fractionField bits == 0 && decide (exponentField bits > 1)) = false := by
        rw [Bool.and_eq_false_iff, beq_eq_false_iff_ne, decide_eq_false_iff_not]
        omega
      rw [hk']
      simp [hnot]

/-- The lower midpoint. -/
theorem low_ofBits : (if (Binary.ofBits bits).crowded then 4 * (Binary.ofBits bits).mantissa - 1
      else 4 * (Binary.ofBits bits).mantissa - 2) * unit bits =
    2 * (doubleAt (rank bits - 1) + doubleAt (rank bits)) := by
  have hrank := doubleAt_rank bits
  have hunit : 0 < unit bits := Nat.two_pow_pos _
  rcases Nat.eq_zero_or_pos (rank bits) with h0 | hpos
  · rw [h0] at hrank ⊢
    have hm : (Binary.ofBits bits).mantissa = 0 := by
      rcases Nat.mul_eq_zero.1 hrank.symm with hm | hu
      · exact hm
      · omega
    rw [hm]
    simp [doubleAt]
  · obtain ⟨k, hk⟩ : ∃ k, rank bits = k + 1 := ⟨rank bits - 1, by omega⟩
    have hspread := spacing_below bits hk
    rw [hk, doubleAt_succ] at hrank
    rw [hk, Nat.add_sub_cancel, doubleAt_succ]
    split at hspread
    · next hc =>
      rw [if_pos hc, Nat.sub_mul, Nat.mul_assoc, ← hrank]
      omega
    · next hc =>
      rw [if_neg hc, Nat.sub_mul, Nat.mul_assoc, ← hrank]
      omega

/-- A multiple of a quarter of the unit, in units of the least double. -/
theorem quarters_mul {t : Nat} (h : n * unit bits = 2 * t) :
    2 * ((n : Rat) * 2 ^ ((Binary.ofBits bits).exponent - 2) * leasts) = t := by
  have hunit : (2 : Rat) ^ ((Binary.ofBits bits).exponent - 2) * leasts * 4 = unit bits := by
    have hfour : (4 : Rat) = 2 ^ (2 : Int) := by norm_num
    rw [leasts, hfour, ← zpow_add₀ two_ne_zero, ← zpow_add₀ two_ne_zero, exponent_ofBits, unit,
      Nat.cast_pow, Nat.cast_ofNat, ← zpow_natCast]
    congr 1
    ring
  have hcast : (n : Rat) * unit bits = 2 * t := by exact_mod_cast h
  rw [← hunit] at hcast
  linarith

/-- A decimal that a double covers rounds to it. -/
theorem Rounds.of_covers (h : (Binary.ofBits bits).covers d = true) :
    Rounds (d.value * leasts) (rank bits) := by
  have hlow := quarters_mul bits (low_ofBits bits)
  have hhigh : (4 * (Binary.ofBits bits).mantissa + 2) * unit bits =
      2 * (doubleAt (rank bits) + doubleAt (rank bits + 1)) := by
    rw [doubleAt_rank_succ, doubleAt_rank]
    ring
  replace hhigh := quarters_mul bits hhigh
  rw [Nat.cast_add (doubleAt _)] at hlow hhigh
  simp only [Binary.covers, Bool.and_eq_true, Bool.or_eq_true, beq_iff_eq, compareScaled_gt,
    compareScaled_lt, compareScaled_eq, mantissa_mod] at h
  obtain ⟨hl, hh⟩ := h
  have hscale {a b : Rat} (hab : 2 * (a * leasts) = 2 * (b * leasts)) : a = b :=
    mul_right_cancel₀ leasts_pos.ne' (mul_left_cancel₀ two_ne_zero hab)
  have hmono {a b : Rat} (hab : a ≤ b) : 2 * (a * leasts) ≤ 2 * (b * leasts) :=
    mul_le_mul_of_nonneg_left (mul_le_mul_of_nonneg_right hab leasts_pos.le) zero_le_two
  unfold Digits.value
  refine ⟨?_, ?_, fun he => ?_, fun he => ?_⟩
  · rw [← hlow]
    exact hmono (hl.elim le_of_lt fun h => h.2.ge)
  · rw [← hhigh]
    exact hmono (hh.elim le_of_lt fun h => h.2.le)
  · rw [← hlow] at he
    exact hl.elim (fun h => absurd (hscale he) h.ne) And.left
  · rw [← hhigh] at he
    exact hh.elim (fun h => absurd (hscale he) h.ne) And.left

end Covers

/-! ## The digits that are found -/

/-- Zeros at the end do not matter to the value. -/
theorem Digits.value_strip (fuel : Nat) : ∀ d : Digits, (d.strip fuel).value = d.value := by
  induction fuel with
  | zero => exact fun _ => rfl
  | succ fuel ih =>
    intro d
    unfold Digits.strip
    split
    · next h =>
      have hten : d.digits % 10 = 0 := by
        simp only [Bool.and_eq_true, decide_eq_true_eq] at h
        exact h.1
      rw [ih]
      have hdigits : (d.digits : Rat) = (d.digits / 10 : Nat) * 10 := by
        exact_mod_cast (Nat.div_mul_cancel (Nat.dvd_of_mod_eq_zero hten)).symm
      unfold Digits.value
      rw [hdigits, zpow_add_one₀ (by norm_num)]
      ring
    · rfl

variable {x : Binary}

/-- Digits on a grid round to their double. -/
theorem Binary.covers_of_onGrid? {grid : Int} (h : x.onGrid? grid = some d) :
    x.covers d = true := by
  unfold Binary.onGrid? at h
  dsimp only at h
  split at h
  · cases h
  · next hdown _ => cases h; exact hdown
  · next _ hup => cases h; exact hup
  · next hdown hup =>
    split at h
    · cases h; exact hdown
    · cases h; exact hup
    · cases h
      split
      · exact hdown
      · exact hup

theorem cast_twos (e : Int) : (twos e : Rat) = 2 ^ (max e 0) := by
  rw [twos, Nat.pow_eq, Nat.cast_pow, Nat.cast_ofNat, ← zpow_natCast, Int.toNat_eq_max]

/-- The exact digits of a double have its value. -/
theorem exactDigits_value (x : Binary) :
    Digits.value ⟨x.mantissa * Nat.pow 5 (-x.exponent).toNat * twos x.exponent, min x.exponent 0⟩ =
      x.mantissa * 2 ^ x.exponent := by
  have hten : (10 : Rat) ^ min x.exponent 0 = 2 ^ min x.exponent 0 * 5 ^ min x.exponent 0 := by
    rw [← mul_zpow]
    norm_num
  have hfive : ((5 ^ (-x.exponent).toNat : Nat) : Rat) * 5 ^ min x.exponent 0 = 1 := by
    rw [Nat.cast_pow, Nat.cast_ofNat, ← zpow_natCast, ← zpow_add₀ (by norm_num)]
    have hsum : ((-x.exponent).toNat : Int) + min x.exponent 0 = 0 := by omega
    rw [hsum, zpow_zero]
  have htwo : (2 : Rat) ^ max x.exponent 0 * 2 ^ min x.exponent 0 = 2 ^ x.exponent := by
    rw [← zpow_add₀ two_ne_zero, max_add_min, add_zero]
  rw [Digits.value, hten, Nat.cast_mul, Nat.cast_mul, cast_twos, Nat.pow_eq]
  calc _ = (x.mantissa : Rat) * (((5 ^ (-x.exponent).toNat : Nat) : Rat) * 5 ^ min x.exponent 0) *
        (2 ^ max x.exponent 0 * 2 ^ min x.exponent 0) := by ring
    _ = _ := by rw [hfive, htwo, mul_one]

/-- The value of a double rounds to it. -/
theorem Rounds.of_exact (bits : UInt64) :
    Rounds ((Binary.ofBits bits).mantissa * 2 ^ (Binary.ofBits bits).exponent * leasts)
      (rank bits) := by
  have hunit : (2 : Rat) ^ (Binary.ofBits bits).exponent * leasts = unit bits := by
    rw [leasts, ← zpow_add₀ two_ne_zero, exponent_ofBits, unit, Nat.cast_pow, Nat.cast_ofNat,
      ← zpow_natCast]
    congr 1
    ring
  rw [mul_assoc, hunit, ← Nat.cast_mul, ← doubleAt_rank]
  exact rounds_doubleAt (rank bits)

/-- A double that is a natural number has its value. -/
theorem natural?_value (h : x.natural? = some n) : (n : Rat) = x.mantissa * 2 ^ x.exponent := by
  unfold Binary.natural? Binary.ratio at h
  dsimp only at h
  split at h
  · next hmod =>
    cases h
    have hpos : (twos (-x.exponent) : Rat) ≠ 0 := by
      rw [cast_twos]
      positivity
    rw [Nat.cast_div (Nat.dvd_of_mod_eq_zero hmod) hpos, Nat.cast_mul, cast_twos, cast_twos,
      mul_div_assoc, ← zpow_sub₀ two_ne_zero]
    congr 2
    omega
  · cases h

/-- Whichever digits are found, they round to the double. -/
theorem rounds_shortest (bits : UInt64) :
    Rounds ((Binary.ofBits bits).shortest.value * leasts) (rank bits) := by
  unfold Binary.shortest
  dsimp only
  rw [Digits.value_strip]
  cases hfound : (List.range 17).findSome? fun n =>
      (Binary.ofBits bits).onGrid? ((Binary.ofBits bits).magnitude - (n + 1 : Nat)) with
  | some d =>
    obtain ⟨n, -, hd⟩ := List.exists_of_findSome?_eq_some hfound
    exact .of_covers bits (Binary.covers_of_onGrid? hd)
  | none =>
    rw [Option.getD_none, exactDigits_value]
    exact .of_exact bits

end LoxLang.Decimal
