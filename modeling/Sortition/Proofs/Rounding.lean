import Mathlib

/-!
# Rounding to doubles, by what it does to the order of magnitudes

An engine adds up weights and scales a number by their total, in double precision.  All that the
choice of an index needs of that arithmetic is the order of the results, and rounding keeps the
order in one respect: no magnitude that can be written down lies strictly between the exact result
and the rounded one.

* `OnGrid`: a magnitude of at most 53 binary digits, none of them below the smallest place.
* `Rounds exact rounded`: no magnitude of the grid separates the two.  So a result that is on the
  grid is not changed, and a bound that is on the grid is kept.
* `Canonical m e` and `datum m e`: the form in which rounding writes a magnitude.
* `exists_roundWithAccuracy` and `exists_round`: the rounding functions of doubles end in a
  canonical datum, and `Rounds` holds between what they were given and that.

The magnitude `2 ^ 1024` stands for infinity: it is where the next number would be if the exponents
went on.
-/

set_option autoImplicit false

open Float.Model Float.Model.UnpackedFloat

namespace Sortition

/-! ## The grid -/

/-- A magnitude of at most 53 digits, the last of them not below the smallest place. -/
def OnGrid (r : ℚ) : Prop :=
  ∃ (n : ℕ) (e : ℤ), n < 2 ^ 53 ∧ -1074 ≤ e ∧ r = n * 2 ^ e

theorem onGrid_natCast {n : ℕ} (h : n ≤ 2 ^ 53) : OnGrid n := by
  rcases h.lt_or_eq with h | rfl
  · exact ⟨n, 0, h, by norm_num, by simp⟩
  · exact ⟨1, 53, by norm_num, by norm_num, by norm_num⟩

/-- **Faithful rounding.**  No magnitude of the grid separates the exact from the rounded result,
as far as the grid is used. -/
structure Rounds (exact rounded : ℚ) : Prop where
  le_rounded : ∀ r, OnGrid r → r ≤ 2 ^ 1024 → r ≤ exact → r ≤ rounded
  rounded_le : ∀ r, OnGrid r → exact ≤ r → rounded ≤ r

namespace Rounds

variable {v q : ℚ}

protected theorem refl (v : ℚ) : Rounds v v :=
  ⟨fun _ _ _ h => h, fun _ _ h => h⟩

/-- A result on the grid is not changed. -/
theorem eq_of_onGrid (h : Rounds v q) (hv : OnGrid v) (hle : v ≤ 2 ^ 1024) : q = v :=
  le_antisymm (h.rounded_le v hv le_rfl) (h.le_rounded v hv hle le_rfl)

/-- A result beyond the largest number may be replaced by infinity. -/
theorem infinite (h : Rounds v q) (hq : 2 ^ 1024 ≤ q) : Rounds v (2 ^ 1024) where
  le_rounded _ _ hle _ := hle
  rounded_le r hr hvr := hq.trans (h.rounded_le r hr hvr)

end Rounds

/-- Moving a shift from the digits to the exponent. -/
theorem cast_mul_two_pow (n k : ℕ) (e : ℤ) :
    ((n * 2 ^ k : ℕ) : ℚ) * 2 ^ e = n * 2 ^ (e + k) := by
  rw [zpow_add₀ two_ne_zero, zpow_natCast]
  push_cast
  ring

/-- With a smaller exponent there are not enough digits to reach a full mantissa. -/
theorem cast_mul_zpow_lt {n : ℕ} {e f : ℤ} (hn : n < 2 ^ 53) (h : e < f) :
    (n : ℚ) * 2 ^ e < 2 ^ 52 * 2 ^ f := by
  have hn' : (n : ℚ) < 2 ^ 53 := by exact_mod_cast hn
  calc (n : ℚ) * 2 ^ e < 2 ^ 53 * 2 ^ e := by gcongr
    _ = 2 ^ 52 * 2 ^ (e + 1) := by rw [zpow_add_one₀ two_ne_zero]; ring
    _ ≤ 2 ^ 52 * 2 ^ f := by gcongr <;> [norm_num; omega]

/-! ## Canonical forms -/

/-- A full mantissa, unless the exponent is the smallest. -/
structure Canonical (m : ℕ) (e : ℤ) : Prop where
  lt_pow : m < 2 ^ 53
  le_exponent : -1074 ≤ e
  full_or : 2 ^ 52 ≤ m ∨ e = -1074

theorem Canonical.onGrid {m : ℕ} {e : ℤ} (h : Canonical m e) : OnGrid (m * 2 ^ e) :=
  ⟨m, e, h.lt_pow, h.le_exponent, rfl⟩

theorem Canonical.full_le {m : ℕ} {e : ℤ} (h : Canonical m e) (he : -1074 < e) :
    (2 : ℚ) ^ 52 ≤ m := by
  exact_mod_cast h.full_or.resolve_right he.ne'

/-- The exponents decide first. -/
theorem Canonical.lt_of_lt {m n : ℕ} {e f : ℤ} (hm : Canonical m e) (hn : Canonical n f)
    (h : e < f) : (m : ℚ) * 2 ^ e < n * 2 ^ f := by
  refine (cast_mul_zpow_lt hm.lt_pow h).trans_le ?_
  gcongr
  exact hn.full_le (hm.le_exponent.trans_lt h)

/-- The number, not below zero, of the mantissa `m` at the exponent `e`. -/
def datum (m : ℕ) (e : ℤ) : UnpackedFloat :=
  if h : m = 0 then .zero .positive else .finite .positive m e (Nat.pos_of_ne_zero h)

/-! ## Shifting digits out

The bits that were shifted out are remembered only as far as rounding needs them.  For `Rounds` it
is enough that the result lies between the quotient and the next number, and that nothing is
remembered when nothing but zeros was shifted out. -/

theorem mantissa_shiftRight (em : ExtendedMantissa) (k : ℕ) :
    (em >>> k).mantissa = em.mantissa / 2 ^ k := by
  induction k with
  | zero => simp [HShiftRight.hShiftRight, Nat.repeat]
  | succ k ih =>
    change (em >>> k).mantissa / 2 = _
    rw [ih, Nat.div_div_eq_div_mul, pow_succ]

theorem shiftRight_exact (n k : ℕ) :
    (⟨n * 2 ^ k, false, false⟩ : ExtendedMantissa) >>> k = ⟨n, false, false⟩ := by
  induction k generalizing n with
  | zero => simp [HShiftRight.hShiftRight, Nat.repeat]
  | succ k ih =>
    change ((⟨n * 2 ^ (k + 1), false, false⟩ : ExtendedMantissa) >>> k).shiftRightOne = _
    rw [pow_succ', ← mul_assoc, ih]
    simp [ExtendedMantissa.shiftRightOne]

theorem le_roundedMantissa (em : ExtendedMantissa) : em.mantissa ≤ em.roundedMantissa := by
  rcases em with ⟨m, r, s⟩
  cases r <;> cases s <;>
    simp [ExtendedMantissa.roundedMantissa, ExtendedMantissa.accuracy, Accuracy.roundToNearestEven]

theorem roundedMantissa_le (em : ExtendedMantissa) : em.roundedMantissa ≤ em.mantissa + 1 := by
  rcases em with ⟨m, r, s⟩
  cases r <;> cases s <;>
    simp [ExtendedMantissa.roundedMantissa, ExtendedMantissa.accuracy, Accuracy.roundToNearestEven]
  omega

/-- What is left of a mantissa, rounded, when `k` of its digits are shifted out. -/
def shiftRounded (m k : ℕ) : ℕ :=
  ((⟨m, false, false⟩ : ExtendedMantissa) >>> k).roundedMantissa

theorem le_shiftRounded {m k n : ℕ} (h : n * 2 ^ k ≤ m) : n ≤ shiftRounded m k := by
  refine le_trans ?_ (le_roundedMantissa _)
  rw [mantissa_shiftRight]
  exact (Nat.le_div_iff_mul_le (by positivity)).2 h

theorem shiftRounded_le {m k n : ℕ} (h : m ≤ n * 2 ^ k) : shiftRounded m k ≤ n := by
  rcases h.lt_or_eq with h | rfl
  · refine (roundedMantissa_le _).trans ?_
    rw [mantissa_shiftRight]
    exact (Nat.div_lt_iff_lt_mul (by positivity)).2 h
  · rw [shiftRounded, shiftRight_exact]
    rfl

/-- **Shifting rounds faithfully**, if a full mantissa is left whenever the exponent is not the
smallest. -/
theorem rounds_shiftRounded {m k : ℕ} {e : ℤ} (h : -1074 < e + k → 2 ^ 52 * 2 ^ k ≤ m) :
    Rounds (m * 2 ^ e) (shiftRounded m k * 2 ^ (e + k)) := by
  have hpos : (0 : ℚ) < 2 ^ e := by positivity
  -- A magnitude of the grid is a multiple of the last place that is left,
  have multiple : ∀ (n : ℕ) (f : ℤ), e + k ≤ f → ∃ n' : ℕ, (n : ℚ) * 2 ^ f = n' * 2 ^ (e + k) := by
    intro n f hf
    obtain ⟨d, rfl⟩ := Int.le.dest hf
    exact ⟨n * 2 ^ d, (cast_mul_two_pow n d _).symm⟩
  -- or else it lies below a full mantissa, and so below both sides.
  have small : ∀ (n : ℕ) (f : ℤ), n < 2 ^ 53 → -1074 ≤ f → f < e + k →
      (n : ℚ) * 2 ^ f < shiftRounded m k * 2 ^ (e + k) ∧ (n : ℚ) * 2 ^ f < m * 2 ^ e := by
    intro n f hn hf hlt
    have hm : 2 ^ 52 * 2 ^ k ≤ m := h (by omega)
    have hrounded : ((2 ^ 52 : ℕ) : ℚ) ≤ shiftRounded m k := by exact_mod_cast le_shiftRounded hm
    have hfull := cast_mul_zpow_lt hn hlt
    refine ⟨hfull.trans_le ?_, hfull.trans_le ?_⟩
    · gcongr
      exact_mod_cast hrounded
    · calc (2 : ℚ) ^ 52 * 2 ^ (e + k) = (2 ^ 52 * 2 ^ k : ℕ) * 2 ^ e := by
            rw [cast_mul_two_pow, Nat.cast_pow, Nat.cast_ofNat]
        _ ≤ m * 2 ^ e := by gcongr
  constructor
  · rintro r ⟨n, f, hn, hf, rfl⟩ - hle
    rcases lt_or_ge f (e + k) with hlt | hge
    · exact (small n f hn hf hlt).1.le
    · obtain ⟨n', hn'⟩ := multiple n f hge
      rw [hn'] at hle ⊢
      rw [← cast_mul_two_pow, mul_le_mul_iff_left₀ hpos] at hle
      gcongr
      exact_mod_cast le_shiftRounded (by exact_mod_cast hle)
  · rintro r ⟨n, f, hn, hf, rfl⟩ hle
    rcases lt_or_ge f (e + k) with hlt | hge
    · exact absurd hle (small n f hn hf hlt).2.not_ge
    · obtain ⟨n', hn'⟩ := multiple n f hge
      rw [hn'] at hle ⊢
      rw [← cast_mul_two_pow, mul_le_mul_iff_left₀ hpos] at hle
      gcongr
      exact_mod_cast shiftRounded_le (by exact_mod_cast hle)

/-! ## The rounding functions

Rounding shifts to the target exponent twice: once to shorten the mantissa, and once more in case
rounding has made it too long again. -/

theorem targetExponent_eq (m : ℕ) (e : ℤ) :
    Format.binary64.targetExponent (totalExponent m e) = max (m.log2 + e - 52) (-1074) := by
  have hmin : Format.binary64.minExponent = -1074 := rfl
  have hbits : Format.binary64.mantissaBits = 53 := rfl
  rw [Format.targetExponent, totalExponent, hmin, hbits]
  omega

theorem shiftToTargetExponent_eq {m k : ℕ} {e : ℤ}
    (hk : max (m.log2 + e - 52) (-1074) = e + k) :
    shiftToTargetExponent Format.binary64 m e .exact
      = ((⟨m, false, false⟩ : ExtendedMantissa) >>> k, e + k) := by
  rw [shiftToTargetExponent, targetExponent_eq, hk]
  simp [shiftToExponent, ExtendedMantissa.ofMantissaAndAccuracy]

/-- A mantissa that is short enough stays as it is. -/
theorem shiftToTargetExponent_of_lt {m : ℕ} {e : ℤ} (hm : m < 2 ^ 53) (he : -1074 ≤ e) :
    shiftToTargetExponent Format.binary64 m e .exact = (⟨m, false, false⟩, e) := by
  have hlog : m.log2 ≤ 52 := by
    rcases Nat.eq_zero_or_pos m with rfl | hpos
    · simp
    · exact Nat.le_of_lt_succ ((Nat.log2_lt hpos.ne').2 hm)
  have hshift : (max (m.log2 + e - 52) (-1074) - e).toNat = 0 := by omega
  rw [shiftToTargetExponent, targetExponent_eq, shiftToExponent, hshift]
  simp [ExtendedMantissa.ofMantissaAndAccuracy, HShiftRight.hShiftRight, Nat.repeat]

/-- The one mantissa that rounding makes too long loses a zero. -/
theorem shiftToTargetExponent_pow {e : ℤ} (he : -1074 ≤ e) :
    shiftToTargetExponent Format.binary64 (2 ^ 53) e .exact
      = (⟨2 ^ 52, false, false⟩, e + 1) := by
  rw [shiftToTargetExponent_eq (k := 1)]
  · rw [show (2 : ℕ) ^ 53 = 2 ^ 52 * 2 ^ 1 by norm_num, shiftRight_exact]
    rfl
  · rw [Nat.log2_two_pow]
    omega

theorem roundWithAccuracy_eq {m k : ℕ} {e : ℤ} (hk : max (m.log2 + e - 52) (-1074) = e + k) :
    roundWithAccuracy Format.binary64 .positive m e .exact =
      let second := shiftToTargetExponent Format.binary64 (shiftRounded m k) (e + k) .exact
      datum second.1.mantissa second.2 := by
  rw [roundWithAccuracy, shiftToTargetExponent_eq hk]
  rfl

/-- **Rounding is faithful, and ends in a canonical form**, when there are digits enough to begin
with. -/
theorem exists_roundWithAccuracy {m : ℕ} {e : ℤ} (hm : 0 < m)
    (he : e ≤ max (m.log2 + e - 52) (-1074)) :
    ∃ m' e', Canonical m' e' ∧ Rounds (m * 2 ^ e) (m' * 2 ^ e') ∧
      roundWithAccuracy Format.binary64 .positive m e .exact = datum m' e' := by
  obtain ⟨k, hk⟩ := Int.le.dest he
  have hfull : -1074 < e + k → 2 ^ 52 * 2 ^ k ≤ m := by
    intro hlt
    have hlog : m.log2 = 52 + k := by omega
    rw [← pow_add, ← hlog]
    exact Nat.log2_self_le hm.ne'
  have hrounds := rounds_shiftRounded hfull
  have hle : shiftRounded m k ≤ 2 ^ 53 := by
    refine shiftRounded_le (Nat.lt_log2_self.le.trans ?_)
    rw [← pow_add]
    exact Nat.pow_le_pow_right (by norm_num) (by omega)
  rw [roundWithAccuracy_eq hk.symm]
  rcases hle.lt_or_eq with hlt | heq
  · rw [shiftToTargetExponent_of_lt hlt (by omega)]
    refine ⟨_, _, ⟨hlt, by omega, ?_⟩, hrounds, rfl⟩
    by_cases hmin : e + k = -1074
    · exact .inr hmin
    · exact .inl (le_shiftRounded (hfull (by omega)))
  · rw [heq, shiftToTargetExponent_pow (by omega)]
    refine ⟨_, _, ⟨by norm_num, by omega, .inl le_rfl⟩, ?_, rfl⟩
    have hcarry : ((2 ^ 52 : ℕ) : ℚ) * 2 ^ (e + k + 1) = (2 ^ 53 : ℕ) * 2 ^ (e + k) := by
      rw [zpow_add_one₀ two_ne_zero]
      push_cast
      ring
    rw [hcarry, ← heq]
    exact hrounds

theorem log2_mul_two_pow {m : ℕ} (hm : 0 < m) (d : ℕ) : (m * 2 ^ d).log2 = m.log2 + d := by
  induction d with
  | zero => simp
  | succ d ih =>
    rw [pow_succ, ← mul_assoc, mul_comm, Nat.log2_two_mul (by positivity), ih, add_assoc]

/-- Before rounding, zeros are added to a mantissa that has too few digits. -/
theorem exists_decreaseExponent {m : ℕ} (e : ℤ) (hm : 0 < m) :
    ∃ d : ℕ, e - d ≤ max ((m * 2 ^ d).log2 + (e - d) - 52) (-1074) ∧
      UnpackedFloat.round Format.binary64 .positive m e
        = roundWithAccuracy Format.binary64 .positive (m * 2 ^ d) (e - d) .exact := by
  refine ⟨(e - max (m.log2 + e - 52) (-1074)).toNat, ?_, ?_⟩
  · rw [log2_mul_two_pow hm]
    omega
  · rw [UnpackedFloat.round, targetExponent_eq, decreaseExponent, Nat.shiftLeft_eq]

theorem exists_round {m : ℕ} (e : ℤ) (hm : 0 < m) :
    ∃ m' e', Canonical m' e' ∧ Rounds (m * 2 ^ e) (m' * 2 ^ e') ∧
      UnpackedFloat.round Format.binary64 .positive m e = datum m' e' := by
  obtain ⟨d, hd, heq⟩ := exists_decreaseExponent e hm
  have hsame : (m : ℚ) * 2 ^ e = (m * 2 ^ d : ℕ) * 2 ^ (e - d) := by
    rw [cast_mul_two_pow, sub_add_cancel]
  rw [heq, hsame]
  exact exists_roundWithAccuracy (by positivity) hd

end Sortition
