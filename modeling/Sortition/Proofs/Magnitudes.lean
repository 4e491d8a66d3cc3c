import Mathlib
import Sortition.Engine.Source
import Sortition.Proofs.Rounding

/-!
# Weights and their totals as magnitudes

A double is given by its bits.  To compare two of them is to unpack both, and to add or to multiply
them is to unpack both, to round the exact result and to pack it again.  This file follows the
numbers that can be weights through all of that, and what is left to know of such a number is its
`magnitude`.

* `canonical_of_unpack`, `unpack_pack_datum`: what is unpacked is in canonical form, and a canonical
  form is not changed by packing it, unless it is too large and becomes infinite.
* `Amount`: the numbers that are not below zero.  They are ordered as their magnitudes are
  (`Amount.compare_eq`), and their sums and products are faithfully rounded amounts
  (`faithful_add`, `faithful_mul`).
* In the namespace `WeightTable`, all this is said of doubles.  A double is usable as a weight
  exactly if it is an amount (`usable_iff`), and so there is an order, and a total that never falls
  (`magnitude_le_add`) and that a zero does not change (`magnitude_add_zero`).
* `magnitude_unit`: the unit that an engine draws.
-/

set_option autoImplicit false

open Float.Model Float.Model.UnpackedFloat

namespace Sortition

/-! ## The 64 bits of a double -/

@[simp]
theorem unpackSign_packComponents {spec : Format} {s : Sign} {e : BitVec spec.exponentBits}
    {m : BitVec spec.mantissaBitsWithoutImplicit} :
    unpackSign (packComponents spec s e m) = s.toBitVec := by
  ext i hi
  obtain rfl : i = 0 := by omega
  simp [unpackSign, packComponents, BitVec.getLsbD_append, BitVec.getElem_append]

@[simp]
theorem ofBitVec_toBitVec (s : Sign) : Sign.ofBitVec s.toBitVec = s := by
  cases s <;> rfl

theorem exponentBias_binary64 : Format.binary64.exponentBias = 1023 := rfl

/-- The digit that is not stored stands in front of the 52 that are. -/
theorem toNat_implicit_append (m : BitVec 52) : (1#1 ++ m).toNat = 2 ^ 52 + m.toNat := by
  rw [BitVec.toNat_append, ← Nat.shiftLeft_add_eq_or_of_lt m.isLt]
  simp [Nat.shiftLeft_eq]

/-- Every finite double is in canonical form. -/
theorem canonical_of_unpack {b : BitVec Format.binary64.numBits} {s : Sign} {m : ℕ} {e : ℤ}
    {h : 0 < m} (hb : UnpackedFloat.unpack Format.binary64 b = .finite s m e h) :
    Canonical m e ∧ e ≤ 971 := by
  have hexp := (unpackExponent b).isLt
  have hmant := (unpackMantissa b).isLt
  rw [UnpackedFloat.unpack, exponentBias_binary64] at hb
  simp only at hb hexp hmant
  by_cases hmax : unpackExponent b = -1#11
  · rw [if_pos hmax] at hb
    split at hb <;> cases hb
  rw [if_neg hmax] at hb
  by_cases hzero : unpackExponent b = 0#11
  · rw [if_pos hzero] at hb
    split at hb
    · cases hb
    · cases hb
      rw [hzero]
      exact ⟨⟨by omega, by norm_num, .inr (by norm_num)⟩, by norm_num⟩
  · rw [if_neg hzero] at hb
    cases hb
    have h0 : (unpackExponent b).toNat ≠ 0 := fun h => hzero (BitVec.eq_of_toNat_eq h)
    have h1 : (unpackExponent b).toNat ≠ 2047 := fun h => hmax (BitVec.eq_of_toNat_eq h)
    rw [toNat_implicit_append]
    exact ⟨⟨by omega, by push_cast; omega, .inl (by omega)⟩, by push_cast; omega⟩

theorem ofNat_ne_ofNat {w a b : ℕ} (ha : a < 2 ^ w) (hb : b < 2 ^ w) (h : a ≠ b) :
    BitVec.ofNat w a ≠ BitVec.ofNat w b := by
  intro heq
  have := congrArg BitVec.toNat heq
  rw [BitVec.toNat_ofNat, BitVec.toNat_ofNat, Nat.mod_eq_of_lt ha, Nat.mod_eq_of_lt hb] at this
  exact h this

/-- A full mantissa is stored without its first digit, -/
theorem unpack_packComponents_full (s : Sign) {m d : ℕ} (h : 2 ^ 52 ≤ m) (hm : m < 2 ^ 53)
    (hd : d < 2046) :
    UnpackedFloat.unpack Format.binary64
        (packComponents Format.binary64 s (BitVec.ofNat 11 (d + 1)) (BitVec.ofNat 52 m))
      = .finite s m (d - 1074) (by omega) := by
  have hmant : (BitVec.ofNat 52 m).toNat = m - 2 ^ 52 := by
    rw [BitVec.toNat_ofNat]
    omega
  have hexp : (BitVec.ofNat 11 (d + 1)).toNat = d + 1 := by
    rw [BitVec.toNat_ofNat]
    omega
  have hmax : BitVec.ofNat 11 (d + 1) ≠ -1#11 :=
    ofNat_ne_ofNat (b := 2047) (by omega) (by norm_num) (by omega)
  have hzero : BitVec.ofNat 11 (d + 1) ≠ 0#11 :=
    ofNat_ne_ofNat (by omega) (by norm_num) (by omega)
  have hsub : ((d + 1 : ℕ) : ℤ) - ((1023 : ℕ) + (52 : ℕ)) = d - 1074 := by omega
  simp only [UnpackedFloat.unpack, unpackExponent_packComponents, unpackMantissa_packComponents,
    unpackSign_packComponents, ofBitVec_toBitVec, exponentBias_binary64, if_neg hmax, if_neg hzero,
    toNat_implicit_append, hmant, hexp, Nat.add_sub_cancel' h, hsub]

/-- and any other mantissa as it is. -/
theorem unpack_packComponents_short (s : Sign) {m : ℕ} (h0 : 0 < m) (h : m < 2 ^ 52) :
    UnpackedFloat.unpack Format.binary64
        (packComponents Format.binary64 s 0#11 (BitVec.ofNat 52 m))
      = .finite s m (-1074) h0 := by
  have hmant : (BitVec.ofNat 52 m).toNat = m := by
    rw [BitVec.toNat_ofNat]
    omega
  have hzero : BitVec.ofNat 52 m ≠ 0#52 := ofNat_ne_ofNat h (by norm_num) h0.ne'
  simp only [UnpackedFloat.unpack, unpackExponent_packComponents, unpackMantissa_packComponents,
    unpackSign_packComponents, ofBitVec_toBitVec, exponentBias_binary64, dif_neg hzero, hmant]
  rfl

theorem unpack_pack_zero (s : Sign) : (Float.Model.pack (.zero s)).unpack = .zero s := by
  cases s <;> rfl

theorem unpack_pack_infinity (s : Sign) :
    (Float.Model.pack (.infinity s)).unpack = .infinity s := by
  cases s <;> rfl

/-- **A canonical form is what comes back from its bits**, unless its exponent is too large. -/
theorem unpack_pack_datum {m : ℕ} {e : ℤ} (hc : Canonical m e) :
    (Float.Model.pack (datum m e)).unpack
      = if e ≤ 971 then datum m e else .infinity .positive := by
  obtain ⟨hm, he, hfull⟩ := hc
  by_cases h0 : m = 0
  · rw [datum, dif_pos h0, if_pos (by omega), unpack_pack_zero]
  have hlog : m.log2 + 1 = 53 ↔ 2 ^ 52 ≤ m := by
    have hlt : m.log2 < 53 := (Nat.log2_lt h0).2 hm
    rw [← Nat.le_log2 h0]
    omega
  have hbits : Format.binary64.mantissaBits = 53 := rfl
  obtain ⟨d, rfl⟩ := Int.exists_add_of_le he
  have hexp : (-1074 + (d : ℤ) + (1023 : ℕ) + (52 : ℕ)).toNat = d + 1 := by omega
  rw [datum, dif_neg h0]
  simp only [Float.Model.pack, Float.Model.unpack, UnpackedFloat.pack, exponentBias_binary64, hbits,
    hlog, hexp]
  by_cases hover : -1074 + (d : ℤ) ≤ 971
  · rw [if_pos hover, if_neg (by omega)]
    split
    case isTrue h =>
      refine (unpack_packComponents_full .positive h hm (by omega)).trans ?_
      simp only [sub_eq_neg_add]
    case isFalse h =>
      obtain rfl : d = 0 := by omega
      exact unpack_packComponents_short .positive (Nat.pos_of_ne_zero h0) (by omega)
  · rw [if_neg hover, if_pos (by omega)]
    rfl

/-! ## Amounts -/

/-- The magnitude of a number, whatever its sign; an infinite one is put where the next number would
be. -/
def amountOf : UnpackedFloat → ℚ
  | .finite _ m e _ => m * 2 ^ e
  | .infinity _ => 2 ^ 1024
  | .zero _ => 0
  | .notANumber => 0

/-- The numbers that can be a weight: zero with either sign, and what lies above it. -/
inductive Amount : UnpackedFloat → Prop
  | zero (s : Sign) : Amount (.zero s)
  | finite {m : ℕ} {e : ℤ} (h : 0 < m) (hc : Canonical m e) (he : e ≤ 971) :
    Amount (.finite .positive m e h)
  | infinity : Amount (.infinity .positive)

@[simp]
theorem amountOf_datum (m : ℕ) (e : ℤ) : amountOf (datum m e) = m * 2 ^ e := by
  rw [datum]
  split
  case isTrue h => simp [amountOf, h]
  case isFalse => rfl

theorem amount_datum {m : ℕ} {e : ℤ} (hc : Canonical m e) (he : e ≤ 971) : Amount (datum m e) := by
  rw [datum]
  split
  · exact .zero _
  · exact .finite _ hc he

theorem finite_eq_datum {m : ℕ} (e : ℤ) (h : 0 < m) : .finite .positive m e h = datum m e := by
  rw [datum, dif_neg h.ne']

/-- The magnitude of infinity is that of the first exponent that is too large. -/
theorem full_mul_zpow : (2 : ℚ) ^ 52 * 2 ^ (972 : ℤ) = 2 ^ 1024 := by
  rw [show (972 : ℤ) = (972 : ℕ) from rfl, zpow_natCast, ← pow_add]

/-- What is finite lies below it, -/
theorem mul_zpow_lt_infinite {m : ℕ} {e : ℤ} (hc : Canonical m e) (he : e ≤ 971) :
    (m : ℚ) * 2 ^ e < 2 ^ 1024 :=
  (cast_mul_zpow_lt hc.lt_pow (Int.lt_add_one_of_le he)).trans_eq full_mul_zpow

/-- and what is stored as infinity does not. -/
theorem infinite_le_mul_zpow {m : ℕ} {e : ℤ} (hc : Canonical m e) (he : 971 < e) :
    2 ^ 1024 ≤ (m : ℚ) * 2 ^ e := by
  rw [← full_mul_zpow]
  gcongr
  · exact hc.full_le (by omega)
  · norm_num
  · omega

namespace Amount

variable {x y : UnpackedFloat}

theorem nonneg (hx : Amount x) : 0 ≤ amountOf x := by
  cases hx <;> simp only [amountOf] <;> positivity

theorem le_infinite (hx : Amount x) : amountOf x ≤ 2 ^ 1024 := by
  cases hx with
  | zero => simp [amountOf]
  | finite h hc he => exact (mul_zpow_lt_infinite hc he).le
  | infinity => exact le_rfl

theorem onGrid (hx : Amount x) : OnGrid (amountOf x) := by
  cases hx with
  | zero => exact onGrid_natCast (n := 0) (by norm_num)
  | finite h hc he => exact hc.onGrid
  | infinity => exact ⟨1, 1024, by norm_num, by norm_num, by simp only [amountOf]; norm_num⟩

theorem isInf_iff (hx : Amount x) : x.isInf = true ↔ amountOf x = 2 ^ 1024 := by
  cases hx with
  | zero => simpa [amountOf, UnpackedFloat.isInf] using (by positivity : (0 : ℚ) < 2 ^ 1024).ne
  | finite h hc he => simpa [UnpackedFloat.isInf, amountOf] using (mul_zpow_lt_infinite hc he).ne
  | infinity => simp [amountOf, UnpackedFloat.isInf]

/-- An amount comes back from its bits. -/
theorem unpack_pack (hx : Amount x) : (Float.Model.pack x).unpack = x := by
  cases hx with
  | zero => exact unpack_pack_zero _
  | finite h hc he => rw [finite_eq_datum, unpack_pack_datum hc, if_pos he]
  | infinity => exact unpack_pack_infinity _

end Amount

/-- Canonical forms are compared by their exponents first, as their magnitudes are. -/
theorem compare_canonical {m n : ℕ} {e f : ℤ} (hm : Canonical m e) (hn : Canonical n f) :
    (compare e f).then (compare m n) = compare ((m : ℚ) * 2 ^ e) (n * 2 ^ f) := by
  rcases lt_trichotomy e f with hlt | rfl | hgt
  · rw [compare_lt_iff_lt.2 hlt, compare_lt_iff_lt.2 (hm.lt_of_lt hn hlt)]
    rfl
  · have hpos : (0 : ℚ) < 2 ^ e := by positivity
    rw [compare_eq_iff_eq.2 rfl, Ordering.eq_then]
    rcases lt_trichotomy m n with h | rfl | h
    · rw [compare_lt_iff_lt.2 h, compare_lt_iff_lt.2 (by gcongr)]
    · rw [compare_eq_iff_eq.2 rfl, compare_eq_iff_eq.2 rfl]
    · rw [compare_gt_iff_gt.2 h, compare_gt_iff_gt.2 (by gcongr)]
  · rw [compare_gt_iff_gt.2 hgt, compare_gt_iff_gt.2 (hn.lt_of_lt hm hgt)]
    rfl

/-- **The order of amounts is that of their magnitudes.** -/
theorem Amount.compare_eq {x y : UnpackedFloat} (hx : Amount x) (hy : Amount y) :
    x.compare y = some (compare (amountOf x) (amountOf y)) := by
  have lt : ∀ {a b : ℚ}, a < b → some .lt = some (compare a b) :=
    fun h => congrArg some (compare_lt_iff_lt.2 h).symm
  have gt : ∀ {a b : ℚ}, b < a → some .gt = some (compare a b) :=
    fun h => congrArg some (compare_gt_iff_gt.2 h).symm
  have eq : ∀ a : ℚ, some .eq = some (compare a a) :=
    fun a => congrArg some (compare_eq_iff_eq.2 rfl).symm
  have hinf : (0 : ℚ) < 2 ^ 1024 := by positivity
  cases hx with
  | zero =>
    cases hy with
    | zero => exact eq 0
    | finite h hc he => exact lt (by simp only [amountOf]; positivity)
    | infinity => exact lt hinf
  | finite h hc he =>
    cases hy with
    | zero => exact gt (by simp only [amountOf]; positivity)
    | finite h' hc' he' => exact congrArg some (compare_canonical hc hc')
    | infinity => exact lt (mul_zpow_lt_infinite hc he)
  | infinity =>
    cases hy with
    | zero => exact gt hinf
    | finite h hc he => exact gt (mul_zpow_lt_infinite hc he)
    | infinity => exact eq (2 ^ 1024)

/-- Different numbers above zero have different magnitudes. -/
theorem Amount.eq_of_amountOf_eq {x y : UnpackedFloat} (hx : Amount x) (hy : Amount y)
    (hpos : 0 < amountOf x) (h : amountOf x = amountOf y) : x = y := by
  have heq : x.compare y = some .eq := by rw [hx.compare_eq hy, h, compare_eq_iff_eq.2 rfl]
  cases hx with
  | zero => exact absurd hpos (lt_irrefl _)
  | finite _ hc he =>
    cases hy with
    | zero => cases heq
    | finite _ hc' he' =>
      have hparts := Option.some.inj heq
      rw [Ordering.then_eq_eq, compare_eq_iff_eq, compare_eq_iff_eq] at hparts
      obtain ⟨rfl, rfl⟩ := hparts
      rfl
    | infinity => cases heq
  | infinity =>
    cases hy with
    | zero => cases heq
    | finite => cases heq
    | infinity => rfl

/-! ## Sums and products -/

/-- An amount, and an exact magnitude that was faithfully rounded to it. -/
structure Faithful (exact : ℚ) (x : UnpackedFloat) : Prop where
  amount : Amount x
  rounds : Rounds exact (amountOf x)

theorem Amount.faithful {x : UnpackedFloat} {v : ℚ} (hx : Amount x) (h : Rounds v (amountOf x)) :
    Faithful v (Float.Model.pack x).unpack := by
  rw [hx.unpack_pack]
  exact ⟨hx, h⟩

theorem Amount.faithful_of_eq {x : UnpackedFloat} {v : ℚ} (hx : Amount x) (h : amountOf x = v) :
    Faithful v (Float.Model.pack x).unpack :=
  hx.faithful (h ▸ .refl _)

theorem Canonical.faithful {m : ℕ} {e : ℤ} {v : ℚ} (hc : Canonical m e) (h : Rounds v (m * 2 ^ e)) :
    Faithful v (Float.Model.pack (datum m e)).unpack := by
  by_cases he : e ≤ 971
  · exact (amount_datum hc he).faithful (by rwa [amountOf_datum])
  · rw [unpack_pack_datum hc, if_neg he]
    exact ⟨.infinity, h.infinite (infinite_le_mul_zpow hc (by omega))⟩

theorem normalize_natCast {n : ℕ} (e : ℤ) (s : Sign) (h : 0 < n) :
    normalize Format.binary64 n e s = UnpackedFloat.round Format.binary64 .positive n e := by
  rw [UnpackedFloat.normalize, compare_gt_iff_gt.2 (by exact_mod_cast h : (n : ℤ) > 0)]
  rfl

theorem decreaseExponent_fst {m : ℕ} {e f : ℤ} (h : f ≤ e) :
    ((decreaseExponent m e f).1 : ℚ) * 2 ^ f = m * 2 ^ e := by
  rw [decreaseExponent, Nat.shiftLeft_eq, cast_mul_two_pow]
  congr 2
  omega

/-- To add, both are brought to the smaller exponent, and the sum is rounded. -/
theorem faithful_add_finite {m n : ℕ} (e f : ℤ) (hm : 0 < m) (hn : 0 < n) :
    Faithful (m * 2 ^ e + n * 2 ^ f) (Float.Model.pack (UnpackedFloat.add Format.binary64
      (.finite .positive m e hm) (.finite .positive n f hn))).unpack := by
  let smaller := min e f
  have hpos : 0 < (decreaseExponent m e smaller).1 := by
    rw [decreaseExponent, Nat.shiftLeft_eq]
    positivity
  have hsum := Nat.add_pos_left hpos (decreaseExponent n f smaller).1
  obtain ⟨m', e', hcanonical, hrounds, heq⟩ := exists_round smaller hsum
  have hadd : UnpackedFloat.add Format.binary64 (.finite .positive m e hm)
      (.finite .positive n f hn) = datum m' e' := by
    rw [← heq, ← normalize_natCast _ .positive hsum]
    rfl
  rw [hadd]
  refine hcanonical.faithful ?_
  rwa [Nat.cast_add, add_mul, decreaseExponent_fst (min_le_left e f),
    decreaseExponent_fst (min_le_right e f)] at hrounds

/-- **Sums of amounts are rounded faithfully.** -/
theorem faithful_add {x y : UnpackedFloat} (hx : Amount x) (hy : Amount y) :
    Faithful (amountOf x + amountOf y)
      (Float.Model.pack (UnpackedFloat.add Format.binary64 x y)).unpack := by
  cases hx with
  | zero s =>
    cases hy with
    | zero t =>
      have hzero : ∃ u, UnpackedFloat.add Format.binary64 (.zero s) (.zero t) = .zero u := by
        cases s <;> cases t <;> exact ⟨_, rfl⟩
      obtain ⟨u, hu⟩ := hzero
      rw [hu]
      exact (Amount.zero u).faithful_of_eq (add_zero 0).symm
    | finite h hc he => exact (Amount.finite h hc he).faithful_of_eq (zero_add _).symm
    | infinity => exact Amount.infinity.faithful_of_eq (zero_add _).symm
  | finite h hc he =>
    cases hy with
    | zero t => exact (Amount.finite h hc he).faithful_of_eq (add_zero _).symm
    | finite h' => exact faithful_add_finite _ _ h h'
    | infinity =>
      have hnonneg := (Amount.finite h hc he).nonneg
      exact Amount.infinity.faithful (.infinite (.refl _) (le_add_of_nonneg_left hnonneg))
  | infinity =>
    have hnonneg := hy.nonneg
    have hsum : UnpackedFloat.add Format.binary64 (.infinity .positive) y =
        .infinity .positive := by
      cases hy <;> rfl
    rw [hsum]
    exact Amount.infinity.faithful (.infinite (.refl _) (le_add_of_nonneg_right hnonneg))

/-- The product of the mantissas has digits enough: one of them is full, or both exponents are the
smallest. -/
theorem faithful_mul_finite {m n : ℕ} {e f : ℤ} (hm : 0 < m) (hn : 0 < n) (hc : Canonical m e)
    (hc' : Canonical n f) :
    Faithful (m * 2 ^ e * (n * 2 ^ f)) (Float.Model.pack (UnpackedFloat.mul Format.binary64
      (.finite .positive m e hm) (.finite .positive n f hn))).unpack := by
  have hdigits : e + f ≤ max ((m * n).log2 + (e + f) - 52) (-1074) := by
    by_cases hfull : 2 ^ 52 ≤ m * n
    · have : 52 ≤ (m * n).log2 := (Nat.le_log2 (Nat.mul_pos hm hn).ne').2 hfull
      omega
    · have he : e = -1074 := hc.full_or.resolve_left fun h =>
        hfull (h.trans (Nat.le_mul_of_pos_right m hn))
      have hf : f = -1074 := hc'.full_or.resolve_left fun h =>
        hfull (h.trans (Nat.le_mul_of_pos_left n hm))
      omega
  obtain ⟨m', e', hcanonical, hrounds, heq⟩ := exists_roundWithAccuracy (Nat.mul_pos hm hn) hdigits
  have hmul : UnpackedFloat.mul Format.binary64 (.finite .positive m e hm)
      (.finite .positive n f hn) = datum m' e' := heq
  rw [hmul]
  refine hcanonical.faithful ?_
  rwa [Nat.cast_mul, zpow_add₀ two_ne_zero, mul_mul_mul_comm] at hrounds

/-- **Products of finite amounts are rounded faithfully.** -/
theorem faithful_mul {x y : UnpackedFloat} (hx : Amount x) (hy : Amount y)
    (hfx : x.isInf = false) (hfy : y.isInf = false) :
    Faithful (amountOf x * amountOf y)
      (Float.Model.pack (UnpackedFloat.mul Format.binary64 x y)).unpack := by
  cases hx with
  | zero s =>
    have hzero : ∃ u, UnpackedFloat.mul Format.binary64 (.zero s) y = .zero u := by
      cases hy with
      | zero => exact ⟨_, rfl⟩
      | finite => exact ⟨_, rfl⟩
      | infinity => cases hfy
    obtain ⟨u, hu⟩ := hzero
    rw [hu]
    exact (Amount.zero u).faithful_of_eq (zero_mul _).symm
  | finite h hc he =>
    cases hy with
    | zero t => exact (Amount.zero _).faithful_of_eq (mul_zero _).symm
    | finite h' hc' he' => exact faithful_mul_finite h h' hc hc'
    | infinity => cases hfy
  | infinity => cases hfx

/-! ## Doubles -/

/-- The magnitude of a double. -/
def magnitude (x : Float) : ℚ := amountOf x.toModel.unpack

theorem unpack_zero : (0.0 : Float).toModel.unpack = .zero .positive := rfl

theorem le_iff_unpack_le {x y : Float} : x ≤ y ↔ x.toModel.unpack.le y.toModel.unpack = true :=
  decide_eq_true_iff

theorem lt_iff_unpack_lt {x y : Float} : x < y ↔ x.toModel.unpack.lt y.toModel.unpack = true :=
  decide_eq_true_iff

namespace WeightTable

variable {x y z : Float}

/-- **The usable weights are the amounts**: what is not below zero, and zero with either sign. -/
theorem usable_iff : usable x ↔ Amount x.toModel.unpack := by
  rw [usable, decide_eq_true_iff, le_iff_unpack_le, unpack_zero]
  constructor
  · intro h
    cases hx : x.toModel.unpack with
    | notANumber => rw [hx] at h; cases h
    | zero s => exact .zero s
    | infinity s =>
      rw [hx] at h
      cases s with
      | negative => cases h
      | positive => exact .infinity
    | finite s m e hm =>
      obtain ⟨hc, he⟩ := canonical_of_unpack hx
      rw [hx] at h
      cases s with
      | negative => cases h
      | positive => exact .finite hm hc he
  · intro h
    have hnonneg : amountOf (.zero .positive) ≤ amountOf x.toModel.unpack := h.nonneg
    rw [UnpackedFloat.le, (Amount.zero .positive).compare_eq h]
    simpa [compare_le_iff_le, Ordering.isLE_iff_ne_gt] using hnonneg

theorem le_iff (hx : usable x) (hy : usable y) : x ≤ y ↔ magnitude x ≤ magnitude y := by
  rw [le_iff_unpack_le, UnpackedFloat.le, (usable_iff.1 hx).compare_eq (usable_iff.1 hy)]
  simp [Ordering.isLE_iff_ne_gt, compare_le_iff_le, magnitude]

theorem lt_iff (hx : usable x) (hy : usable y) : x < y ↔ magnitude x < magnitude y := by
  rw [lt_iff_unpack_lt, UnpackedFloat.lt, (usable_iff.1 hx).compare_eq (usable_iff.1 hy)]
  simp [compare_lt_iff_lt, magnitude]

theorem beq_iff (hx : usable x) (hy : usable y) :
    (x == y) = true ↔ magnitude x = magnitude y := by
  change (x.toModel.unpack.compare y.toModel.unpack == some .eq) = true ↔ _
  rw [(usable_iff.1 hx).compare_eq (usable_iff.1 hy)]
  simp [magnitude]

theorem isInf_iff (hx : usable x) : x.isInf ↔ magnitude x = 2 ^ 1024 :=
  (usable_iff.1 hx).isInf_iff

theorem magnitude_nonneg (hx : usable x) : 0 ≤ magnitude x := (usable_iff.1 hx).nonneg

theorem magnitude_le_infinite (hx : usable x) : magnitude x ≤ 2 ^ 1024 :=
  (usable_iff.1 hx).le_infinite

theorem onGrid_magnitude (hx : usable x) : OnGrid (magnitude x) := (usable_iff.1 hx).onGrid

/-! ### Zero and one -/

theorem usable_zero : usable 0.0 := usable_iff.2 (.zero .positive)

theorem magnitude_zero : magnitude 0.0 = 0 := rfl

theorem pos_iff (hx : usable x) : 0.0 < x ↔ 0 < magnitude x := by
  rw [lt_iff usable_zero hx, magnitude_zero]

theorem le_zero_iff (hx : usable x) : x ≤ 0.0 ↔ magnitude x = 0 := by
  rw [le_iff hx usable_zero, magnitude_zero, (magnitude_nonneg hx).ge_iff_eq']

theorem beq_zero_iff (hx : usable x) : (x == 0.0) = true ↔ magnitude x = 0 := by
  rw [beq_iff hx usable_zero, magnitude_zero]

theorem unpack_one :
    (1.0 : Float).toModel.unpack = .finite .positive (2 ^ 52) (-52) (by norm_num) := rfl

theorem usable_one : usable 1.0 := by
  rw [usable_iff, unpack_one]
  exact .finite _ ⟨by norm_num, by norm_num, .inl le_rfl⟩ (by norm_num)

theorem magnitude_one : magnitude 1.0 = 1 := by
  rw [magnitude, unpack_one, amountOf]
  norm_num

/-! ### Sums -/

theorem usable_add (hx : usable x) (hy : usable y) : usable (x + y) :=
  usable_iff.2 (faithful_add (usable_iff.1 hx) (usable_iff.1 hy)).amount

theorem rounds_add (hx : usable x) (hy : usable y) :
    Rounds (magnitude x + magnitude y) (magnitude (x + y)) :=
  (faithful_add (usable_iff.1 hx) (usable_iff.1 hy)).rounds

/-- A total never falls. -/
theorem magnitude_le_add (hx : usable x) (hy : usable y) : magnitude x ≤ magnitude (x + y) :=
  (rounds_add hx hy).le_rounded _ (onGrid_magnitude hx) (magnitude_le_infinite hx)
    (le_add_of_nonneg_right (magnitude_nonneg hy))

/-- A total is not changed by a zero. -/
theorem magnitude_add_zero (hx : usable x) (hy : usable y) (h : magnitude y = 0) :
    magnitude (x + y) = magnitude x := by
  have hrounds := rounds_add hx hy
  rw [h, add_zero] at hrounds
  exact hrounds.eq_of_onGrid (onGrid_magnitude hx) (magnitude_le_infinite hx)

theorem add_beq_self (hx : usable x) (hy : usable y) (h : y ≤ 0.0) : (x + y == x) = true := by
  rw [beq_iff (usable_add hx hy) hx]
  exact magnitude_add_zero hx hy ((le_zero_iff hy).1 h)

theorem magnitude_zero_add (hx : usable x) (hy : usable y) (h : magnitude x = 0) :
    magnitude (x + y) = magnitude y := by
  have hrounds := rounds_add hx hy
  rw [h, zero_add] at hrounds
  exact hrounds.eq_of_onGrid (onGrid_magnitude hy) (magnitude_le_infinite hy)

/-- The sum depends on the magnitude alone, since only the zeros share one. -/
theorem magnitude_add_congr (hx : usable x) (hy : usable y) (hz : usable z)
    (h : magnitude x = magnitude y) : magnitude (x + z) = magnitude (y + z) := by
  rcases (magnitude_nonneg hx).eq_or_lt with h0 | hpos
  · rw [magnitude_zero_add hx hz h0.symm, magnitude_zero_add hy hz (h.symm.trans h0.symm)]
  · have heq := (usable_iff.1 hx).eq_of_amountOf_eq (usable_iff.1 hy) hpos h
    change amountOf (Float.Model.pack (UnpackedFloat.add _ x.toModel.unpack _)).unpack = _
    rw [heq]
    rfl

/-! ### Products -/

theorem usable_mul (hx : usable x) (hy : usable y) (hfx : x.isInf = false)
    (hfy : y.isInf = false) : usable (x * y) :=
  usable_iff.2 (faithful_mul (usable_iff.1 hx) (usable_iff.1 hy) hfx hfy).amount

theorem rounds_mul (hx : usable x) (hy : usable y) (hfx : x.isInf = false)
    (hfy : y.isInf = false) : Rounds (magnitude x * magnitude y) (magnitude (x * y)) :=
  (faithful_mul (usable_iff.1 hx) (usable_iff.1 hy) hfx hfy).rounds

/-! ### The unit that is drawn

Nothing is rounded in drawing it: the number between one and two has the drawn bits behind the first
of its mantissa, and the difference from one fits. -/

theorem upperBits_lt (w : UInt64) : (w >>> 12).toNat < 2 ^ 52 := by
  have hshift : (w >>> 12).toNat = w.toNat / 2 ^ 12 := by
    rw [UInt64.toNat_shiftRight, Nat.shiftRight_eq_div_pow]
    rfl
  have := w.toNat_lt
  omega

theorem bits_eq_packComponents (w : UInt64) :
    ((0x3ff0000000000000 : UInt64) ||| (w >>> 12)).toBitVec
      = packComponents Format.binary64 .positive (BitVec.ofNat 11 (1022 + 1))
        (BitVec.ofNat 52 (2 ^ 52 + (w >>> 12).toNat)) := by
  have hmant : (BitVec.ofNat 52 (2 ^ 52 + (w >>> 12).toNat)).toNat = (w >>> 12).toNat := by
    have := upperBits_lt w
    rw [BitVec.toNat_ofNat]
    omega
  apply BitVec.eq_of_toNat_eq
  rw [packComponents, BitVec.toNat_append, BitVec.toNat_append, hmant]
  rfl

/-- The number between one and two. -/
theorem unpack_ofBits (w : UInt64) :
    (Float.ofBits ((0x3ff0000000000000 : UInt64) ||| (w >>> 12))).toModel.unpack
      = .finite .positive (2 ^ 52 + (w >>> 12).toNat) (-52) (by positivity) := by
  have hlt := upperBits_lt w
  have hbits := unpack_packComponents_full .positive (d := 1022) (m := 2 ^ 52 + (w >>> 12).toNat)
    (by omega) (by omega) (by norm_num)
  rw [← bits_eq_packComponents] at hbits
  change (Float.Model.pack (UnpackedFloat.unpack _ _)).unpack = _
  rw [hbits]
  exact (Amount.finite _ ⟨by omega, by norm_num, .inl (by omega)⟩ (by norm_num)).unpack_pack

theorem sub_same_exponent {m n : ℕ} (e : ℤ) (h : 0 < m + n) (h' : 0 < m) :
    UnpackedFloat.sub Format.binary64 (.finite .positive (m + n) e h) (.finite .positive m e h')
      = normalize Format.binary64 n e .positive := by
  rw [UnpackedFloat.sub, decreaseExponent, decreaseExponent]
  simp [Sign.apply, Nat.shiftLeft_zero]

theorem faithful_unit (w : UInt64) :
    Faithful ((w >>> 12).toNat * 2 ^ (-52 : ℤ)) (unitOfWord w).toModel.unpack := by
  change Faithful _ (Float.Model.pack (UnpackedFloat.sub _ (Float.ofBits _).toModel.unpack
    (1.0 : Float).toModel.unpack)).unpack
  rw [unpack_ofBits, unpack_one, sub_same_exponent]
  rcases Nat.eq_zero_or_pos (w >>> 12).toNat with h0 | hpos
  · rw [h0, Nat.cast_zero, zero_mul]
    exact (Amount.zero .positive).faithful_of_eq rfl
  · obtain ⟨m, e, hcanonical, hrounds, heq⟩ := exists_round (-52) hpos
    rw [normalize_natCast _ _ hpos, heq]
    exact hcanonical.faithful hrounds

theorem usable_unit (w : UInt64) : usable (unitOfWord w) := usable_iff.2 (faithful_unit w).amount

theorem upperBits_mul_le (w : UInt64) :
    ((w >>> 12).toNat : ℚ) * 2 ^ (-52 : ℤ) ≤ 1 - 2 ^ (-52 : ℤ) := by
  have hlt : ((w >>> 12).toNat + 1 : ℚ) ≤ 2 ^ 52 := by exact_mod_cast upperBits_lt w
  have hle : ((w >>> 12).toNat + 1 : ℚ) * 2 ^ (-52 : ℤ) ≤ 1 := by
    calc ((w >>> 12).toNat + 1 : ℚ) * 2 ^ (-52 : ℤ) ≤ 2 ^ 52 * 2 ^ (-52 : ℤ) := by gcongr
      _ = 1 := by norm_num
  linarith

theorem magnitude_unit (w : UInt64) :
    magnitude (unitOfWord w) = (w >>> 12).toNat * 2 ^ (-52 : ℤ) := by
  have hlt := upperBits_lt w
  have hone : (1 : ℚ) ≤ 2 ^ 1024 := one_le_pow₀ (by norm_num)
  refine (faithful_unit w).rounds.eq_of_onGrid ⟨_, _, by omega, by norm_num, rfl⟩ ?_
  refine ((upperBits_mul_le w).trans ?_).trans hone
  exact sub_le_self _ (by positivity)

theorem magnitude_unit_le (w : UInt64) : magnitude (unitOfWord w) ≤ 1 - 2 ^ (-52 : ℤ) := by
  rw [magnitude_unit]
  exact upperBits_mul_le w

theorem isInf_unit (w : UInt64) : (unitOfWord w).isInf = false := by
  rw [← Bool.not_eq_true, isInf_iff (usable_unit w)]
  have hone : (1 : ℚ) ≤ 2 ^ 1024 := one_le_pow₀ (by norm_num)
  have hlt : magnitude (unitOfWord w) < 1 :=
    (magnitude_unit_le w).trans_lt (sub_lt_self _ (by positivity))
  exact (hlt.trans_le hone).ne

/-! ### Normal numbers -/

end WeightTable

/-- The smallest number with a full mantissa. -/
def smallestNormal : Float := Float.ofBits 0x0010000000000000

namespace WeightTable

variable {x : Float}

theorem unpack_smallestNormal :
    smallestNormal.toModel.unpack = .finite .positive (2 ^ 52) (-1074) (by norm_num) := rfl

theorem usable_smallestNormal : usable smallestNormal := by
  rw [usable_iff, unpack_smallestNormal]
  exact .finite _ ⟨by norm_num, by norm_num, .inl le_rfl⟩ (by norm_num)

/-- From there on the mantissa is full. -/
theorem exists_full (hx : usable x) (hfinite : x.isInf = false) (hnormal : smallestNormal ≤ x) :
    ∃ m e, Canonical m e ∧ 2 ^ 52 ≤ m ∧ magnitude x = m * 2 ^ e := by
  have hle := (le_iff usable_smallestNormal hx).1 hnormal
  rw [magnitude, unpack_smallestNormal, magnitude] at hle
  have hamount := usable_iff.1 hx
  change x.toModel.unpack.isInf = false at hfinite
  cases hunpack : x.toModel.unpack with
  | notANumber => rw [hunpack] at hamount; cases hamount
  | infinity s => rw [hunpack] at hfinite; cases hfinite
  | zero s =>
    rw [hunpack, amountOf, amountOf] at hle
    exact absurd hle (not_le.2 (by positivity))
  | finite s m e h =>
    have hc := (canonical_of_unpack hunpack).1
    rw [hunpack, amountOf, amountOf] at hle
    refine ⟨m, e, hc, ?_, by rw [magnitude, hunpack, amountOf]⟩
    rcases hc.full_or with hfull | rfl
    · exact hfull
    · have hpos : (0 : ℚ) < 2 ^ (-1074 : ℤ) := by positivity
      exact_mod_cast (mul_le_mul_iff_left₀ hpos).1 hle

end WeightTable

end Sortition
