import Mathlib

/-!
# Double precision numbers

A finite `double` is a rational number of 53 significant bits.  The result of an operation is the
exact result rounded to the nearest multiple of its unit in the last place, of two to the even one.
Results beyond the range are not treated.
-/

namespace DoublePrecision

/-- The smallest exponents are those of the subnormal numbers. -/
def Representable (x : ℚ) : Prop :=
  ∃ m e : ℤ, |m| < 2 ^ 53 ∧ -1074 ≤ e ∧ e ≤ 971 ∧ x = m * 2 ^ e

structure Double where
  value : ℚ
  representable : Representable value

/-- The nearest integer, and of two the even one. -/
def roundEven (y : ℚ) : ℤ :=
  if Int.fract y < 1 / 2 then ⌊y⌋
  else if 1 / 2 < Int.fract y then ⌊y⌋ + 1
  else if Even ⌊y⌋ then ⌊y⌋
  else ⌊y⌋ + 1

def ulpExponent (x : ℚ) : ℤ := max (Int.log 2 |x| - 52) (-1074)

/-- The unit in the last place. -/
def ulp (x : ℚ) : ℚ := 2 ^ ulpExponent x

def rounded (x : ℚ) : ℚ := roundEven (x / ulp x) * ulp x

/-! ## Rounding to an integer -/

theorem roundEven_intCast (n : ℤ) : roundEven n = n := by
  simp [roundEven]

theorem roundEven_le (y : ℚ) : roundEven y ≤ ⌊y⌋ + 1 := by
  unfold roundEven
  split_ifs <;> omega

theorem roundEven_le_of_le {y : ℚ} {k : ℤ} (h : y ≤ k) : roundEven y ≤ k := by
  rcases h.eq_or_lt with heq | hlt
  · rw [heq, roundEven_intCast]
  · have hfloor := Int.floor_lt.mpr hlt
    have hle := roundEven_le y
    omega

theorem intCast_lt_iff {n k : ℤ} : n < k ↔ (n : ℚ) + 1 ≤ k := by
  rw [Int.lt_iff_add_one_le]
  exact_mod_cast Iff.rfl

/-- An even number is the result from half a unit below it on. -/
theorem roundEven_lt_iff {y : ℚ} {k : ℤ} (hk : Even k) : roundEven y < k ↔ y + 1 / 2 < k := by
  have hsplit := Int.floor_add_fract y
  have hlt := Int.fract_lt_one y
  have hnonneg := Int.fract_nonneg y
  unfold roundEven
  split_ifs with hbelow habove heven
  · constructor
    · intro h
      linarith [intCast_lt_iff.mp h]
    · intro h
      exact Int.floor_lt.mpr (by linarith)
  · constructor
    · intro h
      have hcast := intCast_lt_iff.mp h
      push_cast at hcast
      linarith
    · intro h
      have hcast : ((⌊y⌋ + 1 : ℤ) : ℚ) < k := by
        push_cast
        linarith
      exact_mod_cast hcast
  · have htie : Int.fract y = 1 / 2 := le_antisymm (not_lt.mp habove) (not_lt.mp hbelow)
    constructor
    · intro h
      -- both are even
      have hnext : ⌊y⌋ + 1 < k := by
        obtain ⟨a, ha⟩ := hk
        obtain ⟨b, hb⟩ := heven
        omega
      have hcast := intCast_lt_iff.mp hnext
      push_cast at hcast
      linarith
    · intro h
      exact Int.floor_lt.mpr (by linarith)
  · have htie : Int.fract y = 1 / 2 := le_antisymm (not_lt.mp habove) (not_lt.mp hbelow)
    rw [← Int.cast_lt (R := ℚ)]
    push_cast
    constructor
    · intro h
      linarith
    · intro h
      linarith

/-! ## Rounding to a unit -/

theorem ulp_pos (x : ℚ) : 0 < ulp x := zpow_pos (by decide) _

theorem ulp_eq {x : ℚ} {k : ℤ} (hlow : 2 ^ k ≤ x) (hhigh : x < 2 ^ (k + 1)) (hk : -1022 ≤ k) :
    ulp x = 2 ^ (k - 52) := by
  have hpos : 0 < x := (zpow_pos two_pos k).trans_le hlow
  have hle : k ≤ Int.log 2 x := by
    apply (Int.zpow_le_iff_le_log (by decide) hpos).mp
    exact_mod_cast hlow
  have hlt : Int.log 2 x < k + 1 := by
    apply (Int.lt_zpow_iff_log_lt (by decide) hpos).mp
    exact_mod_cast hhigh
  rw [ulp, ulpExponent, abs_of_pos hpos]
  congr 1
  omega

/-- The multiples of a power of two that is not less than the unit are multiples of the unit. -/
theorem mul_zpow_div_ulp {x : ℚ} {m e : ℤ} (he : ulpExponent x ≤ e) :
    m * 2 ^ e / ulp x = ((m * 2 ^ (e - ulpExponent x).toNat : ℤ) : ℚ) := by
  have hpow : (2 : ℚ) ^ e = 2 ^ (e - ulpExponent x).toNat * ulp x := by
    rw [ulp, ← zpow_natCast, ← zpow_add₀ two_ne_zero]
    congr 1
    omega
  rw [hpow, ← mul_assoc, mul_div_cancel_right₀ _ (ulp_pos x).ne']
  push_cast
  rfl

theorem rounded_of_multiple {x : ℚ} {m e : ℤ} (hx : x = m * 2 ^ e) (he : ulpExponent x ≤ e) :
    rounded x = x := by
  have hdiv : x / ulp x = ((m * 2 ^ (e - ulpExponent x).toNat : ℤ) : ℚ) := by
    rw [← mul_zpow_div_ulp he, ← hx]
  rw [rounded, hdiv, roundEven_intCast, ← hdiv, div_mul_cancel₀ _ (ulp_pos x).ne']

/-- 53 bits reach down to the unit, also to that of a smaller number. -/
theorem ulpExponent_le {x : ℚ} {m e : ℤ} (hm : m < 2 ^ 53) (he : -1074 ≤ e)
    (hle : |x| ≤ m * 2 ^ e) (hne : x ≠ 0) : ulpExponent x ≤ e := by
  have hpos : (0 : ℚ) < 2 ^ e := zpow_pos two_pos e
  have hbound : |x| < ((2 : ℕ) : ℚ) ^ (e + 53) := by
    have hcast : (m : ℚ) < 2 ^ 53 := by exact_mod_cast hm
    rw [Nat.cast_ofNat, zpow_add₀ two_ne_zero, mul_comm]
    exact hle.trans_lt (mul_lt_mul_of_pos_right hcast hpos)
  have hlog := (Int.lt_zpow_iff_log_lt (by decide) (abs_pos.mpr hne)).mp hbound
  apply max_le
  · omega
  · exact he

/-- An exact result of 53 bits is not rounded. -/
theorem Representable.rounded_eq {x : ℚ} (h : Representable x) : rounded x = x := by
  obtain ⟨m, e, hm, he, -, hx⟩ := h
  by_cases hzero : x = 0
  · rw [hzero, rounded, zero_div, ← Int.cast_zero, roundEven_intCast, Int.cast_zero, zero_mul]
  · have habs : |x| = ((|m| : ℤ) : ℚ) * 2 ^ e := by
      rw [hx, abs_mul, abs_of_pos (zpow_pos (two_pos (α := ℚ)) e), Int.cast_abs]
    exact rounded_of_multiple hx (ulpExponent_le hm he habs.le hzero)

/-- Rounding does not go past a number of the format. -/
theorem rounded_le {x t : ℚ} (hx : 0 < x) (ht : Representable t) (hle : x ≤ t) :
    rounded x ≤ t := by
  obtain ⟨m, e, hm, he, -, rfl⟩ := ht
  have hexponent : ulpExponent x ≤ e := by
    apply ulpExponent_le ((le_abs_self m).trans_lt hm) he _ hx.ne'
    rw [abs_of_pos hx]
    exact hle
  have hunits : x / ulp x ≤ ((m * 2 ^ (e - ulpExponent x).toNat : ℤ) : ℚ) := by
    rw [← mul_zpow_div_ulp hexponent]
    exact div_le_div_of_nonneg_right hle (ulp_pos x).le
  rw [rounded, ← le_div_iff₀ (ulp_pos x), mul_zpow_div_ulp hexponent]
  exact_mod_cast roundEven_le_of_le hunits

/-! ## The whole part and the fraction -/

/-- Without a negative exponent the number is an integer. -/
theorem mul_zpow_of_nonneg {e : ℤ} (m : ℤ) (he : 0 ≤ e) :
    (m : ℚ) * 2 ^ e = ((m * 2 ^ e.toNat : ℤ) : ℚ) := by
  push_cast
  rw [← zpow_natCast, Int.toNat_of_nonneg he]

theorem abs_le_of_mul_zpow_le {a m e : ℤ} (hnonneg : (0 : ℚ) ≤ a * 2 ^ e)
    (hle : (a : ℚ) * 2 ^ e ≤ m * 2 ^ e) : |a| ≤ |m| := by
  have hpos : (0 : ℚ) < 2 ^ e := zpow_pos two_pos e
  have ha : (0 : ℚ) ≤ a := nonneg_of_mul_nonneg_left hnonneg hpos
  have hm : (a : ℚ) ≤ m := le_of_mul_le_mul_right hle hpos
  rw [abs_of_nonneg (by exact_mod_cast ha)]
  exact le_trans (by exact_mod_cast hm) (le_abs_self m)

/-- With a negative exponent every integer is a multiple of the power. -/
theorem whole_of_neg {e : ℤ} (n : ℤ) (he : e < 0) :
    (n : ℚ) = ((n * 2 ^ (-e).toNat : ℤ) : ℚ) * 2 ^ e := by
  push_cast
  rw [← zpow_natCast, Int.toNat_of_nonneg (by omega), mul_assoc, ← zpow_add₀ two_ne_zero,
    neg_add_cancel, zpow_zero, mul_one]

theorem Representable.floor {t : ℚ} (h : Representable t) (hnonneg : 0 ≤ t) :
    Representable (⌊t⌋ : ℚ) := by
  have hfloor : (0 : ℚ) ≤ ⌊t⌋ := by exact_mod_cast Int.floor_nonneg.mpr hnonneg
  have hle := Int.floor_le t
  obtain ⟨m, e, hm, he, he', ht⟩ := h
  by_cases hneg : e < 0
  · have hwhole := whole_of_neg ⌊t⌋ hneg
    refine ⟨_, e, lt_of_le_of_lt (abs_le_of_mul_zpow_le (e := e) ?_ ?_) hm, he, he', hwhole⟩
    · rw [← hwhole]
      exact hfloor
    · rw [← hwhole, ← ht]
      exact hle
  · have hint := ht.trans (mul_zpow_of_nonneg m (not_lt.mp hneg))
    have hsame : (⌊t⌋ : ℚ) = t := by rw [hint, Int.floor_intCast]
    rw [hsame]
    exact ⟨m, e, hm, he, he', ht⟩

theorem Representable.fract {t : ℚ} (h : Representable t) (hnonneg : 0 ≤ t) :
    Representable (Int.fract t) := by
  have hfloor : (0 : ℚ) ≤ ⌊t⌋ := by exact_mod_cast Int.floor_nonneg.mpr hnonneg
  obtain ⟨m, e, hm, he, he', ht⟩ := h
  by_cases hneg : e < 0
  · have hfract : Int.fract t = ((m - ⌊t⌋ * 2 ^ (-e).toNat : ℤ) : ℚ) * 2 ^ e := by
      rw [Int.cast_sub, sub_mul, ← ht, ← whole_of_neg ⌊t⌋ hneg]
      rfl
    refine ⟨_, e, lt_of_le_of_lt (abs_le_of_mul_zpow_le (e := e) ?_ ?_) hm, he, he', hfract⟩
    · rw [← hfract]
      exact Int.fract_nonneg t
    · rw [← hfract, ← ht, Int.fract]
      linarith
  · have hint := ht.trans (mul_zpow_of_nonneg m (not_lt.mp hneg))
    refine ⟨0, 0, by decide, by decide, by decide, ?_⟩
    rw [hint, Int.fract_intCast, Int.cast_zero, zero_mul]

/-! ## Cutting off a rounded result -/

/-- Below 2⁵² an integer is an even number of units. -/
theorem exists_even_units {x : ℚ} (hx : |x| < 2 ^ 52) : ∃ c : ℤ, Even c ∧ c * ulp x = 1 := by
  have hexponent : ulpExponent x < 0 := by
    have hlog : Int.log 2 |x| < 52 := by
      by_cases hzero : x = 0
      · rw [hzero, abs_zero, Int.log_zero_right]
        decide
      · apply (Int.lt_zpow_iff_log_lt (by decide) (abs_pos.mpr hzero)).mp
        exact_mod_cast hx
    unfold ulpExponent
    omega
  refine ⟨2 ^ (-ulpExponent x).toNat, ?_, ?_⟩
  · apply (Int.even_pow.mpr ⟨even_two, _⟩)
    omega
  · have hunits := whole_of_neg 1 hexponent
    rw [one_mul, Int.cast_one] at hunits
    exact hunits.symm

theorem ulp_le_one {x : ℚ} (hx : |x| < 2 ^ 52) : ulp x ≤ 1 := by
  obtain ⟨c, -, hc⟩ := exists_even_units hx
  have hpos : (0 : ℚ) < c := by
    apply pos_of_mul_pos_left _ (ulp_pos x).le
    rw [hc]
    exact one_pos
  have hone : (1 : ℚ) ≤ c := by exact_mod_cast Int.cast_pos.mp hpos
  rw [← hc]
  exact le_mul_of_one_le_left (ulp_pos x).le hone

/-- Rounding reaches an integer from half a unit below it on. -/
theorem rounded_lt_iff {x : ℚ} (hx : |x| < 2 ^ 52) (k : ℤ) :
    rounded x < k ↔ x + ulp x / 2 < k := by
  obtain ⟨c, heven, hc⟩ := exists_even_units hx
  have hpos := ulp_pos x
  have hk : (k : ℚ) = ((k * c : ℤ) : ℚ) * ulp x := by
    push_cast
    rw [mul_assoc, hc, mul_one]
  have hhalf : x + ulp x / 2 = (x / ulp x + 1 / 2) * ulp x := by
    rw [add_mul, div_mul_cancel₀ _ hpos.ne']
    ring
  rw [hhalf, hk, rounded, mul_lt_mul_iff_left₀ hpos, mul_lt_mul_iff_left₀ hpos, Int.cast_lt]
  exact roundEven_lt_iff (heven.mul_left k)

theorem floor_le_floor_rounded {x : ℚ} (hx : |x| < 2 ^ 52) : ⌊x⌋ ≤ ⌊rounded x⌋ := by
  rw [Int.le_floor, ← not_lt, rounded_lt_iff hx, not_lt]
  linarith [Int.floor_le x, ulp_pos x]

theorem floor_rounded_le {x : ℚ} (hx : |x| < 2 ^ 52) : ⌊rounded x⌋ ≤ ⌊x⌋ + 1 := by
  rw [← Int.lt_add_one_iff, Int.floor_lt, rounded_lt_iff hx]
  push_cast
  linarith [Int.lt_floor_add_one x, ulp_le_one hx]

/-- The whole part survives the rounding unless the next integer is within half a unit. -/
theorem floor_rounded_eq_iff {x : ℚ} (hx : |x| < 2 ^ 52) :
    ⌊rounded x⌋ = ⌊x⌋ ↔ x + ulp x / 2 < ⌊x⌋ + 1 := by
  have hle := floor_le_floor_rounded hx
  have hcut : ⌊rounded x⌋ = ⌊x⌋ ↔ ⌊rounded x⌋ < ⌊x⌋ + 1 := by omega
  rw [hcut, Int.floor_lt, rounded_lt_iff hx, Int.cast_add, Int.cast_one]

end DoublePrecision
