import Mathlib.Algebra.Order.Field.Power
import Mathlib.Data.Rat.Cast.Order
import Mathlib.Tactic.FieldSimp
import Mathlib.Tactic.GCongr
import Mathlib.Tactic.Linarith
import Mathlib.Tactic.NormNum
import Mathlib.Tactic.Positivity
import Mathlib.Tactic.Ring
import EndpointPreview.Decimal.Shortest

/-!
Rounding to double precision. It depends only on the number that a fraction stands for, a number
close enough to a double rounds to it, and a number that is too large stays so. Seventeen digits
are enough to come close, so every double has digits that read back.
-/

namespace EndpointPreview.Decimal

def ratio (fraction : Nat × Nat) : ℚ := fraction.1 / fraction.2

theorem scaled_pos (n base : Nat) (e : Int) (positive : 0 < base) : 0 < (scaled n base e).2 := by
  unfold scaled
  split
  · exact Nat.pow_pos positive
  · exact Nat.one_pos

theorem scaled_ratio (n base : Nat) (e : Int) : ratio (scaled n base e) = n * (base : ℚ) ^ e := by
  unfold scaled ratio
  split
  · rename_i negative
    obtain ⟨k, rfl⟩ : ∃ k : Nat, e = -(k : Int) := ⟨e.natAbs, by omega⟩
    simp [Nat.pow_eq, zpow_neg, div_eq_mul_inv]
  · rename_i positive
    obtain ⟨k, rfl⟩ : ∃ k : Nat, e = (k : Int) := ⟨e.natAbs, by omega⟩
    simp [Nat.pow_eq]

theorem overPower_pos (num den : Nat) (e : Int) (positive : 0 < den) :
    0 < (overPower num den e).2 := by
  unfold overPower
  split
  · exact positive
  · exact Nat.mul_pos positive (Nat.pow_pos Nat.two_pos)

theorem overPower_ratio (num den : Nat) (e : Int) :
    ratio (overPower num den e) = ratio (num, den) / 2 ^ e := by
  unfold overPower ratio
  split
  · rename_i negative
    obtain ⟨k, rfl⟩ : ∃ k : Nat, e = -(k : Int) := ⟨e.natAbs, by omega⟩
    simp [Nat.pow_eq, zpow_neg, div_eq_mul_inv, mul_right_comm]
  · rename_i positive
    obtain ⟨k, rfl⟩ : ∃ k : Nat, e = (k : Int) := ⟨e.natAbs, by omega⟩
    simp [Nat.pow_eq, div_div]

theorem le_ratio (bound num den : Nat) (positive : 0 < den) :
    (bound : ℚ) ≤ ratio (num, den) ↔ bound * den ≤ num := by
  unfold ratio
  rw [le_div_iff₀ (by exact_mod_cast positive)]
  exact_mod_cast Iff.rfl

theorem ratio_le (bound num den : Nat) (positive : 0 < den) :
    ratio (num, den) ≤ bound ↔ num ≤ bound * den := by
  unfold ratio
  rw [div_le_iff₀ (by exact_mod_cast positive)]
  exact_mod_cast Iff.rfl

section Quotients

variable (a b : Nat)

theorem divNearest_ge (bound : Nat) (positive : 0 < b) (above : bound * b ≤ a) :
    bound ≤ divNearest a b := by
  have low : bound ≤ a / b := (Nat.le_div_iff_mul_le positive).mpr above
  unfold divNearest
  dsimp only
  split
  · exact low
  · split <;> omega

theorem divNearest_le (bound : Nat) (positive : 0 < b) (below : a ≤ bound * b) :
    divNearest a b ≤ bound := by
  have low : a / b ≤ bound := Nat.div_le_of_le_mul (by rwa [Nat.mul_comm])
  have parts := Nat.div_add_mod a b
  rcases Nat.lt_or_ge (a / b) bound with less | more
  · unfold divNearest
    dsimp only
    split
    · exact low
    · split
      · exact less
      · have even : a / b % 2 < 2 := Nat.mod_lt _ Nat.two_pos
        omega
  · have whole : a / b = bound := Nat.le_antisymm low more
    have none_left : a % b = 0 := by
      rw [whole] at parts
      rw [Nat.mul_comm] at below
      omega
    unfold divNearest
    dsimp only
    rw [none_left, Nat.mul_zero, if_pos positive]
    exact low

/-- A whole number less than half a unit away is the one that is taken. -/
theorem divNearest_of_close (whole : Nat) (positive : 0 < b) (below : 2 * a < 2 * (whole * b) + b)
    (above : 2 * (whole * b) < 2 * a + b) : divNearest a b = whole := by
  have parts := Nat.div_add_mod a b
  have rest := Nat.mod_lt a positive
  rw [Nat.mul_comm] at parts
  have near : whole = a / b ∨ whole = a / b + 1 := by
    by_contra other
    rcases Nat.lt_or_ge whole (a / b) with less | more
    · have step : (whole + 1) * b ≤ a / b * b := Nat.mul_le_mul_right b less
      rw [Nat.add_mul, Nat.one_mul] at step
      omega
    · have step : (a / b + 2) * b ≤ whole * b := Nat.mul_le_mul_right b (by omega)
      rw [Nat.add_mul] at step
      omega
  unfold divNearest
  dsimp only
  rcases near with rfl | rfl
  · rw [if_pos (by omega)]
  · rw [Nat.add_mul, Nat.one_mul] at above
    rw [if_neg (by omega), if_pos (by omega)]

theorem divNearest_scale (k : Nat) (positive : 0 < k) :
    divNearest (k * a) (k * b) = divNearest a b := by
  have quotient : k * a / (k * b) = a / b := Nat.mul_div_mul_left a b positive
  have rest : k * a % (k * b) = k * (a % b) := Nat.mul_mod_mul_left k a b
  have scale (x y : Nat) : 2 * (k * x) < k * y ↔ 2 * x < y := by
    rw [Nat.mul_left_comm]
    exact Nat.mul_lt_mul_left positive
  have scale' (x y : Nat) : k * y < 2 * (k * x) ↔ y < 2 * x := by
    rw [Nat.mul_left_comm 2]
    exact Nat.mul_lt_mul_left positive
  unfold divNearest
  simp only [quotient, rest, scale, scale']

theorem divNearest_congr (c d : Nat) (below : 0 < b) (below' : 0 < d) (same : a * d = c * b) :
    divNearest a b = divNearest c d := by
  rw [← divNearest_scale a b d below', ← divNearest_scale c d b below, Nat.mul_comm d a, same,
    Nat.mul_comm c b, Nat.mul_comm d b]

end Quotients

def Leads (exponent : Int) (x : ℚ) : Prop :=
  (2 : ℚ) ^ (exponent + 52) ≤ x ∧ x < (2 : ℚ) ^ (exponent + 53)

theorem Leads.le_of_lt {exponent bound : Int} {x : ℚ} (leads : Leads exponent x)
    (small : x < (2 : ℚ) ^ (bound + 53)) : exponent ≤ bound := by
  have between : (2 : ℚ) ^ (exponent + 52) < 2 ^ (bound + 53) := lt_of_le_of_lt leads.1 small
  have order := (zpow_lt_zpow_iff_right₀ (by norm_num)).mp between
  omega

theorem Leads.ge_of_le {exponent bound : Int} {x : ℚ} (leads : Leads exponent x)
    (large : (2 : ℚ) ^ (bound + 52) ≤ x) : bound ≤ exponent := by
  have between : (2 : ℚ) ^ (bound + 52) < 2 ^ (exponent + 53) := lt_of_le_of_lt large leads.2
  have order := (zpow_lt_zpow_iff_right₀ (by norm_num)).mp between
  omega

theorem Leads.unique {exponent other : Int} {x : ℚ} (leads : Leads exponent x)
    (leads' : Leads other x) : exponent = other :=
  Int.le_antisymm (leads.le_of_lt leads'.2) (leads'.le_of_lt leads.2)

theorem log2_bounds (n : Nat) (positive : 0 < n) :
    (2 : ℚ) ^ (n.log2 : Int) ≤ n ∧ (n : ℚ) < 2 ^ ((n.log2 : Int) + 1) := by
  constructor
  · rw [zpow_natCast]
    exact_mod_cast Nat.log2_self_le (by omega)
  · have below : n < 2 ^ (n.log2 + 1) := Nat.lt_log2_self
    have cast : (n.log2 : Int) + 1 = ((n.log2 + 1 : Nat) : Int) := by push_cast; rfl
    rw [cast, zpow_natCast]
    exact_mod_cast below

theorem ratio_log2 (num den : Nat) (nonzero : 0 < num) (positive : 0 < den) :
    (2 : ℚ) ^ ((num.log2 : Int) - den.log2 - 1) < ratio (num, den) ∧
      ratio (num, den) < 2 ^ ((num.log2 : Int) - den.log2 + 1) := by
  obtain ⟨numLow, numHigh⟩ := log2_bounds num nonzero
  obtain ⟨denLow, denHigh⟩ := log2_bounds den positive
  have below : (0 : ℚ) < den := by exact_mod_cast positive
  unfold ratio
  constructor
  · rw [lt_div_iff₀ below]
    calc (2 : ℚ) ^ ((num.log2 : Int) - den.log2 - 1) * den
        < 2 ^ ((num.log2 : Int) - den.log2 - 1) * 2 ^ ((den.log2 : Int) + 1) := by gcongr
      _ = 2 ^ (num.log2 : Int) := by rw [← zpow_add₀ (by norm_num)]; congr 1; ring
      _ ≤ num := numLow
  · rw [div_lt_iff₀ below]
    calc (num : ℚ) < 2 ^ ((num.log2 : Int) + 1) := numHigh
      _ = 2 ^ ((num.log2 : Int) - den.log2 + 1) * 2 ^ (den.log2 : Int) := by
        rw [← zpow_add₀ (by norm_num)]; congr 1; ring
      _ ≤ 2 ^ ((num.log2 : Int) - den.log2 + 1) * den := by gcongr

theorem leadingExponent_leads (num den : Nat) (nonzero : 0 < num) (positive : 0 < den) :
    Leads (leadingExponent num den) (ratio (num, den)) := by
  obtain ⟨low, high⟩ := ratio_log2 num den nonzero positive
  have own := overPower_ratio num den ((num.log2 : Int) - den.log2 - 53)
  have below := overPower_pos num den ((num.log2 : Int) - den.log2 - 53) positive
  unfold leadingExponent
  dsimp only
  generalize guess_eq : (num.log2 : Int) - den.log2 - 53 = guess at own below ⊢
  have bits := le_ratio (2 * leadingBit) (overPower num den guess).1 _ below
  rw [Nat.mul_comm] at bits
  have power : (0 : ℚ) < 2 ^ guess := by positivity
  have reach : ((2 * leadingBit : Nat) : ℚ) ≤ ratio (overPower num den guess) ↔
      (2 : ℚ) ^ (guess + 53) ≤ ratio (num, den) := by
    rw [own, le_div_iff₀ power, zpow_add₀ (by norm_num), mul_comm ((2 : ℚ) ^ guess)]
    norm_num [leadingBit]
  split
  · rename_i large
    have enough := reach.mp (bits.mpr ((Nat.le_div_iff_mul_le below).mp large))
    refine ⟨?_, ?_⟩
    · rwa [show guess + 1 + 52 = guess + 53 by ring]
    · rwa [show guess + 1 + 53 = (num.log2 : Int) - den.log2 + 1 by omega]
  · rename_i small
    refine ⟨?_, ?_⟩
    · rw [show guess + 52 = (num.log2 : Int) - den.log2 - 1 by omega]
      exact low.le
    · by_contra large
      exact small ((Nat.le_div_iff_mul_le below).mpr (bits.mp (reach.mpr (not_lt.mp large))))

theorem exponentFor_eq (num den : Nat) :
    exponentFor num den = max (leadingExponent num den) (-1074) := rfl

theorem nearest_eq (num den : Nat) (nonzero : 0 < num) :
    nearest num den = (exponentFor num den + 1074).toNat * leadingBit +
      divNearest (overPower num den (exponentFor num den)).1
        (overPower num den (exponentFor num den)).2 := by
  unfold nearest
  rw [if_neg (by omega)]
  rfl

/-- Rounding depends on the number alone. -/
theorem nearest_congr (num den num' den' : Nat) (positive : 0 < den) (positive' : 0 < den')
    (same : ratio (num, den) = ratio (num', den')) : nearest num den = nearest num' den' := by
  have below : (den : ℚ) ≠ 0 := by exact_mod_cast positive.ne'
  have below' : (den' : ℚ) ≠ 0 := by exact_mod_cast positive'.ne'
  have crossed {a b c d : Nat} (hb : 0 < b) (hd : 0 < d) (equal : ratio (a, b) = ratio (c, d)) :
      a * d = c * b := by
    unfold ratio at equal
    rw [div_eq_div_iff (by exact_mod_cast hb.ne') (by exact_mod_cast hd.ne')] at equal
    exact_mod_cast equal
  have cross := crossed positive positive' same
  rcases Nat.eq_zero_or_pos num with rfl | nonzero
  · have zero : num' = 0 := by
      rw [Nat.zero_mul, eq_comm, Nat.mul_eq_zero] at cross
      omega
    simp [zero, nearest]
  · have nonzero' : 0 < num' := by
      rcases Nat.eq_zero_or_pos num' with rfl | other
      · rw [Nat.zero_mul, Nat.mul_eq_zero] at cross
        omega
      · exact other
    have leads := leadingExponent_leads num den nonzero positive
    rw [same] at leads
    have exponent : exponentFor num den = exponentFor num' den' := by
      rw [exponentFor_eq, exponentFor_eq,
        leads.unique (leadingExponent_leads num' den' nonzero' positive')]
    rw [nearest_eq _ _ nonzero, nearest_eq _ _ nonzero', exponent]
    congr 1
    apply divNearest_congr _ _ _ _ (overPower_pos _ _ _ positive) (overPower_pos _ _ _ positive')
    apply crossed (overPower_pos _ _ _ positive) (overPower_pos _ _ _ positive')
    rw [overPower_ratio, overPower_ratio, same]

/-- What lies beyond all doubles is rounded beyond them. -/
theorem nearest_large (num den : Nat) (positive : 0 < den)
    (large : (2 : ℚ) ^ (1024 : Int) ≤ ratio (num, den)) : infinity ≤ nearest num den := by
  have nonzero : 0 < num := by
    rcases Nat.eq_zero_or_pos num with rfl | other
    · have power : (0 : ℚ) < 2 ^ (1024 : Int) := by positivity
      have zero : ratio (0, den) = 0 := by simp [ratio]
      rw [zero] at large
      exact absurd large (not_le.mpr power)
    · exact other
  have leads := leadingExponent_leads num den nonzero positive
  have high : 972 ≤ leadingExponent num den := leads.ge_of_le large
  have own : exponentFor num den = leadingExponent num den := by
    rw [exponentFor_eq]
    omega
  have bits : leadingBit ≤ divNearest (overPower num den (exponentFor num den)).1
      (overPower num den (exponentFor num den)).2 := by
    have below := overPower_pos num den (exponentFor num den) positive
    refine divNearest_ge _ _ _ below ((le_ratio _ _ _ below).mp ?_)
    have power : (0 : ℚ) < 2 ^ exponentFor num den := by positivity
    rw [overPower_ratio, le_div_iff₀ power, own]
    calc ((leadingBit : Nat) : ℚ) * 2 ^ leadingExponent num den
        = 2 ^ (leadingExponent num den + 52) := by
          rw [zpow_add₀ (by norm_num), mul_comm]
          norm_num [leadingBit]
      _ ≤ ratio (num, den) := leads.1
  rw [nearest_eq _ _ nonzero]
  have shift : 2046 * leadingBit ≤ (exponentFor num den + 1074).toNat * leadingBit :=
    Nat.mul_le_mul_right _ (by omega)
  have whole : infinity = 2046 * leadingBit + leadingBit := rfl
  omega

/-- What lies below the normal doubles is rounded to the least of them or below. -/
theorem nearest_small (num den : Nat) (positive : 0 < den)
    (small : ratio (num, den) < (2 : ℚ) ^ (-1022 : Int)) : nearest num den ≤ leadingBit := by
  rcases Nat.eq_zero_or_pos num with rfl | nonzero
  · exact Nat.zero_le _
  · have leads := leadingExponent_leads num den nonzero positive
    have low : leadingExponent num den ≤ -1075 := leads.le_of_lt small
    have own : exponentFor num den = -1074 := by
      rw [exponentFor_eq]
      omega
    have below := overPower_pos num den (-1074) positive
    have bits : divNearest (overPower num den (-1074)).1 (overPower num den (-1074)).2 ≤
        leadingBit := by
      refine divNearest_le _ _ _ below ((ratio_le _ _ _ below).mp ?_)
      have power : (0 : ℚ) < 2 ^ (-1074 : Int) := by positivity
      rw [overPower_ratio, div_le_iff₀ power]
      calc ratio (num, den) ≤ 2 ^ (-1022 : Int) := small.le
        _ = ((leadingBit : Nat) : ℚ) * 2 ^ (-1074 : Int) := by
          rw [show (-1022 : Int) = 52 + -1074 by norm_num, zpow_add₀ (by norm_num)]
          norm_num [leadingBit]
    rw [nearest_eq _ _ nonzero, own]
    simpa using bits

/-- Significand and exponent of a finite magnitude, which is their place in the order. -/
theorem parts_bounds (magnitude : Nat) (finite : magnitude < infinity) :
    -1074 ≤ (parts magnitude).2 ∧ (parts magnitude).2 ≤ 971 ∧
    (parts magnitude).1 < 2 * leadingBit ∧
    (leadingBit ≤ (parts magnitude).1 ∨ (parts magnitude).2 = -1074) ∧
    magnitude = ((parts magnitude).2 + 1074).toNat * leadingBit + (parts magnitude).1 := by
  have split := Nat.div_add_mod magnitude leadingBit
  have low := Nat.mod_lt magnitude (show 0 < leadingBit by decide)
  have high : magnitude / leadingBit < 2047 := by
    rw [Nat.div_lt_iff_lt_mul (by decide)]
    exact finite
  unfold parts
  dsimp only
  generalize magnitude / leadingBit = exponent at split high ⊢
  generalize magnitude % leadingBit = rest at split low ⊢
  split
  · rename_i subnormal
    rw [subnormal] at split
    dsimp only
    refine ⟨by norm_num, by norm_num, by omega, .inr rfl, ?_⟩
    simpa using split.symm
  · rename_i normal
    dsimp only
    refine ⟨by omega, by omega, by omega, .inl (Nat.le_add_right _ _), ?_⟩
    have shift : ((exponent : Int) - 1075 + 1074).toNat + 1 = exponent := by omega
    have count : ((exponent : Int) - 1075 + 1074).toNat * leadingBit + leadingBit =
        leadingBit * exponent := by
      rw [← Nat.succ_mul, Nat.succ_eq_add_one, shift, Nat.mul_comm]
    omega

theorem fraction_pos (magnitude : Nat) : 0 < (fraction magnitude).2 :=
  scaled_pos _ _ _ Nat.two_pos

theorem fraction_ratio (magnitude : Nat) :
    ratio (fraction magnitude) = (parts magnitude).1 * (2 : ℚ) ^ (parts magnitude).2 :=
  scaled_ratio _ _ _

theorem significand_pos (magnitude : Nat) (positive : 0 < magnitude)
    (finite : magnitude < infinity) : 0 < (parts magnitude).1 := by
  obtain ⟨_, _, _, normal | subnormal, place⟩ := parts_bounds magnitude finite
  · exact Nat.lt_of_lt_of_le (by decide) normal
  · rw [subnormal] at place
    simp only [Int.add_left_neg, Int.toNat_zero, Nat.zero_mul, Nat.zero_add] at place
    omega

-- A quotient less than half a unit away from a whole number.
theorem divNearest_overPower (num den whole : Nat) (e : Int) (positive : 0 < den)
    (close : |ratio (num, den) / 2 ^ e - whole| < 1 / 2) :
    divNearest (overPower num den e).1 (overPower num den e).2 = whole := by
  have below := overPower_pos num den e positive
  rw [← overPower_ratio, abs_lt] at close
  generalize overPower num den e = quotient at below close ⊢
  obtain ⟨a, b⟩ := quotient
  dsimp only at below ⊢
  have divisor : (0 : ℚ) < b := by exact_mod_cast below
  have unit : ratio (a, b) * b = a := div_mul_cancel₀ _ divisor.ne'
  refine divNearest_of_close a b whole below ?_ ?_
  · have cast : (2 * a : ℚ) < 2 * (whole * b) + b := by
      rw [← unit]
      nlinarith [mul_lt_mul_of_pos_right close.2 divisor]
    exact_mod_cast cast
  · have cast : (2 * (whole * b) : ℚ) < 2 * a + b := by
      rw [← unit]
      nlinarith [mul_lt_mul_of_pos_right close.1 divisor]
    exact_mod_cast cast

/-! A number that lies close to `whole * 2 ^ e`, measured in units of `2 ^ e`. -/

section Units

variable {x : ℚ} {whole : Nat} {e : Int}

theorem units_most (bounded : whole < 2 * leadingBit) : (whole : ℚ) ≤ 2 ^ 53 - 1 := by
  have below : whole + 1 ≤ 2 ^ 53 := bounded
  have cast : (whole : ℚ) + 1 ≤ 2 ^ 53 := by exact_mod_cast below
  linarith

theorem units_close (close : |x - whole * 2 ^ e| < whole * 2 ^ e / 2 ^ 54) :
    |x / 2 ^ e - whole| < whole / 2 ^ 54 := by
  have unit : (0 : ℚ) < 2 ^ e := by positivity
  have scaled : x / 2 ^ e - whole = (x - whole * 2 ^ e) / 2 ^ e := by field_simp
  rw [scaled, abs_div, abs_of_pos unit, div_lt_iff₀ unit]
  calc |x - whole * 2 ^ e| < whole * 2 ^ e / 2 ^ 54 := close
    _ = whole / 2 ^ 54 * 2 ^ e := by ring

variable (near : |x / 2 ^ e - whole| < whole / 2 ^ 54)
include near

theorem units_pos (solid : 0 < whole) : 0 < x := by
  have unit : (0 : ℚ) < 2 ^ e := by positivity
  have least : (1 : ℚ) ≤ whole := by exact_mod_cast solid
  have positive : 0 < x / 2 ^ e := by
    have lower := (abs_lt.mp near).1
    norm_num at lower
    linarith
  exact (div_pos_iff_of_pos_right unit).mp positive

theorem Leads.le_units {exponent : Int} (leads : Leads exponent x) (bounded : whole < 2 * leadingBit) :
    exponent ≤ e := by
  have unit : (0 : ℚ) < 2 ^ e := by positivity
  have most := units_most bounded
  refine leads.le_of_lt ?_
  rw [zpow_add₀ (by norm_num), mul_comm, ← div_lt_iff₀ unit]
  have upper := (abs_lt.mp near).2
  norm_num at upper ⊢
  linarith

theorem Leads.ge_units {exponent : Int} (leads : Leads exponent x) (full : leadingBit ≤ whole) :
    e - 1 ≤ exponent := by
  have unit : (0 : ℚ) < 2 ^ e := by positivity
  have bound : (2 : ℚ) ^ 52 ≤ whole := by exact_mod_cast full
  have half : (2 : ℚ) ^ (e - 1 + 52) = 2 ^ 51 * 2 ^ e := by
    rw [show e - 1 + 52 = 51 + e by ring, zpow_add₀ (by norm_num)]
    norm_num
  refine leads.ge_of_le ?_
  rw [half, ← le_div_iff₀ unit]
  have lower := (abs_lt.mp near).1
  norm_num at lower ⊢
  linarith

-- Right below a power of two the last bit is worth half as much.
theorem Leads.halved (leads : Leads (e - 1) x) (full : leadingBit ≤ whole) :
    whole = leadingBit ∧ |x / 2 ^ (e - 1) - (2 * leadingBit : Nat)| < 1 / 2 := by
  have unit : (0 : ℚ) < 2 ^ e := by positivity
  obtain ⟨lower, upper⟩ := abs_lt.mp near
  have bound : (2 : ℚ) ^ 52 ≤ whole := by exact_mod_cast full
  have short : x / 2 ^ e < 2 ^ 52 := by
    rw [div_lt_iff₀ unit]
    have small := leads.2
    rwa [show e - 1 + 53 = 52 + e by ring, zpow_add₀ (by norm_num)] at small
  have power : whole = leadingBit := by
    refine Nat.le_antisymm ?_ full
    have less : (whole : ℚ) < 2 ^ 52 + 1 := by
      norm_num at lower
      linarith
    have step : whole < 2 ^ 52 + 1 := by exact_mod_cast less
    exact Nat.lt_succ_iff.mp step
  refine ⟨power, ?_⟩
  have twice : x / 2 ^ (e - 1) = 2 * (x / 2 ^ e) := by
    rw [zpow_sub_one₀ (by norm_num)]
    field_simp
  rw [power] at lower upper
  rw [twice, abs_lt]
  norm_num [leadingBit] at lower upper ⊢
  constructor <;> linarith

end Units

/-- A number less than a quarter of the step around a double away from it rounds to it. -/
theorem nearest_of_close (magnitude num den : Nat) (nonzero : 0 < magnitude)
    (finite : magnitude < infinity) (positive : 0 < den)
    (close : |ratio (num, den) - ratio (fraction magnitude)| <
      ratio (fraction magnitude) / 2 ^ 54) : nearest num den = magnitude := by
  have bits := significand_pos magnitude nonzero finite
  obtain ⟨low, high, bounded, normal, place⟩ := parts_bounds magnitude finite
  rw [fraction_ratio] at close
  generalize (parts magnitude).1 = whole at bits bounded normal place close
  generalize (parts magnitude).2 = e at low high normal place close
  have near := units_close close
  have nonzero : 0 < num := by
    rcases Nat.eq_zero_or_pos num with rfl | other
    · have above := units_pos near bits
      simp [ratio] at above
    · exact other
  have leads := leadingExponent_leads num den nonzero positive
  have below := leads.le_units near bounded
  rw [nearest_eq _ _ nonzero]
  by_cases same : exponentFor num den = e
  · have half : |ratio (num, den) / 2 ^ e - whole| < 1 / 2 := by
      refine near.trans ?_
      have most := units_most bounded
      norm_num
      linarith
    rw [same, divNearest_overPower num den whole e positive half]
    exact place.symm
  · rw [exponentFor_eq] at same
    have full : leadingBit ≤ whole := normal.resolve_right (by omega)
    have above := leads.ge_units near full
    have own : leadingExponent num den = e - 1 := by omega
    have exponent : exponentFor num den = e - 1 := by
      rw [exponentFor_eq]
      omega
    rw [own] at leads
    obtain ⟨power, half⟩ := leads.halved near full
    rw [exponent, divNearest_overPower num den _ (e - 1) positive half]
    have shift : (e + 1074).toNat = (e - 1 + 1074).toNat + 1 := by omega
    rw [shift, power, Nat.add_mul] at place
    omega

theorem pow_digitCount (n : Nat) (positive : 0 < n) : 10 ^ (digitCount n - 1) ≤ n := by
  unfold digitCount
  by_cases single : (Nat.toDigits 10 n).length ≤ 1
  · rw [Nat.sub_eq_zero_of_le single, Nat.pow_zero]
    exact positive
  · have longer : ¬ (Nat.toDigits 10 n).length ≤ (Nat.toDigits 10 n).length - 1 := by omega
    rw [Nat.length_toDigits_le_iff (by decide) (by omega)] at longer
    exact Nat.not_lt.mp longer

-- What is cut below the normal numbers gets smaller, and it is small already.
theorem taken_fits (reach : Int) (num den : Nat) (positive : 0 < den)
    (fits : nearest num den < infinity) :
    nearest (taken reach num den).1 (taken reach num den).2 < infinity := by
  unfold taken
  dsimp only
  split
  · rename_i cut
    obtain ⟨nonzero, low, _, _⟩ := cut
    change leadingExponent num den < -1074 at low
    have leads := leadingExponent_leads num den (Nat.pos_of_ne_zero nonzero) positive
    have divisor := overPower_pos num den (leadingExponent num den) positive
    have quotient := overPower_ratio num den (leadingExponent num den)
    generalize overPower num den (leadingExponent num den) = parts at divisor quotient ⊢
    obtain ⟨a, b⟩ := parts
    have unit : (0 : ℚ) < 2 ^ leadingExponent num den := by positivity
    have floor : ((a / b : Nat) : ℚ) ≤ ratio (a, b) :=
      (le_ratio _ a b divisor).mpr (Nat.div_mul_le_self a b)
    have small : ratio (scaled (a / b) 2 (leadingExponent num den)) < (2 : ℚ) ^ (-1022 : Int) := by
      rw [scaled_ratio]
      calc ((a / b : Nat) : ℚ) * (2 : Nat) ^ leadingExponent num den
          ≤ ratio (a, b) * 2 ^ leadingExponent num den := by
            push_cast
            gcongr
        _ = ratio (num, den) := by rw [quotient, div_mul_cancel₀ _ unit.ne']
        _ < 2 ^ (leadingExponent num den + 53) := leads.2
        _ ≤ 2 ^ (-1022 : Int) := zpow_le_zpow_right₀ (by norm_num) (by omega)
    have tiny := nearest_small _ _ (scaled_pos _ _ _ Nat.two_pos) small
    exact Nat.lt_of_le_of_lt tiny (by decide)
  · exact fits

theorem roundFraction_fits (reach : Int) (num den : Nat) (positive : 0 < den)
    (fits : nearest num den < infinity) : roundFraction reach num den ≠ .overflow := by
  have inside := taken_fits reach num den positive fits
  unfold roundFraction
  dsimp only
  rw [if_neg (Nat.not_le.mpr inside)]
  split <;> simp

/-- A decimal number that stands for a number within the doubles is in their range. -/
theorem roundDecimal_fits (n : Nat) (e : Int) (num den : Nat) (positive : 0 < den)
    (same : ratio (num, den) = n * (10 : ℚ) ^ e) (fits : nearest num den < infinity) :
    roundDecimal n e ≠ .overflow := by
  unfold roundDecimal
  split
  · simp
  · rename_i nonzero
    split
    · -- So many digits would leave the range.
      rename_i long
      exfalso
      have counted : 0 < digitCount n := List.length_pos_iff.mpr Nat.toDigits_ne_nil
      have digits : (10 : ℚ) ^ ((digitCount n : Int) - 1) ≤ n := by
        rw [show (digitCount n : Int) - 1 = ((digitCount n - 1 : Nat) : Int) by omega, zpow_natCast]
        exact_mod_cast pow_digitCount n (Nat.pos_of_ne_zero nonzero)
      have large : (2 : ℚ) ^ (1024 : Int) ≤ ratio (num, den) := by
        rw [same]
        calc (2 : ℚ) ^ (1024 : Int) ≤ 2 ^ (1200 : Int) := zpow_le_zpow_right₀ (by norm_num) (by norm_num)
          _ = (2 ^ (3 : Int)) ^ (400 : Int) := by rw [← zpow_mul]; norm_num
          _ ≤ 10 ^ (400 : Int) := zpow_le_zpow_left₀ (by norm_num) (by norm_num) (by norm_num)
          _ ≤ 10 ^ ((digitCount n : Int) - 1 + e) := zpow_le_zpow_right₀ (by norm_num) (by omega)
          _ = 10 ^ ((digitCount n : Int) - 1) * 10 ^ e := zpow_add₀ (by norm_num) _ _
          _ ≤ n * 10 ^ e := by gcongr
      exact absurd (nearest_large num den positive large) (Nat.not_le.mpr fits)
    · split
      · simp
      · have own : ratio ((scaled n 10 e).1, (scaled n 10 e).2) = ratio (num, den) :=
          (scaled_ratio n 10 e).trans same.symm
        have divisor := scaled_pos n 10 e (by decide)
        have inside : nearest (scaled n 10 e).1 (scaled n 10 e).2 < infinity := by
          rw [nearest_congr (scaled n 10 e).1 _ num den divisor positive own]
          exact fits
        exact roundFraction_fits decimalReach _ _ divisor inside

theorem belowPower_iff (num den : Nat) (e : Int) (positive : 0 < den) :
    belowPower num den e = true ↔ ratio (num, den) < (10 : ℚ) ^ e := by
  have power := scaled_ratio 1 10 e
  have divisor := scaled_pos 1 10 e (by decide)
  unfold belowPower
  generalize scaled 1 10 e = fraction at power divisor ⊢
  obtain ⟨a, b⟩ := fraction
  rw [Nat.cast_one, one_mul] at power
  rw [show ((10 : Nat) : ℚ) = 10 from rfl] at power
  dsimp only at divisor ⊢
  rw [← power, decide_eq_true_eq]
  unfold ratio
  dsimp only
  rw [div_lt_div_iff₀ (by exact_mod_cast positive) (by exact_mod_cast divisor), mul_comm (a : ℚ)]
  exact_mod_cast Iff.rfl

theorem pointFrom_low (num den steps : Nat) (p : Int) (positive : 0 < den)
    (start : (10 : ℚ) ^ (p - 1) ≤ ratio (num, den)) :
    (10 : ℚ) ^ (pointFrom num den steps p - 1) ≤ ratio (num, den) := by
  induction steps generalizing p with
  | zero => exact start
  | succ steps ih =>
      unfold pointFrom
      split
      · exact start
      · rename_i above
        refine ih (p + 1) ?_
        rw [belowPower_iff num den p positive, not_lt] at above
        rwa [add_sub_cancel_right]

-- Powers are compared through one comparison of powers of their bases.
theorem pow_le_pow_of_bases (a b c d i j : Nat) (positive : 0 < c) (nonzero : 0 < b)
    (bases : a ^ c ≤ b ^ d) (exponents : d * i ≤ c * j) : a ^ i ≤ b ^ j := by
  refine (Nat.pow_le_pow_iff_left positive.ne').mp ?_
  calc (a ^ i) ^ c = (a ^ c) ^ i := by rw [← Nat.pow_mul, Nat.mul_comm, Nat.pow_mul]
    _ ≤ (b ^ d) ^ i := Nat.pow_le_pow_left bases i
    _ = b ^ (d * i) := by rw [Nat.pow_mul]
    _ ≤ b ^ (c * j) := Nat.pow_le_pow_right nonzero exponents
    _ = (b ^ j) ^ c := by rw [Nat.mul_comm, Nat.pow_mul]

/-- The guess at the place of the decimal point is not too far to the right. -/
theorem guess_low (k : Int) (low : -2000 ≤ k) (high : k ≤ 2000) :
    (10 : ℚ) ^ (k * 30103 / 100000 - 2) ≤ 2 ^ k := by
  generalize guess_eq : k * 30103 / 100000 - 2 = guess
  rcases Int.le_total 0 guess with right | left
  · obtain ⟨i, rfl⟩ := Int.eq_ofNat_of_zero_le right
    obtain ⟨j, rfl⟩ := Int.eq_ofNat_of_zero_le (show 0 ≤ k by omega)
    rw [zpow_natCast, zpow_natCast]
    exact_mod_cast pow_le_pow_of_bases 10 2 59 196 i j (by decide) (by decide) (by norm_num) (by omega)
  · rcases Int.le_total 0 k with positive | negative
    · calc (10 : ℚ) ^ guess ≤ 10 ^ (0 : Int) := zpow_le_zpow_right₀ (by norm_num) left
        _ ≤ 2 ^ k := by
          rw [zpow_zero]
          exact one_le_zpow₀ (by norm_num) positive
    · obtain ⟨i, rfl⟩ : ∃ i : Nat, guess = -(i : Int) := ⟨guess.natAbs, by omega⟩
      obtain ⟨j, rfl⟩ : ∃ j : Nat, k = -(j : Int) := ⟨k.natAbs, by omega⟩
      rw [zpow_neg, zpow_neg, zpow_natCast, zpow_natCast]
      refine inv_anti₀ (by positivity) ?_
      exact_mod_cast pow_le_pow_of_bases 2 10 93 28 j i (by decide) (by decide) (by norm_num) (by omega)

theorem pointOf_low (num den : Nat) (nonzero : 0 < num) (positive : 0 < den)
    (low : (2 : ℚ) ^ (-1074 : Int) ≤ ratio (num, den))
    (high : ratio (num, den) < (2 : ℚ) ^ (1024 : Int)) :
    (10 : ℚ) ^ (pointOf num den - 1) ≤ ratio (num, den) := by
  obtain ⟨lower, upper⟩ := ratio_log2 num den nonzero positive
  have above := (zpow_lt_zpow_iff_right₀ (a := (2 : ℚ)) (by norm_num)).mp (low.trans_lt upper)
  have below := (zpow_lt_zpow_iff_right₀ (a := (2 : ℚ)) (by norm_num)).mp (lower.trans high)
  have guess := guess_low ((num.log2 : Int) - den.log2 - 1) (by omega) (by omega)
  unfold pointOf
  dsimp only
  refine pointFrom_low num den 8 _ positive ?_
  rw [show ∀ q : Int, q - 1 - 1 = q - 2 by intro q; ring]
  exact guess.trans lower.le

section Grids

variable (magnitude num den : Nat) (e : Int)

theorem readsBack_eq (m : Nat) : readsBack magnitude m e = true ↔
    nearest (scaled m 10 e).1 (scaled m 10 e).2 = magnitude := by
  unfold readsBack
  exact beq_iff_eq

theorem onGrid_reads (m : Nat) (found : onGrid magnitude num den e = some m) :
    readsBack magnitude m e = true ∧
      num * (scaled 1 10 e).2 / (den * (scaled 1 10 e).1) ≤ m := by
  unfold onGrid at found
  dsimp only at found
  split at found
  · rename_i low high
    cases found
    split
    · exact ⟨low, Nat.le_refl _⟩
    · exact ⟨high, Nat.le_succ _⟩
  · rename_i low _
    cases found
    exact ⟨low, Nat.le_refl _⟩
  · rename_i _ high
    cases found
    exact ⟨high, Nat.le_succ _⟩
  · cases found

theorem onGrid_isSome (near : ∃ m, readsBack magnitude m e = true ∧
      (m = num * (scaled 1 10 e).2 / (den * (scaled 1 10 e).1) ∨
        m = num * (scaled 1 10 e).2 / (den * (scaled 1 10 e).1) + 1)) :
    ∃ m, onGrid magnitude num den e = some m := by
  obtain ⟨m, reads, place⟩ := near
  unfold onGrid
  dsimp only
  split
  · exact ⟨_, rfl⟩
  · exact ⟨_, rfl⟩
  · exact ⟨_, rfl⟩
  · rename_i low high
    rcases place with rfl | rfl
    · rw [reads] at low
      cases low
    · rw [reads] at high
      cases high

variable (positive : 0 < den)
include positive

/-- The number in steps of the grid. -/
theorem grid_steps :
    ratio (num * (scaled 1 10 e).2, den * (scaled 1 10 e).1) = ratio (num, den) / 10 ^ e ∧
      0 < den * (scaled 1 10 e).1 := by
  have power := scaled_ratio 1 10 e
  have divisor := scaled_pos 1 10 e (by decide)
  generalize scaled 1 10 e = fraction at power divisor ⊢
  obtain ⟨a, b⟩ := fraction
  rw [Nat.cast_one, one_mul] at power
  rw [show ((10 : Nat) : ℚ) = 10 from rfl] at power
  have unit : (0 : ℚ) < 10 ^ e := by positivity
  have above : a ≠ 0 := by
    rintro rfl
    rw [← power] at unit
    simp [ratio] at unit
  refine ⟨?_, Nat.mul_pos positive (Nat.pos_of_ne_zero above)⟩
  rw [← power]
  unfold ratio
  have den' : (den : ℚ) ≠ 0 := by exact_mod_cast positive.ne'
  have a' : (a : ℚ) ≠ 0 := by exact_mod_cast above
  have b' : (b : ℚ) ≠ 0 := by exact_mod_cast divisor.ne'
  dsimp only
  push_cast
  field_simp

theorem low_pos (above : (10 : ℚ) ^ e ≤ ratio (num, den)) :
    0 < num * (scaled 1 10 e).2 / (den * (scaled 1 10 e).1) := by
  obtain ⟨steps, below⟩ := grid_steps num den e positive
  have unit : (0 : ℚ) < 10 ^ e := by positivity
  rw [Nat.lt_iff_add_one_le, Nat.zero_add, Nat.le_div_iff_mul_le below, ← le_ratio _ _ _ below, steps,
    Nat.cast_one, one_le_div₀ unit]
  exact above

/-- One of the neighbours on the grid is at most half a step away. -/
theorem neighbour_close : ∃ m : Nat,
    (m = num * (scaled 1 10 e).2 / (den * (scaled 1 10 e).1) ∨
      m = num * (scaled 1 10 e).2 / (den * (scaled 1 10 e).1) + 1) ∧
    |m * (10 : ℚ) ^ e - ratio (num, den)| ≤ 10 ^ e / 2 := by
  obtain ⟨steps, below⟩ := grid_steps num den e positive
  generalize num * (scaled 1 10 e).2 = a at steps ⊢
  generalize den * (scaled 1 10 e).1 = b at steps below ⊢
  have unit : (0 : ℚ) < 10 ^ e := by positivity
  have whole : ratio (num, den) = ratio (a, b) * 10 ^ e := by
    rw [steps, div_mul_cancel₀ _ unit.ne']
  have low : ((a / b : Nat) : ℚ) ≤ ratio (a, b) :=
    (le_ratio _ a b below).mpr (Nat.div_mul_le_self a b)
  have high : ratio (a, b) ≤ ((a / b + 1 : Nat) : ℚ) :=
    (ratio_le _ a b below).mpr (Nat.lt_mul_of_div_lt (Nat.lt_succ_self _) below).le
  have scale (m : Nat) : |m * (10 : ℚ) ^ e - ratio (num, den)| = |m - ratio (a, b)| * 10 ^ e := by
    rw [whole, ← sub_mul, abs_mul, abs_of_pos unit]
  rw [Nat.cast_add, Nat.cast_one] at high
  rcases le_total (ratio (a, b)) ((a / b : Nat) + 1 / 2) with near | far
  · refine ⟨_, .inl rfl, ?_⟩
    rw [scale, abs_of_nonpos (by linarith)]
    nlinarith
  · refine ⟨_, .inr rfl, ?_⟩
    rw [scale, Nat.cast_add, Nat.cast_one, abs_of_nonneg (by linarith)]
    nlinarith

end Grids

/-- A grid of seventeen digits holds a decimal number that reads back. -/
theorem onGrid_fine (magnitude : Nat) (e : Int) (nonzero : 0 < magnitude)
    (finite : magnitude < infinity)
    (fine : (10 : ℚ) ^ e * 10 ^ 16 ≤ ratio (fraction magnitude)) :
    ∃ m, onGrid magnitude (fraction magnitude).1 (fraction magnitude).2 e = some m := by
  have positive := fraction_pos magnitude
  obtain ⟨m, place, near⟩ := neighbour_close (fraction magnitude).1 (fraction magnitude).2 e positive
  refine onGrid_isSome magnitude _ _ e ⟨m, (readsBack_eq magnitude e m).mpr ?_, place⟩
  refine nearest_of_close magnitude _ _ nonzero finite (scaled_pos m 10 e (by decide)) ?_
  have unit : (0 : ℚ) < 10 ^ e := by positivity
  have own : ratio ((scaled m 10 e).1, (scaled m 10 e).2) = m * (10 : ℚ) ^ e := scaled_ratio m 10 e
  rw [own]
  calc |m * (10 : ℚ) ^ e - ratio (fraction magnitude)| ≤ 10 ^ e / 2 := near
    _ < ratio (fraction magnitude) / 2 ^ 54 := by
      norm_num at fine ⊢
      linarith

/-- The grid on which the digits were found. -/
theorem shortestFrom_found (magnitude num den : Nat) (point : Int) (grids count : Nat)
    (found : ∃ later < grids, ∃ m, onGrid magnitude num den (point - (count + later : Nat)) = some m) :
    ∃ own ≥ count, ∃ m, onGrid magnitude num den (point - own) = some m ∧
      shortestFrom magnitude num den point grids count =
        ⟨((digitList m).reverse.dropWhile (· == 0)).reverse, point - own + (digitList m).length⟩ := by
  induction grids generalizing count with
  | zero =>
      obtain ⟨later, none_left, _⟩ := found
      omega
  | succ grids ih =>
      unfold shortestFrom
      split
      · rename_i m here
        exact ⟨count, Nat.le_refl _, m, here, rfl⟩
      · rename_i missed
        obtain ⟨later, inside, m, hit⟩ := found
        cases later with
        | zero =>
            rw [Nat.add_zero, missed] at hit
            cases hit
        | succ later =>
            have next : ∃ later < grids, ∃ m,
                onGrid magnitude num den (point - (count + 1 + later : Nat)) = some m := by
              refine ⟨later, by omega, m, ?_⟩
              rwa [Nat.add_assoc, Nat.add_comm 1 later]
            obtain ⟨own, after, made⟩ := ih (count + 1) next
            exact ⟨own, by omega, made⟩

theorem fraction_bounds (magnitude : Nat) (nonzero : 0 < magnitude) (finite : magnitude < infinity) :
    (2 : ℚ) ^ (-1074 : Int) ≤ ratio (fraction magnitude) ∧
      ratio (fraction magnitude) < (2 : ℚ) ^ (1024 : Int) := by
  obtain ⟨low, high, bounded, _, _⟩ := parts_bounds magnitude finite
  have bits : (1 : ℚ) ≤ (parts magnitude).1 := by
    exact_mod_cast significand_pos magnitude nonzero finite
  have whole : ((parts magnitude).1 : ℚ) < 2 ^ (53 : Int) := by
    rw [show (53 : Int) = ((53 : Nat) : Int) from rfl, zpow_natCast]
    exact_mod_cast bounded
  rw [fraction_ratio]
  constructor
  · calc (2 : ℚ) ^ (-1074 : Int) ≤ 2 ^ (parts magnitude).2 := zpow_le_zpow_right₀ (by norm_num) low
      _ = 1 * 2 ^ (parts magnitude).2 := (one_mul _).symm
      _ ≤ (parts magnitude).1 * 2 ^ (parts magnitude).2 := by gcongr
  · calc ((parts magnitude).1 : ℚ) * 2 ^ (parts magnitude).2
        < 2 ^ (53 : Int) * 2 ^ (parts magnitude).2 := by gcongr
      _ = 2 ^ (53 + (parts magnitude).2) := (zpow_add₀ (by norm_num) _ _).symm
      _ ≤ 2 ^ (1024 : Int) := zpow_le_zpow_right₀ (by norm_num) (by omega)

/-- Every double but zero has digits, which round to it. -/
theorem shortest_reads (magnitude : Nat) (nonzero : 0 < magnitude) (finite : magnitude < infinity) :
    ∃ (m : Nat) (e : Int), 0 < m ∧ nearest (scaled m 10 e).1 (scaled m 10 e).2 = magnitude ∧
      shortest magnitude =
        ⟨((digitList m).reverse.dropWhile (· == 0)).reverse, e + (digitList m).length⟩ := by
  have positive := fraction_pos magnitude
  obtain ⟨least, most⟩ := fraction_bounds magnitude nonzero finite
  have numerator : 0 < (fraction magnitude).1 := by
    by_contra none_left
    have zero : ratio (fraction magnitude) = 0 := by
      unfold ratio
      rw [Nat.eq_zero_of_not_pos none_left]
      simp
    have power : (0 : ℚ) < 2 ^ (-1074 : Int) := by positivity
    rw [zero] at least
    exact absurd least (not_le.mpr power)
  have place := pointOf_low (fraction magnitude).1 _ numerator positive least most
  let point := pointOf (fraction magnitude).1 (fraction magnitude).2
  have fine : (10 : ℚ) ^ (point - 17) * 10 ^ 16 ≤ ratio (fraction magnitude) := by
    rw [← zpow_natCast, ← zpow_add₀ (by norm_num),
      show point - 17 + (16 : Nat) = point - 1 by push_cast; ring]
    exact place
  obtain ⟨own, after, m, found, made⟩ := shortestFrom_found magnitude (fraction magnitude).1 _ point
    17 1 ⟨16, by decide, onGrid_fine magnitude (point - 17) nonzero finite fine⟩
  obtain ⟨reads, above⟩ := onGrid_reads magnitude _ _ _ m found
  have fits : (10 : ℚ) ^ (point - own) ≤ ratio (fraction magnitude) :=
    (zpow_le_zpow_right₀ (by norm_num) (by omega)).trans place
  have low := low_pos (fraction magnitude).1 _ (point - own) positive fits
  refine ⟨m, point - own, low.trans_le above, (readsBack_eq magnitude _ m).mp reads, ?_⟩
  unfold shortest
  rw [if_neg nonzero.ne']
  exact made

end EndpointPreview.Decimal
