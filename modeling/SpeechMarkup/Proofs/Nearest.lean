import SpeechMarkup.Proofs.DecimalText
import Mathlib.Data.Nat.Log

/-!
# The nearest double

What rounding a ratio does to its value.  The ratios here are at least one and not too
large, as lengths in milliseconds are.

* `Binary64.value` is the magnitude of a finite number.
* `Binary64.value_ofRatio` gives the value of a rounded ratio, and
  `Binary64.value_ofRatio_one` says that natural numbers below `2 ^ 53` are kept.
* `Binary64.abs_value_sub_le` bounds the error of one rounding.
* `Binary64.le_value_iff` says which ratios are rounded up to a natural number or beyond:
  those that fall short of it by at most half of the gap below it.
-/

namespace SpeechMarkup
namespace Binary64

section Quotient

/-- A quotient is rounded up to an even number from half below it on. -/
theorem le_divNearest_iff
    {a b k : Nat}
    (hb : 0 < b)
    (hk : k % 2 = 0) :
    k ≤ divNearest a b ↔ 2 * (k * b) ≤ 2 * a + b := by
  have hsplit := Nat.div_add_mod a b
  have hrem := Nat.mod_lt a hb
  generalize hq : a / b = q at hsplit
  generalize hr : a % b = r at hsplit hrem
  have hnear : divNearest a b = q ∧ (2 * r < b ∨ 2 * r = b ∧ q % 2 = 0) ∨
      divNearest a b = q + 1 ∧ (b < 2 * r ∨ 2 * r = b ∧ q % 2 = 1) := by
    unfold divNearest
    rw [hq, hr]
    dsimp only
    split
    · omega
    · split
      · omega
      · split <;> omega
  rcases Nat.lt_trichotomy k (q + 1) with hlt | rfl | hgt
  · -- the quotient itself is large enough
    have hmul : k * b ≤ b * q := by
      rw [Nat.mul_comm b q]
      exact Nat.mul_le_mul_right b (by omega)
    omega
  · have hmul : (q + 1) * b = b * q + b := by ring
    omega
  · have hmul : b * q + 2 * b ≤ k * b := by
      have hle := Nat.mul_le_mul_right b (show q + 2 ≤ k by omega)
      have hring : (q + 2) * b = b * q + 2 * b := by ring
      omega
    omega

/-- A rounded quotient is off by at most one half. -/
theorem abs_divNearest_sub_le
    (a : Nat)
    {b : Nat}
    (hb : 0 < b) :
    |(divNearest a b : ℚ) - a / b| ≤ 1 / 2 := by
  have hsplit := Nat.div_add_mod a b
  have hrem := Nat.mod_lt a hb
  have hnear : 2 * (divNearest a b * b) ≤ 2 * a + b ∧ 2 * a ≤ 2 * (divNearest a b * b) + b := by
    generalize hq : a / b = q at hsplit
    generalize hr : a % b = r at hsplit hrem
    have hlow : q * b = b * q := Nat.mul_comm q b
    have hhigh : (q + 1) * b = b * q + b := by ring
    unfold divNearest
    rw [hq, hr]
    dsimp only
    split
    · omega
    · split
      · omega
      · split <;> omega
  have hbpos : (0 : ℚ) < b := by exact_mod_cast hb
  have hup : (2 : ℚ) * (divNearest a b * b) ≤ 2 * a + b := by exact_mod_cast hnear.1
  have hdown : (2 : ℚ) * a ≤ 2 * (divNearest a b * b) + b := by exact_mod_cast hnear.2
  have hsub : (divNearest a b : ℚ) - a / b = (divNearest a b * b - a) / b := by
    field_simp
  rw [hsub, abs_div, abs_of_pos hbpos, div_le_iff₀ hbpos, abs_le]
  constructor <;> linarith

end Quotient

section Value

/-- The magnitude of a finite number. -/
def value (x : Binary64) : ℚ :=
  x.numerator / x.denominator

theorem value_eq (x : Binary64) : x.value = x.significand * 2 ^ x.exponent := by
  unfold value numerator denominator
  simp only [Nat.shiftLeft_eq]
  push_cast
  rw [one_mul, mul_div_assoc]
  congr 1
  rw [← zpow_natCast, ← zpow_natCast, ← zpow_sub₀ (by norm_num)]
  congr 1
  omega

/-- The exponent of the doubles around a ratio of at least one. -/
def gapExponent (n d : Nat) : Int :=
  Int.log 2 ((n : ℚ) / d) - 52

/-- The significand that a ratio is rounded to; it may be one too large for its exponent. -/
def nearestSignificand (n d : Nat) : Nat :=
  divNearest (n <<< (-gapExponent n d).toNat) (d <<< (gapExponent n d).toNat)

variable {n d : Nat}

theorem scaled_ratio (n d : Nat) :
    ((n <<< (-gapExponent n d).toNat : Nat) : ℚ) / (d <<< (gapExponent n d).toNat : Nat) =
      n / d / 2 ^ gapExponent n d := by
  generalize gapExponent n d = e
  simp only [Nat.shiftLeft_eq]
  push_cast
  have hpow : (2 : ℚ) ^ e = 2 ^ e.toNat / 2 ^ (-e).toNat := by
    rw [← zpow_natCast, ← zpow_natCast, ← zpow_sub₀ (by norm_num)]
    congr 1
    omega
  rw [hpow]
  field_simp

theorem zpow_gapExponent_le
    (hd : 0 < d)
    (hlow : d ≤ n) :
    2 ^ 52 * (2 : ℚ) ^ gapExponent n d ≤ n / d ∧
      (n : ℚ) / d < 2 ^ 53 * (2 : ℚ) ^ gapExponent n d := by
  have hdpos : (0 : ℚ) < d := by exact_mod_cast hd
  have hnpos : (0 : ℚ) < n := by exact_mod_cast Nat.lt_of_lt_of_le hd hlow
  have hratio : (0 : ℚ) < (n : ℚ) / d := div_pos hnpos hdpos
  have hexp : ∀ k : Nat, (2 : ℚ) ^ k * 2 ^ gapExponent n d =
      2 ^ (Int.log 2 ((n : ℚ) / d) + (k - 52)) := by
    intro k
    rw [← zpow_natCast, ← zpow_add₀ (by norm_num), gapExponent]
    congr 1
    ring
  rw [hexp, hexp]
  constructor
  · have hself := Int.zpow_log_le_self (b := 2) (by norm_num) hratio
    simpa using hself
  · have hnext := Int.lt_zpow_succ_log_self (b := 2) (by norm_num) ((n : ℚ) / d)
    norm_num
    exact_mod_cast hnext

theorem gapExponent_bounds
    (hd : 0 < d)
    (hlow : d ≤ n)
    (hhigh : n < d * 2 ^ 64) :
    -52 ≤ gapExponent n d ∧ gapExponent n d < 12 := by
  have hdpos : (0 : ℚ) < d := by exact_mod_cast hd
  have hnpos : (0 : ℚ) < n := by exact_mod_cast Nat.lt_of_lt_of_le hd hlow
  have hratio : (0 : ℚ) < (n : ℚ) / d := div_pos hnpos hdpos
  have hge : (0 : Int) ≤ Int.log 2 ((n : ℚ) / d) := by
    rw [← Int.zpow_le_iff_le_log (by norm_num) hratio, zpow_zero, le_div_iff₀ hdpos, one_mul]
    exact_mod_cast hlow
  have hlt : Int.log 2 ((n : ℚ) / d) < 64 := by
    rw [← Int.lt_zpow_iff_log_lt (by norm_num) hratio, div_lt_iff₀ hdpos, mul_comm]
    exact_mod_cast hhigh
  unfold gapExponent
  omega

theorem denominator_scaled_pos (n : Nat) (hd : 0 < d) :
    0 < d <<< (gapExponent n d).toNat := by
  rw [Nat.shiftLeft_eq]
  positivity

theorem abs_nearestSignificand_sub_le (n : Nat) (hd : 0 < d) :
    |(nearestSignificand n d : ℚ) - n / d / 2 ^ gapExponent n d| ≤ 1 / 2 := by
  rw [← scaled_ratio]
  exact abs_divNearest_sub_le _ (denominator_scaled_pos n hd)

theorem le_nearestSignificand_iff
    (n : Nat)
    (hd : 0 < d)
    {k : Nat}
    (hk : k % 2 = 0) :
    k ≤ nearestSignificand n d ↔ (k : ℚ) - 1 / 2 ≤ n / d / 2 ^ gapExponent n d := by
  have hpos := denominator_scaled_pos n hd
  have hscale : (0 : ℚ) < (d <<< (gapExponent n d).toNat : Nat) := by exact_mod_cast hpos
  rw [← scaled_ratio, nearestSignificand, le_divNearest_iff hpos hk, le_div_iff₀ hscale,
    ← Nat.cast_le (α := ℚ)]
  push_cast
  constructor <;> intro h <;> linarith

theorem nearestSignificand_bounds
    (hd : 0 < d)
    (hlow : d ≤ n) :
    significandStep ≤ nearestSignificand n d ∧ nearestSignificand n d ≤ 2 * significandStep := by
  have hpow : (0 : ℚ) < 2 ^ gapExponent n d := by positivity
  have hstep : (significandStep : ℚ) = 2 ^ 52 := by norm_num [significandStep]
  obtain ⟨hge, hlt⟩ := zpow_gapExponent_le hd hlow
  rw [← le_div_iff₀ hpow] at hge
  rw [← div_lt_iff₀ hpow] at hlt
  constructor
  · rw [le_nearestSignificand_iff n hd (by decide), hstep]
    linarith
  · have hnear := (abs_le.1 (abs_nearestSignificand_sub_le n hd)).2
    have hhalf : (nearestSignificand n d : ℚ) < (2 * significandStep + 1 : Nat) := by
      push_cast
      rw [hstep]
      linarith
    have hnat : nearestSignificand n d < 2 * significandStep + 1 := by exact_mod_cast hhalf
    omega

theorem rankOfRatio_eq
    (hd : 0 < d)
    (hlow : d ≤ n)
    (hhigh : n < d * 2 ^ 64) :
    rankOfRatio n d =
        (gapExponent n d + 1074).toNat * significandStep + nearestSignificand n d ∧
      rankOfRatio n d < infinityRank := by
  have hn : 0 < n := Nat.lt_of_lt_of_le hd hlow
  obtain ⟨hmin, hmax⟩ := gapExponent_bounds hd hlow hhigh
  have hsig := (nearestSignificand_bounds hd hlow).2
  have hexp : max (log2Ratio n d - 52) (-1074) = gapExponent n d := by
    rw [log2Ratio_eq_log hn hd]
    unfold gapExponent at hmin ⊢
    omega
  have hsmall : (gapExponent n d + 1074).toNat * significandStep + nearestSignificand n d <
      infinityRank := by
    have hcount : (gapExponent n d + 1074).toNat ≤ 1086 := by omega
    have hmul := Nat.mul_le_mul_right significandStep hcount
    have hsum : 1086 * significandStep + 2 * significandStep < infinityRank := by decide
    omega
  have hrank : rankOfRatio n d =
      (gapExponent n d + 1074).toNat * significandStep + nearestSignificand n d := by
    unfold rankOfRatio
    rw [if_neg hn.ne', hexp]
    exact Nat.min_eq_left hsmall.le
  exact ⟨hrank, hrank ▸ hsmall⟩

/-- The value of a rounded ratio.  A significand that is one too large for its exponent
belongs to the next power of two, and means the same there. -/
theorem value_ofRatio
    (negative : Bool)
    (hd : 0 < d)
    (hlow : d ≤ n)
    (hhigh : n < d * 2 ^ 64) :
    (ofRatio negative n d).value = nearestSignificand n d * 2 ^ gapExponent n d := by
  obtain ⟨hrank, -⟩ := rankOfRatio_eq hd hlow hhigh
  obtain ⟨hmin, -⟩ := gapExponent_bounds hd hlow hhigh
  obtain ⟨hsig, hsig'⟩ := nearestSignificand_bounds hd hlow
  rw [← rank_ofRatio negative] at hrank
  rw [value_eq]
  rcases Nat.lt_or_eq_of_le hsig' with hlt | heq
  · obtain ⟨hm, he⟩ := significand_exponent_of_rank (by omega) hsig hlt hrank
    rw [hm, he]
  · have hcarry : (ofRatio negative n d).rank =
        (gapExponent n d + 1 + 1074).toNat * significandStep + significandStep := by
      have hcount : (gapExponent n d + 1 + 1074).toNat = (gapExponent n d + 1074).toNat + 1 := by
        omega
      rw [hrank, heq, hcount]
      ring
    obtain ⟨hm, he⟩ := significand_exponent_of_rank (by omega) le_rfl (by decide) hcarry
    rw [hm, he, heq, zpow_add_one₀ (by norm_num)]
    push_cast
    ring

/-- One rounding changes a ratio by at most one part in `2 ^ 53`. -/
theorem abs_value_sub_le
    (negative : Bool)
    (hd : 0 < d)
    (hlow : d ≤ n)
    (hhigh : n < d * 2 ^ 64) :
    |(ofRatio negative n d).value - n / d| ≤ n / d / 2 ^ 53 := by
  have hpow : (0 : ℚ) < 2 ^ gapExponent n d := by positivity
  have hnear := abs_nearestSignificand_sub_le n hd
  obtain ⟨hge, -⟩ := zpow_gapExponent_le hd hlow
  have hsub : (nearestSignificand n d : ℚ) * 2 ^ gapExponent n d - n / d =
      (nearestSignificand n d - n / d / 2 ^ gapExponent n d) * 2 ^ gapExponent n d := by
    field_simp
  rw [value_ofRatio negative hd hlow hhigh, hsub, abs_mul, abs_of_pos hpow]
  calc
    _ ≤ 1 / 2 * (2 : ℚ) ^ gapExponent n d := by gcongr
    _ = 2 ^ 52 * (2 : ℚ) ^ gapExponent n d / 2 ^ 53 := by ring
    _ ≤ n / d / 2 ^ 53 := by gcongr

end Value

section Naturals

variable {n d k : Nat}

/-- Natural numbers that are not too large are not rounded. -/
theorem value_ofRatio_one
    (negative : Bool)
    (hn : n < 2 ^ 53) :
    (ofRatio negative n 1).value = n := by
  rcases Nat.eq_zero_or_pos n with rfl | hpos
  · have hrank : (ofRatio negative 0 1).rank = 0 := rank_ofRatio negative 0 1
    simp [value, numerator, significand, hrank]
  · have hexp : gapExponent n 1 ≤ 0 := by
      by_contra hlarge
      have htwo : (2 : ℚ) ^ (1 : Int) ≤ 2 ^ gapExponent n 1 :=
        zpow_le_zpow_right₀ (by norm_num) (by omega)
      have hle := (zpow_gapExponent_le Nat.one_pos hpos).1
      have hlt : (n : ℚ) < 2 ^ 53 := by exact_mod_cast hn
      have hscaled : (2 : ℚ) ^ 53 ≤ n := calc
        (2 : ℚ) ^ 53 = 2 ^ 52 * 2 ^ (1 : Int) := by norm_num
        _ ≤ 2 ^ 52 * 2 ^ gapExponent n 1 := by gcongr
        _ ≤ n := by simpa using hle
      linarith
    have hscale : (gapExponent n 1).toNat = 0 := by omega
    have hsig : nearestSignificand n 1 = n <<< (-gapExponent n 1).toNat := by
      rw [nearestSignificand, hscale]
      simpa using divNearest_mul_self (n <<< (-gapExponent n 1).toNat) Nat.one_pos
    have hratio := scaled_ratio n 1
    rw [hscale] at hratio
    have hpow : (2 : ℚ) ^ gapExponent n 1 ≠ 0 := by positivity
    rw [value_ofRatio negative Nat.one_pos hpos (by omega), hsig]
    have hvalue : ((n <<< (-gapExponent n 1).toNat : Nat) : ℚ) = n / 2 ^ gapExponent n 1 := by
      simpa using hratio
    rw [hvalue, div_mul_cancel₀ _ hpow]

/-- Half of the gap between a natural number and the double below it. -/
def halfGap (k : Nat) : ℚ :=
  2 ^ Nat.clog 2 k / 2 ^ 54

theorem halfGap_pos (k : Nat) : 0 < halfGap k := by
  unfold halfGap
  positivity

theorem halfGap_le_quarter (hk : k ≤ 2 ^ 52) : halfGap k ≤ 1 / 4 := by
  have hclog : Nat.clog 2 k ≤ 52 := Nat.clog_le_of_le_pow hk
  have hpow : (2 : ℚ) ^ Nat.clog 2 k ≤ 2 ^ 52 := pow_le_pow_right₀ (by norm_num) hclog
  unfold halfGap
  rw [div_le_iff₀ (by positivity)]
  linarith

theorem halfGap_succ_le (hk : 0 < k) : halfGap (k + 1) ≤ k / 2 ^ 53 := by
  have hclog : 0 < Nat.clog 2 (k + 1) := Nat.clog_pos (by norm_num) (by omega)
  obtain ⟨i, hi⟩ : ∃ i, Nat.clog 2 (k + 1) = i + 1 := ⟨Nat.clog 2 (k + 1) - 1, by omega⟩
  have hprev : 2 ^ i ≤ k := by
    have hlt := Nat.pow_pred_clog_lt_self (b := 2) (by norm_num) (show 1 < k + 1 by omega)
    rw [hi] at hlt
    exact Nat.le_of_lt_succ hlt
  have hcast : (2 : ℚ) ^ i ≤ k := by exact_mod_cast hprev
  rw [halfGap, hi, pow_succ, div_le_div_iff₀ (by positivity) (by positivity)]
  linarith

/-- The ratios that are rounded up to a natural number, or beyond it, are those that fall
short of it by at most half of the gap below it. -/
theorem le_value_iff
    (negative : Bool)
    (hd : 0 < d)
    (hlow : d ≤ n)
    (hhigh : n < d * 2 ^ 64)
    (hk : k ≤ 2 ^ 52) :
    (k : ℚ) ≤ (ofRatio negative n d).value ↔ (k : ℚ) - halfGap k ≤ n / d := by
  have hclog : Nat.clog 2 k ≤ 52 := Nat.clog_le_of_le_pow hk
  have hself : (k : ℚ) ≤ 2 ^ (Nat.clog 2 k : Int) := by
    exact_mod_cast Nat.le_pow_clog (by norm_num) k
  have hpow : (0 : ℚ) < 2 ^ gapExponent n d := by positivity
  have hpos := halfGap_pos k
  have hstep : (significandStep : ℚ) = 2 ^ 52 := by norm_num [significandStep]
  obtain ⟨hge, hlt⟩ := zpow_gapExponent_le hd hlow
  obtain ⟨hsig, hsig'⟩ := nearestSignificand_bounds hd hlow
  have hsigQ : (2 : ℚ) ^ 52 ≤ nearestSignificand n d := by
    rw [← hstep]
    exact_mod_cast hsig
  have hsigQ' : (nearestSignificand n d : ℚ) ≤ 2 ^ 53 := by
    have hcast : (nearestSignificand n d : ℚ) ≤ 2 * significandStep := by exact_mod_cast hsig'
    rw [hstep] at hcast
    linarith
  rw [value_ofRatio negative hd hlow hhigh]
  have hmin := (gapExponent_bounds hd hlow hhigh).1
  rcases lt_trichotomy (gapExponent n d + 53) (Nat.clog 2 k) with hbelow | hat | habove
  · -- ratio and double stay below the power of two that lies below `k`
    obtain ⟨i, hi⟩ : ∃ i, Nat.clog 2 k = i + 1 := ⟨Nat.clog 2 k - 1, by omega⟩
    have hone : 1 < k := by
      by_contra hsmall
      rw [Nat.clog_of_right_le_one (by omega)] at hi
      omega
    have hprev : (2 : ℚ) ^ i + 1 ≤ k := by
      have hlt := Nat.pow_pred_clog_lt_self (b := 2) (by norm_num) hone
      rw [hi] at hlt
      exact_mod_cast hlt
    have hnext : 2 ^ 53 * (2 : ℚ) ^ gapExponent n d ≤ 2 ^ i := by
      rw [← zpow_natCast, ← zpow_natCast, ← zpow_add₀ (by norm_num)]
      exact zpow_le_zpow_right₀ (by norm_num) (by push_cast; omega)
    have hquarter := halfGap_le_quarter hk
    have hvalue : (nearestSignificand n d : ℚ) * 2 ^ gapExponent n d ≤
        2 ^ 53 * 2 ^ gapExponent n d := by gcongr
    constructor <;> intro h <;> linarith
  · -- `k` lies among the doubles of the ratio's exponent
    obtain ⟨j, hj⟩ : ∃ j, 53 - Nat.clog 2 k = j + 1 := ⟨52 - Nat.clog 2 k, by omega⟩
    have hexp : gapExponent n d = -((j + 1 : Nat) : Int) := by omega
    have hscale : (2 : ℚ) ^ gapExponent n d * 2 ^ (j + 1) = 1 := by
      rw [hexp, zpow_neg, zpow_natCast]
      field_simp
    have hgap : halfGap k = 2 ^ gapExponent n d / 2 := by
      have hsum : (2 : ℚ) ^ Nat.clog 2 k = 2 ^ gapExponent n d * 2 ^ 53 := by
        rw [← zpow_natCast, ← zpow_natCast, ← zpow_add₀ (by norm_num)]
        congr 1
        omega
      rw [halfGap, hsum]
      ring
    have heven : (k * 2 ^ (j + 1)) % 2 = 0 := by
      rw [pow_succ, ← Nat.mul_assoc]
      exact Nat.mul_mod_left _ _
    have hiff := le_nearestSignificand_iff n hd heven
    rw [le_div_iff₀ hpow] at hiff
    have hleft : (k : ℚ) ≤ nearestSignificand n d * 2 ^ gapExponent n d ↔
        k * 2 ^ (j + 1) ≤ nearestSignificand n d := by
      rw [← Nat.cast_le (α := ℚ)]
      push_cast
      have hmul : (k : ℚ) = k * 2 ^ (j + 1) * 2 ^ gapExponent n d := by
        rw [mul_assoc, mul_comm ((2 : ℚ) ^ (j + 1)), hscale, mul_one]
      nth_rewrite 1 [hmul]
      exact mul_le_mul_iff_of_pos_right hpow
    have hright : ((k * 2 ^ (j + 1) : Nat) - 1 / 2 : ℚ) * 2 ^ gapExponent n d =
        k - halfGap k := by
      rw [hgap]
      push_cast
      rw [sub_mul, mul_assoc, mul_comm ((2 : ℚ) ^ (j + 1)), hscale]
      ring
    rw [hleft, hiff, hright]
  · -- ratio and double have reached the power of two that lies above `k`
    have hreach : (2 : ℚ) ^ (Nat.clog 2 k : Int) ≤ 2 ^ 52 * 2 ^ gapExponent n d := by
      rw [← zpow_natCast (2 : ℚ) 52, ← zpow_add₀ (by norm_num)]
      exact zpow_le_zpow_right₀ (by norm_num) (by push_cast; omega)
    have hvalue : 2 ^ 52 * (2 : ℚ) ^ gapExponent n d ≤
        nearestSignificand n d * 2 ^ gapExponent n d := by gcongr
    constructor <;> intro h <;> linarith

end Naturals

end Binary64
end SpeechMarkup
