import SpeechMarkup.Binary64
import Mathlib.Data.Int.Log
import Mathlib.Tactic

/-!
# Rounding a ratio

`Binary64.rankOfRatio` rounds once, by integer arithmetic on shifted numbers.
This module says what that arithmetic means in the rationals and derives the
facts that decimal text relies on:

* the rank depends on the value of the ratio alone (`rankOfRatio_congr`);
* a finite number is the nearest to its own value (`rankOfRatio_self`);
* the nearest number to a natural number has no fraction (`isWhole_of_rank_eq`).

The middle step is that `log2Ratio` is the rational logarithm, which does not
see how the ratio is written.
-/

namespace SpeechMarkup
namespace Binary64

section Quotient

/-- A quotient without remainder is not rounded. -/
theorem divNearest_mul_self
    (m : Nat)
    {d : Nat}
    (hd : 0 < d) :
    divNearest (m * d) d = m := by
  simp [divNearest, Nat.mul_div_cancel _ hd, hd]

/-- Rounding a quotient does not see a common factor. -/
theorem divNearest_mul_mul
    (n d : Nat)
    {k : Nat}
    (hk : 0 < k) :
    divNearest (n * k) (d * k) = divNearest n d := by
  have hquot : n * k / (d * k) = n / d := Nat.mul_div_mul_right n d hk
  have hrem : n * k % (d * k) = n % d * k := Nat.mul_mod_mul_right k n d
  have hlow : 2 * (n % d * k) < d * k ↔ 2 * (n % d) < d := by
    rw [← Nat.mul_assoc]
    exact Nat.mul_lt_mul_right hk
  have hhigh : d * k < 2 * (n % d * k) ↔ d < 2 * (n % d) := by
    rw [← Nat.mul_assoc]
    exact Nat.mul_lt_mul_right hk
  simp only [divNearest, hquot, hrem, hlow, hhigh]

theorem le_divNearest
    {lo n d : Nat}
    (hd : 0 < d)
    (h : lo * d ≤ n) :
    lo ≤ divNearest n d := by
  have hquot : lo ≤ n / d := (Nat.le_div_iff_mul_le hd).2 h
  unfold divNearest
  dsimp only
  split
  · exact hquot
  · split
    · omega
    · split <;> omega

end Quotient

section Logarithm

/-- Shifting the two sides of a ratio compares it with a power of two. -/
theorem ratio_lt_zpow_iff
    (n : Nat)
    {d : Nat}
    (hd : 0 < d)
    (k : Int) :
    ((n : ℚ) / d < 2 ^ k) ↔ n <<< (-k).toNat < d <<< k.toNat := by
  have hdpos : (0 : ℚ) < d := by exact_mod_cast hd
  rw [div_lt_iff₀ hdpos, Nat.shiftLeft_eq, Nat.shiftLeft_eq]
  rcases Int.le_total 0 k with hk | hk
  · obtain ⟨j, rfl⟩ := Int.eq_ofNat_of_zero_le hk
    have hneg : (-(j : Int)).toNat = 0 := by omega
    rw [hneg, Int.toNat_natCast, zpow_natCast, pow_zero, Nat.mul_one, Nat.mul_comm d]
    exact_mod_cast Iff.rfl
  · obtain ⟨j, hj⟩ := Int.eq_ofNat_of_zero_le (Int.neg_nonneg_of_nonpos hk)
    obtain rfl : k = -(j : Int) := by omega
    have htwo : (0 : ℚ) < 2 ^ j := by positivity
    have hneg : (-(j : Int)).toNat = 0 := by omega
    rw [hneg, neg_neg, Int.toNat_natCast, zpow_neg, zpow_natCast, pow_zero, Nat.mul_one,
      inv_mul_eq_div, lt_div_iff₀ htwo]
    exact_mod_cast Iff.rfl

/-- The integer logarithm of a ratio is the logarithm of its value. -/
theorem log2Ratio_eq_log
    {n d : Nat}
    (hn : 0 < n)
    (hd : 0 < d) :
    log2Ratio n d = Int.log 2 ((n : ℚ) / d) := by
  have hnpos : (0 : ℚ) < n := by exact_mod_cast hn
  have hdpos : (0 : ℚ) < d := by exact_mod_cast hd
  have hratio : (0 : ℚ) < (n : ℚ) / d := div_pos hnpos hdpos
  have hlow : ((n.log2 : Int) - d.log2 - 1) ≤ Int.log 2 ((n : ℚ) / d) := by
    rw [← Int.zpow_le_iff_le_log (by norm_num) hratio, le_div_iff₀ hdpos]
    have h1 : ((2 : ℚ) ^ n.log2) ≤ n := by exact_mod_cast Nat.log2_self_le hn.ne'
    have h2 : (d : ℚ) < 2 ^ (d.log2 + 1) := by exact_mod_cast Nat.lt_log2_self
    calc
      ((2 : ℕ) : ℚ) ^ ((n.log2 : Int) - d.log2 - 1) * d
          ≤ (2 : ℚ) ^ ((n.log2 : Int) - d.log2 - 1) * 2 ^ (d.log2 + 1) := by
            push_cast
            gcongr
      _ = 2 ^ n.log2 := by
            rw [← zpow_natCast, ← zpow_natCast, ← zpow_add₀ (by norm_num)]
            congr 1
            push_cast
            ring
      _ ≤ n := h1
  have hhigh : Int.log 2 ((n : ℚ) / d) < (n.log2 : Int) - d.log2 + 1 := by
    rw [← Int.lt_zpow_iff_log_lt (by norm_num) hratio, div_lt_iff₀ hdpos]
    have h1 : (n : ℚ) < 2 ^ (n.log2 + 1) := by exact_mod_cast Nat.lt_log2_self
    have h2 : ((2 : ℚ) ^ d.log2) ≤ d := by exact_mod_cast Nat.log2_self_le hd.ne'
    calc
      (n : ℚ) < 2 ^ (n.log2 + 1) := h1
      _ = (2 : ℚ) ^ ((n.log2 : Int) - d.log2 + 1) * 2 ^ d.log2 := by
            rw [← zpow_natCast, ← zpow_natCast, ← zpow_add₀ (by norm_num)]
            congr 1
            push_cast
            ring
      _ ≤ ((2 : ℕ) : ℚ) ^ ((n.log2 : Int) - d.log2 + 1) * d := by
            push_cast
            gcongr
  have hmid := ratio_lt_zpow_iff n hd ((n.log2 : Int) - d.log2)
  have hlog := Int.lt_zpow_iff_log_lt (b := 2) (by norm_num) hratio
    (x := (n.log2 : Int) - d.log2)
  push_cast at hlog
  rw [hmid] at hlog
  unfold log2Ratio
  dsimp only
  split
  · rename_i hlt
    have := hlog.1 hlt
    omega
  · rename_i hnlt
    have := mt hlog.2 hnlt
    omega

end Logarithm

section Rank

theorem rankOfRatio_mul_mul
    (n : Nat)
    {d k : Nat}
    (hd : 0 < d)
    (hk : 0 < k) :
    rankOfRatio (n * k) (d * k) = rankOfRatio n d := by
  rcases Nat.eq_zero_or_pos n with rfl | hn
  · simp [rankOfRatio]
  · have hkpos : (k : ℚ) ≠ 0 := by exact_mod_cast hk.ne'
    have hlog : log2Ratio (n * k) (d * k) = log2Ratio n d := by
      rw [log2Ratio_eq_log (Nat.mul_pos hn hk) (Nat.mul_pos hd hk), log2Ratio_eq_log hn hd]
      push_cast
      rw [mul_div_mul_right _ _ hkpos]
    have hshift : ∀ a i : Nat, (a * k) <<< i = a <<< i * k := by
      intro a i
      simp only [Nat.shiftLeft_eq]
      ring
    unfold rankOfRatio
    rw [if_neg (Nat.mul_pos hn hk).ne', if_neg hn.ne', hlog]
    simp only [hshift, divNearest_mul_mul _ _ hk]

/-- The rank depends on the value of a ratio alone. -/
theorem rankOfRatio_congr
    {n d n' d' : Nat}
    (hd : 0 < d)
    (hd' : 0 < d')
    (h : n * d' = n' * d) :
    rankOfRatio n d = rankOfRatio n' d' := by
  rw [← rankOfRatio_mul_mul n hd hd', h, Nat.mul_comm d d', rankOfRatio_mul_mul n' hd' hd]

theorem rankOfRatio_le_infinityRank (n d : Nat) :
    rankOfRatio n d ≤ infinityRank := by
  unfold rankOfRatio
  split
  · exact Nat.zero_le _
  · exact Nat.min_le_right _ _

/-- The rank of `m * 2 ^ e` where `m` is a significand of that exponent. -/
theorem rankOfRatio_scaled
    {m : Nat}
    {e : Int}
    (hpos : 0 < m)
    (hlt : m < 2 * significandStep)
    (he : -1074 ≤ e)
    (hnormal : significandStep ≤ m ∨ e = -1074) :
    rankOfRatio (m <<< e.toNat) (1 <<< (-e).toNat) =
      min ((e + 1074).toNat * significandStep + m) infinityRank := by
  have hn : 0 < m <<< e.toNat := by
    rw [Nat.shiftLeft_eq]
    positivity
  have hd : 0 < 1 <<< (-e).toNat := by
    rw [Nat.shiftLeft_eq]
    positivity
  have hstep : (significandStep : ℚ) = 2 ^ 52 := by norm_num [significandStep]
  have hvalue : ((m <<< e.toNat : Nat) : ℚ) / (1 <<< (-e).toNat : Nat) = m * 2 ^ e := by
    simp only [Nat.shiftLeft_eq]
    push_cast
    rw [one_mul, mul_div_assoc]
    congr 1
    rw [← zpow_natCast, ← zpow_natCast, ← zpow_sub₀ (by norm_num)]
    congr 1
    omega
  have htwo : (0 : ℚ) < 2 ^ e := by positivity
  have hlog := log2Ratio_eq_log hn hd
  rw [hvalue] at hlog
  have hvpos : (0 : ℚ) < m * 2 ^ e := by positivity
  have hhigh : log2Ratio (m <<< e.toNat) (1 <<< (-e).toNat) < e + 53 := by
    rw [hlog, ← Int.lt_zpow_iff_log_lt (by norm_num) hvpos]
    push_cast
    rw [zpow_add₀ (by norm_num), mul_comm]
    gcongr
    calc
      (m : ℚ) < ((2 * significandStep : Nat) : ℚ) := by exact_mod_cast hlt
      _ = 2 ^ (53 : Int) := by
          push_cast
          rw [hstep]
          norm_num
  have hlow : significandStep ≤ m →
      e + 52 ≤ log2Ratio (m <<< e.toNat) (1 <<< (-e).toNat) := by
    intro hge
    rw [hlog, ← Int.zpow_le_iff_le_log (by norm_num) hvpos]
    push_cast
    rw [zpow_add₀ (by norm_num), mul_comm]
    gcongr
    calc
      (2 : ℚ) ^ (52 : Int) = significandStep := by rw [hstep]; norm_num
      _ ≤ m := by exact_mod_cast hge
  have hexp : max (log2Ratio (m <<< e.toNat) (1 <<< (-e).toNat) - 52) (-1074) = e := by
    rcases hnormal with hge | rfl
    · have := hlow hge
      omega
    · omega
  have hquot : divNearest (m <<< e.toNat <<< (-e).toNat) (1 <<< (-e).toNat <<< e.toNat) = m := by
    have hscale : 0 < 1 <<< (-e).toNat <<< e.toNat := by
      simp only [Nat.shiftLeft_eq]
      positivity
    have hmul : m <<< e.toNat <<< (-e).toNat = m * (1 <<< (-e).toNat <<< e.toNat) := by
      simp only [Nat.shiftLeft_eq]
      ring
    rw [hmul, divNearest_mul_self m hscale]
  unfold rankOfRatio
  rw [if_neg hn.ne']
  simp only [hexp, hquot]

/-- A finite number is the nearest to its own value. -/
theorem rankOfRatio_self
    {x : Binary64}
    (h : x.rank < infinityRank) :
    rankOfRatio x.numerator x.denominator = x.rank := by
  have hstep : 0 < significandStep := by decide
  rcases Nat.eq_zero_or_pos x.rank with hzero | hpos
  · have hnum : x.numerator = 0 := by
      simp [numerator, significand, hzero, hstep]
    simp [rankOfRatio, hnum, hzero]
  · by_cases hsmall : x.rank < significandStep
    · have hsig : x.significand = x.rank := by simp [significand, hsmall]
      have hexp : x.exponent = -1074 := by simp [exponent, hsmall]
      have hscaled := rankOfRatio_scaled (m := x.significand) (e := x.exponent)
        (by omega) (by omega) (by omega) (Or.inr hexp)
      unfold numerator denominator
      rw [hscaled, hsig, hexp]
      simpa using h.le
    · have hsig : x.significand = x.rank % significandStep + significandStep := by
        simp [significand, hsmall]
      have hexp : x.exponent = (x.rank / significandStep : Nat) - 1075 := by
        simp [exponent, hsmall]
      have hrem := Nat.mod_lt x.rank hstep
      have hquot : 1 ≤ x.rank / significandStep :=
        (Nat.le_div_iff_mul_le hstep).2 (by omega)
      have hscaled := rankOfRatio_scaled (m := x.significand) (e := x.exponent)
        (by omega) (by omega) (by omega) (Or.inl (by omega))
      have hcount : (x.exponent + 1074).toNat = x.rank / significandStep - 1 := by omega
      have hdiv := Nat.div_add_mod x.rank significandStep
      obtain ⟨q, hq⟩ := Nat.exists_eq_add_of_le hquot
      unfold numerator denominator
      rw [hscaled, hcount, hsig]
      rw [hq] at hdiv ⊢
      have hmul : significandStep * (1 + q) = q * significandStep + significandStep := by ring
      have hrank : (1 + q - 1) * significandStep
          + (x.rank % significandStep + significandStep) = x.rank := by
        rw [Nat.add_sub_cancel_left]
        omega
      rw [hrank]
      exact Nat.min_eq_left h.le

/-- A rank from which significand and exponent can be read off. -/
theorem significand_exponent_of_rank
    {x : Binary64}
    {m : Nat}
    {e : Int}
    (he : -1074 ≤ e)
    (hlow : significandStep ≤ m)
    (hhigh : m < 2 * significandStep)
    (hrank : x.rank = (e + 1074).toNat * significandStep + m) :
    x.significand = m ∧ x.exponent = e := by
  have hstep : 0 < significandStep := by decide
  obtain ⟨r, rfl⟩ := Nat.exists_eq_add_of_le hlow
  have hr : r < significandStep := by omega
  have hform : x.rank = r + significandStep * ((e + 1074).toNat + 1) := by
    rw [hrank]
    ring
  have hnot : ¬ x.rank < significandStep := by
    rw [hrank]
    omega
  have hmod : x.rank % significandStep = r := by
    rw [hform, Nat.add_mul_mod_self_left, Nat.mod_eq_of_lt hr]
  have hdiv : x.rank / significandStep = (e + 1074).toNat + 1 := by
    rw [hform, Nat.add_mul_div_left _ _ hstep, Nat.div_eq_of_lt hr, Nat.zero_add]
  constructor
  · rw [significand, if_neg hnot, hmod]
    omega
  · rw [exponent, if_neg hnot, hdiv]
    omega

theorem eq_of_eq_min
    {a b c : Nat}
    (h : a = min b c)
    (hlt : a < c) :
    a = b := by
  omega

/-- A natural number below `2 ^ 52` is not rounded. -/
theorem numerator_mod_denominator_of_small
    {x : Binary64}
    {n : Nat}
    (hn : 0 < n)
    (hsmall : n.log2 < 52)
    (hfin : x.rank < infinityRank)
    (hrank : x.rank = rankOfRatio n 1) :
    x.numerator % x.denominator = 0 := by
  have hself := Nat.log2_self_le hn.ne'
  have hnext : n < 2 * 2 ^ n.log2 := by
    rw [← pow_succ']
    exact Nat.lt_log2_self
  have hsplit : 2 ^ n.log2 * 2 ^ (52 - n.log2) = significandStep := by
    have hpow : significandStep = 2 ^ 52 := by decide
    rw [← pow_add, hpow]
    congr 1
    omega
  have hlow : significandStep ≤ n * 2 ^ (52 - n.log2) := by
    rw [← hsplit]
    exact Nat.mul_le_mul_right _ hself
  have hhigh : n * 2 ^ (52 - n.log2) < 2 * significandStep := by
    rw [← hsplit, ← Nat.mul_assoc]
    exact Nat.mul_lt_mul_of_pos_right hnext (by positivity)
  have he : (-1074 : Int) ≤ (n.log2 : Int) - 52 := by omega
  have hscaled := rankOfRatio_scaled (by positivity) hhigh he (Or.inl hlow)
  have hup : ((n.log2 : Int) - 52).toNat = 0 := by omega
  have hdown : (-((n.log2 : Int) - 52)).toNat = 52 - n.log2 := by omega
  rw [hup, hdown, Nat.shiftLeft_zero, Nat.shiftLeft_eq, Nat.one_mul] at hscaled
  have hvalue : rankOfRatio n 1 =
      rankOfRatio (n * 2 ^ (52 - n.log2)) (2 ^ (52 - n.log2)) :=
    rankOfRatio_congr Nat.one_pos (by positivity) (by ring)
  rw [← hrank, hscaled] at hvalue
  obtain ⟨hsig, hexp⟩ :=
    significand_exponent_of_rank he hlow hhigh (eq_of_eq_min hvalue hfin)
  unfold numerator denominator
  rw [hsig, hexp, hup, hdown, Nat.shiftLeft_zero, Nat.shiftLeft_eq, Nat.one_mul]
  exact Nat.mul_mod_left _ _

/-- From `2 ^ 52` on every double is a whole number. -/
theorem denominator_eq_one_of_large
    {x : Binary64}
    {n : Nat}
    (hn : 0 < n)
    (hlarge : 52 ≤ n.log2)
    (hfin : x.rank < infinityRank)
    (hrank : x.rank = rankOfRatio n 1) :
    x.denominator = 1 := by
  have hlog : log2Ratio n 1 = n.log2 := by
    rw [log2Ratio_eq_log hn Nat.one_pos, Nat.log2_eq_log_two]
    simp [Int.log_natCast]
  have hmax : max (log2Ratio n 1 - 52) (-1074) = (n.log2 : Int) - 52 := by omega
  have hup : ((n.log2 : Int) - 52).toNat = n.log2 - 52 := by omega
  have hdown : (-((n.log2 : Int) - 52)).toNat = 0 := by omega
  have hquot : significandStep ≤ divNearest n (1 <<< (n.log2 - 52)) := by
    refine le_divNearest (by rw [Nat.shiftLeft_eq]; positivity) ?_
    have hpow : significandStep = 2 ^ 52 := by decide
    rw [hpow, Nat.shiftLeft_eq, Nat.one_mul, ← pow_add, Nat.add_sub_cancel' hlarge]
    exact Nat.log2_self_le hn.ne'
  have hform : rankOfRatio n 1 =
      min (((n.log2 : Int) - 52 + 1074).toNat * significandStep
        + divNearest n (1 <<< (n.log2 - 52))) infinityRank := by
    unfold rankOfRatio
    rw [if_neg hn.ne', hmax]
    simp only [hup, hdown, Nat.shiftLeft_zero]
  have hge : significandStep * 1075 ≤ x.rank := by
    have hcount : 1074 ≤ ((n.log2 : Int) - 52 + 1074).toNat := by omega
    rw [eq_of_eq_min (hrank.trans hform) hfin, Nat.mul_succ, Nat.mul_comm]
    exact Nat.add_le_add (Nat.mul_le_mul_right _ hcount) hquot
  have hdiv : 1075 ≤ x.rank / significandStep := by
    rw [Nat.le_div_iff_mul_le (by decide), Nat.mul_comm]
    exact hge
  have hnormal : ¬ x.rank < significandStep :=
    Nat.not_lt.2 (Nat.le_trans (Nat.le_mul_of_pos_right _ (by decide)) hge)
  have hexp : 0 ≤ x.exponent := by
    rw [exponent, if_neg hnormal]
    exact Int.sub_nonneg_of_le (by exact_mod_cast hdiv)
  have hzero : (-x.exponent).toNat = 0 := Int.toNat_eq_zero.2 (Int.neg_nonpos_of_nonneg hexp)
  simp [denominator, hzero]

/-- The nearest double to a natural number has no fraction. -/
theorem isWhole_of_rank_eq
    {x : Binary64}
    {n : Nat}
    (hfin : x.rank < infinityRank)
    (hrank : x.rank = rankOfRatio n 1) :
    x.isWhole = true := by
  suffices hdvd : x.numerator % x.denominator = 0 by
    simp [isWhole, hfin, hdvd]
  rcases Nat.eq_zero_or_pos n with rfl | hn
  · have hzero : x.rank = 0 := by simpa [rankOfRatio] using hrank
    have hstep : 0 < significandStep := by decide
    have hnum : x.numerator = 0 := by
      simp [numerator, significand, hzero, hstep]
    simp [hnum]
  · rcases Nat.lt_or_ge n.log2 52 with hsmall | hlarge
    · exact numerator_mod_denominator_of_small hn hsmall hfin hrank
    · rw [denominator_eq_one_of_large hn hlarge hfin hrank]
      exact Nat.mod_one _

end Rank

end Binary64
end SpeechMarkup
