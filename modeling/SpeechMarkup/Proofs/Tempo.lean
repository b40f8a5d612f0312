import SpeechMarkup.Proofs.Lengths
import SpeechMarkup.Proofs.Nearest

/-!
# Whole beats in milliseconds

At `b` beats per minute a beat lasts `60000 / b` milliseconds, rounded to a double, and
`d` beats last the floor of a second rounded product.  The floor is that of the exact
quotient unless the roundings carry the product across a natural number.

* `FallsShort` and `Overshoots` say when that happens.
* `toMillis_wholeBeats` gives the milliseconds of every number of whole beats.
-/

namespace SpeechMarkup

namespace Binary64

section Arithmetic

variable {x y : Binary64}

theorem ofRatio_congr
    (negative : Bool)
    {n d n' d' : Nat}
    (hd : 0 < d)
    (hd' : 0 < d')
    (h : n * d' = n' * d) :
    ofRatio negative n d = ofRatio negative n' d' := by
  rw [ofRatio, ofRatio, rankOfRatio_congr hd hd' h]

theorem isNaN_of_finite (hx : x.rank < infinityRank) : x.isNaN = false :=
  decide_eq_false (by omega)

theorem isInfinite_of_finite (hx : x.rank < infinityRank) : x.isInfinite = false :=
  decide_eq_false (by omega)

theorem mul_of_finite
    (hx : x.rank < infinityRank)
    (hy : y.rank < infinityRank) :
    x * y = ofRatio (x.negative != y.negative)
      (x.numerator * y.numerator) (x.denominator * y.denominator) := by
  show mul x y = _
  simp [mul, isNaN_of_finite, isInfinite_of_finite, hx, hy]

theorem div_of_finite
    (hx : x.rank < infinityRank)
    (hy : y.rank < infinityRank)
    (hzero : y.rank ≠ 0) :
    x / y = ofRatio (x.negative != y.negative)
      (x.numerator * y.denominator) (x.denominator * y.numerator) := by
  show div x y = _
  simp [div, isNaN_of_finite, isInfinite_of_finite, hx, hy, hzero]

theorem numerator_eq_iff
    (x : Binary64)
    (n : Nat) :
    x.numerator = n * x.denominator ↔ x.value = n := by
  have hpos : (x.denominator : ℚ) ≠ 0 := by exact_mod_cast x.denominator_pos.ne'
  rw [value, div_eq_iff hpos]
  exact_mod_cast Iff.rfl

theorem rank_ofRatio_one_lt
    (negative : Bool)
    {n : Nat}
    (hn : n < 2 ^ 53) :
    (ofRatio negative n 1).rank < infinityRank := by
  rw [rank_ofRatio]
  rcases Nat.eq_zero_or_pos n with rfl | hpos
  · decide
  · exact (rankOfRatio_eq Nat.one_pos hpos (by omega)).2

theorem rank_ofInt_lt
    {v : Nat}
    (hv : v < 2 ^ 53) :
    (ofInt v).rank < infinityRank := by
  rw [ofInt, Int.natAbs_natCast]
  exact rank_ofRatio_one_lt _ hv

theorem numerator_ofInt
    {v : Nat}
    (hv : v < 2 ^ 53) :
    (ofInt v).numerator = v * (ofInt v).denominator := by
  rw [numerator_eq_iff, ofInt, Int.natAbs_natCast, value_ofRatio_one _ hv]

theorem rank_ofInt_ne_zero
    {v : Nat}
    (hpos : 0 < v)
    (hv : v < 2 ^ 53) :
    (ofInt v).rank ≠ 0 := by
  intro hzero
  have hnum := numerator_ofInt hv
  have hden := Nat.mul_pos hpos (ofInt v).denominator_pos
  rw [← hnum] at hden
  simp [numerator, significand, hzero, significandStep] at hden

/-- The floor of a magnitude that fits a word. -/
theorem toWord_of_finite
    (hx : x.rank < infinityRank)
    (hsign : x.negative = false)
    (hfit : x.value < 2 ^ 63) :
    x.toWord = (x.numerator / x.denominator : Nat) := by
  have hden : 0 < x.denominator := x.denominator_pos
  have hdenQ : (0 : ℚ) < x.denominator := by exact_mod_cast hden
  have hfloor : x.floorFinite = (x.numerator / x.denominator : Nat) := by
    unfold floorFinite
    rw [hsign]
    exact Int.fdiv_eq_ediv_of_nonneg _ (by positivity)
  have hsmall : x.numerator / x.denominator < 2 ^ 63 := by
    rw [value, div_lt_iff₀ hdenQ] at hfit
    rw [Nat.div_lt_iff_lt_mul hden]
    exact_mod_cast hfit
  have hmax : ((x.numerator / x.denominator : Nat) : Int) ≤ maxWord := by
    rw [show maxWord = ((2 ^ 63 - 1 : Nat) : Int) from rfl]
    exact_mod_cast Nat.le_sub_one_of_lt hsmall
  have hmin : minWord ≤ ((x.numerator / x.denominator : Nat) : Int) :=
    (show minWord ≤ 0 by decide).trans (Int.natCast_nonneg _)
  unfold toWord
  rw [isNaN_of_finite hx, isInfinite_of_finite hx, hfloor, min_eq_right hmax,
    max_eq_right hmin]
  rfl

theorem le_toWord_iff
    {k : Nat}
    (hx : x.rank < infinityRank)
    (hsign : x.negative = false)
    (hfit : x.value < 2 ^ 63) :
    (k : Int) ≤ x.toWord ↔ (k : ℚ) ≤ x.value := by
  have hden : 0 < x.denominator := x.denominator_pos
  have hdenQ : (0 : ℚ) < x.denominator := by exact_mod_cast hden
  rw [toWord_of_finite hx hsign hfit, value, le_div_iff₀ hdenQ, Nat.cast_le,
    Nat.le_div_iff_mul_le hden]
  exact_mod_cast Iff.rfl

theorem toWord_ofRatio_one
    {n : Nat}
    (hn : n < 2 ^ 53) :
    (ofRatio false n 1).toWord = n := by
  have hvalue := value_ofRatio_one false hn
  have hnum := (numerator_eq_iff _ n).2 hvalue
  have hfit : (ofRatio false n 1).value < 2 ^ 63 := by
    rw [hvalue]
    exact_mod_cast hn.trans (by decide)
  rw [toWord_of_finite (rank_ofRatio_one_lt false hn) (negative_ofRatio _ _ _) hfit, hnum,
    Nat.mul_div_cancel n (denominator_pos _)]

end Arithmetic

end Binary64

open Binary64

section Tempo

variable {b d k : Nat}

/-- One beat lasts the double nearest to `60000 / b` milliseconds. -/
theorem Store.unit_setTempo
    (s : Store)
    (hb : 1 ≤ b)
    (hb' : b ≤ 60000) :
    (s.setTempo b).unit = ofRatio false 60000 b := by
  have hsmall : b < 2 ^ 53 := by omega
  have hminute : 60000 < 2 ^ 53 := by decide
  have hne : (b : Int) ≠ 0 := by omega
  have hsign : (ofInt b).negative = false := negative_ofInt (by omega)
  have hnum := numerator_ofInt hsmall
  have hnum' := numerator_ofInt hminute
  have hden := (ofInt b).denominator_pos
  have hden' := (ofInt (60000 : Nat)).denominator_pos
  unfold Store.setTempo
  dsimp only
  rw [if_neg hne, show (60000 : Int) = (60000 : Nat) from rfl,
    div_of_finite (rank_ofInt_lt hminute) (rank_ofInt_lt hsmall) (rank_ofInt_ne_zero hb hsmall),
    hsign, negative_ofInt (by decide)]
  apply ofRatio_congr
  · rw [hnum]
    positivity
  · exact hb
  · rw [hnum, hnum']
    ring

theorem rank_beat_lt
    (hb : 1 ≤ b)
    (hb' : b ≤ 60000) :
    (ofRatio false 60000 b).rank < infinityRank := by
  rw [rank_ofRatio]
  exact (rankOfRatio_eq hb hb' (by omega)).2

/-- A beat lasts at least one millisecond. -/
theorem one_le_value_beat
    (hb : 1 ≤ b)
    (hb' : b ≤ 60000) :
    1 ≤ (ofRatio false 60000 b).value := by
  have hiff := le_value_iff (k := 1) false hb hb' (by omega) (by decide)
  have hbQ : (0 : ℚ) < b := by exact_mod_cast hb
  have hratio : (1 : ℚ) ≤ (60000 : Nat) / b := by
    rw [le_div_iff₀ hbQ, one_mul]
    exact_mod_cast hb'
  have hgap := halfGap_pos 1
  have hone := hiff.2 (by push_cast at hratio ⊢; linarith)
  exact_mod_cast hone

/-- How far the rounding of a beat moves the end of `d` beats. -/
theorem abs_drift_le
    (hb : 1 ≤ b)
    (hb' : b ≤ 60000)
    (hd : 0 < d) :
    |(d : ℚ) * ((ofRatio false 60000 b).value - 60000 / b)| ≤ 60000 * d / b / 2 ^ 53 := by
  have hnear := abs_value_sub_le false hb hb' (by omega)
  have hdQ : (0 : ℚ) < d := by exact_mod_cast hd
  rw [abs_mul, abs_of_pos hdQ]
  calc
    _ ≤ (d : ℚ) * ((60000 : Nat) / b / 2 ^ 53) := by
      gcongr
      exact_mod_cast hnear
    _ = 60000 * d / b / 2 ^ 53 := by
      push_cast
      ring

/-- The length of `d` beats is one rounding of a ratio. -/
theorem Duration.toMillis_int
    {unit : Binary64}
    (hfinite : unit.rank < infinityRank)
    (hsign : unit.negative = false)
    (hd : d < 2 ^ 53) :
    (Duration.int d).toMillis unit =
      (ofRatio false (d * unit.numerator) unit.denominator).toWord := by
  have hden := unit.denominator_pos
  have hden' := (ofInt d).denominator_pos
  show (ofInt d * unit).toWord = _
  rw [mul_of_finite (rank_ofInt_lt hd) hfinite, negative_ofInt (by omega), hsign,
    numerator_ofInt hd]
  congr 1
  apply ofRatio_congr
  · positivity
  · exact hden
  · ring

/-- Which natural numbers the milliseconds of `d` beats reach. -/
theorem le_toMillis_iff
    (hb : 1 ≤ b)
    (hb' : b ≤ 60000)
    (hd : 0 < d)
    (hbound : 60000 * d < 2 ^ 53)
    (hk : k ≤ 2 ^ 52) :
    (k : Int) ≤ (Duration.int d).toMillis (ofRatio false 60000 b) ↔
      (k : ℚ) - halfGap k ≤ d * (ofRatio false 60000 b).value := by
  have hfinite := rank_beat_lt hb hb'
  have hone := one_le_value_beat hb hb'
  have hdrift := abs_le.1 (abs_drift_le hb hb' hd)
  rw [Duration.toMillis_int hfinite (negative_ofRatio _ _ _) (by omega)]
  generalize ofRatio false 60000 b = beat at hfinite hone hdrift ⊢
  have hden := beat.denominator_pos
  have hdenQ : (0 : ℚ) < beat.denominator := by exact_mod_cast hden
  have hdQ : (1 : ℚ) ≤ d := by exact_mod_cast hd
  have hbQ : (1 : ℚ) ≤ b := by exact_mod_cast hb
  have hboundQ : (60000 : ℚ) * d < 2 ^ 53 := by exact_mod_cast hbound
  have hratio : ((d * beat.numerator : Nat) : ℚ) / beat.denominator = d * beat.value := by
    rw [value]
    push_cast
    ring
  have hquot : (60000 : ℚ) * d / b ≤ 60000 * d := div_le_self (by positivity) hbQ
  have hlarge : (d : ℚ) * beat.value < 2 ^ 54 := by
    have hsplit : (d : ℚ) * beat.value =
        60000 * d / b + d * (beat.value - 60000 / b) := by ring
    linarith
  have hlow : beat.denominator ≤ d * beat.numerator := by
    have hprod : 1 ≤ (d : ℚ) * beat.value := one_le_mul_of_one_le_of_one_le hdQ hone
    rw [← hratio, le_div_iff₀ hdenQ, one_mul] at hprod
    exact_mod_cast hprod
  have hhigh : d * beat.numerator < beat.denominator * 2 ^ 64 := by
    have hprod : (d : ℚ) * beat.value < 2 ^ 64 := by linarith
    rw [← hratio, div_lt_iff₀ hdenQ, mul_comm ((2 : ℚ) ^ 64)] at hprod
    exact_mod_cast hprod
  rw [le_toWord_iff, le_value_iff false hden hlow hhigh hk, hratio]
  · rw [rank_ofRatio]
    exact (rankOfRatio_eq hden hlow hhigh).2
  · exact negative_ofRatio _ _ _
  · have hnear := abs_le.1 (abs_value_sub_le false hden hlow hhigh)
    rw [hratio] at hnear
    linarith

/-- A beat is not rounded when the tempo divides a minute. -/
theorem value_beat_of_dvd
    (hb : 1 ≤ b)
    (hdvd : b ∣ 60000) :
    (ofRatio false 60000 b).value = 60000 / b := by
  obtain ⟨c, hc⟩ := hdvd
  have hexact : ofRatio false 60000 b = ofRatio false c 1 :=
    ofRatio_congr false hb Nat.one_pos (by rw [hc]; ring)
  have hle : c ≤ b * c := Nat.le_mul_of_pos_left c hb
  have hbQ : (b : ℚ) ≠ 0 := by exact_mod_cast (show b ≠ 0 by omega)
  have hcQ : (60000 : ℚ) = b * c := by exact_mod_cast hc
  rw [hexact, value_ofRatio_one false (by omega), hcQ]
  field_simp

theorem toMillis_of_dvd
    (hb : 1 ≤ b)
    (hdvd : b ∣ 60000)
    (hbound : 60000 * d < 2 ^ 53) :
    (Duration.int d).toMillis (ofRatio false 60000 b) = (60000 * d / b : Nat) := by
  have hvalue := value_beat_of_dvd hb hdvd
  have hfinite := rank_beat_lt hb (Nat.le_of_dvd (by decide) hdvd)
  obtain ⟨c, hc⟩ := hdvd
  have hbQ : (b : ℚ) ≠ 0 := by exact_mod_cast (show b ≠ 0 by omega)
  have hcQ : (60000 : ℚ) = b * c := by exact_mod_cast hc
  have hnum := (numerator_eq_iff (ofRatio false 60000 b) c).2 (by
    rw [hvalue, hcQ]
    field_simp)
  have hquot : 60000 * d / b = d * c := by
    rw [hc, Nat.mul_assoc, Nat.mul_div_cancel_left _ hb, Nat.mul_comm]
  have hsmall : d * c < 2 ^ 53 := by
    rw [← hquot]
    exact Nat.lt_of_le_of_lt (Nat.div_le_self _ _) hbound
  have hratio := ofRatio_congr false (ofRatio false 60000 b).denominator_pos Nat.one_pos
    (show d * (ofRatio false 60000 b).numerator * 1 =
      d * c * (ofRatio false 60000 b).denominator by rw [hnum]; ring)
  rw [Duration.toMillis_int hfinite (negative_ofRatio _ _ _) (by omega), hratio,
    toWord_ofRatio_one hsmall, hquot]

/-- The exact length is whole, and what a beat loses by rounding adds up, over `d` beats,
to more than the second rounding makes good. -/
def FallsShort (b d : Nat) (beat : ℚ) : Prop :=
  b ∣ 60000 * d ∧ halfGap (60000 * d / b) < d * (60000 / b - beat)

/-- The exact length misses the next whole millisecond by the least possible part, and the
two roundings make that up. -/
def Overshoots (b d : Nat) (beat : ℚ) : Prop :=
  b ∣ 60000 * d + 1 ∧
    1 / b ≤ d * (beat - 60000 / b) + halfGap ((60000 * d + 1) / b)

theorem quotient_eq
    (hb : 1 ≤ b)
    (n : Nat) :
    (n : ℚ) / b = (n / b : Nat) + (n % b : Nat) / b := by
  have hbQ : (b : ℚ) ≠ 0 := by exact_mod_cast (show b ≠ 0 by omega)
  have hsplit : ((b * (n / b) + n % b : Nat) : ℚ) = n := by
    exact_mod_cast Nat.div_add_mod n b
  rw [← hsplit]
  push_cast
  field_simp

section Crossing

variable (hb : 1 ≤ b) (hb' : b ≤ 60000) (hd : 0 < d)

include hb in
theorem drift_bound_lt (hbound : 60000 * d < 2 ^ 53) :
    (60000 : ℚ) * d / b / 2 ^ 53 < 1 / b := by
  have hbQ : (0 : ℚ) < b := by exact_mod_cast hb
  have hboundQ : (60000 : ℚ) * d < 2 ^ 53 := by exact_mod_cast hbound
  rw [div_right_comm]
  gcongr
  rw [div_lt_one (by positivity)]
  exact hboundQ

include hb hb' hd in
theorem halfGap_next_le :
    halfGap (60000 * d / b + 1) ≤ 60000 * d / b / 2 ^ 53 := by
  have hquot : 0 < 60000 * d / b := Nat.div_pos (by nlinarith) hb
  have hfloor : ((60000 * d / b : Nat) : ℚ) ≤ 60000 * d / b := by
    have hle := Nat.cast_div_le (α := ℚ) (m := 60000 * d) (n := b)
    exact_mod_cast hle
  calc
    _ ≤ ((60000 * d / b : Nat) : ℚ) / 2 ^ 53 := halfGap_succ_le hquot
    _ ≤ 60000 * d / b / 2 ^ 53 := by gcongr

include hb hb' hd in
/-- The exact quotient is reached unless the beats fall short. -/
theorem quotient_le_toMillis_iff
    (hbound : 60000 * d < 2 ^ 53)
    (hsmall : 60000 * d / b ≤ 2 ^ 52) :
    ((60000 * d / b : Nat) : Int) ≤ (Duration.int d).toMillis (ofRatio false 60000 b) ↔
      ¬ FallsShort b d (ofRatio false 60000 b).value := by
  have hdrift := abs_le.1 (abs_drift_le hb hb' hd)
  have hless := drift_bound_lt hb hbound
  have hsplit := quotient_eq hb (60000 * d)
  have hgap := halfGap_pos (60000 * d / b)
  have hbQ : (0 : ℚ) < b := by exact_mod_cast hb
  push_cast at hsplit
  rw [le_toMillis_iff hb hb' hd hbound hsmall]
  generalize (ofRatio false 60000 b).value = beat at hdrift ⊢
  have hlength : (d : ℚ) * beat = 60000 * d / b + d * (beat - 60000 / b) := by ring
  have hflip : (d : ℚ) * (60000 / b - beat) = -(d * (beat - 60000 / b)) := by ring
  unfold FallsShort
  rw [hlength, hflip, not_and, not_lt]
  by_cases hdvd : b ∣ 60000 * d
  · -- the exact length is whole: the two roundings decide
    rw [Nat.mod_eq_zero_of_dvd hdvd, Nat.cast_zero, zero_div, add_zero] at hsplit
    simp only [hdvd, forall_const]
    constructor <;> intro h <;> linarith
  · have hrem : 1 ≤ 60000 * d % b := Nat.one_le_iff_ne_zero.2 (mt Nat.dvd_of_mod_eq_zero hdvd)
    have hremQ : (1 : ℚ) / b ≤ (60000 * d % b : Nat) / b := by
      gcongr
      exact_mod_cast hrem
    simp only [hdvd, false_implies, iff_true]
    linarith

include hb hb' hd in
/-- The next whole millisecond is reached when the beats overshoot. -/
theorem quotient_lt_toMillis_iff
    (hbound : 60000 * d < 2 ^ 53)
    (hsmall : 60000 * d / b + 1 ≤ 2 ^ 52) :
    ((60000 * d / b : Nat) : Int) + 1 ≤ (Duration.int d).toMillis (ofRatio false 60000 b) ↔
      Overshoots b d (ofRatio false 60000 b).value := by
  have hdrift := abs_le.1 (abs_drift_le hb hb' hd)
  have hless := drift_bound_lt hb hbound
  have hgap := halfGap_next_le hb hb' hd
  have hsplit := quotient_eq hb (60000 * d)
  have hbQ : (0 : ℚ) < b := by exact_mod_cast hb
  have hrem := Nat.mod_lt (60000 * d) hb
  have hdiv := Nat.div_add_mod (60000 * d) b
  push_cast at hsplit
  rw [← Nat.cast_add_one, le_toMillis_iff hb hb' hd hbound hsmall]
  generalize (ofRatio false 60000 b).value = beat at hdrift ⊢
  have hlength : (d : ℚ) * beat = 60000 * d / b + d * (beat - 60000 / b) := by ring
  unfold Overshoots
  rw [hlength]
  by_cases hdvd : b ∣ 60000 * d + 1
  · -- the exact length is the least part short: the two roundings decide
    have hlast : 60000 * d % b + 1 = b := by
      have hdvd' : b ∣ 60000 * d % b + 1 := by
        rw [← hdiv, Nat.add_assoc] at hdvd
        exact (Nat.dvd_add_right (Nat.dvd_mul_right _ _)).1 hdvd
      exact Nat.le_antisymm hrem (Nat.le_of_dvd (Nat.succ_pos _) hdvd')
    have hnext : (60000 * d + 1) / b = 60000 * d / b + 1 := Nat.succ_div_of_dvd hdvd
    have hlastQ : ((60000 * d % b : Nat) : ℚ) / b = 1 - 1 / b := by
      have hcast : ((60000 * d % b : Nat) : ℚ) = b - 1 := by
        rw [eq_sub_iff_add_eq]
        exact_mod_cast hlast
      rw [hcast]
      field_simp
    simp only [hdvd, true_and]
    rw [hnext]
    constructor <;> intro h <;> push_cast at h ⊢ <;> linarith
  · have hlast : 60000 * d % b + 2 ≤ b := by
      by_contra hover
      apply hdvd
      rw [← hdiv, Nat.add_assoc, show 60000 * d % b + 1 = b by omega]
      exact ⟨60000 * d / b + 1, by ring⟩
    have hlastQ : ((60000 * d % b : Nat) : ℚ) / b ≤ 1 - 2 / b := by
      have hcast : ((60000 * d % b : Nat) : ℚ) + 2 ≤ b := by exact_mod_cast hlast
      rw [div_le_iff₀ hbQ, sub_mul, div_mul_cancel₀ _ hbQ.ne']
      linarith
    have htwo : (2 : ℚ) / b = 1 / b + 1 / b := by ring
    simp only [hdvd, false_and, iff_false]
    push_cast
    linarith

include hb hb' hd in
/-- Only the exact quotient and its two neighbours are possible. -/
theorem toMillis_near
    (hbound : 60000 * d < 2 ^ 53)
    (hsmall : 60000 * d / b + 2 ≤ 2 ^ 52) :
    ((60000 * d / b : Nat) : Int) ≤ (Duration.int d).toMillis (ofRatio false 60000 b) + 1 ∧
      (Duration.int d).toMillis (ofRatio false 60000 b) ≤ (60000 * d / b : Nat) + 1 := by
  have hdrift := abs_le.1 (abs_drift_le hb hb' hd)
  have hless := drift_bound_lt hb hbound
  have hsplit := quotient_eq hb (60000 * d)
  have hpart : (1 : ℚ) / b ≤ 1 := by
    rw [div_le_one (by exact_mod_cast hb)]
    exact_mod_cast hb
  have hrem : ((60000 * d % b : Nat) : ℚ) / b + 1 / b ≤ 1 := by
    rw [← add_div, div_le_one (by exact_mod_cast hb)]
    exact_mod_cast Nat.mod_lt (60000 * d) hb
  have hremPos : (0 : ℚ) ≤ ((60000 * d % b : Nat) : ℚ) / b := by positivity
  have hlength : ∀ beat : ℚ, (d : ℚ) * beat = 60000 * d / b + d * (beat - 60000 / b) := by
    intro beat
    ring
  push_cast at hsplit
  obtain ⟨q, hq⟩ : ∃ q, 60000 * d / b = q + 1 :=
    Nat.exists_eq_succ_of_ne_zero (Nat.div_pos (by nlinarith) hb).ne'
  rw [hq] at hsplit hsmall ⊢
  push_cast at hsplit
  constructor
  · have hlow := (le_toMillis_iff hb hb' hd hbound (k := q) (by omega)).2 (by
      have hgap := halfGap_pos q
      rw [hlength]
      linarith)
    push_cast
    omega
  · by_contra hover
    have hhigh := (le_toMillis_iff hb hb' hd hbound hsmall).1 (by push_cast at hover ⊢; omega)
    have hgap := halfGap_le_quarter hsmall
    rw [hlength] at hhigh
    push_cast at hhigh
    linarith

include hb hb' hd in
/-- The least part of a millisecond that beats can overshoot by takes a long time. -/
theorem le_of_overshoots (h : Overshoots b d (ofRatio false 60000 b).value) :
    2 ^ 52 ≤ 60000 * d := by
  obtain ⟨hdvd, hover⟩ := h
  have hdrift := abs_le.1 (abs_drift_le hb hb' hd)
  have hgap := halfGap_next_le hb hb' hd
  have hbQ : (0 : ℚ) < b := by exact_mod_cast hb
  have hnext : (60000 * d + 1) / b = 60000 * d / b + 1 := Nat.succ_div_of_dvd hdvd
  rw [hnext] at hover
  have hsum : (1 : ℚ) / b ≤ (60000 * d / 2 ^ 52) / b := by
    have hhalf : (60000 : ℚ) * d / 2 ^ 52 / b =
        60000 * d / b / 2 ^ 53 + 60000 * d / b / 2 ^ 53 := by
      ring
    linarith
  have hle := (div_le_div_iff_of_pos_right hbQ).1 hsum
  rw [le_div_iff₀ (by positivity), one_mul] at hle
  exact_mod_cast hle

end Crossing

/-- A beat that is not rounded never falls short. -/
theorem not_fallsShort_exact : ¬ FallsShort b d (60000 / b) := by
  rintro ⟨-, hshort⟩
  have hgap := halfGap_pos (60000 * d / b)
  rw [sub_self, mul_zero] at hshort
  linarith

/-- A beat that is not rounded never overshoots. -/
theorem not_overshoots_exact
    (hb : 1 ≤ b)
    (hb' : b ≤ 60000)
    (hbound : 60000 * d < 2 ^ 53) :
    ¬ Overshoots b d (60000 / b) := by
  rintro ⟨hdvd, hover⟩
  rw [sub_self, mul_zero, zero_add] at hover
  rcases Nat.eq_zero_or_pos d with rfl | hd
  · have hone : b = 1 := Nat.dvd_one.1 hdvd
    subst hone
    norm_num [halfGap] at hover
  · have hnext : (60000 * d + 1) / b = 60000 * d / b + 1 := Nat.succ_div_of_dvd hdvd
    have hgap := halfGap_next_le hb hb' hd
    have hless := drift_bound_lt hb hbound
    rw [hnext] at hover
    linarith

/-- The three possible lengths of `d` beats. -/
theorem toMillis_beats
    (hb : 1 ≤ b)
    (hb' : b ≤ 60000)
    (hbound : 60000 * d < 2 ^ 53) :
    let beat := ofRatio false 60000 b
    let quotient : Int := (60000 * d / b : Nat)
    (FallsShort b d beat.value → (Duration.int d).toMillis beat = quotient - 1) ∧
      (Overshoots b d beat.value → (Duration.int d).toMillis beat = quotient + 1 ∧
        2 ^ 52 ≤ 60000 * d) ∧
      (¬ FallsShort b d beat.value → ¬ Overshoots b d beat.value →
        (Duration.int d).toMillis beat = quotient) := by
  intro beat quotient
  by_cases hdvd : b ∣ 60000
  · have hshort := not_fallsShort_exact (b := b) (d := d)
    have hover := not_overshoots_exact hb hb' hbound
    rw [← value_beat_of_dvd hb hdvd] at hshort hover
    exact ⟨fun h => absurd h hshort, fun h => absurd h hover,
      fun _ _ => toMillis_of_dvd hb hdvd hbound⟩
  · have hseven : 7 ≤ b := by
      by_contra hsmall
      apply hdvd
      interval_cases b <;> decide
    have hsmall : 60000 * d / b + 2 ≤ 2 ^ 52 := by
      have hle : 60000 * d / b ≤ 60000 * d / 7 := Nat.div_le_div_left hseven (by decide)
      omega
    rcases Nat.eq_zero_or_pos d with rfl | hd
    · have hnone : quotient = 0 := by
        show ((60000 * 0 / b : Nat) : Int) = 0
        simp
      refine ⟨?_, ?_, fun _ _ => (Duration.toMillis_zero beat).trans hnone.symm⟩
      · rintro ⟨-, hshort⟩
        have hgap := halfGap_pos (60000 * 0 / b)
        rw [Nat.cast_zero, zero_mul] at hshort
        linarith
      · rintro ⟨hone, -⟩
        have := Nat.le_of_dvd Nat.one_pos hone
        omega
    · have hreach : quotient ≤ (Duration.int d).toMillis beat ↔ ¬ FallsShort b d beat.value :=
        quotient_le_toMillis_iff hb hb' hd hbound (by omega)
      have hnext : quotient + 1 ≤ (Duration.int d).toMillis beat ↔ Overshoots b d beat.value :=
        quotient_lt_toMillis_iff hb hb' hd hbound (by omega)
      have hnear : quotient ≤ (Duration.int d).toMillis beat + 1 ∧
          (Duration.int d).toMillis beat ≤ quotient + 1 :=
        toMillis_near hb hb' hd hbound hsmall
      refine ⟨fun h => ?_, fun h => ⟨?_, le_of_overshoots hb hb' hd h⟩, fun h h' => ?_⟩
      · have := mt hreach.1 (not_not.2 h)
        omega
      · have := hnext.2 h
        omega
      · have := hreach.2 h
        have := mt hnext.1 h'
        omega

/-- The milliseconds of `d` beats at `b` beats per minute.  They are the exact quotient,
rounded down, except that beats which fall short give one millisecond less and beats which
overshoot one more.  A tempo whose beat is not rounded is exact, and every divisor of 60000
is such a tempo.  The beats of one minute last a minute unless they fall short. -/
theorem toMillis_wholeBeats
    (s : Store)
    (hb : 1 ≤ b)
    (hb' : b ≤ 60000)
    (hbound : 60000 * d < 2 ^ 53) :
    let unit := (s.setTempo b).unit
    let quotient : Int := (60000 * d / b : Nat)
    (FallsShort b d unit.value → (Duration.int d).toMillis unit = quotient - 1) ∧
      (Overshoots b d unit.value → (Duration.int d).toMillis unit = quotient + 1 ∧
        2 ^ 52 ≤ 60000 * d) ∧
      (¬ FallsShort b d unit.value → ¬ Overshoots b d unit.value →
        (Duration.int d).toMillis unit = quotient) ∧
      (unit.value = 60000 / b → (Duration.int d).toMillis unit = quotient) ∧
      (b ∣ 60000 → unit.value = 60000 / b) ∧
      (FallsShort b b unit.value → (Duration.int b).toMillis unit = 59999) ∧
      (¬ FallsShort b b unit.value → (Duration.int b).toMillis unit = 60000) := by
  intro unit quotient
  have hunit : unit = ofRatio false 60000 b := s.unit_setTempo hb hb'
  obtain ⟨hshort, hover, hexact⟩ := toMillis_beats hb hb' hbound
  obtain ⟨hshortMinute, hoverMinute, hexactMinute⟩ :=
    toMillis_beats hb hb' (show 60000 * b < 2 ^ 53 by omega)
  have hminute : 60000 * b / b = 60000 := Nat.mul_div_cancel _ hb
  rw [hminute] at hshortMinute hexactMinute
  rw [hunit]
  refine ⟨hshort, hover, hexact, fun hvalue => ?_, fun hdvd => value_beat_of_dvd hb hdvd,
    hshortMinute, fun h => hexactMinute h fun h' => ?_⟩
  · apply hexact <;> rw [hvalue]
    · exact not_fallsShort_exact
    · exact not_overshoots_exact hb hb' hbound
  · have := (hoverMinute h').2
    omega

/-- Seven beats at seven beats per minute fall short, three at 120 do not, and eleven
years of beats at 14563 per minute overshoot. -/
theorem toMillis_wholeBeats_minute :
    let tempo := fun b : Nat => ((Store.new "/" []).setTempo b).unit
    FallsShort 7 7 (tempo 7).value ∧
      (Duration.int 7).toMillis (tempo 7) = 59999 ∧
      (Duration.int 3).toMillis (tempo 120) = 1500 ∧
      Overshoots 14563 87364947578 (tempo 14563).value ∧
      (Duration.int 87364947578).toMillis (tempo 14563) = 359946223627 := by
  intro tempo
  have hshort : FallsShort 7 7 (tempo 7).value := ⟨by decide, by decide +kernel⟩
  have hover : Overshoots 14563 87364947578 (tempo 14563).value :=
    ⟨by decide, by decide +kernel⟩
  obtain ⟨-, -, -, -, -, hminute, -⟩ := toMillis_wholeBeats (Store.new "/" [])
    (b := 7) (d := 7) (by decide) (by decide) (by decide)
  obtain ⟨-, -, -, hexact, hdvd, -, -⟩ := toMillis_wholeBeats (Store.new "/" [])
    (b := 120) (d := 3) (by decide) (by decide) (by decide)
  obtain ⟨-, hnext, -⟩ := toMillis_wholeBeats (Store.new "/" [])
    (b := 14563) (d := 87364947578) (by decide) (by decide) (by decide)
  exact ⟨hshort, hminute hshort, hexact (hdvd (by decide)), hover, (hnext hover).1⟩

/-- Whole beats do not always last the exact quotient, rounded down: seven of them at seven
beats per minute last one millisecond less than a minute. -/
theorem wholeBeats_inexact :
    ¬ ∀ (s : Store) (b d : Nat), 1 ≤ b → b ≤ 60000 → 60000 * d < 2 ^ 53 →
      (Duration.int d).toMillis (s.setTempo b).unit = (60000 * d / b : Nat) := by
  intro hexact
  have hminute := hexact (Store.new "/" []) 7 7 (by decide) (by decide) (by decide)
  revert hminute
  decide +kernel

end Tempo

end SpeechMarkup
