import SpeechMarkup.Binary64.Decimal
import SpeechMarkup.Proofs.Rounding

/-!
# Decimal text reads back

What `Binary64.render` writes for a finite number that is not negative is a run
of digits, a point and another run of digits, and reading these gives the number
again (`Binary64.render_toList`).  There are two forms to follow:

* the shortest decimal is one that was tested by reading it back, or the exact
  expansion; dropping its zeros keeps the value, and it has a point because the
  nearest number to a natural number has no fraction;
* a whole number is written exactly.
-/

namespace SpeechMarkup

section Digits

theorem digitsValue_toDigits (n : Nat) :
    digitsValue (Nat.toDigits 10 n) = n :=
  Nat.ofDigitChars_ten_toDigits

theorem digitsValue_append (xs ys : List Char) :
    digitsValue (xs ++ ys) = 10 ^ ys.length * digitsValue xs + digitsValue ys := by
  show Nat.ofDigitChars 10 (xs ++ ys) 0 =
    10 ^ ys.length * Nat.ofDigitChars 10 xs 0 + Nat.ofDigitChars 10 ys 0
  rw [Nat.ofDigitChars_append, Nat.ofDigitChars_eq_ofDigitChars_zero (l := ys)]

theorem digitsValue_replicate_zero (k : Nat) :
    digitsValue (List.replicate k '0') = 0 :=
  Nat.ofDigitChars_replicate_zero

end Digits

namespace Binary64

theorem rank_ofRatio
    (negative : Bool)
    (n d : Nat) :
    (ofRatio negative n d).rank = rankOfRatio n d := by
  have hle := rankOfRatio_le_infinityRank n d
  have hlt : rankOfRatio n d < 0x8000000000000000 :=
    Nat.lt_of_le_of_lt hle (by decide)
  simp [ofRatio, ofRank, hlt]

theorem negative_ofRatio
    (negative : Bool)
    (n d : Nat) :
    (ofRatio negative n d).negative = negative := by
  unfold ofRatio ofRank
  split <;> rfl

theorem eq_of_negative_of_rank
    {x y : Binary64}
    (hneg : x.negative = y.negative)
    (hrank : x.rank = y.rank) :
    x = y := by
  cases x
  cases y
  simp_all

theorem denominator_pos (x : Binary64) : 0 < x.denominator := by
  unfold denominator
  rw [Nat.shiftLeft_eq]
  positivity

end Binary64

namespace Decimal

theorem denominator_pos (d : Decimal) : 0 < d.denominator :=
  Nat.pow_pos (by decide)

/-- Decimals of one value are nearest to one double. -/
theorem nearest_congr
    {d e : Decimal}
    (h : d.numerator * e.denominator = e.numerator * d.denominator)
    (negative : Bool) :
    d.nearest negative = e.nearest negative := by
  unfold nearest Binary64.ofRatio
  rw [Binary64.rankOfRatio_congr d.denominator_pos e.denominator_pos h]

theorem nearest_drop_zero
    {d : Decimal}
    (h : d.digits % 10 = 0)
    (negative : Bool) :
    Decimal.nearest ⟨d.digits / 10, d.scale + 1⟩ negative = d.nearest negative := by
  apply nearest_congr
  obtain ⟨k, hk⟩ := Nat.dvd_of_mod_eq_zero h
  have hdiv : d.digits / 10 = k := by omega
  simp only [numerator, denominator, Nat.pow_eq]
  rw [hdiv, hk]
  rcases Int.lt_or_le d.scale 0 with hneg | hpos
  · have hup : d.scale.toNat = 0 := by omega
    have hup' : (d.scale + 1).toNat = 0 := by omega
    have hdown : (-d.scale).toNat = (-(d.scale + 1)).toNat + 1 := by omega
    rw [hup, hup', hdown, pow_succ]
    ring
  · have hdown : (-d.scale).toNat = 0 := by omega
    have hdown' : (-(d.scale + 1)).toNat = 0 := by omega
    have hup : (d.scale + 1).toNat = d.scale.toNat + 1 := by omega
    rw [hup, hdown, hdown', pow_succ]
    ring

/-- Dropping zeros at the end keeps the value. -/
theorem nearest_trim
    (d : Decimal)
    (fuel : Nat)
    (negative : Bool) :
    (d.trim fuel).nearest negative = d.nearest negative := by
  induction fuel generalizing d with
  | zero => rfl
  | succ fuel ih =>
      unfold trim
      split
      · rename_i hzero
        rw [ih, nearest_drop_zero hzero.2]
      · rfl

/-- The digits of a decimal with decimals: those before the point, and those behind. -/
theorem text_toList
    {d : Decimal}
    (hscale : d.scale < 0) :
    ∃ whole part,
      whole ≠ [] ∧ (∀ c ∈ whole, c.isDigit = true) ∧ (∀ c ∈ part, c.isDigit = true) ∧
      d.text.toList = whole ++ '.' :: part ∧
      Binary64.ofDigits whole part = d.nearest false := by
  have hplaces : (-d.scale).toNat ≠ 0 := by omega
  have hnum : d.numerator = d.digits := by
    have hup : d.scale.toNat = 0 := by omega
    simp [numerator, hup]
  have hden : d.denominator = 10 ^ (-d.scale).toNat := rfl
  have hlen : (Nat.toDigits 10 (d.numerator % d.denominator)).length ≤ (-d.scale).toNat := by
    rw [Nat.length_toDigits_le_iff (by decide) (Nat.pos_of_ne_zero hplaces), ← hden]
    exact Nat.mod_lt _ d.denominator_pos
  refine ⟨Nat.toDigits 10 (d.numerator / d.denominator),
    List.replicate ((-d.scale).toNat
        - (Nat.toDigits 10 (d.numerator % d.denominator)).length) '0'
      ++ Nat.toDigits 10 (d.numerator % d.denominator), Nat.toDigits_ne_nil, ?_, ?_, ?_, ?_⟩
  · intro c hc
    exact Nat.isDigit_of_mem_toDigits (by decide) (by decide) hc
  · intro c hc
    rcases List.mem_append.1 hc with hc | hc
    · rw [List.eq_of_mem_replicate hc]
      rfl
    · exact Nat.isDigit_of_mem_toDigits (by decide) (by decide) hc
  · simp [text, hplaces]
  · have hpart : ∀ part : List Char, part.length = (-d.scale).toNat →
        digitsValue part = d.numerator % d.denominator →
        Binary64.ofDigits (Nat.toDigits 10 (d.numerator / d.denominator)) part
          = d.nearest false := by
      intro part hlength hvalue
      have hdigits : digitsValue (Nat.toDigits 10 (d.numerator / d.denominator) ++ part)
          = d.digits := by
        rw [digitsValue_append, digitsValue_toDigits, hlength, hvalue, ← hden, ← hnum]
        exact Nat.div_add_mod _ _
      have hneg : -(part.length : Int) = d.scale := by omega
      unfold Binary64.ofDigits
      rw [hdigits, hneg]
    apply hpart
    · simp only [List.length_append, List.length_replicate]
      omega
    · rw [digitsValue_append, digitsValue_replicate_zero, digitsValue_toDigits]
      simp

end Decimal

namespace Binary64

theorem rank_nearest_expansion
    {x : Binary64}
    (hfin : x.rank < infinityRank)
    (negative : Bool) :
    (x.expansion.nearest negative).rank = x.rank := by
  rw [Decimal.nearest, rank_ofRatio, ← rankOfRatio_self hfin]
  apply rankOfRatio_congr (Decimal.denominator_pos _) x.denominator_pos
  simp only [expansion, Decimal.numerator, Decimal.denominator, denominator, Nat.pow_eq,
    Nat.shiftLeft_eq]
  rcases Int.lt_or_le x.exponent 0 with hneg | hpos
  · have hmin : min x.exponent 0 = x.exponent := by omega
    have hup : x.exponent.toNat = 0 := by omega
    have hten : (10 : Nat) ^ (-x.exponent).toNat
        = 5 ^ (-x.exponent).toNat * 2 ^ (-x.exponent).toNat := by
      rw [← mul_pow]
      rfl
    rw [hmin, hup, hten]
    ring
  · have hmin : min x.exponent 0 = 0 := by omega
    have hdown : (-x.exponent).toNat = 0 := by omega
    rw [hmin, hdown]
    simp

/-- Whatever the search returns reads back as the number it was started for. -/
theorem rank_nearest_search
    {x : Binary64}
    (hfin : x.rank < infinityRank)
    (count fuel : Nat) :
    ((x.search count fuel).nearest x.negative).rank = x.rank := by
  induction fuel generalizing count with
  | zero => exact rank_nearest_expansion hfin x.negative
  | succ fuel ih =>
      unfold search
      split
      · rename_i c rest hcand
        have hmem : c ∈ x.candidates count := by simp [hcand]
        unfold candidates at hmem
        simpa using (List.mem_filter.1 hmem).2
      · exact ih (count + 1)

theorem rank_nearest_shortest
    {x : Binary64}
    (hfin : x.rank < infinityRank) :
    (x.shortest.nearest x.negative).rank = x.rank := by
  unfold shortest
  split
  · rename_i hzero
    rw [hzero]
    rfl
  · rw [Decimal.nearest_trim]
    exact rank_nearest_search hfin 1 17

/-- A number with a fraction has no decimal without decimals. -/
theorem shortest_scale_neg
    {x : Binary64}
    (hfin : x.rank < infinityRank)
    (hfrac : x.isWhole = false) :
    x.shortest.scale < 0 := by
  by_contra hscale
  have hden : x.shortest.denominator = 1 := by
    have hdown : (-x.shortest.scale).toNat = 0 := by omega
    simp [Decimal.denominator, hdown]
  have hrank := rank_nearest_shortest hfin
  rw [Decimal.nearest, rank_ofRatio, hden] at hrank
  rw [isWhole_of_rank_eq hfin hrank.symm] at hfrac
  cases hfrac

theorem sign_of_nonneg
    {x : Binary64}
    (hneg : x.negative = false) :
    x.sign = "" := by
  simp [sign, hneg]

theorem ofDigits_exactTenth
    {x : Binary64}
    (hfin : x.rank < infinityRank)
    (hneg : x.negative = false)
    (hwhole : x.numerator % x.denominator = 0) :
    ofDigits (Nat.toDigits 10 (x.numerator / x.denominator)) ['0'] = x := by
  have hdigits : digitsValue (Nat.toDigits 10 (x.numerator / x.denominator) ++ ['0'])
      = 10 * (x.numerator / x.denominator) := by
    rw [digitsValue_append, digitsValue_toDigits]
    rfl
  apply eq_of_negative_of_rank
  · rw [hneg]
    exact negative_ofRatio _ _ _
  · unfold ofDigits
    rw [hdigits, Decimal.nearest, rank_ofRatio, ← rankOfRatio_self hfin]
    apply rankOfRatio_congr (Decimal.denominator_pos _) x.denominator_pos
    have hdiv := Nat.div_mul_cancel (Nat.dvd_of_mod_eq_zero hwhole)
    show 10 * (x.numerator / x.denominator) * 1 * x.denominator = x.numerator * 10
    rw [Nat.mul_one, Nat.mul_assoc, hdiv, Nat.mul_comm]

/-- The text of a finite number that is not negative: digits, a point and digits,
which read back as the number. -/
theorem render_toList
    {x : Binary64}
    (hfin : x.rank < infinityRank)
    (hneg : x.negative = false) :
    ∃ whole part,
      whole ≠ [] ∧ (∀ c ∈ whole, c.isDigit = true) ∧ (∀ c ∈ part, c.isDigit = true) ∧
      x.render.toList = whole ++ '.' :: part ∧ ofDigits whole part = x := by
  unfold render
  by_cases hwhole : x.isWhole = true
  · rw [if_pos hwhole]
    have hmod : x.numerator % x.denominator = 0 := by
      simpa [isWhole, hfin] using hwhole
    refine ⟨Nat.toDigits 10 (x.numerator / x.denominator), ['0'], Nat.toDigits_ne_nil,
      ?_, ?_, ?_, ofDigits_exactTenth hfin hneg hmod⟩
    · intro c hc
      exact Nat.isDigit_of_mem_toDigits (by decide) (by decide) hc
    · intro c hc
      rw [List.mem_singleton.1 hc]
      rfl
    · simp [exactTenth, sign_of_nonneg hneg]
  · rw [if_neg hwhole]
    have hfrac : x.isWhole = false := by simpa using hwhole
    obtain ⟨whole, part, hne, hdigits, hdigits', htext, hvalue⟩ :=
      Decimal.text_toList (shortest_scale_neg hfin hfrac)
    have hplain : x.plain = x.shortest.text := by
      have hnan : x.isNaN = false := by
        simp only [isNaN, decide_eq_false_iff_not]
        omega
      have hinf : x.isInfinite = false := by
        simp only [isInfinite, decide_eq_false_iff_not]
        omega
      simp [plain, hnan, hinf, sign_of_nonneg hneg]
    refine ⟨whole, part, hne, hdigits, hdigits', by rw [hplain, htext], ?_⟩
    rw [hvalue]
    apply eq_of_negative_of_rank
    · rw [hneg]
      exact negative_ofRatio _ _ _
    · have hrank := rank_nearest_shortest hfin
      rwa [hneg] at hrank

/-- An infinite number is written as a word. -/
theorem render_infinity
    {x : Binary64}
    (hinf : x.rank = infinityRank)
    (hneg : x.negative = false) :
    x.render = "inf" := by
  have hwhole : x.isWhole = false := by simp [isWhole, hinf]
  have hnan : x.isNaN = false := by simp [isNaN, hinf]
  have hinf' : x.isInfinite = true := by simp [isInfinite, hinf]
  simp [render, plain, hwhole, hnan, hinf', sign_of_nonneg hneg]

end Binary64

end SpeechMarkup
