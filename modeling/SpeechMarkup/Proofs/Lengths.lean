import SpeechMarkup.Node
import SpeechMarkup.Proofs.DecimalText
import SpeechMarkup.Store

/-!
# Lengths in milliseconds

A length that is not negative stays so under every tempo, and a length of zero gives no
milliseconds, whatever the tempo is.
-/

namespace SpeechMarkup

namespace Binary64

section Sign

variable {x y : Binary64}

theorem negative_mul
    (hx : x.negative = false)
    (hy : y.negative = false) :
    (x * y).negative = false := by
  show (mul x y).negative = false
  unfold mul
  rw [hx, hy]
  dsimp only
  split
  · rfl
  · split
    · split <;> rfl
    · exact negative_ofRatio _ _ _

theorem negative_div
    (hx : x.negative = false)
    (hy : y.negative = false) :
    (x / y).negative = false := by
  show (div x y).negative = false
  unfold div
  rw [hx, hy]
  dsimp only
  split
  · rfl
  · split
    · split <;> rfl
    · split
      · rfl
      · split
        · split <;> rfl
        · exact negative_ofRatio _ _ _

theorem negative_ofInt
    {v : Int}
    (h : 0 ≤ v) :
    (ofInt v).negative = false := by
  unfold ofInt
  rw [negative_ofRatio]
  simpa using h

theorem toWord_nonneg (h : x.negative = false) : 0 ≤ x.toWord := by
  have hfloor : 0 ≤ x.floorFinite := by
    unfold floorFinite
    rw [h]
    exact Int.fdiv_nonneg (by simp) (by simp)
  unfold toWord
  rw [h]
  split
  · rfl
  · split
    · decide
    · rw [maxWord]
      omega

theorem toWord_of_rank_eq_zero (h : x.rank = 0) : x.toWord = 0 := by
  have hzero : x = zero x.negative := eq_of_negative_of_rank rfl h
  rw [hzero]
  cases x.negative <;> decide

/-- Zero times anything gives no whole part: the product is zero or no number. -/
theorem toWord_mul_of_rank_eq_zero
    (y : Binary64)
    (hx : x.rank = 0) :
    (x * y).toWord = 0 := by
  show (mul x y).toWord = 0
  have hnan : nan.toWord = 0 := by decide
  have hnumerator : x.numerator = 0 := by
    simp [numerator, significand, hx, significandStep]
  unfold mul
  dsimp only
  split
  · exact hnan
  · split
    · rw [hx]
      exact hnan
    · rw [hnumerator, Nat.zero_mul]
      apply toWord_of_rank_eq_zero
      rw [rank_ofRatio]
      rfl

end Sign

end Binary64

section Durations

/-- A length that is not negative. -/
def Duration.Nonneg : Duration → Prop
  | .int v => 0 ≤ v
  | .float x => x.negative = false

theorem Duration.toMillis_nonneg
    {d : Duration}
    {unit : Binary64}
    (hd : d.Nonneg)
    (hunit : unit.negative = false) :
    0 ≤ d.toMillis unit := by
  have hbeats : d.beats.negative = false := by
    cases d with
    | int v => exact Binary64.negative_ofInt hd
    | float x => exact hd
  exact Binary64.toWord_nonneg (Binary64.negative_mul hbeats hunit)

theorem Duration.toMillis_zero (unit : Binary64) :
    (Duration.int 0).toMillis unit = 0 :=
  Binary64.toWord_mul_of_rank_eq_zero unit (by decide)

theorem Store.negative_unit_setTempo
    (s : Store)
    {bpm : Int}
    (h : 0 ≤ bpm) :
    (s.setTempo bpm).unit.negative = false := by
  unfold Store.setTempo
  dsimp only
  split
  · decide
  · exact Binary64.negative_div (by decide) (Binary64.negative_ofInt h)

end Durations

end SpeechMarkup
