import SpeechMarkup.Proofs.Placement

/-!
# Scanning in several calls

The scanner stops at a fault, and can be called again from where it stopped.  Each call reads a
further part of the text, and gives what the rest of the text gives by itself, at places that
are counted from the place reached.

* `Position.shift` counts the places of a text from another place than its start, and
  `Scan.tokens_shift` says that the scanner does not see the difference.
* `Cursor.Passes` says what lies between two cursors.  A call of the scanner passes over what it
  reads (`Scan.tokens_passes`), and over all of it if it succeeds (`Scan.rest_of_tokens_ok`).
* `Scan.resumed` is the cursor after some calls, and `Scan.exists_success` bounds the number of
  calls that fail.
* `Scan.tokens_resumable` is the main result.
-/

namespace SpeechMarkup

namespace Position

section Shift

/-- The place `p` of a text, counted from `base` as the place of its first code point. -/
def shift (base p : Position) : Position where
  file := base.file
  index := base.index + p.index
  line := base.line + p.line
  column := if p.line = 0 then base.column + p.column else p.column

@[simp] theorem shift_start (base : Position) (file : String) :
    base.shift (start file) = base := rfl

theorem advance_shift (base p : Position) (c : Char) :
    (base.shift p).advance c = base.shift (p.advance c) := by
  unfold advance shift
  split
  · simp [Nat.add_assoc]
  · dsimp only
    split
    · simp [Nat.add_assoc]
    · simp [Nat.add_assoc]

theorem after_shift (base p : Position) (cs : List Char) :
    (base.shift p).after cs = base.shift (p.after cs) := by
  induction cs generalizing p with
  | nil => rfl
  | cons c cs ih => rw [after_cons, after_cons, advance_shift, ih]

end Shift

end Position

/-- The second cursor has passed over `read`. -/
structure Cursor.Passes (c : Cursor) (read : List Char) (c' : Cursor) : Prop where
  rest : read ++ c'.rest = c.rest
  pos : c'.pos = c.pos.after read

theorem Cursor.Passes.trans
    {c c' c'' : Cursor}
    {read more : List Char}
    (h : c.Passes read c')
    (h' : c'.Passes more c'') :
    c.Passes (read ++ more) c'' := by
  refine ⟨?_, ?_⟩
  · rw [List.append_assoc, h'.rest, h.rest]
  · rw [h'.pos, h.pos, Position.after_append]

namespace Scan

section Places

/-- What the scanner gives, with its places counted from `base`. -/
def shifted (base : Position) :
    Except (Located LexFault) (List Token) → Except (Located LexFault) (List Token)
  | .ok ts => .ok (ts.map fun t => ⟨t.kind, base.shift t.pos⟩)
  | .error e => .error ⟨base.shift e.pos, e.value⟩

theorem shifted_map_cons
    (base : Position)
    (t : Token)
    (result : Except (Located LexFault) (List Token)) :
    shifted base (result.map (t :: ·)) =
      (shifted base result).map (⟨t.kind, base.shift t.pos⟩ :: ·) := by
  cases result <;> rfl

/-- The scanner gives the same from every place, counted from there. -/
theorem tokens_shift
    (base p : Position)
    (cs : List Char) :
    (tokens ⟨cs, base.shift p⟩).1 = shifted base (tokens ⟨cs, p⟩).1 := by
  induction cs using scanInduction generalizing p with
  | nil =>
      rw [tokens_nil, tokens_nil]
      rfl
  | cons c cs ih =>
      rw [tokens_cons, tokens_cons]
      cases hstep : step c cs with
      | skip gap rest =>
          rw [hstep] at ih
          dsimp only
          rw [Position.after_shift]
          exact ih (p.after gap)
      | token kind lexeme gap rest =>
          rw [hstep] at ih
          dsimp only
          rw [Position.after_shift, Position.after_shift, shifted_map_cons]
          exact congrArg (Except.map _) (ih ((p.after lexeme).after gap))
      | fault before cause read rest =>
          dsimp only
          rw [Position.after_shift]
          rfl

end Places

section Calls

/-- The code points that a step reads. -/
def Step.read : Step → List Char
  | skip gap _ => gap
  | token _ lexeme gap _ => lexeme ++ gap
  | fault _ _ read _ => read

theorem wholeNumber_read (literal rest : List Char) :
    (wholeNumber literal rest).read = literal := by
  unfold wholeNumber
  split
  · simp [Step.read]
  · rfl

theorem malformed_read_append
    (pointed : Bool)
    (literal : List Char)
    (c : Char)
    (cs : List Char) :
    (malformed pointed literal c cs).read ++ (malformed pointed literal c cs).rest =
      literal ++ c :: cs := by
  unfold malformed
  split
  · simp [Step.read, Step.rest]
  · rename_i w hword
    simp [Step.read, Step.rest, ← word_append hword]

theorem number_read_append (cs : List Char) :
    (number cs).read ++ (number cs).rest = cs := by
  rcases number_cases cs with
    ⟨literal, rest, hcs, hnumber⟩ | ⟨value, literal, rest, hcs, hnumber⟩ |
    ⟨pointed, literal, c, rest, hcs, hnumber⟩
  · rw [hnumber, wholeNumber_read, wholeNumber_rest, hcs]
  · simpa [hnumber, Step.read, Step.rest] using hcs
  · rw [hnumber, malformed_read_append, hcs]

/-- What a step reads and what it leaves make up the text, also at a fault. -/
theorem step_read_append (c : Char) (cs : List Char) :
    (step c cs).read ++ (step c cs).rest = c :: cs := by
  unfold step
  split
  · rfl
  · split
    · rfl
    · split
      · exact number_read_append (c :: cs)
      · split
        · simp [Step.read, Step.rest]
        · rename_i w hword
          have hsplit := word_append hword
          split
          · rename_i hempty
            have htext : w.text = [] := by simpa using hempty
            rwa [htext, List.nil_append] at hsplit
          · exact hsplit

theorem step_read_ne_nil (c : Char) (cs : List Char) :
    (step c cs).read ≠ [] := by
  intro hread
  have hle := step_rest_length_le c cs
  have hsplit := step_read_append c cs
  rw [hread, List.nil_append] at hsplit
  rw [hsplit, List.length_cons] at hle
  omega

/-- Where a call stops: behind its first fault, or where the call for what is left stops. -/
theorem tokens_cons_snd (c : Char) (cs : List Char) (pos : Position) :
    (tokens ⟨c :: cs, pos⟩).2 =
      match step c cs with
      | .fault _ _ read rest => ⟨rest, pos.after read⟩
      | found => (tokens ⟨found.rest, pos.after found.read⟩).2 := by
  rw [tokens_cons]
  cases step c cs with
  | skip gap rest => rfl
  | token kind lexeme gap rest =>
      dsimp only [Step.rest, Step.read]
      rw [Position.after_append]
  | fault before cause read rest => rfl

/-- A call passes over what it reads, and reads something unless nothing is left. -/
theorem tokens_passes (cs : List Char) (pos : Position) :
    ∃ read, (⟨cs, pos⟩ : Cursor).Passes read (tokens ⟨cs, pos⟩).2 ∧ (cs ≠ [] → read ≠ []) := by
  induction cs using scanInduction generalizing pos with
  | nil =>
      rw [tokens_nil]
      exact ⟨[], ⟨rfl, rfl⟩, fun hne => absurd rfl hne⟩
  | cons c cs ih =>
      have hpasses : (⟨c :: cs, pos⟩ : Cursor).Passes (step c cs).read
          ⟨(step c cs).rest, pos.after (step c cs).read⟩ := ⟨step_read_append c cs, rfl⟩
      have hread := step_read_ne_nil c cs
      obtain ⟨more, hmore, -⟩ := ih (pos.after (step c cs).read)
      have hboth := hpasses.trans hmore
      rw [tokens_cons_snd]
      cases hstep : step c cs with
      | fault before cause read rest =>
          rw [hstep] at hpasses hread
          exact ⟨read, hpasses, fun _ => hread⟩
      | skip gap rest =>
          rw [hstep] at hboth hread
          exact ⟨gap ++ more, hboth, fun _ => List.append_ne_nil_of_left_ne_nil hread more⟩
      | token kind lexeme gap rest =>
          rw [hstep] at hboth hread
          exact ⟨lexeme ++ gap ++ more, hboth,
            fun _ => List.append_ne_nil_of_left_ne_nil hread more⟩

/-- A call that succeeds leaves nothing. -/
theorem rest_of_tokens_ok
    {cs : List Char}
    {pos : Position}
    {ts : List Token}
    (h : (tokens ⟨cs, pos⟩).1 = .ok ts) :
    (tokens ⟨cs, pos⟩).2.rest = [] := by
  induction cs using scanInduction generalizing pos ts with
  | nil => rw [tokens_nil]
  | cons c cs ih =>
      rw [tokens_cons] at h ⊢
      cases hstep : step c cs with
      | skip gap rest =>
          rw [hstep] at h ih
          exact ih h
      | token kind lexeme gap rest =>
          rw [hstep] at h ih
          cases hmore : (tokens ⟨rest, (pos.after lexeme).after gap⟩).1 with
          | ok more => exact ih hmore
          | error e =>
              dsimp only at h
              rw [hmore] at h
              cases h
      | fault before cause read rest =>
          rw [hstep] at h
          cases h

end Calls

section Resuming

/-- Where a call from the cursor stops. -/
def stop (c : Cursor) : Cursor :=
  (tokens c).2

/-- The cursor after so many calls on one text, whether they failed or not. -/
def resumed (text file : String) (calls : Nat) : Cursor :=
  stop^[calls] (Cursor.ofText text file)

theorem resumed_succ (text file : String) (calls : Nat) :
    resumed text file (calls + 1) = stop (resumed text file calls) :=
  Function.iterate_succ_apply' stop calls _

theorem ne_nil_of_tokens_error
    {cs : List Char}
    {pos : Position}
    {e : Located LexFault}
    (h : (tokens ⟨cs, pos⟩).1 = .error e) :
    cs ≠ [] := by
  rintro rfl
  rw [tokens_nil] at h
  cases h

/-- A call that fails has read something. -/
theorem passes_of_tokens_error
    {c : Cursor}
    {e : Located LexFault}
    (h : (tokens c).1 = .error e) :
    ∃ read, read ≠ [] ∧ c.Passes read (stop c) := by
  obtain ⟨read, hpasses, hread⟩ := tokens_passes c.rest c.pos
  exact ⟨read, hread (ne_nil_of_tokens_error h), hpasses⟩

/-- Not more calls fail than there are code points left, and then one succeeds. -/
theorem exists_success (c : Cursor) :
    ∃ k ≤ c.rest.length, (∀ i < k, ∃ e, (tokens (stop^[i] c)).1 = .error e) ∧
      ∃ ts, (tokens (stop^[k] c)).1 = .ok ts := by
  induction hn : c.rest.length using Nat.strong_induction_on generalizing c with
  | _ n ih =>
      cases hc : (tokens c).1 with
      | ok ts => exact ⟨0, Nat.zero_le _, by simp, ts, hc⟩
      | error e =>
          obtain ⟨read, hread, hpasses⟩ := passes_of_tokens_error hc
          have hlength := congrArg List.length hpasses.rest
          have hpos := List.length_pos_iff.2 hread
          rw [List.length_append] at hlength
          obtain ⟨k, hk, hfail, hsuccess⟩ := ih (stop c).rest.length (by omega) (stop c) rfl
          refine ⟨k + 1, by omega, ?_, hsuccess⟩
          rintro (_ | i) hi
          · exact ⟨e, hc⟩
          · exact hfail i (by omega)

/-- What was read before a call and what is left make up the text. -/
theorem passes_resumed (text file : String) (calls : Nat) :
    ∃ before, (Cursor.ofText text file).Passes before (resumed text file calls) := by
  induction calls with
  | zero => exact ⟨[], rfl, rfl⟩
  | succ calls ih =>
      obtain ⟨before, hbefore⟩ := ih
      obtain ⟨read, hread, -⟩ :=
        tokens_passes (resumed text file calls).rest (resumed text file calls).pos
      rw [resumed_succ]
      exact ⟨before ++ read, hbefore.trans hread⟩

/-- A cursor behind which nothing is left stands at the end of the text. -/
theorem resumed_of_rest
    {text file : String}
    {calls : Nat}
    (h : (resumed text file calls).rest = []) :
    resumed text file calls = ⟨[], Layout.place file text.toList⟩ := by
  obtain ⟨before, hrest, hpos⟩ := passes_resumed text file calls
  rw [h, List.append_nil] at hrest
  rw [hrest, Cursor.ofText, Layout.after_start] at hpos
  rw [← h, ← hpos]

theorem stop_of_end (pos : Position) : stop ⟨[], pos⟩ = ⟨[], pos⟩ := by
  rw [stop, tokens_nil]

/--
The scanner can be called again and again on one text, and gets to its end.  At every call the
text is made up of what was read before and what is left.  A call that fails reads at least one
code point.  Each call gives what the rest of the text gives by itself, with every place counted
from the place of the cursor.  At most as many calls fail as the text has code points; then one
succeeds and leaves the cursor at the end of the text, where every further call finds nothing but
the end.
-/
theorem tokens_resumable (text file : String) :
    (∀ calls, ∃ before,
      before ++ (resumed text file calls).rest = text.toList ∧
      (resumed text file calls).pos = Layout.place file before ∧
      (∀ e, (tokens (resumed text file calls)).1 = .error e →
        ∃ read, read ≠ [] ∧
          (resumed text file calls).Passes read (resumed text file (calls + 1))) ∧
      ∀ name, (tokens (resumed text file calls)).1 =
        shifted (resumed text file calls).pos
          (Token.ofText (String.ofList (resumed text file calls).rest) name)) ∧
    ∃ k ≤ text.length,
      (∀ i < k, ∃ e, (tokens (resumed text file i)).1 = .error e) ∧
      (∃ ts, (tokens (resumed text file k)).1 = .ok ts) ∧
      ∀ m > k,
        resumed text file m = ⟨[], Layout.place file text.toList⟩ ∧
        (tokens (resumed text file m)).1 =
          .ok [⟨.eof, Layout.place file text.toList⟩] := by
  constructor
  · intro calls
    obtain ⟨before, hrest, hpos⟩ := passes_resumed text file calls
    refine ⟨before, hrest, ?_, ?_, ?_⟩
    · rw [hpos, Cursor.ofText, Layout.after_start]
    · intro e he
      rw [resumed_succ]
      exact passes_of_tokens_error he
    · intro name
      rw [Token.ofText, Cursor.ofText, String.toList_ofList, ← tokens_shift, Position.shift_start]
  · obtain ⟨k, hk, hfail, ts, hts⟩ := exists_success (Cursor.ofText text file)
    have hend : ∀ j, resumed text file (k + j + 1) = ⟨[], Layout.place file text.toList⟩ := by
      intro j
      induction j with
      | zero =>
          refine resumed_of_rest ?_
          rw [Nat.add_zero, resumed_succ]
          exact rest_of_tokens_ok hts
      | succ j ih => rw [resumed_succ, ← Nat.add_assoc, ih, stop_of_end]
    refine ⟨k, String.length_toList.symm ▸ hk, hfail, ⟨ts, hts⟩, fun m hm => ?_⟩
    obtain ⟨j, rfl⟩ := Nat.exists_eq_add_of_lt hm
    rw [hend j, tokens_nil]
    exact ⟨rfl, rfl⟩

end Resuming

end Scan

end SpeechMarkup
