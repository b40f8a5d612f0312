import SpeechMarkup.Proofs.Context
import SpeechMarkup.Proofs.Unbounded

/-!
# Loops and their copies

A loop expands its body once and repeats the text.  That is as good as expanding the body
over and over, as long as the body leaves the store as it was: the scope is always the same
again behind it.

* `Expansion.expandAll_append`: nodes are expanded one after the other, so that what follows
  starts from the store that is left behind.
* `Expansion.expandAll_copies_of_error` and `Expansion.expandAll_copies_of_ok` say what
  copies of a body stand for, by induction on their number.
* `Expansion.expand_loop_of_error` and `Expansion.expand_loop_of_ok` say it of the loop.
* `Processor.expand` and `Processor.expandAll` expand nodes in a processor, and
  `Processor.loop_unrolls` is the main result.
-/

namespace SpeechMarkup

/-- The loop that runs its body so many times. -/
def Node.loop (pos : Position) (count : Nat) (body : List Node) : Node :=
  .command pos "loop" [.int count] body

/-- The nodes of a body, written so many times. -/
def Node.copies (count : Nat) (body : List Node) : List Node :=
  (List.replicate count body).flatten

namespace Expansion

section Copies

variable {files : Files} {scope : Scope} {body : List Node} {s t : Store}

theorem expandAll_append
    (files : Files)
    (scope : Scope)
    (xs ys : List Node)
    (s : Store) :
    expandAll files scope (xs ++ ys) s =
      match expandAll files scope xs s with
      | (.error d, t) => (.error d, t)
      | (.ok text, t) =>
          match expandAll files scope ys t with
          | (.error d, u) => (.error d, u)
          | (.ok more, u) => (.ok (text ++ more), u) := by
  induction xs generalizing s with
  | nil =>
      rw [List.nil_append, expandAll_nil]
      dsimp only
      rcases expandAll files scope ys s with ⟨d | more, u⟩
      · rfl
      · simp
  | cons n xs ih =>
      rw [List.cons_append, expandAll_cons, expandAll_cons]
      rcases expand files scope n s with ⟨d | text, t⟩
      · rfl
      · dsimp only
        rw [ih]
        rcases expandAll files scope xs t with ⟨d | more, u⟩
        · rfl
        · dsimp only
          rcases expandAll files scope ys u with ⟨d | rest, v⟩
          · rfl
          · simp [String.append_assoc]

theorem copies_succ (count : Nat) (body : List Node) :
    Node.copies (count + 1) body = body ++ Node.copies count body := by
  simp [Node.copies, List.replicate_succ]

/-- Copies of a body that fails fail in the first one. -/
theorem expandAll_copies_of_error
    {d : Diagnostic}
    {count : Nat}
    (hcount : 1 ≤ count)
    (hbody : expandAll files scope body s = (.error d, t)) :
    expandAll files scope (Node.copies count body) s = (.error d, t) := by
  obtain ⟨count, rfl⟩ := Nat.exists_eq_add_of_le' hcount
  rw [copies_succ, expandAll_append, hbody]

/-- Copies of a body that leaves the store as it was all give the same text. -/
theorem expandAll_copies_of_ok
    {text : String}
    (count : Nat)
    (hbody : expandAll files scope body s = (.ok text, s)) :
    expandAll files scope (Node.copies count body) s =
      (.ok (String.join (List.replicate count text)), s) := by
  induction count with
  | zero => exact expandAll_nil files scope s
  | succ count ih =>
      rw [copies_succ, expandAll_append, hbody]
      dsimp only
      rw [ih, List.replicate_succ, String.join_cons]

end Copies

section Loops

variable {files : Files} {scope : Scope} {body : List Node} {s t : Store}

/-- A loop keeps the rules whatever its body is, if its count is a word. -/
theorem loop_keeps_rules
    {count : Nat}
    (hcount : count ≤ maxWord)
    (body : List Node) :
    commandFault? "loop" [.int count] body = none := by
  have hrange : (0 : Int) ≤ count ∧ (count : Int) ≤ maxWord := ⟨Int.natCast_nonneg count, hcount⟩
  exact commandFault?_of_takes .loop (.head _) (fun h => absurd h (by decide)) rfl
    (.cons (Slot.takes_intIn.2 ⟨count, rfl, hrange⟩) .nil) rfl

theorem repeatText_eq (count : Nat) (text : String) :
    repeatText count text =
      if maxWord < (text.utf8ByteSize * count : Nat) then
        .error (.loopTooLarge count text.utf8ByteSize)
      else .ok (String.join (List.replicate count text)) := by
  unfold repeatText
  by_cases hempty : text.isEmpty = true
  · have htext : text = "" := by simpa using hempty
    have hjoin : String.join (List.replicate count "") = "" := by
      induction count with
      | zero => rfl
      | succ count ih => rw [List.replicate_succ, String.join_cons, ih, String.append_empty]
    have hsmall : ¬ maxWord < ((("" : String).utf8ByteSize * count : Nat) : Int) := by
      simp [maxWord]
    rw [if_pos hempty, htext, if_neg hsmall, hjoin]
  · rw [if_neg hempty]

/-- Nothing that is empty, or not repeated at all, is too large. -/
theorem nonempty_of_tooLarge
    {text : String}
    {count : Nat}
    (h : maxWord < (text.utf8ByteSize * count : Nat)) :
    text ≠ "" ∧ 1 ≤ count := by
  have hpos : 0 < text.utf8ByteSize * count := by
    unfold maxWord at h
    omega
  refine ⟨?_, Nat.pos_of_mul_pos_left hpos⟩
  rintro rfl
  simp at hpos

/-- A loop fails as its body does. -/
theorem expand_loop_of_error
    {d : Diagnostic}
    {count : Nat}
    (pos : Position)
    (hcount : count ≤ maxWord)
    (hbody : expandAll files scope body s = (.error d, t)) :
    expand files scope (.loop pos count body) s = (.error d, t) := by
  rw [Node.loop, expand_loop (loop_keeps_rules hcount body), hbody]

/-- A loop repeats the text of its body, if the result is not too large, and leaves the store
behind that its body does. -/
theorem expand_loop_of_ok
    {text : String}
    {count : Nat}
    (pos : Position)
    (hcount : count ≤ maxWord)
    (hbody : expandAll files scope body s = (.ok text, t)) :
    expand files scope (.loop pos count body) s =
      (if maxWord < (text.utf8ByteSize * count : Nat) then
        .error ⟨pos, .runtime (.loopTooLarge count text.utf8ByteSize)⟩
      else .ok (String.join (List.replicate count text)), t) := by
  rw [Node.loop, expand_loop (loop_keeps_rules hcount body), hbody]
  dsimp only
  rw [Int.toNat_natCast, repeatText_eq]
  split
  · rfl
  · rfl

end Loops

end Expansion

namespace Processor

section Single

variable (files : Files)

/-- Expands a node in a processor; gives its text and the processor as it is then. -/
def expand (n : Node) (p : Processor) : Except Diagnostic String × Processor :=
  let room := Expansion.room files p.store [n]
  let (result, scope, store) := (expandNode files (nest files room) n).run (p.scope, p.store)
  (result, { p with scope, store })

/-- Expands nodes into one text in a processor. -/
def expandAll (nodes : List Node) (p : Processor) : Except Diagnostic String × Processor :=
  let room := Expansion.room files p.store nodes
  let (result, scope, store) := (expandNodes files (nest files room) nodes).run (p.scope, p.store)
  (result, { p with scope, store })

theorem expand_eq (n : Node) (p : Processor) :
    p.expand files n =
      ((Expansion.expand files p.scope n p.store).1,
        { p with store := (Expansion.expand files p.scope n p.store).2 }) := by
  have henter := nest_restores files (Expansion.room files p.store [n])
  have hrun : (expandNode files (nest files (Expansion.room files p.store [n])) n).run
      (p.scope, p.store) = _ :=
    expandNode_restores henter n p.scope p.store
  rw [expand, hrun]
  rfl

theorem expandAll_eq (nodes : List Node) (p : Processor) :
    p.expandAll files nodes =
      ((Expansion.expandAll files p.scope nodes p.store).1,
        { p with store := (Expansion.expandAll files p.scope nodes p.store).2 }) := by
  have henter := nest_restores files (Expansion.room files p.store nodes)
  have hrun : (expandNodes files (nest files (Expansion.room files p.store nodes)) nodes).run
      (p.scope, p.store) = _ :=
    expandNodes_restores_of_nodes (fun n _ => expandNode_restores henter n) p.scope p.store
  rw [expandAll, hrun]
  rfl

end Single

/--
A loop fails as its body does, or repeats the text of its body.  Either way it leaves the
processor behind as its body does, so that neither this nor an error of the body depends on
the count.  It fails on its own account only where the text is not empty, the count not zero,
and the repeated text too large.  If the body fails or leaves the store as it was, a loop that
is not too large and runs at least once does what as many copies of its body do.
-/
theorem loop_unrolls
    (files : Files)
    (p : Processor)
    (pos : Position)
    (body : List Node) :
    (∀ count : Nat, count ≤ maxWord →
      (p.expand files (.loop pos count body)).2 = (p.expandAll files body).2 ∧
      (∀ d, (p.expandAll files body).1 = .error d →
        (p.expand files (.loop pos count body)).1 = .error d) ∧
      ∀ text, (p.expandAll files body).1 = .ok text →
        (p.expand files (.loop pos count body)).1 = .ok (String.join (List.replicate count text)) ∨
        (p.expand files (.loop pos count body)).1 =
            .error ⟨pos, .runtime (.loopTooLarge count text.utf8ByteSize)⟩ ∧
          text ≠ "" ∧ 1 ≤ count ∧ maxWord < (text.utf8ByteSize * count : Nat)) ∧
    ∀ count : Nat, 1 ≤ count → count ≤ maxWord →
      ((∃ d, (p.expandAll files body).1 = .error d) ∨
        (p.expandAll files body).2.store = p.store) →
      p.expand files (.loop pos count body) = p.expandAll files (Node.copies count body) ∨
        ∃ text, (p.expandAll files body).1 = .ok text ∧ text ≠ "" ∧
          maxWord < (text.utf8ByteSize * count : Nat) ∧
          p.expand files (.loop pos count body) =
            (.error ⟨pos, .runtime (.loopTooLarge count text.utf8ByteSize)⟩, p) := by
  obtain ⟨scope, sink, s⟩ := p
  simp only [expand_eq, expandAll_eq]
  rcases hbody : Expansion.expandAll files scope body s with ⟨d | text, t⟩
  · refine ⟨?_, ?_⟩
    · intro count hcount
      simp [Expansion.expand_loop_of_error pos hcount hbody]
    · intro count hpositive hcount _
      rw [Expansion.expand_loop_of_error pos hcount hbody,
        Expansion.expandAll_copies_of_error hpositive hbody]
      exact Or.inl rfl
  · refine ⟨?_, ?_⟩
    · intro count hcount
      rw [Expansion.expand_loop_of_ok pos hcount hbody]
      refine ⟨rfl, by simp, ?_⟩
      intro more hmore
      obtain rfl := Except.ok.inj hmore
      by_cases hlarge : maxWord < (text.utf8ByteSize * count : Nat)
      · obtain ⟨htext, hpositive⟩ := Expansion.nonempty_of_tooLarge hlarge
        exact Or.inr ⟨if_pos hlarge, htext, hpositive, hlarge⟩
      · exact Or.inl (if_neg hlarge)
    · intro count hpositive hcount hstore
      -- a body that succeeds is a body that leaves the store as it was
      obtain rfl : t = s := by simpa using hstore
      rw [Expansion.expand_loop_of_ok pos hcount hbody,
        Expansion.expandAll_copies_of_ok count hbody]
      by_cases hlarge : maxWord < (text.utf8ByteSize * count : Nat)
      · rw [if_pos hlarge]
        exact Or.inr ⟨text, rfl, (Expansion.nonempty_of_tooLarge hlarge).1, hlarge, rfl⟩
      · rw [if_neg hlarge]
        exact Or.inl rfl

end Processor

end SpeechMarkup
