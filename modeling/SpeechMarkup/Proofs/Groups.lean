import Mathlib.Tactic
import SpeechMarkup.Proofs.Rendering
import SpeechMarkup.Proofs.Steps

/-!
# Instructions in brackets

The engine reads its input in groups, each between brackets.

* `IsGroup` and `eq_of_join_eq`: a text splits into groups in one way at most.
* `Spoken` and `Spoken.eq_of_speak_eq`: what a phoneme instruction may say, and that
  its text determines it.
* `Instruction`: the texts that the engine is given.
* `Instruction.ne_render`: an instruction is the text of no command that is held back.
-/

namespace SpeechMarkup

section Cuts

/-- A text that is followed by a code point with `p`, while the other is cut by its
last code point at the earliest, is the other text. -/
theorem eq_of_append_cut
    (p : Char → Prop)
    {x y u : List Char}
    {c d : Char}
    (hy : ∀ c ∈ y, ¬ p c)
    (hc : p c)
    (h : y ++ [d] = x ++ c :: u) :
    x = y := by
  rcases List.append_eq_append_iff.1 h with ⟨a, rfl, ha⟩ | ⟨a, rfl, ha⟩
  · cases a with
    | nil => simp
    | cons b a =>
        have hlength := congrArg List.length ha
        simp at hlength
  · cases a with
    | nil => simp
    | cons b a =>
        obtain ⟨rfl, -⟩ := List.cons.inj ha
        exact absurd hc (hy c (by simp))

end Cuts

section Groups

/-- A text without brackets. -/
def Unbracketed (s : String) : Prop :=
  '[' ∉ s.toList ∧ ']' ∉ s.toList

/-- A text between brackets that is not empty and holds no bracket itself. -/
def IsGroup (g : String) : Prop :=
  ∃ w, w ≠ "" ∧ Unbracketed w ∧ g = "[" ++ w ++ "]"

theorem IsGroup.toList_eq
    {g : String}
    (h : IsGroup g) :
    ∃ w, ']' ∉ w ∧ g.toList = '[' :: (w ++ [']']) := by
  obtain ⟨w, -, hw, rfl⟩ := h
  exact ⟨w.toList, hw.2, by simp⟩

/-- A text splits into groups in one way at most. -/
theorem eq_of_join_eq
    {gs hs : List String}
    (hgs : ∀ g ∈ gs, IsGroup g)
    (hhs : ∀ h ∈ hs, IsGroup h)
    (hjoin : String.join gs = String.join hs) :
    gs = hs := by
  have htext : gs.flatMap String.toList = hs.flatMap String.toList := by
    rw [← String.toList_join, ← String.toList_join, hjoin]
  clear hjoin
  induction gs generalizing hs with
  | nil =>
      cases hs with
      | nil => rfl
      | cons h hs =>
          obtain ⟨w, -, hw⟩ := (hhs h (by simp)).toList_eq
          simp [hw] at htext
  | cons g gs ih =>
      obtain ⟨hg, hgs⟩ := List.forall_mem_cons.1 hgs
      obtain ⟨w, hw, hgtext⟩ := hg.toList_eq
      cases hs with
      | nil => simp [hgtext] at htext
      | cons h hs =>
          obtain ⟨hh, hhs⟩ := List.forall_mem_cons.1 hhs
          obtain ⟨v, hv, hhtext⟩ := hh.toList_eq
          rw [List.flatMap_cons, List.flatMap_cons, hgtext, hhtext] at htext
          have hsplit : w ++ ']' :: gs.flatMap String.toList =
              v ++ ']' :: hs.flatMap String.toList := by
            simpa using htext
          obtain ⟨rfl, hrest⟩ := append_inj_of_cut (· = ']') (by rintro c hc rfl; exact hw hc)
            (by rintro c hc rfl; exact hv hc) (by simp) (by simp) hsplit
          have hgh : g = h := String.toList_injective (hgtext.trans hhtext.symm)
          rw [hgh, ih hgs hhs (List.cons.inj hrest).2]

end Groups

section Phonemes

/-- What a phoneme instruction may say: a built-in phoneme, with a length and a pitch
only where the phoneme has them. -/
structure Spoken (symbol : String) (millis pitch : Int) : Prop where
  builtin : isBuiltinPhoneme symbol = true
  millis_nonneg : 0 ≤ millis
  pitch_nonneg : 0 ≤ pitch
  millis_zero : hasNoLength symbol = true → millis = 0
  pitch_zero : hasNoPitch symbol = true → pitch = 0

theorem mem_of_isBuiltinPhoneme
    {symbol : String}
    (h : isBuiltinPhoneme symbol = true) :
    symbol ∈ consonants ++ vowels ++ symbols := by
  unfold isBuiltinPhoneme classify at h
  split at h
  · simp_all
  · split at h
    · simp_all
    · split at h
      · simp_all
      · cases h

/-- A built-in phoneme is spelt without the marks that surround it. -/
theorem chars_of_isBuiltinPhoneme
    {symbol : String}
    (h : isBuiltinPhoneme symbol = true) :
    symbol ≠ "" ∧ ∀ c ∈ symbol.toList, c ≠ '[' ∧ c ≠ ']' ∧ c ≠ '<' ∧ c ≠ ':' := by
  have hall : ∀ s ∈ consonants ++ vowels ++ symbols,
      s ≠ "" ∧ s.toList.all (fun c => c ≠ '[' ∧ c ≠ ']' ∧ c ≠ '<' ∧ c ≠ ':') = true := by
    decide
  obtain ⟨hne, hchars⟩ := hall symbol (mem_of_isBuiltinPhoneme h)
  exact ⟨hne, fun c hc => of_decide_eq_true (List.all_eq_true.1 hchars c hc)⟩

theorem toString_toList_of_nonneg
    {v : Int}
    (h : 0 ≤ v) :
    (toString v).toList = Nat.toDigits 10 v.toNat := by
  obtain ⟨n, rfl⟩ := Int.eq_ofNat_of_zero_le h
  show (Nat.repr n).toList = _
  exact Nat.toList_repr

theorem isDigit_of_mem_toString
    {v : Int}
    (h : 0 ≤ v)
    {c : Char}
    (hc : c ∈ (toString v).toList) :
    c.isDigit = true := by
  rw [toString_toList_of_nonneg h] at hc
  exact Nat.isDigit_of_mem_toDigits (by decide) (by decide) hc

theorem eq_of_toString_eq
    {v w : Int}
    (hv : 0 ≤ v)
    (hw : 0 ≤ w)
    (h : (toString v).toList = (toString w).toList) :
    v = w := by
  rw [toString_toList_of_nonneg hv, toString_toList_of_nonneg hw] at h
  have hnat : v.toNat = w.toNat := by
    rw [← digitsValue_toDigits v.toNat, h, digitsValue_toDigits]
  omega

/-- The digits of a number, or nothing for zero. -/
def shownNumber (v : Int) : List Char :=
  if v ≠ 0 then (toString v).toList else []

theorem isDigit_of_mem_shownNumber
    {v : Int}
    (h : 0 ≤ v)
    {c : Char}
    (hc : c ∈ shownNumber v) :
    c.isDigit = true := by
  unfold shownNumber at hc
  split at hc
  · exact isDigit_of_mem_toString h hc
  · cases hc

theorem eq_of_shownNumber_eq
    {v w : Int}
    (hv : 0 ≤ v)
    (hw : 0 ≤ w)
    (h : shownNumber v = shownNumber w) :
    v = w := by
  have hne : ∀ u : Int, 0 ≤ u → (toString u).toList ≠ [] := by
    intro u hu
    rw [toString_toList_of_nonneg hu]
    exact Nat.toDigits_ne_nil
  unfold shownNumber at h
  split at h <;> split at h
  · exact eq_of_toString_eq hv hw h
  · exact absurd h (hne v hv)
  · exact absurd h.symm (hne w hw)
  · simp_all

/-- The pitch behind its comma, or nothing for zero. -/
def shownPitch (v : Int) : List Char :=
  if v ≠ 0 then ',' :: shownNumber v else []

theorem eq_of_shownPitch_eq
    {v w : Int}
    (hv : 0 ≤ v)
    (hw : 0 ≤ w)
    (h : shownPitch v = shownPitch w) :
    v = w := by
  unfold shownPitch at h
  split at h <;> split at h
  · exact eq_of_shownNumber_eq hv hw (List.cons.inj h).2
  · cases h
  · cases h
  · simp_all

/-- What stands between the symbol of a phoneme instruction and the bracket. -/
def marks (millis pitch : Int) : List Char :=
  if millis ≠ 0 ∨ pitch ≠ 0 then '<' :: (shownNumber millis ++ (shownPitch pitch ++ ['>'])) else []

theorem speak_toList (symbol : String) (millis pitch : Int) :
    (speak symbol millis pitch).toList =
      '[' :: (symbol.toList ++ (marks millis pitch ++ [']'])) := by
  by_cases hm : millis = 0 <;> by_cases hp : pitch = 0 <;>
    simp [speak, marks, shownNumber, shownPitch, hm, hp]

theorem eq_of_marks_eq
    {m m' p p' : Int}
    (hm : 0 ≤ m)
    (hm' : 0 ≤ m')
    (hp : 0 ≤ p)
    (hp' : 0 ≤ p')
    (h : marks m p = marks m' p') :
    m = m' ∧ p = p' := by
  by_cases hshown : m ≠ 0 ∨ p ≠ 0 <;> by_cases hshown' : m' ≠ 0 ∨ p' ≠ 0 <;>
    simp only [marks, hshown, hshown', if_true, if_false] at h
  · have hnot : ∀ v : Int, 0 ≤ v → ∀ c ∈ shownNumber v, ¬ c.isDigit = false := by
      intro v hv c hc hdigit
      rw [isDigit_of_mem_shownNumber hv hc] at hdigit
      cases hdigit
    have hhead : ∀ q : Int, ∀ c ∈ (shownPitch q ++ ['>']).head?, c.isDigit = false := by
      intro q
      unfold shownPitch
      split <;> simp
    obtain ⟨hlength, hheight⟩ := append_inj_of_cut (·.isDigit = false) (hnot m hm) (hnot m' hm')
      (hhead p) (hhead p') (List.cons.inj h).2
    exact ⟨eq_of_shownNumber_eq hm hm' hlength,
      eq_of_shownPitch_eq hp hp' (List.append_cancel_right hheight)⟩
  · cases h
  · cases h
  · omega

/-- The text of a phoneme instruction determines what it says. -/
theorem Spoken.eq_of_speak_eq
    {symbol symbol' : String}
    {millis millis' pitch pitch' : Int}
    (h : Spoken symbol millis pitch)
    (h' : Spoken symbol' millis' pitch')
    (htext : speak symbol millis pitch = speak symbol' millis' pitch') :
    symbol = symbol' ∧ millis = millis' ∧ pitch = pitch' := by
  have hmarks : ∀ m p : Int, ∀ c ∈ (marks m p ++ [']']).head?, c = '<' ∨ c = ']' := by
    intro m p
    unfold marks
    split <;> simp
  have hsymbols : ∀ s, isBuiltinPhoneme s = true → ∀ c ∈ s.toList, ¬ (c = '<' ∨ c = ']') := by
    intro s hs c hc
    obtain ⟨-, hclose, hchevron, -⟩ := (chars_of_isBuiltinPhoneme hs).2 c hc
    simp [hclose, hchevron]
  have hlist := congrArg String.toList htext
  rw [speak_toList, speak_toList] at hlist
  obtain ⟨hsymbol, hrest⟩ := append_inj_of_cut (fun c => c = '<' ∨ c = ']')
    (hsymbols symbol h.builtin) (hsymbols symbol' h'.builtin) (hmarks _ _) (hmarks _ _)
    (List.cons.inj hlist).2
  refine ⟨String.toList_injective hsymbol, ?_⟩
  exact eq_of_marks_eq h.millis_nonneg h'.millis_nonneg h.pitch_nonneg h'.pitch_nonneg
    (List.append_cancel_right hrest)

/-- The digits and marks of an instruction hold no bracket. -/
theorem not_mem_marks
    {m p : Int}
    (hm : 0 ≤ m)
    (hp : 0 ≤ p)
    {c : Char}
    (hc : c ∈ marks m p) :
    c ≠ '[' ∧ c ≠ ']' := by
  have hdigits : ∀ v : Int, 0 ≤ v → c ∈ shownNumber v → c ≠ '[' ∧ c ≠ ']' := by
    intro v hv hmem
    have hdigit := isDigit_of_mem_shownNumber hv hmem
    constructor
    · rintro rfl
      cases hdigit
    · rintro rfl
      cases hdigit
  unfold marks shownPitch at hc
  split at hc
  · split at hc
    · simp only [List.cons_append, List.mem_cons, List.mem_append,
        List.not_mem_nil, or_false] at hc
      rcases hc with rfl | hc | rfl | hc | rfl
      · decide
      · exact hdigits m hm hc
      · decide
      · exact hdigits p hp hc
      · decide
    · simp only [List.nil_append, List.mem_cons, List.mem_append,
        List.not_mem_nil, or_false] at hc
      rcases hc with rfl | hc | rfl
      · decide
      · exact hdigits m hm hc
      · decide
  · cases hc

theorem Spoken.isGroup
    {symbol : String}
    {millis pitch : Int}
    (h : Spoken symbol millis pitch) :
    IsGroup (speak symbol millis pitch) := by
  obtain ⟨hne, hchars⟩ := chars_of_isBuiltinPhoneme h.builtin
  have hfree : ∀ c ∈ symbol.toList ++ marks millis pitch, c ≠ '[' ∧ c ≠ ']' := by
    intro c hc
    rcases List.mem_append.1 hc with hc | hc
    · exact ⟨(hchars c hc).1, (hchars c hc).2.1⟩
    · exact not_mem_marks h.millis_nonneg h.pitch_nonneg hc
  refine ⟨symbol ++ String.ofList (marks millis pitch), ?_, ?_, ?_⟩
  · intro hempty
    have hlist := congrArg String.toList hempty
    rw [String.toList_append] at hlist
    exact hne (String.toList_eq_nil_iff.1 (List.append_eq_nil_iff.1 hlist).1)
  · constructor
    · intro hmem
      exact (hfree '[' (by simpa using hmem)).1 rfl
    · intro hmem
      exact (hfree ']' (by simpa using hmem)).2 rfl
  · apply String.toList_injective
    rw [speak_toList]
    simp

end Phonemes

section Commands

open Scan

theorem Unbracketed.empty : Unbracketed "" :=
  ⟨by decide, by decide⟩

theorem Unbracketed.append
    {s t : String}
    (hs : Unbracketed s)
    (ht : Unbracketed t) :
    Unbracketed (s ++ t) := by
  constructor
  · simpa using ⟨hs.1, ht.1⟩
  · simpa using ⟨hs.2, ht.2⟩

theorem unbracketed_of_wordChars
    {s : String}
    (h : ∀ c ∈ s.toList, isWordChar c = true) :
    Unbracketed s := by
  constructor
  · intro hmem
    exact absurd (h _ hmem) (by decide)
  · intro hmem
    exact absurd (h _ hmem) (by decide)

/-- The text of a parameter is made of the characters of a word. -/
theorem Param.unbracketed_render
    {p : Param}
    (h : Lexed p.token) :
    Unbracketed p.render := by
  apply unbracketed_of_wordChars
  cases p with
  | int v =>
      intro c hc
      exact isWordChar_of_isDigit (isDigit_of_mem_toString h.1 hc)
  | float x =>
      obtain ⟨hneg, hle⟩ := h
      rcases Nat.lt_or_eq_of_le hle with hfin | hinf
      · obtain ⟨whole, part, -, hwhole, hpart, htext, -⟩ := Binary64.render_toList hfin hneg
        intro c hc
        have hc' : c ∈ whole ++ '.' :: part := by rwa [← htext]
        rcases List.mem_append.1 hc' with hmem | hmem
        · exact isWordChar_of_isDigit (hwhole c hmem)
        · rcases List.mem_cons.1 hmem with rfl | hmem
          · decide
          · exact isWordChar_of_isDigit (hpart c hmem)
      · have htext : (Param.float x).render = "inf" := Binary64.render_infinity hinf hneg
        have hchars : "inf".toList.all isWordChar = true := by decide
        rw [htext]
        exact List.all_eq_true.1 hchars
  | str t => exact h.chars

/-- What follows the name of a command in its text. -/
def paramsText (params : List Param) : String :=
  String.join (params.map fun p => " " ++ p.render)

theorem unbracketed_paramsText
    {params : List Param}
    (h : ∀ p ∈ params, Unbracketed p.render) :
    Unbracketed (paramsText params) := by
  induction params with
  | nil => exact Unbracketed.empty
  | cons p ps ih =>
      obtain ⟨hp, hps⟩ := List.forall_mem_cons.1 h
      have hblank : Unbracketed " " := ⟨by decide, by decide⟩
      have hall := (hblank.append hp).append (ih hps)
      simpa [paramsText, String.join_cons] using hall

/-- The name of a command holds no blank and no bracket. -/
theorem chars_of_ofName?
    {name : String}
    {command : Command}
    (h : Command.ofName? name = some command) :
    ∀ c ∈ name.toList, c ≠ ' ' ∧ c ≠ '[' ∧ c ≠ ']' := by
  have hall : ∀ command ∈ Command.all, ∀ name ∈ command.names,
      name.toList.all (fun c => c ≠ ' ' ∧ c ≠ '[' ∧ c ≠ ']') = true := by
    decide
  have hchars := hall command (List.mem_of_find?_eq_some h) name (Command.mem_names_of_ofName? h)
  exact fun c hc => of_decide_eq_true (List.all_eq_true.1 hchars c hc)

/-- A known command without a block is written as one group. -/
theorem isGroup_render_command
    {pos : Position}
    {name : String}
    {params : List Param}
    {command : Command}
    (hcommand : Command.ofName? name = some command)
    (hparams : ∀ p ∈ params, Unbracketed p.render) :
    IsGroup (Node.command pos name params []).render := by
  have hname : Unbracketed name := by
    constructor
    · intro hmem
      exact (chars_of_ofName? hcommand _ hmem).2.1 rfl
    · intro hmem
      exact (chars_of_ofName? hcommand _ hmem).2.2 rfl
  have hcolon : Unbracketed ":" := ⟨by decide, by decide⟩
  refine ⟨":" ++ name ++ paramsText params, ?_, ?_, ?_⟩
  · intro hempty
    simpa using congrArg String.toList hempty
  · exact (hcolon.append hname).append (unbracketed_paramsText hparams)
  · apply String.toList_injective
    simp [Node.render, paramsText]

end Commands

section Instructions

/--
The texts that the engine is given: a phoneme, or a command that keeps the rules and is
passed on as written, plays a recording or selects a built-in voice.
-/
inductive Instruction : String → Prop
  | phoneme
      {symbol : String}
      {millis pitch : Int}
      (spoken : Spoken symbol millis pitch) :
      Instruction (speak symbol millis pitch)
  | command
      {pos : Position}
      {name : String}
      {params : List Param}
      {command : Command}
      (hcommand : Command.ofName? name = some command)
      (hrules : (Node.command pos name params []).ruleFault? = none)
      (hkind : command.behavior = .bypass ∨ command = .play ∨
        (command = .name ∧ ∃ voice, params = [.str voice] ∧ isBuiltinVoice voice = true)) :
      Instruction (Node.command pos name params []).render

/-- The commands that the engine is never given. -/
def withheld : List Command :=
  [.loop, .phrase, .sound, .voice, .importFile, .bpm, .mode, .phoneme, .pitch, .pronounce]

/-- The text of a command starts with its name, which a blank or a bracket ends. -/
theorem Node.render_toList_of_commandName?
    {n : Node}
    {name : String}
    (h : n.commandName? = some name) :
    ∃ rest, n.render.toList = '[' :: ':' :: (name.toList ++ rest) ∧
      ∀ c ∈ rest.head?, c = ' ' ∨ c = ']' := by
  cases n with
  | command pos name' params context =>
      obtain rfl := Option.some.inj h
      have hhead : ∀ block : List Char, ∀ c ∈ ((paramsText params).toList ++ ']' :: block).head?,
          c = ' ' ∨ c = ']' := by
        intro block
        cases params <;> simp [paramsText]
      cases hempty : context.isEmpty with
      | true =>
          refine ⟨(paramsText params).toList ++ [']'], ?_, hhead []⟩
          simp [Node.render, hempty, paramsText]
      | false =>
          refine ⟨(paramsText params).toList ++
            ']' :: (" \x7b" ++ Node.renderAll context ++ " \x7d").toList, ?_, hhead _⟩
          simp [Node.render, hempty, paramsText]
  | voice v =>
      obtain rfl := Option.some.inj h
      refine ⟨' ' :: (v.render.toList.drop 8), ?_, by simp⟩
      simp [Node.render, Voice.render]
  | phoneme p => cases h
  | stop pos => cases h

/-- An instruction that reads as a known command is that command. -/
theorem Instruction.command_of_eq_render
    {g : String}
    (h : Instruction g)
    {n : Node}
    {name : String}
    {command : Command}
    (hname : n.commandName? = some name)
    (hcommand : Command.ofName? name = some command)
    (htext : g = n.render) :
    ∃ pos params, g = (Node.command pos name params []).render ∧
      (command.behavior = .bypass ∨ command = .play ∨
        (command = .name ∧ ∃ voice, params = [.str voice] ∧ isBuiltinVoice voice = true)) := by
  obtain ⟨rest, hrest, hhead⟩ := Node.render_toList_of_commandName? hname
  cases h with
  | @phoneme symbol millis pitch spoken =>
      -- a symbol does not start with the mark of a command
      obtain ⟨hne, hchars⟩ := chars_of_isBuiltinPhoneme spoken.builtin
      have hlist := (congrArg String.toList htext).trans hrest
      rw [speak_toList] at hlist
      cases hsymbol : symbol.toList with
      | nil => exact absurd (String.toList_eq_nil_iff.1 hsymbol) hne
      | cons c cs =>
          rw [hsymbol] at hlist hchars
          obtain ⟨rfl, -⟩ := List.cons.inj (List.cons.inj hlist).2
          exact absurd rfl (hchars ':' (by simp)).2.2.2
  | @command pos name' params command' hcommand' _ hkind =>
      obtain ⟨rest', hrest', hhead'⟩ :=
        Node.render_toList_of_commandName? (n := .command pos name' params []) rfl
      rw [← htext, hrest'] at hrest
      have hnames : name'.toList ++ rest' = name.toList ++ rest := by simpa using hrest
      have hchars : ∀ {name command}, Command.ofName? name = some command →
          ∀ c ∈ name.toList, ¬ (c = ' ' ∨ c = ']') := by
        intro name command h c hc
        obtain ⟨hblank, -, hclose⟩ := chars_of_ofName? h c hc
        simp [hblank, hclose]
      obtain ⟨hsame, -⟩ := append_inj_of_cut (fun c => c = ' ' ∨ c = ']') (hchars hcommand')
        (hchars hcommand) hhead' hhead hnames
      obtain rfl : name' = name := String.toList_injective hsame
      obtain rfl : command' = command := Option.some.inj (hcommand'.symm.trans hcommand)
      exact ⟨pos, params, rfl, hkind⟩

/-- No instruction is the text of a command that is held back. -/
theorem Instruction.ne_render_of_withheld
    {g : String}
    (h : Instruction g)
    {n : Node}
    {command : Command}
    (hname : n.commandName?.bind Command.ofName? = some command)
    (hheld : command ∈ withheld) :
    g ≠ n.render := by
  intro htext
  obtain ⟨name, hn, hcommand⟩ := Option.bind_eq_some_iff.1 hname
  obtain ⟨pos, params, -, hkind⟩ := h.command_of_eq_render hn hcommand htext
  have hkinds : ∀ c ∈ withheld, c.behavior ≠ .bypass ∧ c ≠ .play ∧ c ≠ .name := by decide
  obtain ⟨hbypass, hplay, hname'⟩ := hkinds command hheld
  rcases hkind with hkind | hkind | ⟨hkind, -⟩
  · exact hbypass hkind
  · exact hplay hkind
  · exact hname' hkind

/-- No instruction selects a voice by name that is not built in. -/
theorem Instruction.ne_render_of_voice
    {g : String}
    (h : Instruction g)
    {pos : Position}
    {voice : String}
    {more : List Param}
    {context : List Node}
    (hvoice : isBuiltinVoice voice = false) :
    g ≠ (Node.command pos "name" (.str voice :: more) context).render := by
  intro htext
  obtain ⟨pos', params, hg, hkind⟩ :=
    h.command_of_eq_render (n := .command pos "name" (.str voice :: more) context) rfl
      (by decide : Command.ofName? "name" = some .name) htext
  rcases hkind with hkind | hkind | ⟨-, builtin, rfl, hbuiltin⟩
  · cases hkind
  · cases hkind
  · have hall : ∀ v ∈ builtinVoices, v.toList.all (fun c => ¬ (c = ' ' ∨ c = ']')) = true := by
      decide
    have hchars := hall builtin (by simpa [isBuiltinVoice] using hbuiltin)
    have htail : ∃ c u, (c = ' ' ∨ c = ']') ∧
        (Node.command pos "name" (.str voice :: more) context).render.toList =
          "[:name ".toList ++ (voice.toList ++ c :: u) := by
      cases more <;> cases hempty : context.isEmpty <;>
        simp [Node.render, Param.render, hempty]
    obtain ⟨c, u, hc, htail⟩ := htail
    have hlist : "[:name ".toList ++ (builtin.toList ++ [']']) =
        "[:name ".toList ++ (voice.toList ++ c :: u) := by
      rw [← htail, ← htext, hg]
      simp [Node.render, Param.render]
    have hsame := eq_of_append_cut (fun c => c = ' ' ∨ c = ']')
      (fun c hc => of_decide_eq_true (List.all_eq_true.1 hchars c hc)) hc
      (List.append_cancel_left hlist)
    rw [String.toList_injective hsame, hbuiltin] at hvoice
    cases hvoice

end Instructions
end SpeechMarkup
