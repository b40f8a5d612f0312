import SpeechMarkup.Proofs.Grammar

/-!
# Reading the parts of an item

Everything that stands in an item, apart from the items in the block of a command, is
read without looking at what is open around it.  For each such reader there is a lemma
`_reads`, that it reads what the grammar derives whatever follows, and a lemma
`_derived`, that it reads nothing else.

* `Reading.map_eq_ok_iff` and `Reading.bind_eq_ok_iff` take a reading apart.
* `Fresh` is the invariant of the values of a voice: no key is set twice.
* `Opens` says what an opening bracket can start.
-/

namespace SpeechMarkup
namespace Parse

namespace Reading

variable {α β : Type} {rest : List Token}

@[simp] theorem ok_eq_ok_iff
    {a b : α}
    {more : List Token} :
    Reading.ok a rest = Reading.ok b more ↔ a = b ∧ rest = more := by
  simp [Reading.ok]

@[simp] theorem fail_ne_ok
    {pos : Position}
    {cause : SyntaxFault}
    {a : α}
    {more : List Token} :
    Reading.fail pos cause rest ≠ Reading.ok a more := by
  simp [Reading.fail, Reading.ok]

theorem map_eq_ok_iff
    {f : α → β}
    {r : Reading α}
    {b : β} :
    r.map f = .ok b rest ↔ ∃ a, r = .ok a rest ∧ b = f a := by
  obtain ⟨result, more⟩ := r
  cases result with
  | error e => simp [Reading.map, Reading.ok, Except.map]
  | ok a =>
      simp only [Reading.map, Except.map, Reading.ok, Reading.mk.injEq, Except.ok.injEq]
      grind

theorem bind_eq_ok_iff
    {f : α → List Token → Reading β}
    {r : Reading α}
    {b : β} :
    r.bind f = .ok b rest ↔ ∃ a more, r = .ok a more ∧ f a more = .ok b rest := by
  obtain ⟨result, more⟩ := r
  cases result with
  | error e => simp [Reading.bind, Reading.ok]
  | ok a =>
      simp only [Reading.bind, Reading.ok, Reading.mk.injEq, Except.ok.injEq]
      grind

end Reading

section Lookahead

theorem peek_append
    {us more : List Token}
    {ks : List Token.Kind}
    (h : us.map Token.kind = ks) :
    peek (us ++ more) = ks.head?.getD (peek more) := by
  subst h
  cases us <;> rfl

theorem accept_eq_some_iff
    {k : Token.Kind}
    {ts rest : List Token} :
    accept k ts = some rest ↔ ∃ t, ts = t :: rest ∧ t.kind = k := by
  cases ts with
  | nil => simp [accept]
  | cons t ts =>
      by_cases hk : t.kind = k
      · simp [accept, hk]
      · simp [accept, hk]

end Lookahead

end Parse

namespace Grammar

open Parse

section Params

theorem params_reads
    (pos : Position)
    (name : String)
    {ps : List Param}
    {us : List Token}
    (more : List Token)
    (hus : us.map Token.kind = ps.map Param.token ++ [.rightBracket]) :
    params pos name (us ++ more) = .ok ps more := by
  obtain ⟨vs, hvs, hread⟩ := params_printed pos name more hus
  obtain rfl : vs = [] := by simpa using hvs
  exact hread

theorem params_derived
    {pos : Position}
    {name : String}
    {ps : List Param}
    {ts rest : List Token}
    (h : params pos name ts = .ok ps rest) :
    ∃ us, ts = us ++ rest ∧ us.map Token.kind = ps.map Param.token ++ [.rightBracket] := by
  fun_induction params pos name ts generalizing ps with
  | case1 => simp at h
  | case2 t ts hkind =>
      obtain ⟨rfl, rfl⟩ := Reading.ok_eq_ok_iff.1 h
      exact ⟨[t], rfl, by simp [hkind]⟩
  | case3 t ts v hkind ih =>
      obtain ⟨qs, hqs, rfl⟩ := Reading.map_eq_ok_iff.1 h
      obtain ⟨us, rfl, hus⟩ := ih hqs
      exact ⟨t :: us, rfl, by simp [hkind, hus, Param.token]⟩
  | case4 t ts v hkind ih =>
      obtain ⟨qs, hqs, rfl⟩ := Reading.map_eq_ok_iff.1 h
      obtain ⟨us, rfl, hus⟩ := ih hqs
      exact ⟨t :: us, rfl, by simp [hkind, hus, Param.token]⟩
  | case5 t ts s hkind ih =>
      obtain ⟨qs, hqs, rfl⟩ := Reading.map_eq_ok_iff.1 h
      obtain ⟨us, rfl, hus⟩ := ih hqs
      exact ⟨t :: us, rfl, by simp [hkind, hus, Param.token]⟩
  | case6 => simp at h
  | case7 => simp at h

end Params

section Phonemes

theorem length_reads
    {length : Option Duration}
    {us more : List Token}
    (hus : us.map Token.kind = lengthYield length)
    (hmore : peek more = .comma ∨ peek more = .rightChevron) :
    Parse.length (us ++ more) = (length.getD (.int 0), more) := by
  cases length with
  | none =>
      obtain rfl : us = [] := by simpa [lengthYield] using hus
      rw [List.nil_append]
      unfold Parse.length
      split
      · simp [peek] at hmore
      · simp [peek] at hmore
      · rfl
  | some d =>
      obtain ⟨⟨kind, pos⟩, vs, rfl, ht, hvs⟩ := map_kind_eq_cons hus
      obtain rfl : vs = [] := by simpa using hvs
      cases d <;> (obtain rfl : kind = _ := ht; rfl)

theorem length_derived (ts : List Token) :
    ∃ length us, ts = us ++ (Parse.length ts).2 ∧ us.map Token.kind = lengthYield length ∧
      (Parse.length ts).1 = length.getD (.int 0) := by
  unfold Parse.length
  split
  · exact ⟨some (.int _), [_], rfl, rfl, rfl⟩
  · exact ⟨some (.float _), [_], rfl, rfl, rfl⟩
  · exact ⟨none, [], rfl, rfl, rfl⟩

theorem pitch_reads
    {pitch : Option (Option Int)}
    {us more : List Token}
    (hus : us.map Token.kind = pitchYield pitch)
    (hmore : peek more = .rightChevron) :
    Parse.pitch (us ++ more) = (pitch.join.getD 0, more) := by
  obtain ⟨⟨kind, pos⟩, more, rfl⟩ : ∃ t vs, more = t :: vs := by
    cases more with
    | nil => simp [peek] at hmore
    | cons t vs => exact ⟨t, vs, rfl⟩
  obtain rfl : kind = .rightChevron := hmore
  rcases pitch with _ | _ | v
  · obtain rfl : us = [] := by simpa [pitchYield] using hus
    rfl
  · obtain ⟨⟨kind, pos'⟩, vs, rfl, ht, hvs⟩ := map_kind_eq_cons hus
    obtain rfl : vs = [] := by simpa using hvs
    obtain rfl : kind = .comma := ht
    rfl
  · obtain ⟨⟨kind, pos₁⟩, vs, rfl, ht, hvs⟩ := map_kind_eq_cons hus
    obtain ⟨⟨kind', pos₂⟩, ws, rfl, ht', hws⟩ := map_kind_eq_cons hvs
    obtain rfl : ws = [] := by simpa using hws
    obtain rfl : kind = .comma := ht
    obtain rfl : kind' = .int v := ht'
    rfl

theorem pitch_derived (ts : List Token) :
    ∃ pitch us, ts = us ++ (Parse.pitch ts).2 ∧ us.map Token.kind = pitchYield pitch ∧
      (Parse.pitch ts).1 = pitch.join.getD 0 := by
  unfold Parse.pitch
  split
  · exact ⟨some (some _), [_, _], rfl, rfl, rfl⟩
  · exact ⟨some none, [_], rfl, rfl, rfl⟩
  · exact ⟨none, [], rfl, rfl, rfl⟩

theorem phoneme_reads
    (pos : Position)
    (symbol : String)
    {chevrons : Option Chevrons}
    {us more : List Token}
    (hus : us.map Token.kind = chevrons.elim [] Chevrons.yield)
    (hmore : peek more ≠ .leftChevron) :
    Parse.phoneme pos symbol (us ++ more) =
      .ok ⟨pos, symbol, lengthOf symbol chevrons, pitchOf symbol chevrons⟩ more := by
  unfold Parse.phoneme
  cases chevrons with
  | none =>
      obtain rfl : us = [] := by simpa using hus
      rw [List.nil_append, accept_of_peek_ne hmore]
      simp [restrict, lengthOf, pitchOf]
  | some chevrons =>
      rw [Option.elim_some, Chevrons.yield] at hus
      obtain ⟨t, vs, rfl, ht, hvs⟩ := map_kind_eq_cons hus
      obtain ⟨us₁, us₂, rfl, hus₁, hus₂⟩ := List.map_eq_append_iff.1 hvs
      obtain ⟨us₃, us₄, rfl, hus₃, hus₄⟩ := List.map_eq_append_iff.1 hus₁
      obtain ⟨close, ws, rfl, hclose, hws⟩ := map_kind_eq_cons hus₂
      obtain rfl : ws = [] := by simpa using hws
      have hpitch : Parse.pitch (us₄ ++ close :: more) = (_, close :: more) :=
        pitch_reads hus₄ hclose
      have hnext : peek (us₄ ++ close :: more) = .comma ∨
          peek (us₄ ++ close :: more) = .rightChevron := by
        rw [peek_append hus₄]
        rcases chevrons.pitch with _ | _ | v
        · exact Or.inr hclose
        · exact Or.inl rfl
        · exact Or.inl rfl
      have hlength := length_reads hus₃ hnext
      rw [List.cons_append, accept_of_kind ht]
      simp only [List.append_assoc, List.singleton_append]
      rw [hlength]
      dsimp only
      rw [hpitch]
      dsimp only
      rw [accept_of_kind hclose]
      simp [restrict, lengthOf, pitchOf]

theorem phoneme_derived
    {pos : Position}
    {symbol : String}
    {p : Phoneme}
    {ts rest : List Token}
    (h : Parse.phoneme pos symbol ts = .ok p rest) :
    ∃ chevrons us, ts = us ++ rest ∧
      us.map Token.kind = chevrons.elim [] Chevrons.yield ∧
      p = ⟨pos, symbol, lengthOf symbol chevrons, pitchOf symbol chevrons⟩ := by
  unfold Parse.phoneme at h
  split at h
  · obtain ⟨rfl, rfl⟩ := Reading.ok_eq_ok_iff.1 h
    refine ⟨none, [], rfl, rfl, ?_⟩
    simp [restrict, lengthOf, pitchOf]
  · rename_i vs hopen
    obtain ⟨t, rfl, ht⟩ := accept_eq_some_iff.1 hopen
    dsimp only at h
    split at h
    · rename_i ws hclose
      obtain ⟨rfl, rfl⟩ := Reading.ok_eq_ok_iff.1 h
      obtain ⟨length, us₁, hvs, hus₁, hlength⟩ := length_derived vs
      obtain ⟨pitch, us₂, hmid, hus₂, hpitch⟩ := pitch_derived (Parse.length vs).2
      obtain ⟨close, hend, hkind⟩ := accept_eq_some_iff.1 hclose
      refine ⟨some ⟨length, pitch⟩, t :: (us₁ ++ us₂ ++ [close]), ?_, ?_, ?_⟩
      · rw [hvs, hmid, hend]
        simp
      · simp [Chevrons.yield, ht, hus₁, hus₂, hkind]
      · simp [restrict, lengthOf, pitchOf, hlength, hpitch]
    · simp at h

end Phonemes

section Voices

/-- The values that settings give, one after the other. -/
def fill (settings : List Setting) (values : VoiceSettings) : VoiceSettings :=
  settings.foldl (fun values s => values.insert s.key s.value) values

theorem VoiceBlock.values_eq_fill (block : VoiceBlock) :
    block.values = fill block.settings .empty := by
  unfold VoiceBlock.values VoiceSettings.ofList fill
  rw [List.foldl_map]

/-- No key is set twice, nor set already. -/
structure Fresh (settings : List Setting) (values : VoiceSettings) : Prop where
  distinct : (settings.map Setting.key).Nodup
  unset : ∀ s ∈ settings, values.contains s.key = false

theorem fresh_cons_iff
    {s : Setting}
    {settings : List Setting}
    {values : VoiceSettings} :
    Fresh (s :: settings) values ↔
      values.contains s.key = false ∧ Fresh settings (values.insert s.key s.value) := by
  constructor
  · intro h
    obtain ⟨hkey, hdistinct⟩ := List.nodup_cons.1 h.distinct
    obtain ⟨hnew, hothers⟩ := List.forall_mem_cons.1 h.unset
    refine ⟨hnew, hdistinct, ?_⟩
    intro s' hs'
    have hne : s'.key ≠ s.key := by
      intro heq
      exact hkey (heq ▸ List.mem_map_of_mem hs')
    simp [VoiceSettings.contains_insert, hne, hothers s' hs']
  · rintro ⟨hnew, h⟩
    have hunset : ∀ s' ∈ settings, s'.key ≠ s.key ∧ values.contains s'.key = false := by
      intro s' hs'
      simpa [VoiceSettings.contains_insert] using h.unset s' hs'
    refine ⟨?_, List.forall_mem_cons.2 ⟨hnew, fun s' hs' => (hunset s' hs').2⟩⟩
    rw [List.map_cons, List.nodup_cons]
    refine ⟨?_, h.distinct⟩
    intro hmem
    obtain ⟨s', hs', heq⟩ := List.mem_map.1 hmem
    exact (hunset s' hs').1 heq

theorem voicePairs_reads
    (pos : Position)
    (name : String)
    {settings : List Setting}
    {values : VoiceSettings}
    {us : List Token}
    (more : List Token)
    (hfresh : Fresh settings values)
    (hus : us.map Token.kind = settings.flatMap Setting.yield ++ [.rightBrace]) :
    voicePairs pos name values (us ++ more) = .ok (fill settings values) more := by
  induction settings generalizing values us with
  | nil =>
      obtain ⟨t, vs, rfl, ht, hvs⟩ := map_kind_eq_cons hus
      obtain rfl : vs = [] := by simpa using hvs
      rw [List.cons_append, voicePairs.eq_def]
      simp [ht, fill]
  | cons s settings ih =>
      obtain ⟨hnew, hrest⟩ := fresh_cons_iff.1 hfresh
      obtain ⟨key, value, comma⟩ := s
      simp only [List.flatMap_cons, Setting.yield, List.cons_append, List.append_assoc] at hus
      obtain ⟨t₁, us₁, rfl, ht₁, hus₁⟩ := map_kind_eq_cons hus
      obtain ⟨t₂, us₂, rfl, ht₂, hus₂⟩ := map_kind_eq_cons hus₁
      rw [fill, List.foldl_cons, ← fill]
      cases comma with
      | true =>
          obtain ⟨t₃, us₃, rfl, ht₃, hus₃⟩ := map_kind_eq_cons hus₂
          rw [← ih hrest hus₃]
          conv_lhs => rw [List.cons_append, voicePairs.eq_def]
          simp [ht₁, ht₂, ht₃, hnew]
      | false =>
          -- whatever follows, it is not a comma that the reader would drop
          have hread := ih hrest hus₂
          obtain ⟨k, ks, hk, hne⟩ := settings_eq_cons settings []
          obtain ⟨t₃, us₃, rfl, ht₃, -⟩ := map_kind_eq_cons (hus₂.trans hk)
          have hne₃ : t₃.kind ≠ .comma := ht₃ ▸ hne
          rw [← hread]
          conv_lhs => rw [List.cons_append, voicePairs.eq_def]
          simp [ht₁, ht₂, hne₃, hnew]

theorem voicePairs_derived
    {pos : Position}
    {name : String}
    {values result : VoiceSettings}
    {ts rest : List Token}
    (h : voicePairs pos name values ts = .ok result rest) :
    ∃ settings us, ts = us ++ rest ∧
      us.map Token.kind = settings.flatMap Setting.yield ++ [.rightBrace] ∧
      Fresh settings values ∧ result = fill settings values := by
  fun_induction voicePairs pos name values ts with
  | case1 => simp at h
  | case2 values t ts hkind =>
      obtain ⟨rfl, rfl⟩ := Reading.ok_eq_ok_iff.1 h
      exact ⟨[], [t], rfl, by simp [hkind], ⟨by simp, by simp⟩, rfl⟩
  | case3 => simp at h
  | case4 => simp at h
  | case5 => simp at h
  | case6 => simp at h
  | case7 values t key hkey u value hvalue hnew c cs hcomma ih =>
      obtain ⟨settings, us, rfl, hus, hfresh, rfl⟩ := ih h
      refine ⟨⟨key, value, true⟩ :: settings, t :: u :: c :: us, rfl, ?_,
        fresh_cons_iff.2 ⟨by simpa using hnew, hfresh⟩, rfl⟩
      simp [Setting.yield, hkey, hvalue, hcomma, hus]
  | case8 values t key hkey u value hvalue hnew c cs hcomma ih =>
      obtain ⟨settings, us, htail, hus, hfresh, rfl⟩ := ih h
      refine ⟨⟨key, value, false⟩ :: settings, t :: u :: us, by simp [htail], ?_,
        fresh_cons_iff.2 ⟨by simpa using hnew, hfresh⟩, rfl⟩
      simp [Setting.yield, hkey, hvalue, hus]
  | case9 => simp at h
  | case10 => simp at h

theorem VoiceBlock.fresh (block : VoiceBlock) :
    Fresh block.settings .empty :=
  ⟨block.distinct, fun _ _ => rfl⟩

theorem voice_reads
    (pos : Position)
    {name : String}
    {body : Option VoiceBlock}
    {us more : List Token}
    (hmore : peek more ≠ .leftBrace)
    (hus : us.map Token.kind =
      .str name :: .rightBracket :: body.elim [] VoiceBlock.yield) :
    Parse.voice pos (us ++ more) =
      .ok ⟨pos, name, body.elim .empty VoiceBlock.values⟩ more := by
  obtain ⟨⟨kind, q⟩, us₁, rfl, ht, hus₁⟩ := map_kind_eq_cons hus
  obtain rfl : kind = .str name := ht
  obtain ⟨t₂, us₂, rfl, ht₂, hus₂⟩ := map_kind_eq_cons hus₁
  rw [List.cons_append, Parse.voice, List.cons_append, accept_of_kind ht₂]
  dsimp only
  cases body with
  | none =>
      obtain rfl : us₂ = [] := by simpa using hus₂
      rw [List.nil_append, accept_of_peek_ne hmore]
      rfl
  | some block =>
      obtain ⟨t₃, us₃, rfl, ht₃, hus₃⟩ := map_kind_eq_cons hus₂
      have hpeek : peek (us₃ ++ more) ≠ .rightBrace := by
        rw [peek_append hus₃]
        cases hsettings : block.settings with
        | nil => exact absurd hsettings block.ne_nil
        | cons s settings => simp [Setting.yield]
      have hread := voicePairs_reads pos name more block.fresh hus₃
      rw [List.cons_append, accept_of_kind ht₃]
      dsimp only
      rw [if_neg hpeek, hread, Option.elim_some, block.values_eq_fill]
      rfl

theorem voice_derived
    {pos : Position}
    {v : Voice}
    {ts rest : List Token}
    (h : Parse.voice pos ts = .ok v rest) :
    ∃ (name : String) (body : Option VoiceBlock) (us : List Token), ts = us ++ rest ∧
      us.map Token.kind = .str name :: .rightBracket :: body.elim [] VoiceBlock.yield ∧
      v = ⟨pos, name, body.elim .empty VoiceBlock.values⟩ := by
  unfold Parse.voice at h
  split at h
  · rename_i name q vs
    split at h
    · simp at h
    · rename_i ws hbracket
      obtain ⟨t₂, rfl, ht₂⟩ := accept_eq_some_iff.1 hbracket
      split at h
      · obtain ⟨rfl, rfl⟩ := Reading.ok_eq_ok_iff.1 h
        exact ⟨name, none, [⟨.str name, q⟩, t₂], rfl, by simp [ht₂], rfl⟩
      · rename_i xs hbrace
        obtain ⟨t₃, rfl, ht₃⟩ := accept_eq_some_iff.1 hbrace
        split at h
        · simp at h
        · rename_i hpeek
          obtain ⟨values, hvalues, rfl⟩ := Reading.map_eq_ok_iff.1 h
          obtain ⟨settings, us, rfl, hus, hfresh, rfl⟩ := voicePairs_derived hvalues
          have hne : settings ≠ [] := by
            rintro rfl
            exact hpeek (by rw [peek_append hus]; rfl)
          let block : VoiceBlock := ⟨settings, hne, hfresh.distinct⟩
          refine ⟨name, some block, ⟨.str name, q⟩ :: t₂ :: t₃ :: us, rfl, ?_, ?_⟩
          · simp [VoiceBlock.yield, block, ht₂, ht₃, hus]
          · rw [Option.elim_some, block.values_eq_fill]
  · simp at h

end Voices

section Brackets

theorem bracket_reads
    {head : Head}
    {t : Token}
    {us : List Token}
    (more : List Token)
    (hus : (t :: us).map Token.kind = head.yield) :
    bracket t.pos (us ++ more) =
      (accept .leftBrace more).elim
        (.ok (.whole (.command t.pos head.name head.params [])) more)
        (.ok (.block head.name head.params)) := by
  obtain ⟨⟨kind, q⟩, vs, rfl, hname, hvs⟩ := map_kind_eq_cons (List.cons.inj hus).2
  obtain rfl : kind = .str (":" ++ head.name) := hname
  have hread := params_reads t.pos head.name more hvs
  cases haccept : accept .leftBrace more <;>
    simp [bracket, bareName_colon head.name_ne_empty, head.name_ne_voice, hread, Reading.bind,
      Reading.ok, haccept]

theorem bracket_reads_voice
    {name : String}
    {body : Option VoiceBlock}
    {t : Token}
    {us more : List Token}
    (hmore : peek more ≠ .leftBrace)
    (hus : (t :: us).map Token.kind = .leftBracket :: .str ":voice" :: .str name ::
      .rightBracket :: body.elim [] VoiceBlock.yield) :
    bracket t.pos (us ++ more) =
      .ok (.whole (.voice ⟨t.pos, name, body.elim .empty VoiceBlock.values⟩)) more := by
  obtain ⟨⟨kind, q⟩, vs, rfl, hname, hvs⟩ := map_kind_eq_cons (List.cons.inj hus).2
  obtain rfl : kind = .str ":voice" := hname
  have hread := voice_reads t.pos hmore hvs
  have hbare : bareName ":voice" = .ok "voice" := by decide
  simp [bracket, hbare, hread, Reading.map, Reading.ok, Except.map]

/-- What an opening bracket starts, as the grammar derives it from tokens. -/
def Opens (us : List Token) : Opening → Prop
  | .whole node => ∃ item : Item, us.map Token.kind = item.yield ∧ node = item.node us
  | .block name ps =>
      ∃ head : Head, us.map Token.kind = head.yield ++ [.leftBrace] ∧
        name = head.name ∧ ps = head.params

theorem bracket_derived
    {t : Token}
    {ts rest : List Token}
    {opening : Opening}
    (hkind : t.kind = .leftBracket)
    (h : bracket t.pos ts = .ok opening rest) :
    ∃ us, ts = us ++ rest ∧ Opens (t :: us) opening := by
  unfold bracket at h
  split at h
  · rename_i text q vs
    split at h
    · simp at h
    · rename_i name hname
      obtain ⟨rfl, hne⟩ := bareName_eq_ok hname
      split at h
      · rename_i hvoice
        subst hvoice
        obtain ⟨v, hv, rfl⟩ := Reading.map_eq_ok_iff.1 h
        obtain ⟨name, body, us, rfl, hus, rfl⟩ := voice_derived hv
        refine ⟨⟨_, q⟩ :: us, rfl, .voice name body, ?_, rfl⟩
        rw [Item.yield, List.map_cons, List.map_cons, hkind, hus]
        rfl
      · rename_i hvoice
        obtain ⟨ps, more, hps, hopen⟩ := Reading.bind_eq_ok_iff.1 h
        obtain ⟨us, rfl, hus⟩ := params_derived hps
        let head : Head := ⟨name, ps, hne, hvoice⟩
        have hhead : (t :: ⟨.str (":" ++ name), q⟩ :: us).map Token.kind = head.yield := by
          simp [Head.yield, head, hkind, hus]
        split at hopen
        · rename_i ws haccept
          obtain ⟨brace, rfl, hbrace⟩ := accept_eq_some_iff.1 haccept
          obtain ⟨rfl, rfl⟩ := Reading.ok_eq_ok_iff.1 hopen
          refine ⟨⟨.str (":" ++ name), q⟩ :: (us ++ [brace]), by simp, head, ?_, rfl, rfl⟩
          rw [← hhead]
          simp [hbrace]
        · obtain ⟨rfl, rfl⟩ := Reading.ok_eq_ok_iff.1 hopen
          refine ⟨⟨_, q⟩ :: us, rfl, .command head, ?_, ?_⟩
          · rw [Item.yield, hhead]
          · rw [Item.node]
            rfl
  · simp at h

end Brackets

end Grammar
end SpeechMarkup
