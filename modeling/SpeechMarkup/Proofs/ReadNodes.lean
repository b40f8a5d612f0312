import SpeechMarkup.Node.Parse
import Mathlib.Tactic

/-!
# What nodes are built from

Reading nodes invents nothing: each name, number and symbol of a node is the
value of a token, apart from the zero of a missing length or pitch and the comma
as a symbol.  So whatever holds of the tokens of a program holds of the parts of
its nodes, at any depth (`Node.formed_of_ofTokens`).

The proof follows the reader: every part of it leaves a suffix of its tokens, and
builds from the tokens before that suffix.
-/

namespace SpeechMarkup

/-- The token that a parameter is read from. -/
def Param.token : Param → Token.Kind
  | .int v => .int v
  | .float x => .float x
  | .str s => .str s

/-- The token that a length is read from. -/
def Duration.token : Duration → Token.Kind
  | .int v => .int v
  | .float x => .float x

/-- A phoneme built from tokens of which `K` holds. -/
structure Phoneme.Formed (K : Token.Kind → Prop) (p : Phoneme) : Prop where
  symbol : p.symbol = "," ∨ K (.str p.symbol)
  duration : p.duration = .int 0 ∨ K p.duration.token
  pitch : p.pitch = 0 ∨ K (.int p.pitch)
  restricted : Parse.restrict p = p

/-- A voice declaration built from tokens of which `K` holds. -/
structure Voice.Formed (K : Token.Kind → Prop) (v : Voice) : Prop where
  keyword : K (.str ":voice")
  name : K (.str v.name)
  settings : ∀ e ∈ v.settings.entries, K (.str e.1) ∧ K (.int e.2)

/-- A node built from tokens of which `K` holds; the end marker is no such node. -/
inductive Node.Formed (K : Token.Kind → Prop) : Node → Prop
  | command
      {pos : Position}
      {name : String}
      {params : List Param}
      {context : List Node}
      (keyword : K (.str (":" ++ name)))
      (ne_empty : name ≠ "")
      (ne_voice : name ≠ "voice")
      (params_formed : ∀ p ∈ params, K p.token)
      (context_formed : ∀ n ∈ context, Node.Formed K n) :
      Node.Formed K (.command pos name params context)
  | phoneme
      {p : Phoneme}
      (formed : p.Formed K) :
      Node.Formed K (.phoneme p)
  | voice
      {v : Voice}
      (formed : v.Formed K) :
      Node.Formed K (.voice v)

namespace Parse

section Suffixes

theorem accept_suffix
    {kind : Token.Kind}
    {ts rest : List Token}
    (h : accept kind ts = some rest) :
    rest <:+ ts := by
  unfold accept at h
  split at h
  · cases h
  · split at h
    · cases h
      exact List.suffix_cons _ _
    · cases h

theorem params_rest_suffix
    (pos : Position)
    (name : String)
    (ts : List Token) :
    (params pos name ts).rest <:+ ts := by
  fun_induction params pos name ts with
  | case1 => exact List.suffix_rfl
  | case2 t ts _ => exact List.suffix_cons _ _
  | case3 t ts v _ ih => exact ih.trans (List.suffix_cons _ _)
  | case4 t ts v _ ih => exact ih.trans (List.suffix_cons _ _)
  | case5 t ts s _ ih => exact ih.trans (List.suffix_cons _ _)
  | case6 => exact List.suffix_rfl
  | case7 => exact List.suffix_rfl

theorem voicePairs_rest_suffix
    (pos : Position)
    (name : String)
    (settings : VoiceSettings)
    (ts : List Token) :
    (voicePairs pos name settings ts).rest <:+ ts := by
  fun_induction voicePairs pos name settings ts with
  | case1 => exact List.suffix_rfl
  | case2 => exact List.suffix_cons _ _
  | case3 => exact List.suffix_rfl
  | case4 => exact List.nil_suffix
  | case5 => exact (List.suffix_cons _ _).trans (List.suffix_cons _ _)
  | case6 => exact List.nil_suffix
  | case7 _ t _ _ u _ _ _ c cs _ ih =>
      exact ih.trans (((List.suffix_cons _ _).trans (List.suffix_cons _ _)).trans
        (List.suffix_cons _ _))
  | case8 _ t _ _ u _ _ _ c cs _ ih =>
      exact ih.trans ((List.suffix_cons _ _).trans (List.suffix_cons _ _))
  | case9 => exact List.suffix_cons _ _
  | case10 => exact List.suffix_rfl

theorem voice_rest_suffix
    (pos : Position)
    (ts : List Token) :
    (voice pos ts).rest <:+ ts := by
  unfold voice
  split
  · rename_i name p ts
    split
    · exact List.suffix_cons _ _
    · rename_i us hbracket
      have hus := (accept_suffix hbracket).trans (List.suffix_cons ⟨.str name, p⟩ ts)
      split
      · exact hus
      · rename_i vs hbrace
        have hvs := (accept_suffix hbrace).trans hus
        split
        · exact hvs
        · exact (voicePairs_rest_suffix pos name .empty vs).trans hvs
  · exact List.suffix_rfl

theorem length_snd_suffix (ts : List Token) :
    (length ts).2 <:+ ts := by
  unfold length
  split
  · exact List.suffix_cons _ _
  · exact List.suffix_cons _ _
  · exact List.suffix_rfl

theorem pitch_snd_suffix (ts : List Token) :
    (pitch ts).2 <:+ ts := by
  unfold pitch
  split
  · exact (List.suffix_cons _ _).trans (List.suffix_cons _ _)
  · exact List.suffix_cons _ _
  · exact List.suffix_rfl

theorem phoneme_rest_suffix
    (pos : Position)
    (symbol : String)
    (ts : List Token) :
    (phoneme pos symbol ts).rest <:+ ts := by
  unfold phoneme
  split
  · exact List.suffix_rfl
  · rename_i us hchevron
    have hus := accept_suffix hchevron
    have hpitch := ((pitch_snd_suffix (length us).2).trans (length_snd_suffix us)).trans hus
    dsimp only
    split
    · rename_i vs hclose
      exact (accept_suffix hclose).trans hpitch
    · exact hpitch

theorem bracket_rest_suffix
    (pos : Position)
    (ts : List Token) :
    (bracket pos ts).rest <:+ ts := by
  unfold bracket
  split
  · rename_i text p rest
    split
    · exact List.suffix_rfl
    · rename_i name _
      split
      · exact (voice_rest_suffix pos rest).trans (List.suffix_cons _ _)
      · have hparams := (params_rest_suffix pos name rest).trans
          (List.suffix_cons ⟨.str text, p⟩ rest)
        unfold Reading.bind
        split
        · dsimp only
          split
          · rename_i us hbrace
            exact (accept_suffix hbrace).trans hparams
          · exact hparams
        · exact hparams
  · exact List.suffix_rfl

end Suffixes

section Building

variable {K : Token.Kind → Prop}

theorem map_eq_ok
    {α β : Type}
    {f : α → β}
    {r : Reading α}
    {b : β}
    (h : (r.map f).result = .ok b) :
    ∃ a, r.result = .ok a ∧ b = f a := by
  unfold Reading.map at h
  cases hr : r.result with
  | error e =>
      rw [hr] at h
      cases h
  | ok a =>
      rw [hr] at h
      exact ⟨a, rfl, (Except.ok.inj h).symm⟩

theorem params_formed
    (pos : Position)
    (name : String)
    {ts : List Token}
    {ps : List Param}
    (hts : ∀ t ∈ ts, K t.kind)
    (h : (params pos name ts).result = .ok ps) :
    ∀ p ∈ ps, K p.token := by
  fun_induction params pos name ts generalizing ps with
  | case1 => cases h
  | case2 =>
      obtain rfl := Except.ok.inj h
      simp
  | case3 t ts v hkind ih =>
      obtain ⟨ht, hts⟩ := List.forall_mem_cons.1 hts
      obtain ⟨qs, hqs, rfl⟩ := map_eq_ok h
      rw [hkind] at ht
      exact List.forall_mem_cons.2 ⟨ht, ih hts hqs⟩
  | case4 t ts x hkind ih =>
      obtain ⟨ht, hts⟩ := List.forall_mem_cons.1 hts
      obtain ⟨qs, hqs, rfl⟩ := map_eq_ok h
      rw [hkind] at ht
      exact List.forall_mem_cons.2 ⟨ht, ih hts hqs⟩
  | case5 t ts s hkind ih =>
      obtain ⟨ht, hts⟩ := List.forall_mem_cons.1 hts
      obtain ⟨qs, hqs, rfl⟩ := map_eq_ok h
      rw [hkind] at ht
      exact List.forall_mem_cons.2 ⟨ht, ih hts hqs⟩
  | case6 => cases h
  | case7 => cases h

theorem voicePairs_formed
    (pos : Position)
    (name : String)
    {settings result : VoiceSettings}
    {ts : List Token}
    (hts : ∀ t ∈ ts, K t.kind)
    (hsettings : ∀ e ∈ settings.entries, K (.str e.1) ∧ K (.int e.2))
    (h : (voicePairs pos name settings ts).result = .ok result) :
    ∀ e ∈ result.entries, K (.str e.1) ∧ K (.int e.2) := by
  have hinsert : ∀ {settings : VoiceSettings} {key : String} {value : Int},
      (∀ e ∈ settings.entries, K (.str e.1) ∧ K (.int e.2)) → K (.str key) → K (.int value) →
      ∀ e ∈ (settings.insert key value).entries, K (.str e.1) ∧ K (.int e.2) := by
    intro settings key value hold hkey hvalue e he
    rcases VoiceSettings.mem_insertEntry he with rfl | he
    · exact ⟨hkey, hvalue⟩
    · exact hold e he
  fun_induction voicePairs pos name settings ts with
  | case1 => cases h
  | case2 =>
      obtain rfl := Except.ok.inj h
      exact hsettings
  | case3 => cases h
  | case4 => cases h
  | case5 => cases h
  | case6 => cases h
  | case7 settings t key htkind u value hukind hfresh c cs hcomma ih =>
      obtain ⟨ht, hts⟩ := List.forall_mem_cons.1 hts
      obtain ⟨hu, hts⟩ := List.forall_mem_cons.1 hts
      rw [htkind] at ht
      rw [hukind] at hu
      exact ih (List.forall_mem_cons.1 hts).2 (hinsert hsettings ht hu) h
  | case8 settings t key htkind u value hukind hfresh c cs hcomma ih =>
      obtain ⟨ht, hts⟩ := List.forall_mem_cons.1 hts
      obtain ⟨hu, hts⟩ := List.forall_mem_cons.1 hts
      rw [htkind] at ht
      rw [hukind] at hu
      exact ih hts (hinsert hsettings ht hu) h
  | case9 => cases h
  | case10 => cases h

theorem forall_of_suffix
    {ts rest : List Token}
    (hts : ∀ t ∈ ts, K t.kind)
    (h : rest <:+ ts) :
    ∀ t ∈ rest, K t.kind :=
  fun t ht => hts t (h.subset ht)

theorem voice_formed
    {pos : Position}
    {ts : List Token}
    {v : Voice}
    (hkeyword : K (.str ":voice"))
    (hts : ∀ t ∈ ts, K t.kind)
    (h : (voice pos ts).result = .ok v) :
    v.Formed K := by
  unfold voice at h
  split at h
  · rename_i name p ts
    obtain ⟨hname, hts⟩ := List.forall_mem_cons.1 hts
    split at h
    · cases h
    · rename_i us hbracket
      have hus := forall_of_suffix hts (accept_suffix hbracket)
      split at h
      · obtain rfl := Except.ok.inj h
        exact ⟨hkeyword, hname, by simp [VoiceSettings.empty]⟩
      · rename_i vs hbrace
        split at h
        · cases h
        · obtain ⟨settings, hsettings, rfl⟩ := map_eq_ok h
          exact ⟨hkeyword, hname,
            voicePairs_formed pos name (forall_of_suffix hus (accept_suffix hbrace))
              (by simp [VoiceSettings.empty]) hsettings⟩
  · cases h

theorem length_formed
    {ts : List Token}
    (hts : ∀ t ∈ ts, K t.kind) :
    (length ts).1 = .int 0 ∨ K (length ts).1.token := by
  unfold length
  split
  · exact Or.inr (hts _ List.mem_cons_self)
  · exact Or.inr (hts _ List.mem_cons_self)
  · exact Or.inl rfl

theorem pitch_formed
    {ts : List Token}
    (hts : ∀ t ∈ ts, K t.kind) :
    (pitch ts).1 = 0 ∨ K (.int (pitch ts).1) := by
  unfold pitch
  split
  · exact Or.inr (hts _ (List.mem_cons_of_mem _ List.mem_cons_self))
  · exact Or.inl rfl
  · exact Or.inl rfl

theorem restrict_restrict (p : Phoneme) :
    restrict (restrict p) = restrict p := by
  unfold restrict
  dsimp only
  cases hasNoLength p.symbol <;> cases hasNoPitch p.symbol <;> simp

theorem restrict_formed
    {p : Phoneme}
    (hsymbol : p.symbol = "," ∨ K (.str p.symbol))
    (hduration : p.duration = .int 0 ∨ K p.duration.token)
    (hpitch : p.pitch = 0 ∨ K (.int p.pitch)) :
    (restrict p).Formed K := by
  refine ⟨hsymbol, ?_, ?_, restrict_restrict p⟩
  · unfold restrict
    dsimp only
    cases hasNoLength p.symbol
    · simpa using hduration
    · simp
  · unfold restrict
    dsimp only
    cases hasNoPitch p.symbol
    · simpa using hpitch
    · simp

theorem phoneme_formed
    {pos : Position}
    {symbol : String}
    {ts : List Token}
    {p : Phoneme}
    (hsymbol : symbol = "," ∨ K (.str symbol))
    (hts : ∀ t ∈ ts, K t.kind)
    (h : (phoneme pos symbol ts).result = .ok p) :
    p.Formed K := by
  unfold phoneme at h
  split at h
  · obtain rfl := Except.ok.inj h
    exact restrict_formed hsymbol (Or.inl rfl) (Or.inl rfl)
  · rename_i us hchevron
    have hus := forall_of_suffix hts (accept_suffix hchevron)
    have hvs := forall_of_suffix hus (length_snd_suffix us)
    dsimp only at h
    split at h
    · obtain rfl := Except.ok.inj h
      exact restrict_formed hsymbol (length_formed hus) (pitch_formed hvs)
    · cases h

theorem bareName_eq_ok
    {text name : String}
    (h : bareName text = .ok name) :
    text = ":" ++ name ∧ name ≠ "" := by
  unfold bareName at h
  split at h
  · cases h
  · rename_i cs hne htext
    obtain rfl := Except.ok.inj h
    constructor
    · apply String.toList_injective
      simp [htext]
    · rintro hempty
      have hnil : cs = [] := by simpa using congrArg String.toList hempty
      subst hnil
      exact hne rfl
  · cases h

/-- What an opening bracket starts, built from tokens of which `K` holds. -/
def Opening.Formed (K : Token.Kind → Prop) : Opening → Prop
  | .whole node => node.Formed K
  | .block name ps =>
      K (.str (":" ++ name)) ∧ name ≠ "" ∧ name ≠ "voice" ∧ ∀ p ∈ ps, K p.token

theorem bracket_formed
    {pos : Position}
    {ts : List Token}
    {o : Opening}
    (hts : ∀ t ∈ ts, K t.kind)
    (h : (bracket pos ts).result = .ok o) :
    o.Formed K := by
  unfold bracket at h
  split at h
  · rename_i text p rest
    obtain ⟨htext, hrest⟩ := List.forall_mem_cons.1 hts
    split at h
    · cases h
    · rename_i name hname
      obtain ⟨rfl, hne⟩ := bareName_eq_ok hname
      split at h
      · rename_i hvoice
        subst hvoice
        obtain ⟨v, hv, rfl⟩ := map_eq_ok h
        exact Node.Formed.voice (voice_formed htext hrest hv)
      · rename_i hvoice
        unfold Reading.bind at h
        split at h
        · rename_i ps hps
          have hparams := params_formed pos name hrest hps
          dsimp only at h
          split at h
          · obtain rfl := Except.ok.inj h
            exact ⟨htext, hne, hvoice, hparams⟩
          · obtain rfl := Except.ok.inj h
            exact Node.Formed.command htext hne hvoice hparams (by simp)
        · cases h
  · cases h

/-- An open command built from tokens of which `K` holds. -/
structure Frame.Formed (K : Token.Kind → Prop) (f : Frame) : Prop where
  opening : (Opening.block f.name f.params).Formed K
  before : ∀ n ∈ f.before, n.Formed K

/-- Whatever holds of the tokens of a program holds of what its nodes are built
from, and only the last node is an end marker. -/
theorem items_formed
    {stack : List Frame}
    {done nodes : List Node}
    {ts : List Token}
    (hts : ∀ t ∈ ts, K t.kind)
    (hstack : ∀ f ∈ stack, f.Formed K)
    (hdone : ∀ n ∈ done, n.Formed K)
    (h : (items stack done ts).result = .ok nodes) :
    ∃ body pos, nodes = body ++ [.stop pos] ∧ ∀ n ∈ body, n.Formed K := by
  fun_induction items stack done ts with
  | case1 done =>
      obtain rfl := Except.ok.inj h
      exact ⟨done.reverse, {}, rfl, by simpa using hdone⟩
  | case2 => cases h
  | case3 done t ts _ =>
      obtain rfl := Except.ok.inj h
      exact ⟨done.reverse, t.pos, rfl, by simpa using hdone⟩
  | case4 => cases h
  | case5 => cases h
  | case6 stack done t ts _ node rest hread ih =>
      have htail := (List.forall_mem_cons.1 hts).2
      have hrest := bracket_rest_suffix t.pos ts
      have hnode := bracket_formed htail (congrArg Reading.result hread)
      rw [hread] at hrest
      exact ih (forall_of_suffix htail hrest) hstack (List.forall_mem_cons.2 ⟨hnode, hdone⟩) h
  | case7 stack done t ts _ name ps rest hread ih =>
      have htail := (List.forall_mem_cons.1 hts).2
      have hrest := bracket_rest_suffix t.pos ts
      have hopening := bracket_formed htail (congrArg Reading.result hread)
      rw [hread] at hrest
      exact ih (forall_of_suffix htail hrest)
        (List.forall_mem_cons.2 ⟨⟨hopening, hdone⟩, hstack⟩) (by simp) h
  | case8 => cases h
  | case9 stack done t ts symbol hkind p rest hread ih =>
      obtain ⟨hsymbol, htail⟩ := List.forall_mem_cons.1 hts
      rw [hkind] at hsymbol
      have hrest := phoneme_rest_suffix t.pos symbol ts
      have hp := phoneme_formed (Or.inr hsymbol) htail (congrArg Reading.result hread)
      rw [hread] at hrest
      exact ih (forall_of_suffix htail hrest) hstack
        (List.forall_mem_cons.2 ⟨.phoneme hp, hdone⟩) h
  | case10 => cases h
  | case11 stack done t ts _ p rest hread ih =>
      have htail := (List.forall_mem_cons.1 hts).2
      have hrest := phoneme_rest_suffix t.pos "," ts
      have hp := phoneme_formed (Or.inl rfl) htail (congrArg Reading.result hread)
      rw [hread] at hrest
      exact ih (forall_of_suffix htail hrest) hstack
        (List.forall_mem_cons.2 ⟨.phoneme hp, hdone⟩) h
  | case12 => cases h
  | case13 done t ts _ frame stack ih =>
      obtain ⟨hframe, hstack⟩ := List.forall_mem_cons.1 hstack
      obtain ⟨hkeyword, hne, hvoice, hparams⟩ := hframe.opening
      have hcommand : (Node.command frame.pos frame.name frame.params done.reverse).Formed K :=
        .command hkeyword hne hvoice hparams (by simpa using hdone)
      simp only [List.unattach_reverse, List.unattach_attach] at ih
      exact ih (List.forall_mem_cons.1 hts).2 hstack
        (List.forall_mem_cons.2 ⟨hcommand, hframe.before⟩) h
  | case14 => cases h
  | case15 => cases h

end Building

end Parse

/-- The nodes of a sequence of tokens are built from its tokens, and end with one
end marker. -/
theorem Node.formed_of_ofTokens
    {K : Token.Kind → Prop}
    {ts : List Token}
    {nodes : List Node}
    (heof : K .eof)
    (hts : ∀ t ∈ ts, K t.kind)
    (h : Node.ofTokens ts = .ok nodes) :
    ∃ body pos, nodes = body ++ [.stop pos] ∧ ∀ n ∈ body, n.Formed K := by
  have hclosed : ∀ t ∈ Parse.closed ts, K t.kind := by
    unfold Parse.closed
    split
    · exact hts
    · intro t ht
      rcases List.mem_append.1 ht with ht | ht
      · exact hts t ht
      · rw [List.mem_singleton.1 ht]
        exact heof
  exact Parse.items_formed hclosed (by simp) (by simp) h

end SpeechMarkup
