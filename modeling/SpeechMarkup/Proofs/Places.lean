import SpeechMarkup.Proofs.Correspondence

/-!
# Places do not matter

Places stand in nodes, and through definitions in stores, and nothing but the place of an
error depends on them.

* `Comparison` is a way to compare the definitions of two stores: `Comparison.entrywise` goes
  through them one after the other, and `Comparison.byName` looks at what is found under each
  name.
* `Store.Like` relates stores whose definitions are compared in such a way and are the same up
  to related places.  `Store.like_byName_iff` says it by look-ups, and `Store.Like.define` is the
  step.
* `placing` is the correspondence between runs of nodes that are the same up to related places.
* `process_like` says how such runs end: they hand over the same chunks and end alike.
-/

namespace SpeechMarkup

open Expansion

section Comparisons

/-- Any two places. -/
def Anywhere (_ _ : Position) : Prop := True

/-- Entries under the same name, with related values. -/
def SameName {α : Type} (related : α → α → Prop) (a b : String × α) : Prop :=
  b.1 = a.1 ∧ related a.2 b.2

/-- A way to compare lists of named values by a relation on the values. -/
structure Comparison where
  compares : {α : Type} → (α → α → Prop) → List (String × α) → List (String × α) → Prop
  refl : ∀ {α : Type} {related : α → α → Prop},
    (∀ a, related a a) → ∀ l, compares related l l
  /-- What is found under a name is related. -/
  lookup : ∀ {α : Type} {related : α → α → Prop} {l l' : List (String × α)},
    compares related l l' → ∀ name, Option.Rel related (l.lookup name) (l'.lookup name)
  /-- Related values can be stored under a name. -/
  append : ∀ {α : Type} {related : α → α → Prop} {l l' : List (String × α)} {a b : α},
    compares related l l' → ∀ name, related a b →
      compares related (l ++ [(name, a)]) (l' ++ [(name, b)])

variable {α : Type} {related : α → α → Prop} {found found' : Option α}

theorem isSome_eq_of_rel (h : Option.Rel related found found') :
    found'.isSome = found.isSome := by
  cases h <;> rfl

/-- Values that a view relates are found exactly if the look-ups find the same in the view. -/
theorem rel_iff_map_eq
    {β : Type}
    {view : α → β}
    (hview : ∀ a b, related a b ↔ view b = view a)
    (found found' : Option α) :
    Option.Rel related found found' ↔ found'.map view = found.map view := by
  cases found <;> cases found' <;> simp [hview]

theorem Matches.of_rel
    (excuse : Prop)
    (h : Option.Rel related found found') :
    Matches related excuse found found' := by
  cases h with
  | some h => exact .some h
  | none => exact .none

theorem rel_lookup_of_forall₂
    {l l' : List (String × α)}
    (h : List.Forall₂ (SameName related) l l')
    (name : String) :
    Option.Rel related (l.lookup name) (l'.lookup name) := by
  induction h with
  | nil => exact .none
  | @cons a b l l' hab _ ih =>
      obtain ⟨x, v⟩ := a
      obtain ⟨y, w⟩ := b
      obtain ⟨rfl, hvalue⟩ : y = x ∧ related v w := hab
      rw [List.lookup_cons, List.lookup_cons]
      cases hname : name == y with
      | true => exact .some hvalue
      | false => exact ih

/-- A value under a name is found behind those that were there before. -/
theorem rel_lookup_append
    {l l' : List (String × α)}
    {a b : α}
    (name : String)
    (h : ∀ x, Option.Rel related (l.lookup x) (l'.lookup x))
    (hab : related a b)
    (x : String) :
    Option.Rel related ((l ++ [(name, a)]).lookup x) ((l' ++ [(name, b)]).lookup x) := by
  have hentry : SameName related (name, a) (name, b) := ⟨rfl, hab⟩
  have hlast := rel_lookup_of_forall₂ (.cons hentry .nil) x
  rw [List.lookup_append, List.lookup_append]
  have hfirst := h x
  generalize l.lookup x = found at hfirst
  generalize l'.lookup x = found' at hfirst
  cases hfirst with
  | some h => exact .some h
  | none => exact hlast

/-- One after the other. -/
def Comparison.entrywise : Comparison where
  compares related := List.Forall₂ (SameName related)
  refl := fun h _ => List.forall₂_same.2 fun _ _ => ⟨rfl, h _⟩
  lookup := rel_lookup_of_forall₂
  append := fun h _ hab => List.rel_append h (.cons ⟨rfl, hab⟩ .nil)

/-- By what is found under each name. -/
def Comparison.byName : Comparison where
  compares related l l' := ∀ name, Option.Rel related (l.lookup name) (l'.lookup name)
  refl := fun h _ name => rel_lookup_of_forall₂ (List.forall₂_same.2 fun _ _ => ⟨rfl, h _⟩) name
  lookup := fun h => h
  append := fun h name hab => rel_lookup_append name h hab

end Comparisons

section Stores

/-- Stores whose definitions compare, and are the same up to related places. -/
structure Store.Like (C : Comparison) (places : Position → Position → Prop) (s t : Store) :
    Prop where
  unit : t.unit = s.unit
  workDir : t.workDir = s.workDir
  searchDirs : t.searchDirs = s.searchDirs
  phrases : C.compares (List.Forall₂ (Node.Alike places)) s.phrases t.phrases
  sounds : C.compares (List.Forall₂ (Phoneme.Alike places)) s.sounds t.sounds
  voices : C.compares Eq s.voices t.voices

variable {C : Comparison} {places : Position → Position → Prop} {s t : Store} {n n' : Node}

/-- Stores are alike by name exactly if every look-up finds the same, in views of phrases and
sounds that show what is related. -/
theorem Store.like_byName_iff
    {α β : Type}
    {ofNodes : List Node → α}
    {ofParts : List Phoneme → β}
    (hnodes : ∀ ns ms, List.Forall₂ (Node.Alike places) ns ms ↔ ofNodes ms = ofNodes ns)
    (hparts : ∀ ps qs, List.Forall₂ (Phoneme.Alike places) ps qs ↔ ofParts qs = ofParts ps) :
    s.Like .byName places t ↔
      t.unit = s.unit ∧ t.workDir = s.workDir ∧ t.searchDirs = s.searchDirs ∧
        (∀ name, (t.phrase? name).map ofNodes = (s.phrase? name).map ofNodes) ∧
        (∀ name, (t.sound? name).map ofParts = (s.sound? name).map ofParts) ∧
        ∀ name, t.voice? name = s.voice? name := by
  have hphrase := rel_iff_map_eq hnodes
  have hsound := rel_iff_map_eq hparts
  have hvoice : ∀ found found' : Option VoiceSettings,
      Option.Rel Eq found found' ↔ found' = found := by
    intro found found'
    cases found <;> cases found' <;> simp [eq_comm]
  constructor
  · intro h
    exact ⟨h.unit, h.workDir, h.searchDirs, fun name => (hphrase _ _).1 (h.phrases name),
      fun name => (hsound _ _).1 (h.sounds name), fun name => (hvoice _ _).1 (h.voices name)⟩
  · rintro ⟨hunit, hworkDir, hsearchDirs, hphrases, hsounds, hvoices⟩
    exact ⟨hunit, hworkDir, hsearchDirs, fun name => (hphrase _ _).2 (hphrases name),
      fun name => (hsound _ _).2 (hsounds name), fun name => (hvoice _ _).2 (hvoices name)⟩

/-- Two attempts to store something: both succeed, with related stores, or both fail with the
same fault. -/
inductive Stored (stores : Store → Store → Prop) :
    Except RegistrationFault Store → Except RegistrationFault Store → Prop
  | ok {u v : Store} (h : stores u v) : Stored stores (.ok u) (.ok v)
  | error (fault : RegistrationFault) : Stored stores (.error fault) (.error fault)

theorem Store.Like.refl (hrefl : ∀ pos, places pos pos) (s : Store) : s.Like C places s where
  unit := rfl
  workDir := rfl
  searchDirs := rfl
  phrases := C.refl (Node.Alike.refl_all hrefl) _
  sounds := C.refl (fun _ => List.forall₂_same.2 fun _ _ => ⟨hrefl _, rfl, rfl, rfl⟩) _
  voices := C.refl (fun _ => rfl) _

theorem Store.Like.nameFault?_eq
    (h : s.Like C places t)
    (command name : String) :
    t.nameFault? command name = s.nameFault? command name := by
  have hphrase : (t.phrase? name).isSome = (s.phrase? name).isSome :=
    isSome_eq_of_rel (C.lookup h.phrases name)
  have hsound : (t.sound? name).isSome = (s.sound? name).isSome :=
    isSome_eq_of_rel (C.lookup h.sounds name)
  rw [Store.nameFault?, Store.nameFault?, hphrase, hsound]

theorem Store.Like.defineNamed
    {context context' : List Node}
    (h : s.Like C places t)
    (command : String)
    (params : List Param)
    (hcontext : List.Forall₂ (Node.Alike places) context context') :
    Stored (Store.Like C places) (s.defineNamed command params context)
      (t.defineNamed command params context') := by
  unfold Store.defineNamed
  split
  · rename_i name more
    rw [h.nameFault?_eq]
    split
    · exact .error _
    · split
      · exact .ok { h with phrases := C.append h.phrases name hcontext }
      · exact .ok { h with sounds := C.append h.sounds name (phonemes_alike hcontext) }
  · exact .error _

theorem Store.Like.defineVoice
    {v w : Voice}
    (h : s.Like C places t)
    (hv : v.Alike places w) :
    Stored (Store.Like C places) (s.defineVoice v) (t.defineVoice w) := by
  have hvoice : (t.voice? v.name).isSome = (s.voice? v.name).isSome :=
    isSome_eq_of_rel (C.lookup h.voices v.name)
  unfold Store.defineVoice
  rw [hv.name, hv.settings, hvoice]
  split
  · exact .error _
  · split
    · exact .error _
    · exact .ok { h with voices := C.append h.voices v.name rfl }

/-- Definitions that are the same up to places are stored alike. -/
theorem Store.Like.define
    (h : s.Like C places t)
    (hn : n.Alike places n') :
    Stored (Store.Like C places) (s.define n) (t.define n') := by
  cases hn with
  | command _ hcontext =>
      simp only [Store.define]
      split
      · exact h.defineNamed _ _ hcontext
      · exact .error _
  | phoneme _ => exact .error _
  | voice hv => exact h.defineVoice hv
  | stop _ => exact .error _

end Stores

section Runs

variable {C : Comparison} {places : Position → Position → Prop}

/-- Runs of nodes that are the same up to related places, from stores that are like each
other. -/
def placing (files : Files) (C : Comparison) (hrefl : ∀ pos, places pos pos) :
    Correspondence files where
  places := places
  scopes := Eq
  stores := Store.Like C places
  excused := fun _ => False
  lost := fun _ => False
  refl := hrefl
  unit := fun h => h.unit
  tempo := fun _ h => { h with unit := rfl }
  define := by
    intro s s' n n' h hn
    have hstored := h.define hn
    generalize s.define n = stored at hstored
    generalize s'.define n' = stored' at hstored
    cases hstored with
    | ok h => exact Or.inl ⟨_, _, rfl, rfl, h⟩
    | error fault => exact Or.inr (Or.inl ⟨fault, rfl, Or.inl rfl⟩)
  phrase := fun name h => .of_rel _ (C.lookup h.phrases name)
  sound := fun name h => .of_rel _ (C.lookup h.sounds name)
  voice := fun name h => .of_rel _ (C.lookup h.voices name)
  locate := by
    rintro scope _ s s' name rfl h
    rw [Expansion.locate, Expansion.locate, h.searchDirs]
    exact .refl (fun _ => rfl) _
  enterFile := by
    rintro scope _ path rfl
    exact .refl (fun _ => rfl) _
  enterPhrase := by
    rintro scope _ name rfl
    exact .refl (fun _ => rfl) _
  lost_define := fun _ _ _ h _ => h
  lost_tempo := fun _ _ h => h

/-- Runs that hand over the same chunks, both succeed or have the same fault at related places,
and leave stores behind that are like each other. -/
inductive Outcome.Like (C : Comparison) (places : Position → Position → Prop) :
    Outcome → Outcome → Prop
  | ok {sink : Sink} {s t : Store} (h : s.Like C places t) :
      Like C places ⟨.ok (), sink, s⟩ ⟨.ok (), sink, t⟩
  | error {d e : Diagnostic} {sink : Sink} {s t : Store} (hvalue : e.value = d.value)
      (hpos : places d.pos e.pos) (h : s.Like C places t) :
      Like C places ⟨.error d, sink, s⟩ ⟨.error e, sink, t⟩

/-- Runs that hand over the same chunks, both succeed or have the same fault, and leave
stores behind that differ only in places. -/
def Outcome.Alike : Outcome → Outcome → Prop :=
  Outcome.Like .entrywise Anywhere

/-- Nodes that are the same up to places run alike. -/
theorem process_like
    {nodes nodes' : List Node}
    {s t : Store}
    (hrefl : ∀ pos, places pos pos)
    (files : Files)
    (scope : Scope)
    (sink : Sink)
    (hnodes : List.Forall₂ (Node.Alike places) nodes nodes')
    (hs : s.Like C places t) :
    (process files scope nodes sink s).Like C places (process files scope nodes' sink t) := by
  have hends : (placing files C hrefl).Ends (process files scope nodes sink s)
      (process files scope nodes' sink t) :=
    (placing files C hrefl).process_follows sink rfl hnodes hs
  generalize process files scope nodes sink s = out at hends ⊢
  generalize process files scope nodes' sink t = out' at hends ⊢
  cases hends with
  | ok h => exact .ok h
  | error hvalue hpos h => exact .error hvalue hpos h
  | excused h => cases h
  | lost h => cases h

/-- Nodes that differ only in places run alike from one store. -/
theorem process_alike
    {nodes nodes' : List Node}
    (files : Files)
    (scope : Scope)
    (sink : Sink)
    (s : Store)
    (hnodes : List.Forall₂ (Node.Alike Anywhere) nodes nodes') :
    (process files scope nodes sink s).Alike (process files scope nodes' sink s) :=
  process_like (fun _ => trivial) files scope sink hnodes (.refl (fun _ => trivial) s)

end Runs

end SpeechMarkup
