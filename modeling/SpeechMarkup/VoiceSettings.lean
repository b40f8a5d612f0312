import SpeechMarkup.Inventory

/-!
# Values of voice parameters

A voice declaration gives values to some parameters.  The values are kept in the
order of the parameters' names, one for each name, so that two declarations that
set the same parameters to the same values hold equal settings however they list
them.
-/

namespace SpeechMarkup

theorem lookup_cons_ite
    {α : Type}
    (key : String)
    (value : α)
    (entries : List (String × α))
    (x : String) :
    ((key, value) :: entries).lookup x = if x = key then some value else entries.lookup x := by
  rw [List.lookup_cons]
  by_cases hx : x = key
  · simp [hx]
  · rw [if_neg hx, beq_eq_false_iff_ne.2 hx]

/-- A finite map from parameter names to values, in the order of the names. -/
structure VoiceSettings where
  entries : List (String × Int)
  sorted : entries.Pairwise (fun a b => a.1 < b.1)
deriving Repr, DecidableEq

namespace VoiceSettings

def empty : VoiceSettings :=
  ⟨[], List.Pairwise.nil⟩

/-- The value of a parameter, if it is set. -/
def get? (s : VoiceSettings) (key : String) : Option Int :=
  s.entries.lookup key

def contains (s : VoiceSettings) (key : String) : Bool :=
  (s.get? key).isSome

/-- Puts a value into a list of entries that is in the order of the names. -/
def insertEntry (key : String) (value : Int) :
    List (String × Int) → List (String × Int)
  | [] => [(key, value)]
  | (k, v) :: rest =>
      if key < k then (key, value) :: (k, v) :: rest
      else if key = k then (key, value) :: rest
      else (k, v) :: insertEntry key value rest

theorem mem_insertEntry
    {key : String}
    {value : Int}
    {entries : List (String × Int)}
    {e : String × Int}
    (h : e ∈ insertEntry key value entries) :
    e = (key, value) ∨ e ∈ entries := by
  fun_induction insertEntry key value entries with
  | case1 => simpa using h
  | case2 => simpa using h
  | case3 =>
      rcases List.mem_cons.1 h with h | h
      · exact Or.inl h
      · exact Or.inr (List.mem_cons_of_mem _ h)
  | case4 k v rest _ _ ih =>
      rcases List.mem_cons.1 h with h | h
      · exact Or.inr (by simp [h])
      · exact (ih h).imp_right (List.mem_cons_of_mem _)

theorem lookup_insertEntry
    (key : String)
    (value : Int)
    (entries : List (String × Int))
    (x : String) :
    (insertEntry key value entries).lookup x =
      if x = key then some value else entries.lookup x := by
  fun_induction insertEntry key value entries with
  | case1 => exact lookup_cons_ite key value [] x
  | case2 k v rest _ => exact lookup_cons_ite key value ((k, v) :: rest) x
  | case3 v rest _ =>
      rw [lookup_cons_ite, lookup_cons_ite]
      by_cases hx : x = key
      · simp [hx]
      · simp [hx]
  | case4 k v rest _ hne ih =>
      rw [lookup_cons_ite, lookup_cons_ite, ih]
      by_cases hx : x = k
      · have hother : x ≠ key := fun hkey => hne (hkey.symm.trans hx)
        rw [if_pos hx, if_neg hother, if_pos hx]
      · rw [if_neg hx, if_neg hx]

theorem insertEntry_sorted
    (key : String)
    (value : Int)
    {entries : List (String × Int)}
    (h : entries.Pairwise (fun a b => a.1 < b.1)) :
    (insertEntry key value entries).Pairwise (fun a b => a.1 < b.1) := by
  fun_induction insertEntry key value entries with
  | case1 => simp
  | case2 k v rest hlt =>
      refine List.pairwise_cons.2 ⟨?_, h⟩
      intro e he
      rcases List.mem_cons.1 he with rfl | he
      · exact hlt
      · exact String.lt_trans hlt ((List.pairwise_cons.1 h).1 e he)
  | case3 v rest _ =>
      exact List.pairwise_cons.2 (List.pairwise_cons.1 h)
  | case4 k v rest hnlt hne ih =>
      have hcons := List.pairwise_cons.1 h
      refine List.pairwise_cons.2 ⟨?_, ih hcons.2⟩
      intro e he
      rcases mem_insertEntry he with rfl | he
      · have hle : k ≤ key := String.not_lt.1 hnlt
        refine Decidable.byContradiction fun hnot => hne ?_
        exact String.le_antisymm (String.not_lt.1 hnot) hle
      · exact hcons.1 e he

/-- Sets a parameter, replacing an earlier value. -/
def insert (s : VoiceSettings) (key : String) (value : Int) : VoiceSettings :=
  ⟨insertEntry key value s.entries, insertEntry_sorted key value s.sorted⟩

theorem get?_insert
    (settings : VoiceSettings)
    (key : String)
    (value : Int)
    (x : String) :
    (settings.insert key value).get? x = if x = key then some value else settings.get? x :=
  lookup_insertEntry key value settings.entries x

theorem contains_insert
    (settings : VoiceSettings)
    (key : String)
    (value : Int)
    (x : String) :
    (settings.insert key value).contains x = (decide (x = key) || settings.contains x) := by
  unfold contains
  rw [get?_insert]
  by_cases hx : x = key
  · simp [hx]
  · simp [hx]

/-- The settings of a list of pairs, of which a later one replaces an earlier. -/
def ofList (pairs : List (String × Int)) : VoiceSettings :=
  pairs.foldl (fun s (k, v) => s.insert k v) empty

/-- The settings `s` with those of `t` replacing them. -/
def override (s t : VoiceSettings) : VoiceSettings :=
  t.entries.foldl (fun s (k, v) => s.insert k v) s

/-- Every parameter at its default. -/
def default : VoiceSettings :=
  ofList (voiceParams.map fun p => (p.name, p.default))

end VoiceSettings

end SpeechMarkup
