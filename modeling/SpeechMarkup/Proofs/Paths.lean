import Mathlib.Data.List.TakeWhile
import Mathlib.Tactic
import SpeechMarkup.Path

/-!
# What paths are made of

Taking a path apart and putting it together again brings in no code points but slashes
and dots, and loses no segment that names something.

* `Path.mem_of_mem_absolute`: where the code points of a path come from.
* `Path.Clean`: paths from the root in which everything says something.
* `Path.Clean.eq_of_names_eq`: without segments of two dots, such a path is known by the
  names it leads to.
-/

namespace SpeechMarkup
namespace Path

section Chars

theorem mem_of_mem_split
    {cs seg : List Char}
    {c : Char}
    (hseg : seg ∈ split cs)
    (hc : c ∈ seg) :
    c ∈ cs := by
  induction cs generalizing seg with
  | nil =>
      rw [split, List.mem_singleton] at hseg
      rw [hseg] at hc
      cases hc
  | cons d cs ih =>
      rw [split] at hseg
      split at hseg
      · rcases List.mem_cons.1 hseg with rfl | hseg
        · cases hc
        · exact List.mem_cons_of_mem _ (ih hseg hc)
      · split at hseg
        · rw [List.mem_singleton.1 hseg] at hc
          simp_all
        · rename_i first rest hsplit
          rcases List.mem_cons.1 hseg with rfl | hseg
          · rcases List.mem_cons.1 hc with rfl | hc
            · simp
            · exact List.mem_cons_of_mem _ (ih (by simp [hsplit]) hc)
          · exact List.mem_cons_of_mem _ (ih (by simp [hsplit, hseg]) hc)

theorem mem_of_mem_unsplit
    {body : List (List Char)}
    {c : Char}
    (hc : c ∈ unsplit body) :
    c = '/' ∨ ∃ seg ∈ body, c ∈ seg := by
  fun_induction unsplit body with
  | case1 => cases hc
  | case2 seg => exact Or.inr ⟨seg, by simp, hc⟩
  | case3 seg rest _ ih =>
      rcases List.mem_append.1 hc with hc | hc
      · exact Or.inr ⟨seg, by simp, hc⟩
      · rcases List.mem_cons.1 hc with hc | hc
        · exact Or.inl hc
        · rcases ih hc with hslash | ⟨other, hother, hmem⟩
          · exact Or.inl hslash
          · exact Or.inr ⟨other, by simp [hother], hmem⟩

theorem mem_of_mem_anatomy
    {cs seg : List Char}
    {c : Char}
    (hseg : seg ∈ (anatomy cs).2)
    (hc : c ∈ seg) :
    c ∈ cs := by
  unfold anatomy at hseg
  split at hseg
  · exact List.mem_cons_of_mem _ (mem_of_mem_split hseg hc)
  · split at hseg
    · rename_i body hsplit
      exact mem_of_mem_split (by rw [hsplit]; exact List.mem_cons_of_mem _ hseg) hc
    · exact mem_of_mem_split hseg hc

theorem mem_of_mem_assemble
    {lead : Lead}
    {body : List (List Char)}
    {c : Char}
    (hc : c ∈ assemble lead body) :
    c = '/' ∨ c = '.' ∨ ∃ seg ∈ body, c ∈ seg := by
  cases lead with
  | root =>
      rcases List.mem_cons.1 hc with hc | hc
      · exact Or.inl hc
      · exact (mem_of_mem_unsplit hc).imp_right Or.inr
  | here =>
      rcases mem_of_mem_unsplit hc with hslash | ⟨seg, hseg, hmem⟩
      · exact Or.inl hslash
      · rcases List.mem_cons.1 hseg with rfl | hseg
        · exact Or.inr (Or.inl (List.mem_singleton.1 hmem))
        · exact Or.inr (Or.inr ⟨seg, hseg, hmem⟩)
  | bare => exact (mem_of_mem_unsplit hc).imp_right Or.inr

/-- Putting together some of a path's segments brings in no code points but slashes
and dots. -/
theorem mem_of_mem_reassemble
    {cs : List Char}
    {body : List (List Char)}
    (hbody : body ⊆ (anatomy cs).2)
    {c : Char}
    (hc : c ∈ assemble (anatomy cs).1 body) :
    c = '/' ∨ c = '.' ∨ c ∈ cs := by
  rcases mem_of_mem_assemble hc with hslash | hdot | ⟨seg, hseg, hmem⟩
  · exact Or.inl hslash
  · exact Or.inr (Or.inl hdot)
  · exact Or.inr (Or.inr (mem_of_mem_anatomy (hbody hseg) hmem))

theorem mem_of_mem_normal
    {path : String}
    {c : Char}
    (hc : c ∈ (normal path).toList) :
    c = '/' ∨ c = '.' ∨ c ∈ path.toList := by
  unfold normal at hc
  rw [String.toList_ofList] at hc
  exact mem_of_mem_reassemble List.filter_sublist.subset hc

theorem trimEnd_subset (body : List (List Char)) : trimEnd body ⊆ body := by
  intro seg hseg
  have hmem := List.mem_reverse.1 hseg
  exact List.mem_reverse.1 ((List.dropWhile_sublist _).subset hmem)

theorem mem_of_mem_parent?
    {path parent : String}
    (h : parent? path = some parent)
    {c : Char}
    (hc : c ∈ parent.toList) :
    c = '/' ∨ c = '.' ∨ c ∈ path.toList := by
  unfold parent? at h
  dsimp only at h
  split at h
  · split at h
    · obtain rfl := Option.some.inj h
      cases hc
    · cases h
  · obtain rfl := Option.some.inj h
    rw [String.toList_ofList] at hc
    refine mem_of_mem_reassemble ?_ hc
    exact fun seg hseg =>
      trimEnd_subset _ ((List.dropLast_sublist _).subset (trimEnd_subset _ hseg))

theorem mem_of_mem_join
    {base path : String}
    {c : Char}
    (hc : c ∈ (join base path).toList) :
    c = '/' ∨ c ∈ base.toList ∨ c ∈ path.toList := by
  unfold join at hc
  split at hc
  · exact Or.inr (Or.inr hc)
  · split at hc
    · rw [String.toList_append, List.mem_append] at hc
      exact Or.inr hc
    · simp only [String.toList_append, List.mem_append] at hc
      rcases hc with (hc | hc) | hc
      · exact Or.inr (Or.inl hc)
      · exact Or.inl (by simpa using hc)
      · exact Or.inr (Or.inr hc)

theorem mem_of_mem_absolute
    {base path : String}
    {c : Char}
    (hc : c ∈ (absolute base path).toList) :
    c = '/' ∨ c = '.' ∨ c ∈ base.toList ∨ c ∈ path.toList := by
  rcases mem_of_mem_normal hc with hslash | hdot | hmem
  · exact Or.inl hslash
  · exact Or.inr (Or.inl hdot)
  · rcases mem_of_mem_join hmem with hslash | hmem
    · exact Or.inl hslash
    · exact Or.inr (Or.inr hmem)

end Chars

section Segments

/-- The segments of a path that name something. -/
def segments (path : String) : List (List Char) :=
  (split path.toList).filter isReal

/-- Whether a path leads up through a segment of two dots. -/
def goesUp (path : String) : Bool :=
  (segments path).contains ['.', '.']

/-- Where a segment leads from a list of names; two dots take the last name away. -/
def follow (names : List String) (s : List Char) : List String :=
  if s = ['.', '.'] then names.dropLast else names ++ [String.ofList s]

/-- The names that a path leads to from the root, if nothing on it is a link. -/
def names (path : String) : List String :=
  (segments path).foldl follow []

theorem not_slash_mem_of_mem_split
    {cs seg : List Char}
    (h : seg ∈ split cs) :
    '/' ∉ seg := by
  induction cs generalizing seg with
  | nil =>
      rw [split, List.mem_singleton] at h
      simp [h]
  | cons c cs ih =>
      rw [split] at h
      split at h
      · rcases List.mem_cons.1 h with rfl | h
        · simp
        · exact ih h
      · rename_i hc
        split at h
        · rw [List.mem_singleton.1 h]
          simpa using Ne.symm hc
        · rename_i first rest hsplit
          rcases List.mem_cons.1 h with rfl | h
          · have hfirst : '/' ∉ first := ih (by simp [hsplit])
            simpa using ⟨Ne.symm hc, hfirst⟩
          · exact ih (by simp [hsplit, h])

theorem split_append_slash
    {seg : List Char}
    (hseg : '/' ∉ seg)
    (cs : List Char) :
    split (seg ++ '/' :: cs) = seg :: split cs := by
  induction seg with
  | nil => simp [split]
  | cons c seg ih =>
      obtain ⟨hc, hseg⟩ := List.ne_and_not_mem_of_not_mem_cons hseg
      rw [List.cons_append, split, if_neg (Ne.symm hc), ih hseg]

theorem split_of_not_mem
    {seg : List Char}
    (hseg : '/' ∉ seg) :
    split seg = [seg] := by
  induction seg with
  | nil => rfl
  | cons c seg ih =>
      obtain ⟨hc, hseg⟩ := List.ne_and_not_mem_of_not_mem_cons hseg
      rw [split, if_neg (Ne.symm hc), ih hseg]

/-- Segments without slashes are read back from the path that they make up. -/
theorem split_unsplit
    {body : List (List Char)}
    (hne : body ≠ [])
    (hslash : ∀ seg ∈ body, '/' ∉ seg) :
    split (unsplit body) = body := by
  fun_induction unsplit body with
  | case1 => exact absurd rfl hne
  | case2 seg => exact split_of_not_mem (hslash seg (by simp))
  | case3 seg rest hrest ih =>
      obtain ⟨hseg, htail⟩ := List.forall_mem_cons.1 hslash
      rw [split_append_slash hseg, ih (by simpa using hrest) htail]

theorem toList_eq_of_isAbsolute
    {path : String}
    (h : isAbsolute path = true) :
    ∃ rest, path.toList = '/' :: rest := by
  unfold isAbsolute at h
  cases hlist : path.toList with
  | nil => simp [hlist] at h
  | cons c rest =>
      simp only [hlist, List.head?_cons, Option.some.injEq, decide_eq_true_eq] at h
      exact ⟨rest, by rw [h]⟩

theorem segments_of_isAbsolute
    {path : String}
    {rest : List Char}
    (h : path.toList = '/' :: rest) :
    segments path = (split rest).filter isReal := by
  simp [segments, h, split, isReal]

theorem anatomy_of_slash (rest : List Char) :
    anatomy ('/' :: rest) = (.root, split rest) := rfl

/-- A path from the root is a slash and its segments that name something. -/
theorem toList_normal
    {path : String}
    (h : isAbsolute path = true) :
    (normal path).toList = '/' :: unsplit (segments path) := by
  obtain ⟨rest, hrest⟩ := toList_eq_of_isAbsolute h
  simp [normal, hrest, anatomy_of_slash, assemble, segments_of_isAbsolute hrest]

theorem isAbsolute_normal
    {path : String}
    (h : isAbsolute path = true) :
    isAbsolute (normal path) = true := by
  simp [isAbsolute, toList_normal h]

theorem segments_normal
    {path : String}
    (h : isAbsolute path = true) :
    segments (normal path) = segments path := by
  have hslash : ∀ seg ∈ segments path, '/' ∉ seg := by
    intro seg hseg
    exact not_slash_mem_of_mem_split (List.mem_of_mem_filter hseg)
  rw [segments_of_isAbsolute (toList_normal h)]
  by_cases hne : segments path = []
  · simp [hne, unsplit, split, isReal]
  · rw [split_unsplit hne hslash]
    simp [segments]

theorem normal_normal
    {path : String}
    (h : isAbsolute path = true) :
    normal (normal path) = normal path := by
  apply String.toList_injective
  rw [toList_normal (isAbsolute_normal h), toList_normal h, segments_normal h]

/-- What says nothing does not make a path start at the root. -/
theorem isAbsolute_of_isAbsolute_normal
    {path : String}
    (h : isAbsolute (normal path) = true) :
    isAbsolute path = true := by
  have hbare : ∀ cs : List Char, (unsplit ((split cs).filter isReal)).head? ≠ some '/' := by
    intro cs
    have hreal : ∀ seg ∈ (split cs).filter isReal, seg ≠ [] ∧ '/' ∉ seg := by
      intro seg hseg
      obtain ⟨hmem, hisReal⟩ := List.mem_filter.1 hseg
      refine ⟨?_, not_slash_mem_of_mem_split hmem⟩
      rintro rfl
      cases hisReal
    cases hsegs : (split cs).filter isReal with
    | nil => simp [unsplit]
    | cons seg rest =>
        obtain ⟨hne, hslash⟩ := hreal seg (by simp [hsegs])
        obtain ⟨c, seg, rfl⟩ := List.exists_cons_of_ne_nil hne
        have hc : c ≠ '/' := fun hc => hslash (by simp [hc])
        cases rest <;> simpa [unsplit] using hc
  unfold isAbsolute normal at h
  unfold isAbsolute
  simp only [String.toList_ofList, decide_eq_true_eq] at h ⊢
  unfold anatomy at h
  split at h
  · rename_i rest heq
    simp [heq]
  · split at h
    · rename_i body _
      rw [assemble] at h
      cases hsegs : body.filter isReal with
      | nil => simp [hsegs, unsplit] at h
      | cons seg rest => simp [hsegs, unsplit] at h
    · exact absurd h (hbare path.toList)

/-- A path from the root in which everything says something. -/
structure Clean (path : String) : Prop where
  isAbsolute : isAbsolute path = true
  normal : normal path = path

/-- A clean path is known by its segments. -/
theorem Clean.eq_of_segments_eq
    {p q : String}
    (hp : Clean p)
    (hq : Clean q)
    (h : segments p = segments q) :
    p = q := by
  rw [← hp.normal, ← hq.normal]
  apply String.toList_injective
  rw [toList_normal hp.isAbsolute, toList_normal hq.isAbsolute, h]

theorem isAbsolute_join
    {base : String}
    (path : String)
    (h : isAbsolute base = true) :
    isAbsolute (join base path) = true := by
  obtain ⟨rest, hrest⟩ := toList_eq_of_isAbsolute h
  unfold join
  split
  · assumption
  · split
    · simp [isAbsolute, String.toList_append, hrest]
    · simp [isAbsolute, String.toList_append, hrest]

theorem clean_absolute
    {base : String}
    (path : String)
    (h : isAbsolute base = true) :
    Clean (absolute base path) :=
  ⟨isAbsolute_normal (isAbsolute_join path h), normal_normal (isAbsolute_join path h)⟩

/-- A path from the root in which everything says something stands alone under every
directory. -/
theorem Clean.absolute_eq
    {path : String}
    (h : Clean path)
    (base : String) :
    absolute base path = path := by
  rw [absolute, join, if_pos h.isAbsolute, h.normal]

theorem isAbsolute_of_parent?
    {path parent : String}
    (h : isAbsolute path = true)
    (hparent : parent? path = some parent) :
    isAbsolute parent = true := by
  obtain ⟨rest, hrest⟩ := toList_eq_of_isAbsolute h
  simp only [parent?, hrest, anatomy_of_slash] at hparent
  split at hparent
  · cases hparent
  · obtain rfl := Option.some.inj hparent
    simp [isAbsolute, assemble]

theorem segments_eq_nil_of_parent?
    {path : String}
    (h : isAbsolute path = true)
    (hparent : parent? path = none) :
    segments path = [] := by
  obtain ⟨rest, hrest⟩ := toList_eq_of_isAbsolute h
  simp only [parent?, hrest, anatomy_of_slash] at hparent
  split at hparent
  · rename_i hempty
    simp only [trimEnd, List.isEmpty_reverse, List.isEmpty_iff, List.dropWhile_eq_nil_iff,
      List.mem_reverse] at hempty
    rw [segments_of_isAbsolute hrest, List.filter_eq_nil_iff]
    intro seg hseg
    simpa using hempty seg hseg
  · cases hparent

/-- The root is the only clean path that lies in no directory. -/
theorem Clean.exists_parent?
    {path : String}
    (h : Clean path)
    (hroot : path ≠ "/") :
    ∃ parent, parent? path = some parent := by
  cases hparent : parent? path with
  | some parent => exact ⟨parent, rfl⟩
  | none =>
      have hsegments := segments_eq_nil_of_parent? h.isAbsolute hparent
      refine absurd ?_ hroot
      apply String.toList_injective
      rw [← h.normal, toList_normal h.isAbsolute, hsegments]
      rfl

theorem foldl_follow
    {segs : List (List Char)}
    (here : List String)
    (hup : ['.', '.'] ∉ segs) :
    segs.foldl follow here = here ++ segs.map String.ofList := by
  induction segs generalizing here with
  | nil => simp
  | cons s segs ih =>
      obtain ⟨hs, hup⟩ := List.ne_and_not_mem_of_not_mem_cons hup
      rw [List.foldl_cons, ih _ hup, follow, if_neg (Ne.symm hs)]
      simp

/-- Without two dots, a path leads to its own segments. -/
theorem names_of_goesUp_eq_false
    {path : String}
    (h : goesUp path = false) :
    names path = (segments path).map String.ofList := by
  have hup : ['.', '.'] ∉ segments path := by simpa [goesUp] using h
  exact foldl_follow [] hup

/-- Different clean paths lead to different names, unless one goes up. -/
theorem Clean.eq_of_names_eq
    {p q : String}
    (hp : Clean p)
    (hq : Clean q)
    (hup : goesUp p = false)
    (hup' : goesUp q = false)
    (h : names p = names q) :
    p = q := by
  rw [names_of_goesUp_eq_false hup, names_of_goesUp_eq_false hup'] at h
  have hinjective : Function.Injective String.ofList := fun _ _ => String.ofList_injective
  exact hp.eq_of_segments_eq hq (hinjective.list_map h)

end Segments

end Path
end SpeechMarkup
