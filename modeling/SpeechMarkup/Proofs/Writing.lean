import SpeechMarkup.Proofs.Finding
import SpeechMarkup.Proofs.Resolution

/-!
# Files written on a disk

Writing a file changes what stands under one name and nothing else: every path that led
somewhere leads there still, and new is only what leads to the file itself.

* `Disk.Keeps` says that a disk has all that another has, and `Disk.Keeps.resolve` that
  every path leads where it led.
* `Disk.Fills` says that files were written in certain places; every `Disk.put` in one of
  them is such a step.  `Disk.Fills.resolve_back` carries paths back, and
  `Disk.Fills.agreeOff` says that reading differs only in those places.
* `Disk.Grows` is the same for directories that are made, and `Disk.Grows.agreeOff` says what
  that changes.
-/

namespace SpeechMarkup

namespace Disk

section Entries

variable (d : Disk) {key : List String} (e : Entry)

theorem lookup_replace
    (entries : List (List String × Entry))
    (names : List String) :
    (entries.map fun p => if p.1 = key then (key, e) else p).lookup names =
      if names = key ∧ entries.any (·.1 = key) then some e else entries.lookup names := by
  induction entries with
  | nil => simp
  | cons p entries ih =>
      obtain ⟨k, v⟩ := p
      by_cases hk : k = key
      · subst hk
        by_cases hnames : names = k
        · simp [hnames]
        · have hbeq : (names == k) = false := beq_eq_false_iff_ne.2 hnames
          rw [List.map_cons, if_pos rfl, List.lookup_cons, List.lookup_cons, hbeq, ih]
          simp [hnames]
      · rw [List.map_cons, if_neg hk, List.lookup_cons, List.lookup_cons, ih]
        by_cases hnames : names = key
        · have hbeq : (names == k) = false := beq_eq_false_iff_ne.2 (hnames ▸ Ne.symm hk)
          simp only [hbeq, List.any_cons, decide_eq_false hk, Bool.false_or]
        · simp [hnames]

theorem entry?_put
    (hkey : key ≠ [])
    (names : List String) :
    entry? (d.put key e) names = if names = key then some e else d.entry? names := by
  have hnone : ¬ d.entries.any (·.1 = key) → d.entries.lookup key = none := by
    intro hany
    cases hlookup : d.entries.lookup key with
    | none => rfl
    | some v =>
        have hmem := mem_of_lookup_eq_some hlookup
        exact absurd (List.any_eq_true.2 ⟨_, hmem, by simp⟩) hany
  by_cases hroot : names = []
  · simp [hroot, hkey.symm, entry?]
  · have hentry : ∀ d : Disk, d.entry? names = d.entries.lookup names := fun d =>
      if_neg (by simpa using hroot)
    rw [hentry, hentry, put]
    by_cases hany : d.entries.any (·.1 = key)
    · rw [if_pos hany, lookup_replace, hany]
      simp
    · rw [if_neg hany, List.lookup_append]
      by_cases hnames : names = key
      · simp [hnames, hnone hany]
      · have hbeq : (names == key) = false := beq_eq_false_iff_ne.2 hnames
        simp [List.lookup_cons, hnames, hbeq]

@[simp] theorem workDir_put (names : List String) : (d.put names e).workDir = d.workDir := by
  unfold put
  split <;> rfl

end Entries

/-- Something stands on the disk `e` wherever something stands on `d`, and a directory where
a directory stands. -/
structure Keeps (d e : Disk) : Prop where
  workDir : e.workDir = d.workDir
  directory : ∀ names, d.entry? names = some .directory → e.entry? names = some .directory
  isSome : ∀ names, (d.entry? names).isSome → (e.entry? names).isSome

namespace Keeps

variable {d e : Disk} {names here : List String} {segs : List (List Char)} {path : String}

theorem walk
    (h : Keeps d e)
    (hwalk : d.walk segs here = .ok names) :
    e.walk segs here = .ok names := by
  induction segs generalizing here with
  | nil => exact hwalk
  | cons s segs ih =>
      rw [walk_cons_eq_ok_iff] at hwalk ⊢
      obtain ⟨hdir, hcases⟩ := hwalk
      refine ⟨h.directory _ hdir, ?_⟩
      rcases hcases with ⟨hreal, hrest⟩ | ⟨hreal, hup, hrest⟩ | ⟨hreal, hup, hlimit, hsome, hrest⟩
      · exact Or.inl ⟨hreal, ih hrest⟩
      · exact Or.inr (Or.inl ⟨hreal, hup, ih hrest⟩)
      · exact Or.inr (Or.inr ⟨hreal, hup, hlimit, h.isSome _ hsome, ih hrest⟩)

theorem base
    (h : Keeps d e)
    (hbase : d.base path = .ok here) :
    e.base path = .ok here := by
  rw [base_eq_ok_iff] at hbase ⊢
  obtain ⟨hlimit, hempty, hstart⟩ := hbase
  refine ⟨hlimit, hempty, ?_⟩
  split at hstart
  · rwa [if_pos ‹_›]
  · rw [if_neg ‹_›, h.workDir]
    exact h.walk hstart

/-- What a path led to, it leads to still. -/
theorem resolve
    (h : Keeps d e)
    (hresolve : d.resolve path = .ok names) :
    e.resolve path = .ok names := by
  rw [resolve_eq_ok_iff] at hresolve ⊢
  obtain ⟨here, hbase, hwalk⟩ := hresolve
  exact ⟨here, h.base hbase, h.walk hwalk⟩

theorem isDir
    (h : Keeps d e)
    (hdir : d.isDir path = true) :
    e.isDir path = true := by
  have hlookup : d.lookup path = some .directory := by simpa [Disk.isDir] using hdir
  unfold lookup at hlookup
  cases hresolve : d.resolve path with
  | error fault =>
      rw [hresolve] at hlookup
      cases hlookup
  | ok names =>
      rw [hresolve] at hlookup
      have hentry := h.directory _ hlookup
      simp [Disk.isDir, lookup, h.resolve hresolve, hentry]

end Keeps

/-- The disk `e` is `d` after files were written in some of the places `W`, none of them
over a directory. -/
structure Fills (W : List String → Prop) (d e : Disk) : Prop where
  workDir : e.workDir = d.workDir
  entry : ∀ names, e.entry? names = d.entry? names ∨
    W names ∧ d.entry? names ≠ some .directory ∧ ∃ text, e.entry? names = some (.text text)

namespace Fills

variable {W : List String → Prop} {d e f : Disk} {names here : List String}
variable {segs : List (List Char)} {path : String}

theorem refl (W : List String → Prop) (d : Disk) : Fills W d d :=
  ⟨rfl, fun _ => Or.inl rfl⟩

theorem trans
    (h : Fills W d e)
    (h' : Fills W e f) :
    Fills W d f := by
  refine ⟨h'.workDir.trans h.workDir, fun names => ?_⟩
  rcases h.entry names with heq | ⟨hW, hdir, text, htext⟩
  · rcases h'.entry names with heq' | ⟨hW, hdir, hfile⟩
    · exact Or.inl (heq'.trans heq)
    · exact Or.inr ⟨hW, heq ▸ hdir, hfile⟩
  · rcases h'.entry names with heq' | ⟨-, -, hfile⟩
    · exact Or.inr ⟨hW, hdir, text, heq'.trans htext⟩
    · exact Or.inr ⟨hW, hdir, hfile⟩

theorem put
    (hW : W names)
    (hne : names ≠ [])
    (hdir : d.entry? names ≠ some .directory)
    (text : String) :
    Fills W d (d.put names (.text text)) := by
  refine ⟨workDir_put _ _ _, fun other => ?_⟩
  rw [entry?_put _ _ hne]
  split
  · rename_i heq
    subst heq
    exact Or.inr ⟨hW, hdir, text, rfl⟩
  · exact Or.inl rfl

/-- What a file holds is the only difference that writing it again can make. -/
theorem of_put
    {text : String}
    (hW : W names)
    (hne : names ≠ [])
    (htext : d.entry? names = some (.text text))
    (text' : String) :
    Fills W (d.put names (.text text')) d := by
  refine ⟨(workDir_put _ _ _).symm, fun other => ?_⟩
  rw [entry?_put _ _ hne]
  split
  · rename_i heq
    subst heq
    exact Or.inr ⟨hW, by simp, text, htext⟩
  · exact Or.inl rfl

variable (h : Fills W d e)

include h

theorem directory_iff : e.entry? names = some .directory ↔ d.entry? names = some .directory := by
  rcases h.entry names with heq | ⟨-, hdir, text, htext⟩
  · rw [heq]
  · simp [htext, hdir]

theorem keeps : Keeps d e := by
  refine ⟨h.workDir, fun names => h.directory_iff.2, fun names hsome => ?_⟩
  rcases h.entry names with heq | ⟨-, -, text, htext⟩
  · rwa [heq]
  · simp [htext]

/-- A walk on the written disk that does not end in a new file is one on the other. -/
theorem walk_back
    (hwalk : e.walk segs here = .ok names)
    (hold : e.entry? names = d.entry? names) :
    d.walk segs here = .ok names := by
  induction segs generalizing here with
  | nil => exact hwalk
  | cons s segs ih =>
      rw [walk_cons_eq_ok_iff] at hwalk ⊢
      obtain ⟨hdir, hcases⟩ := hwalk
      refine ⟨h.directory_iff.1 hdir, ?_⟩
      rcases hcases with ⟨hreal, hrest⟩ | ⟨hreal, hup, hrest⟩ | ⟨hreal, hup, hlimit, hsome, hrest⟩
      · exact Or.inl ⟨hreal, ih hrest⟩
      · exact Or.inr (Or.inl ⟨hreal, hup, ih hrest⟩)
      · refine Or.inr (Or.inr ⟨hreal, hup, hlimit, ?_, ih hrest⟩)
        rcases h.entry (here ++ [String.ofList s]) with heq | ⟨-, -, text, htext⟩
        · rwa [← heq]
        · -- a file ends the walk
          cases segs with
          | nil =>
              obtain rfl := Except.ok.inj hrest
              rwa [← hold]
          | cons s' segs =>
              have hdir' := entry?_of_walk (by simp) hrest
              rw [htext] at hdir'
              cases hdir'

theorem base_back
    (hbase : e.base path = .ok here)
    (hdir : e.entry? here = some .directory) :
    d.base path = .ok here := by
  have hold : e.entry? here = d.entry? here := hdir.trans (h.directory_iff.1 hdir).symm
  rw [base_eq_ok_iff] at hbase ⊢
  obtain ⟨hlimit, hempty, hstart⟩ := hbase
  refine ⟨hlimit, hempty, ?_⟩
  split at hstart
  · rwa [if_pos ‹_›]
  · rw [if_neg ‹_›, ← h.workDir]
    exact h.walk_back hstart hold

theorem resolve_back
    (hresolve : e.resolve path = .ok names)
    (hold : e.entry? names = d.entry? names) :
    d.resolve path = .ok names := by
  rw [resolve_eq_ok_iff] at hresolve ⊢
  obtain ⟨here, hbase, hwalk⟩ := hresolve
  have hdir := entry?_of_walk (Path.split_ne_nil _) hwalk
  exact ⟨here, h.base_back hbase hdir, h.walk_back hwalk hold⟩

/-- Paths put files in the same place on both disks. -/
theorem place_iff : e.place path = .ok (some names) ↔ d.place path = .ok (some names) := by
  rw [place_eq_ok_iff, place_eq_ok_iff]
  constructor
  · rintro ⟨here, dir, s, hbase, hwalk, hdir, hlast⟩
    have hold : e.entry? dir = d.entry? dir := hdir.trans (h.directory_iff.1 hdir).symm
    have hwalk' := h.walk_back hwalk hold
    -- the walk may have no segments, and then it starts where it ends
    have hhere : e.entry? here = some .directory := by
      cases hsegs : (Path.split path.toList).dropLast with
      | nil =>
          rw [hsegs] at hwalk
          obtain rfl := Except.ok.inj hwalk
          exact hdir
      | cons s segs => exact entry?_of_walk (by simp [hsegs]) hwalk
    exact ⟨here, dir, s, h.base_back hbase hhere, hwalk', h.directory_iff.1 hdir, hlast⟩
  · rintro ⟨here, dir, s, hbase, hwalk, hdir, hlast⟩
    exact ⟨here, dir, s, h.keeps.base hbase, h.keeps.walk hwalk, h.directory_iff.2 hdir, hlast⟩

end Fills

section Growing

variable {d e : Disk} {path : String}

/-- The disk `e` is `d` after directories were made where nothing stood. -/
structure Grows (d e : Disk) : Prop where
  workDir : e.workDir = d.workDir
  entry : ∀ names, e.entry? names = d.entry? names ∨
    d.entry? names = none ∧ e.entry? names = some .directory

theorem Grows.refl (d : Disk) : Grows d d :=
  ⟨rfl, fun _ => Or.inl rfl⟩

theorem Grows.trans
    {f : Disk}
    (h : Grows d e)
    (h' : Grows e f) :
    Grows d f := by
  refine ⟨h'.workDir.trans h.workDir, fun names => ?_⟩
  rcases h.entry names with heq | ⟨hnone, hdir⟩
  · rcases h'.entry names with heq' | ⟨hnone', hdir'⟩
    · exact Or.inl (heq'.trans heq)
    · exact Or.inr ⟨heq ▸ hnone', hdir'⟩
  · rcases h'.entry names with heq' | ⟨hnone', -⟩
    · exact Or.inr ⟨hnone, heq'.trans hdir⟩
    · cases hnone'.symm.trans hdir

theorem Grows.keeps (h : Grows d e) : Keeps d e := by
  refine ⟨h.workDir, fun names hdir => ?_, fun names hsome => ?_⟩
  · rcases h.entry names with heq | ⟨-, hdir'⟩
    · rwa [heq]
    · exact hdir'
  · rcases h.entry names with heq | ⟨-, hdir'⟩
    · rwa [heq]
    · simp [hdir']

theorem grows_of_makeDir (h : d.makeDir path = .ok e) : Grows d e := by
  unfold makeDir at h
  cases hplace : d.place (dropEndSlashes path) with
  | error fault =>
      rw [hplace] at h
      cases h
  | ok key =>
      rw [hplace] at h
      cases key with
      | none => cases h
      | some key =>
          dsimp only at h
          split at h
          · cases h
          · rename_i hnone
            obtain rfl := Except.ok.inj h
            refine ⟨workDir_put _ _ _, fun names => ?_⟩
            rw [entry?_put _ _ (ne_nil_of_place hplace)]
            split
            · rename_i heq
              subst heq
              exact Or.inr ⟨by simpa using hnone, rfl⟩
            · exact Or.inl rfl

theorem grows_of_makeDirsWith
    {fuel : Nat}
    (h : d.makeDirsWith path fuel = .ok e) :
    Grows d e := by
  induction fuel generalizing path e with
  | zero => cases h
  | succ fuel ih =>
      -- a fault of the last step is passed over if the directory is there
      have hpassed : ∀ {a b : Disk} {fault : FileFault},
          (if a.isDir path then (.ok a : Except FileFault Disk) else .error fault) = .ok b →
          a = b := by
        intro a b fault hif
        split at hif
        · exact Except.ok.inj hif
        · cases hif
      rw [makeDirsWith] at h
      split at h
      · obtain rfl := Except.ok.inj h
        exact .refl _
      · split at h
        · rename_i hmade
          obtain rfl := Except.ok.inj h
          exact grows_of_makeDir hmade
        · split at h
          · cases h
          · split at h
            · cases h
            · rename_i habove
              have hgrows := ih habove
              split at h
              · rename_i hmade
                obtain rfl := Except.ok.inj h
                exact hgrows.trans (grows_of_makeDir hmade)
              · obtain rfl := hpassed h
                exact hgrows
        · obtain rfl := hpassed h
          exact .refl _

end Growing

section Reading

variable {W : List String → Prop} {d e : Disk}

/-- Reading finds a difference only where files were written. -/
theorem Fills.agreeOff (h : Fills W d e) :
    e.files.AgreeOff (fun path => ∃ names, e.resolve path = .ok names ∧ W names) d.files := by
  have hold : ∀ path names, (¬ ∃ names, e.resolve path = .ok names ∧ W names) →
      e.resolve path = .ok names → e.entry? names = d.entry? names := by
    intro path names hvisible hresolve
    rcases h.entry names with heq | ⟨hW, -⟩
    · exact heq
    · exact absurd ⟨names, hresolve, hW⟩ hvisible
  refine ⟨fun path hvisible hfile => ?_, fun path hvisible hfile => ?_, fun path hfile => ?_⟩
  · obtain ⟨names, hresolve, -⟩ := resolve_of_isFile hfile
    have heq := hold path names hvisible hresolve
    have hfile' := (isFile_iff hresolve).1 hfile
    rw [heq] at hfile'
    exact (isFile_iff (h.resolve_back hresolve heq)).2 hfile'
  · obtain ⟨names, hresolve, -⟩ := resolve_of_isFile hfile
    have heq := hold path names hvisible hresolve
    show d.read path = e.read path
    rw [Disk.read, Disk.read, hresolve, h.resolve_back hresolve heq]
    dsimp only
    rw [heq]
  · obtain ⟨names, hresolve, -⟩ := resolve_of_isFile hfile
    have hfile' := (isFile_iff hresolve).1 hfile
    refine (isFile_iff (h.keeps.resolve hresolve)).2 ?_
    rcases h.entry names with heq | ⟨-, -, text, htext⟩
    · rwa [heq]
    · exact Or.inr ⟨text, htext⟩

/-- Reading finds a difference only at paths that lead nowhere before the directories are
made. -/
theorem Grows.agreeOff (h : Grows d e) :
    e.files.AgreeOff (fun path => ¬ ∃ names, d.resolve path = .ok names) d.files := by
  have hold : ∀ path names, e.isFile path = true → d.resolve path = .ok names →
      e.entry? names = d.entry? names := by
    intro path names hfile hresolve
    rcases h.entry names with heq | ⟨-, hdir⟩
    · exact heq
    · have hfile' := (isFile_iff (h.keeps.resolve hresolve)).1 hfile
      simp [hdir] at hfile'
  refine ⟨fun path hvisible hfile => ?_, fun path hvisible hfile => ?_, fun path hfile => ?_⟩
  · obtain ⟨names, hresolve⟩ := not_not.1 hvisible
    have hfile' := (isFile_iff (h.keeps.resolve hresolve)).1 hfile
    rw [hold path names hfile hresolve] at hfile'
    exact (isFile_iff hresolve).2 hfile'
  · obtain ⟨names, hresolve⟩ := not_not.1 hvisible
    show d.read path = e.read path
    rw [Disk.read, Disk.read, hresolve, h.keeps.resolve hresolve]
    dsimp only
    rw [hold path names hfile hresolve]
  · obtain ⟨names, hresolve, -⟩ := resolve_of_isFile hfile
    have hfile' := (isFile_iff hresolve).1 hfile
    refine (isFile_iff (h.keeps.resolve hresolve)).2 ?_
    rcases h.entry names with heq | ⟨hnone, -⟩
    · rwa [heq]
    · simp [hnone] at hfile'

end Reading

end Disk

end SpeechMarkup
