import SpeechMarkup.Proofs.ImportChain

/-!
# Where paths lead

What the functions that follow paths on a disk say, step by step.

* `Disk.walk_cons_eq_ok_iff` lists the steps of a walk, and `Disk.base_eq_ok_iff`,
  `Disk.resolve_eq_ok_iff` and `Disk.place_eq_ok_iff` say where a path starts, where it leads,
  and where it would put a file.
* `Disk.makeDirs_of_isDir`: a directory that is there is not made again.
* `Disk.create_eq_ok`: a file is made in the place of its path.
* `Disk.isDir_of_place_join`: a path puts a file only into a directory.
-/

namespace SpeechMarkup

namespace Path

theorem split_ne_nil (cs : List Char) : split cs ≠ [] := by
  cases cs with
  | nil => simp [split]
  | cons c cs =>
      rw [split]
      split
      · simp
      · split <;> simp

theorem split_append_cons_slash (cs ds : List Char) :
    split (cs ++ '/' :: ds) = split cs ++ split ds := by
  induction cs with
  | nil => simp [split]
  | cons c cs ih =>
      rw [List.cons_append, split, split, ih]
      split
      · rfl
      · cases hsplit : split cs with
        | nil => exact absurd hsplit (split_ne_nil cs)
        | cons s ss => rfl

theorem split_append_slashes (cs : List Char) (m : Nat) :
    split (cs ++ List.replicate m '/') = split cs ++ List.replicate m [] := by
  induction m generalizing cs with
  | zero => simp
  | succ m ih =>
      have hone : split (cs ++ ['/']) = split cs ++ [[]] := split_append_cons_slash cs []
      rw [List.replicate_succ, List.append_cons, ih, hone, List.replicate_succ,
        List.append_assoc, List.singleton_append]

theorem isAbsolute_eq_false
    {name : String}
    (hname : '/' ∉ name.toList) :
    isAbsolute name = false := by
  rw [isAbsolute, decide_eq_false_iff_not]
  exact fun hhead => hname (List.mem_of_mem_head? hhead)

theorem join_eq_append
    (base : String)
    {name : String}
    (hname : '/' ∉ name.toList) :
    ∃ tail, join base name = base ++ tail := by
  unfold join
  rw [if_neg (by simp [isAbsolute_eq_false hname])]
  split
  · exact ⟨name, rfl⟩
  · exact ⟨"/" ++ name, String.append_assoc⟩

/-- The segments of a name in a directory: those of the directory, less an empty one at
their end, and the name. -/
theorem split_join
    (base : String)
    {name : String}
    (hname : '/' ∉ name.toList) :
    ∃ front, split (join base name).toList = front ++ [name.toList] ∧
      (base.isEmpty = false → split base.toList = front ∨ split base.toList = front ++ [[]]) := by
  have hsplit := split_of_not_mem hname
  unfold join
  rw [if_neg (by simp [isAbsolute_eq_false hname])]
  cases hempty : base.isEmpty with
  | true =>
      rw [String.isEmpty_iff] at hempty
      exact ⟨[], by simp [hempty, hsplit], by simp⟩
  | false =>
      by_cases hend : base.toList.getLast? = some '/'
      · obtain ⟨cs, hcs⟩ := List.getLast?_eq_some_iff.1 hend
        refine ⟨split cs, ?_, fun _ => Or.inr ?_⟩
        · rw [if_pos (by simp [hend]), String.toList_append, hcs, List.append_assoc,
            List.singleton_append, split_append_cons_slash, hsplit]
        · rw [hcs, split_append_cons_slash]
          rfl
      · refine ⟨split base.toList, ?_, fun _ => Or.inl rfl⟩
        rw [if_neg (by simp [hend]), String.toList_append, String.toList_append,
          List.append_assoc]
        exact (split_append_cons_slash base.toList name.toList).trans (by rw [hsplit])

end Path

namespace Disk

section Walking

variable {d : Disk} {segs more : List (List Char)} {here names : List String}

theorem walk_append :
    d.walk (segs ++ more) here =
      match d.walk segs here with
      | .ok dir => d.walk more dir
      | .error fault => .error fault := by
  induction segs generalizing here with
  | nil => rfl
  | cons s segs ih =>
      rw [List.cons_append, walk, walk]
      split
      · rfl
      · split
        · exact ih
        · split
          · exact ih
          · dsimp only
            split
            · rfl
            · split
              · rfl
              · exact ih

theorem walk_append_eq_ok
    (h : d.walk (segs ++ more) here = .ok names) :
    ∃ dir, d.walk segs here = .ok dir ∧ d.walk more dir = .ok names := by
  rw [walk_append] at h
  cases hdir : d.walk segs here with
  | error fault =>
      rw [hdir] at h
      cases h
  | ok dir =>
      rw [hdir] at h
      exact ⟨dir, rfl, h⟩

/-- A walk that goes on starts in a directory. -/
theorem entry?_of_walk
    (hne : segs ≠ [])
    (h : d.walk segs here = .ok names) :
    d.entry? here = some .directory := by
  cases segs with
  | nil => exact absurd rfl hne
  | cons s segs =>
      rw [walk] at h
      split at h
      · cases h
      · rename_i hdir
        simpa using hdir

/-- The steps of a walk: a segment that says nothing, one that goes up, and one that is a
name under which something stands. -/
theorem walk_cons_eq_ok_iff
    {s : List Char} :
    d.walk (s :: segs) here = .ok names ↔
      d.entry? here = some .directory ∧
        (Path.isReal s = false ∧ d.walk segs here = .ok names ∨
          Path.isReal s = true ∧ s = ['.', '.'] ∧ d.walk segs here.dropLast = .ok names ∨
          Path.isReal s = true ∧ s ≠ ['.', '.'] ∧
            (String.ofList s).utf8ByteSize ≤ nameLimit ∧
            (d.entry? (here ++ [String.ofList s])).isSome ∧
            d.walk segs (here ++ [String.ofList s]) = .ok names) := by
  rw [walk]
  by_cases hdir : d.entry? here = some .directory
  · cases hreal : Path.isReal s with
    | false => simp [hdir]
    | true =>
        by_cases hup : s = ['.', '.']
        · simp [hdir, hup]
        · by_cases hlong : nameLimit < (String.ofList s).utf8ByteSize
          · simp [hdir, hup, hlong]
          · have hshort := Nat.le_of_not_lt hlong
            cases hentry : d.entry? (here ++ [String.ofList s]) with
            | none =>
                simp only [hdir, hup, hlong, hentry]
                simp
            | some e =>
                simp only [hdir, hup, hlong, hentry]
                simp [hup, hshort]
  · simp [hdir]

theorem base_eq_ok_iff
    {path : String} :
    d.base path = .ok here ↔
      path.utf8ByteSize < pathLimit ∧ path.isEmpty = false ∧
        if Path.isAbsolute path then here = []
        else d.walk (Path.split d.workDir.toList) [] = .ok here := by
  unfold base
  by_cases hlimit : pathLimit ≤ path.utf8ByteSize
  · simp [hlimit, Nat.not_lt.2 hlimit]
  · cases hempty : path.isEmpty with
    | true => simp [hlimit]
    | false =>
        cases habsolute : Path.isAbsolute path with
        | true => simp [hlimit, Nat.lt_of_not_le hlimit, eq_comm]
        | false => simp [hlimit, Nat.lt_of_not_le hlimit]

/-- A path starts where it starts with more behind it. -/
theorem base_of_append
    {path tail : String}
    (hpath : path.isEmpty = false)
    (h : d.base (path ++ tail) = .ok here) :
    d.base path = .ok here := by
  obtain ⟨hlimit, -, hstart⟩ := base_eq_ok_iff.1 h
  have hhead : Path.isAbsolute (path ++ tail) = Path.isAbsolute path := by
    unfold Path.isAbsolute
    rw [String.toList_append]
    cases hlist : path.toList with
    | nil =>
        rw [Bool.eq_false_iff, Ne, String.isEmpty_iff, ← String.toList_inj, hlist] at hpath
        exact absurd rfl hpath
    | cons c cs => rfl
  rw [String.utf8ByteSize_append] at hlimit
  rw [hhead] at hstart
  exact base_eq_ok_iff.2 ⟨by omega, hpath, hstart⟩

theorem resolve_eq_ok_iff
    {path : String} :
    d.resolve path = .ok names ↔
      ∃ here, d.base path = .ok here ∧ d.walk (Path.split path.toList) here = .ok names := by
  unfold resolve
  cases d.base path with
  | error fault => simp
  | ok here => simp

/-- Where a path puts a file: under the name of its last segment, in the directory to which
the others lead. -/
theorem place_eq_ok_iff
    {path : String} :
    d.place path = .ok (some names) ↔
      ∃ here dir s, d.base path = .ok here ∧
        d.walk (Path.split path.toList).dropLast here = .ok dir ∧
        d.entry? dir = some .directory ∧
        (Path.split path.toList).getLast? = some s ∧ Path.isReal s = true ∧ s ≠ ['.', '.'] ∧
        (String.ofList s).utf8ByteSize ≤ nameLimit ∧ names = dir ++ [String.ofList s] := by
  unfold place
  cases d.base path with
  | error fault => simp
  | ok here =>
      dsimp only
      cases hdir : d.walk (Path.split path.toList).dropLast here with
      | error fault => simp [hdir]
      | ok dir =>
          dsimp only
          by_cases hentry : d.entry? dir = some .directory
          · rw [if_neg (not_not.2 hentry)]
            cases hlast : (Path.split path.toList).getLast? with
            | none => simp
            | some s =>
                dsimp only
                by_cases hown : (!Path.isReal s || s = ['.', '.']) = true
                · rw [if_pos hown]
                  simp only [Bool.or_eq_true, Bool.not_eq_true', decide_eq_true_eq] at hown
                  rcases hown with hreal | rfl
                  · simp [hreal]
                  · simp
                · rw [if_neg hown]
                  simp only [Bool.or_eq_true, Bool.not_eq_true', decide_eq_true_eq, not_or,
                    Bool.not_eq_false] at hown
                  by_cases hlong : nameLimit < (String.ofList s).utf8ByteSize
                  · simp [hlong, Nat.not_le.2 hlong]
                  · rw [if_neg hlong]
                    constructor
                    · intro h
                      obtain rfl := Option.some.inj (Except.ok.inj h)
                      exact ⟨here, dir, s, rfl, hdir, hentry, rfl, hown.1, hown.2,
                        Nat.le_of_not_lt hlong, rfl⟩
                    · rintro ⟨here', dir', s', hhere, hdir', -, hs, -, -, -, rfl⟩
                      obtain rfl := Except.ok.inj hhere
                      obtain rfl := Except.ok.inj (hdir.symm.trans hdir')
                      obtain rfl := Option.some.inj hs
                      rfl
          · rw [if_pos hentry]
            simp [hdir, hentry]

theorem isFile_iff
    {path : String}
    (hresolve : d.resolve path = .ok names) :
    d.isFile path = true ↔
      d.entry? names = some .binary ∨ ∃ text, d.entry? names = some (.text text) := by
  rw [isFile, lookup, hresolve]
  dsimp only
  cases d.entry? names with
  | none => simp
  | some e => cases e <;> simp

end Walking

section Placing

variable {d e : Disk} {path : String} {names : List String}

theorem ne_nil_of_place (h : d.place path = .ok (some names)) : names ≠ [] := by
  obtain ⟨_, dir, s, -, -, -, -, -, -, -, rfl⟩ := place_eq_ok_iff.1 h
  simp

/-- Once something stands in its place, a path leads there. -/
theorem resolve_of_place
    (h : d.place path = .ok (some names))
    (hsome : (d.entry? names).isSome) :
    d.resolve path = .ok names := by
  obtain ⟨here, dir, s, hbase, hwalk, hdir, hlast, hreal, hup, hlimit, rfl⟩ :=
    place_eq_ok_iff.1 h
  refine resolve_eq_ok_iff.2 ⟨here, hbase, ?_⟩
  rw [← List.dropLast_append_getLast? s hlast, walk_append, hwalk]
  exact walk_cons_eq_ok_iff.2 ⟨hdir, Or.inr (Or.inr ⟨hreal, hup, hlimit, hsome, rfl⟩)⟩

/-- A path that leads somewhere places nothing new. -/
theorem place_of_resolve
    (h : d.resolve path = .ok names) :
    d.place path = .ok none ∨
      ∃ key, d.place path = .ok (some key) ∧ (d.entry? key).isSome := by
  obtain ⟨here, hbase, hwalk⟩ := resolve_eq_ok_iff.1 h
  obtain ⟨s, hlast⟩ : ∃ s, (Path.split path.toList).getLast? = some s :=
    Option.ne_none_iff_exists'.1 fun hnone =>
      Path.split_ne_nil _ (List.getLast?_eq_none_iff.1 hnone)
  rw [← List.dropLast_append_getLast? s hlast] at hwalk
  obtain ⟨dir, hdir, hstep⟩ := walk_append_eq_ok hwalk
  obtain ⟨hentry, hcases⟩ := walk_cons_eq_ok_iff.1 hstep
  rcases hcases with ⟨hreal, -⟩ | ⟨-, hup, -⟩ | ⟨hreal, hup, hlimit, hsome, -⟩
  · left
    simp [place, hbase, hdir, hentry, hlast, hreal]
  · left
    simp [place, hbase, hdir, hentry, hlast, hup]
  · right
    exact ⟨_, place_eq_ok_iff.2 ⟨here, dir, s, hbase, hdir, hentry, hlast, hreal, hup, hlimit,
      rfl⟩, hsome⟩

theorem toList_dropEndSlashes (path : String) :
    ∃ m, path.toList = (dropEndSlashes path).toList ++ List.replicate m '/' := by
  have hsplit := List.takeWhile_append_dropWhile (p := (· = '/')) (l := path.toList.reverse)
  unfold dropEndSlashes
  dsimp only
  split
  · exact ⟨0, by simp⟩
  · refine ⟨(path.toList.reverse.takeWhile (· = '/')).length, ?_⟩
    have hslashes := List.eq_replicate_of_mem
      (l := path.toList.reverse.takeWhile (· = '/')) (a := '/')
      fun c hc => by simpa using List.mem_takeWhile_imp hc
    rw [String.toList_ofList, ← List.reverse_replicate, ← hslashes, ← List.reverse_append, hsplit,
      List.reverse_reverse]

theorem dropEndSlashes_of_getLast?
    (hend : path.toList.getLast? ≠ some '/') :
    dropEndSlashes path = path := by
  obtain ⟨m, hm⟩ := toList_dropEndSlashes path
  cases m with
  | zero =>
      apply String.toList_injective
      simpa using hm.symm
  | succ m =>
      rw [hm, List.replicate_succ', ← List.append_assoc, List.getLast?_concat] at hend
      exact absurd rfl hend

theorem isEmpty_dropEndSlashes (path : String) :
    (dropEndSlashes path).isEmpty = path.isEmpty := by
  unfold dropEndSlashes
  dsimp only
  split
  · rfl
  · rename_i hkept
    have hpath : path.isEmpty = false := by
      rw [Bool.eq_false_iff]
      intro hempty
      rw [String.isEmpty_iff] at hempty
      simp [hempty] at hkept
    rw [hpath, Bool.eq_false_iff]
    intro hempty
    rw [String.isEmpty_iff, ← String.toList_inj, String.toList_ofList] at hempty
    simp [hempty] at hkept

theorem resolve_dropEndSlashes
    (h : d.resolve path = .ok names) :
    d.resolve (dropEndSlashes path) = .ok names := by
  obtain ⟨here, hbase, hwalk⟩ := resolve_eq_ok_iff.1 h
  obtain ⟨m, hm⟩ := toList_dropEndSlashes path
  have hempty : (dropEndSlashes path).isEmpty = false :=
    (isEmpty_dropEndSlashes path).trans (base_eq_ok_iff.1 hbase).2.1
  have hpath : path = dropEndSlashes path ++ String.ofList (List.replicate m '/') := by
    apply String.toList_injective
    simpa using hm
  rw [hpath] at hbase
  refine resolve_eq_ok_iff.2 ⟨here, base_of_append hempty hbase, ?_⟩
  rw [hm, Path.split_append_slashes] at hwalk
  obtain ⟨dir, hdir, hrest⟩ := walk_append_eq_ok hwalk
  have hnothing : (List.replicate m ([] : List Char)).filter Path.isReal = [] := by
    simp [Path.isReal]
  have hsame := walk_eq_ok hrest
  rw [hnothing] at hsame
  rw [hdir, hsame]
  rfl

/-- A directory that is there is not made again. -/
theorem makeDirs_of_isDir (h : d.isDir path = true) : d.makeDirs path = .ok d := by
  have hlookup : d.lookup path = some .directory := by simpa [isDir] using h
  unfold lookup at hlookup
  cases hresolve : d.resolve path with
  | error fault =>
      rw [hresolve] at hlookup
      cases hlookup
  | ok names =>
      have hempty : path.isEmpty = false := by
        obtain ⟨here, hbase, -⟩ := resolve_eq_ok_iff.1 hresolve
        exact (base_eq_ok_iff.1 hbase).2.1
      have hexists : d.makeDir path = .error .exists := by
        unfold makeDir
        rcases place_of_resolve (resolve_dropEndSlashes hresolve) with hnone | ⟨key, hkey, hsome⟩
        · rw [hnone]
        · simp [hkey, hsome]
      simp [makeDirs, makeDirsWith, hempty, hexists, h]

theorem getLast?_of_place_join
    {base name : String}
    (hname : '/' ∉ name.toList)
    (h : d.place (Path.join base name) = .ok (some names)) :
    names.getLast? = some name := by
  obtain ⟨front, hfront, -⟩ := Path.split_join base hname
  obtain ⟨_, dir, s, -, -, -, hlast, -, -, -, rfl⟩ := place_eq_ok_iff.1 h
  rw [hfront, List.getLast?_concat] at hlast
  rw [List.getLast?_concat, ← Option.some.inj hlast, String.ofList_toList]

/-- A path puts a file only into a directory. -/
theorem isDir_of_place_join
    {base name : String}
    (hbase : base.isEmpty = false)
    (hname : '/' ∉ name.toList)
    (h : d.place (Path.join base name) = .ok (some names)) :
    d.isDir base = true := by
  obtain ⟨front, hfront, hsegs⟩ := Path.split_join base hname
  obtain ⟨tail, htail⟩ := Path.join_eq_append base hname
  obtain ⟨here, dir, s, hstart, hwalk, hdir, -⟩ := place_eq_ok_iff.1 h
  rw [hfront, List.dropLast_concat] at hwalk
  rw [htail] at hstart
  have hwalk' : d.walk (Path.split base.toList) here = .ok dir := by
    rcases hsegs hbase with hsame | hslash
    · rwa [hsame]
    · rw [hslash, walk_append, hwalk]
      exact walk_cons_eq_ok_iff.2 ⟨hdir, Or.inl ⟨rfl, rfl⟩⟩
  have hresolve := resolve_eq_ok_iff.2 ⟨here, base_of_append hbase hstart, hwalk'⟩
  simp [isDir, lookup, hresolve, hdir]

theorem create_eq_ok
    (hend : path.toList.getLast? ≠ some '/')
    (h : d.create path = .ok (names, e)) :
    d.place path = .ok (some names) ∧ d.entry? names ≠ some .directory ∧
      e = d.put names (.text "") := by
  unfold create at h
  rw [dropEndSlashes_of_getLast? hend] at h
  cases hplace : d.place path with
  | error fault =>
      rw [hplace] at h
      cases h
  | ok key =>
      rw [hplace] at h
      cases key with
      | none => cases h
      | some key =>
          dsimp only at h
          split at h
          · cases h
          · rename_i hfree
            obtain ⟨rfl, rfl⟩ := Prod.mk.inj (Except.ok.inj h)
            simp only [Bool.or_eq_true, decide_eq_true_eq, not_or] at hfree
            exact ⟨rfl, hfree.2, rfl⟩

end Placing

end Disk

end SpeechMarkup
