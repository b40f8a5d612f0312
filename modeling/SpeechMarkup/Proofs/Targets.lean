import SpeechMarkup.CommandLine
import SpeechMarkup.Proofs.Writing

/-!
# Compiling into target files

Sources are compiled one after the other, each into its target file.  As long as no import
or play leads to a target, the sources do not see each other.

* `Source.compileInto_eq`: a source that does not find its target is compiled into it as it
  is elsewhere.
* `CommandLine.target_injective`: a target is its place.
* `CommandLine.Stage` says on which disk each source is compiled.
* `CommandLine.compileInto_target` is the step, and `CommandLine.compileAll_targets` and
  `CommandLine.compileAll_outputs` carry it to all sources: a target holds the text of the
  last source that has it.
-/

namespace SpeechMarkup

open Expansion

section Compiling

variable {W : List String → Prop} {d e : Disk} {names : List String} {scope : Scope}
variable {nodes : List Node} {store : Store} {includes : List String} {source : Source}

/-- Compiling the source on a disk, an import or play finds the file at `path`. -/
def Source.Finds (d : Disk) (includes : List String) (source : Source) (path : String) : Prop :=
  ∃ nodes, Node.ofText source.text source.fileId = .ok nodes ∧
    Expansion.Finds d.files (source.scope (Store.new d.workDir includes)) nodes
      (Store.new d.workDir includes) path

/-- A run that does not find the file it is written into does not depend on how much of it
has left the buffer. -/
theorem Source.processInto_eq
    {text : String}
    (hW : W names)
    (hne : names ≠ [])
    (htext : d.entry? names = some (.text text))
    (hfound : ∀ path, Expansion.Finds d.files scope nodes store path →
      ¬ ∃ key, d.resolve path = .ok key ∧ W key)
    (target : Buffered)
    (sink : Sink) :
    processInto d names scope nodes target sink store =
      process d.files scope nodes sink store := by
  induction nodes generalizing target sink store with
  | nil => simp [processInto, process, emitNodes]
  | cons n ns ih =>
      by_cases hstop : ∃ pos, n = .stop pos
      · obtain ⟨pos, rfl⟩ := hstop
        simp [processInto, process, emitNodes]
      · have hstop' : ∀ pos, n ≠ .stop pos := fun pos hpos => hstop ⟨pos, hpos⟩
        have hagree := (Disk.Fills.of_put hW hne htext target.written).agreeOff
        rw [processInto, process_cons hstop', process_cons hstop', expand_agree hagree hfound]
        · rcases hrun : expand d.files scope n store with ⟨fault | chunk, t⟩
          · rfl
          · have htail : ∀ path, Expansion.Finds d.files scope ns t path →
                ¬ ∃ key, d.resolve path = .ok key ∧ W key :=
              fun path hfinds => hfound path (hfinds.next hrun)
            have hnil : ∀ files sink, process files scope [] sink t = ⟨.ok (), sink, t⟩ := by
              intro files sink
              simp [process, emitNodes]
            dsimp only
            by_cases hempty : chunk.isEmpty
            · rw [if_pos hempty, if_pos hempty, hnil]
              exact ih htail _ _
            · rw [if_neg hempty, if_neg hempty]
              by_cases hfull : sink.isFull
              · rw [if_pos hfull, if_pos hfull]
              · rw [if_neg hfull, if_neg hfull, hnil]
                exact ih htail _ _
        · exact hstop'

/-- A source that does not find its target is compiled into it as it is elsewhere. -/
theorem Source.compileInto_eq
    {path : String}
    (hend : path.toList.getLast? ≠ some '/')
    (hcreate : d.create path = .ok (names, e))
    (hW : W names)
    (hfound : ∀ path, source.Finds e includes path → ¬ ∃ key, e.resolve path = .ok key ∧ W key) :
    source.compileInto d includes path = .ok (source.compileOn e includes,
      e.put names (.text (source.compileOn e includes).sink.text)) := by
  obtain ⟨hplace, -, rfl⟩ := Disk.create_eq_ok hend hcreate
  have hne := Disk.ne_nil_of_place hplace
  have htext : Disk.entry? (d.put names (.text "")) names = some (.text "") := by
    rw [Disk.entry?_put _ _ hne, if_pos rfl]
  unfold compileInto
  rw [hcreate]
  dsimp only
  unfold compileOn compile
  cases hnodes : Node.ofText source.text source.fileId with
  | error fault => rfl
  | ok nodes =>
      dsimp only
      rw [processInto_eq hW hne htext fun path hfinds => hfound path ⟨nodes, hnodes, hfinds⟩]

theorem Source.compileOn_agree
    {hidden : String → Prop}
    (hworkDir : e.workDir = d.workDir)
    (hagree : e.files.AgreeOff hidden d.files)
    (hfound : ∀ path, source.Finds e includes path → ¬ hidden path) :
    source.compileOn d includes = source.compileOn e includes := by
  unfold compileOn compile
  rw [← hworkDir]
  cases hnodes : Node.ofText source.text source.fileId with
  | error fault => rfl
  | ok nodes =>
      exact process_agree hagree (fun path hfinds => hfound path ⟨nodes, hnodes, hfinds⟩) _

end Compiling

namespace CommandLine

section Names

/-- The name of the file that takes the text of the `number`th source. -/
def targetName (source : Source) (number : Nat) : String :=
  match source.path with
  | some path => (Path.stem? path).getD "out" ++ ".opendec.compiled"
  | none => "inline-" ++ toString number ++ ".opendec.compiled"

variable (settings : Settings) (source : Source) (number : Nat)

theorem target_eq :
    target settings source number = Path.join settings.buildDir (targetName source number) := by
  unfold target targetName
  cases source.path <;> rfl

theorem not_slash_mem_fileName
    {path name : String}
    (h : Path.fileName? path = some name) :
    '/' ∉ name.toList := by
  have hbody : ∀ seg ∈ (Path.anatomy path.toList).2, '/' ∉ seg := by
    intro seg hseg
    unfold Path.anatomy at hseg
    split at hseg
    · exact Path.not_slash_mem_of_mem_split hseg
    · split at hseg
      · rename_i body hsplit
        exact Path.not_slash_mem_of_mem_split (hsplit ▸ List.mem_cons_of_mem _ hseg)
      · exact Path.not_slash_mem_of_mem_split hseg
  unfold Path.fileName? at h
  dsimp only at h
  split at h
  · rename_i seg hseg
    split at h
    · cases h
    · obtain rfl := Option.some.inj h
      rw [String.toList_ofList]
      exact hbody seg (Path.trimEnd_subset _ (List.mem_of_getLast? hseg))
  · cases h

theorem mem_of_mem_cutSuffix
    {name : String}
    {c : Char}
    (h : c ∈ (Path.cutSuffix name).1.toList) :
    c ∈ name.toList := by
  unfold Path.cutSuffix at h
  dsimp only at h
  split at h
  · exact h
  · rename_i before hbefore
    split at h
    · exact h
    · rw [String.toList_ofList, List.mem_reverse] at h
      have hmem := (List.dropWhile_sublist _).subset (hbefore ▸ List.mem_cons_of_mem _ h)
      exact List.mem_reverse.1 hmem

theorem not_slash_mem_targetName : '/' ∉ (targetName source number).toList := by
  have hsuffix : '/' ∉ ".opendec.compiled".toList := by decide
  unfold targetName
  cases source.path with
  | none =>
      have hnumber : '/' ∉ (toString number).toList := by
        intro hmem
        rw [show (toString number).toList = Nat.toDigits 10 number from Nat.toList_repr] at hmem
        have hdigit := Nat.isDigit_of_mem_toDigits (by decide) (by decide) hmem
        revert hdigit
        decide
      have hinline : '/' ∉ "inline-".toList := by decide
      simp only [String.toList_append, List.mem_append, not_or]
      exact ⟨⟨hinline, hnumber⟩, hsuffix⟩
  | some path =>
      simp only [String.toList_append, List.mem_append, not_or]
      refine ⟨?_, hsuffix⟩
      unfold Path.stem?
      cases hname : Path.fileName? path with
      | none => decide
      | some name => exact fun hmem => not_slash_mem_fileName hname (mem_of_mem_cutSuffix hmem)

theorem targetName_ne_nil : (targetName source number).toList ≠ [] := by
  unfold targetName
  cases source.path <;> simp [String.toList_append]

theorem getLast?_target : (target settings source number).toList.getLast? ≠ some '/' := by
  intro hend
  obtain ⟨cs, hcs⟩ := List.getLast?_eq_some_iff.1 hend
  obtain ⟨front, hfront, -⟩ := Path.split_join settings.buildDir
    (not_slash_mem_targetName source number)
  rw [← target_eq, hcs, Path.split_append_cons_slash] at hfront
  have hlast := congrArg List.getLast? hfront
  rw [List.getLast?_concat, show Path.split [] = [[]] from rfl, List.getLast?_concat] at hlast
  exact targetName_ne_nil source number (Option.some.inj hlast).symm

variable {settings source number}

/-- Two targets in one place are one. -/
theorem target_injective
    {d : Disk}
    {names : List String}
    {other : Source}
    {number' : Nat}
    (h : d.place (target settings source number) = .ok (some names))
    (h' : d.place (target settings other number') = .ok (some names)) :
    target settings other number' = target settings source number := by
  rw [target_eq] at h h'
  have hname := Disk.getLast?_of_place_join (not_slash_mem_targetName _ _) h
  have hname' := Disk.getLast?_of_place_join (not_slash_mem_targetName _ _) h'
  rw [target_eq, target_eq, Option.some.inj (hname'.symm.trans hname)]

/-- Once a target has a place, its directory is not made again. -/
theorem makeDirs_of_place
    {W : List String → Prop}
    {d e : Disk}
    {names : List String}
    (hplace : d.place (target settings source number) = .ok (some names))
    (h : Disk.Fills W d e) :
    e.makeDirs settings.buildDir = .ok e := by
  cases hempty : settings.buildDir.isEmpty with
  | true => simp [Disk.makeDirs, Disk.makeDirsWith, hempty]
  | false =>
      rw [target_eq] at hplace
      have hdir := Disk.isDir_of_place_join hempty (not_slash_mem_targetName _ _) hplace
      exact Disk.makeDirs_of_isDir (h.keeps.isDir hdir)

end Names

section Stages

/-- The sources of a run with their numbers. -/
abbrev Numbered := List (Source × Nat)

/--
While sources, numbered from `number`, are compiled into their targets one after the other,
starting with the disk `d`, the source `other` is compiled on the disk `e`.
-/
inductive Stage (settings : Settings) : List Source → Nat → Disk → Source → Disk → Prop
  | here
      {source : Source}
      {sources : List Source}
      {number : Nat}
      {d ready e : Disk}
      {names : List String}
      (hdir : d.makeDirs settings.buildDir = .ok ready)
      (hcreate : ready.create (target settings source number) = .ok (names, e)) :
      Stage settings (source :: sources) number d source e
  | next
      {source other : Source}
      {sources : List Source}
      {number : Nat}
      {d ready left e : Disk}
      {outcome : Outcome}
      (hdir : d.makeDirs settings.buildDir = .ok ready)
      (hcompile : source.compileInto ready settings.includeDirs (target settings source number) =
        .ok (outcome, left))
      (hresult : outcome.result = .ok ())
      (h : Stage settings sources (number + 1) left other e) :
      Stage settings (source :: sources) number d other e

/-- No import or play of the source leads to a target of `sources`.  Targets lie in the build
directory, so this is the case if none leads into it. -/
def Apart (settings : Settings) (sources : Numbered) (source : Source) (d : Disk) : Prop :=
  ∀ path, source.Finds d settings.includeDirs path → ∀ p ∈ sources, ∀ names,
    d.place (target settings p.1 p.2) = .ok (some names) → d.resolve path ≠ .ok names

/-- The places of the targets. -/
def Places (settings : Settings) (sources : Numbered) (d : Disk) (names : List String) : Prop :=
  ∃ p ∈ sources, d.place (target settings p.1 p.2) = .ok (some names)

/-- The text of a source that is compiled alone. -/
def aloneText (settings : Settings) (d : Disk) (source : Source) : String :=
  (source.compileOn d settings.includeDirs).sink.text

variable {settings : Settings} {source : Source} {sources : List Source} {number : Nat}
variable {all : Numbered} {r : Report} {d e ready left : Disk} {outcome : Outcome}

theorem compileToFile_cases
    (settings : Settings)
    (source : Source)
    (number : Nat)
    (r : Report) :
    (∃ r', compileToFile settings source number r = .error r' ∧ r'.exit = 1) ∨
      ∃ ready outcome left, r.disk.makeDirs settings.buildDir = .ok ready ∧
        source.compileInto ready settings.includeDirs (target settings source number) =
          .ok (outcome, left) ∧
        outcome.result = .ok () ∧
        compileToFile settings source number r = .ok { r with disk := left } := by
  unfold compileToFile
  cases hdir : r.disk.makeDirs settings.buildDir with
  | error fault => exact Or.inl ⟨_, rfl, rfl⟩
  | ok ready =>
      dsimp only
      cases hcompile : source.compileInto ready settings.includeDirs
          (target settings source number) with
      | error fault => exact Or.inl ⟨_, rfl, rfl⟩
      | ok written =>
          obtain ⟨outcome, left⟩ := written
          dsimp only
          cases hresult : outcome.result with
          | error fault => exact Or.inl ⟨_, rfl, rfl⟩
          | ok u => exact Or.inr ⟨ready, outcome, left, rfl, hcompile, hresult, rfl⟩

theorem create_of_compileInto
    {includes : List String}
    {path : String}
    (h : source.compileInto d includes path = .ok (outcome, left)) :
    ∃ names e, d.create path = .ok (names, e) := by
  unfold Source.compileInto at h
  cases hcreate : d.create path with
  | error fault =>
      rw [hcreate] at h
      cases h
  | ok created => exact ⟨created.1, created.2, rfl⟩

/-- The step: a source is compiled into its target as it is alone, and only the target
changes. -/
theorem compileInto_target
    (hmem : (source, number) ∈ all)
    (hfills : Disk.Fills (Places settings all ready) ready d)
    (hapart : ∀ names e, d.create (target settings source number) = .ok (names, e) →
      Apart settings all source e)
    (hcompile : source.compileInto d settings.includeDirs (target settings source number) =
      .ok (outcome, left)) :
    ∃ names, ready.place (target settings source number) = .ok (some names) ∧
      outcome = source.compileOn ready settings.includeDirs ∧
      left.entry? names = some (.text (aloneText settings ready source)) ∧
      (∀ other, other ≠ names → left.entry? other = d.entry? other) ∧
      Disk.Fills (Places settings all ready) d left := by
  obtain ⟨names, e, hcreate⟩ := create_of_compileInto hcompile
  have hend := getLast?_target settings source number
  obtain ⟨hplace, hfile, rfl⟩ := Disk.create_eq_ok hend hcreate
  have hne := Disk.ne_nil_of_place hplace
  have hplace' := hfills.place_iff.1 hplace
  have hW : Places settings all ready names := ⟨_, hmem, hplace'⟩
  have hemptied := Disk.Fills.put hW hne hfile ""
  have hcreated := hfills.trans hemptied
  have hfound : ∀ path, source.Finds (d.put names (.text "")) settings.includeDirs path →
      ¬ ∃ key, (d.put names (.text "")).resolve path = .ok key ∧ Places settings all ready key := by
    rintro path hfinds ⟨key, hresolve, p, hp, hkey⟩
    exact hapart names _ hcreate path hfinds p hp key (hcreated.place_iff.2 hkey) hresolve
  have hsame := Source.compileOn_agree hcreated.workDir hcreated.agreeOff hfound
  rw [Source.compileInto_eq hend hcreate hW hfound, ← hsame] at hcompile
  obtain ⟨rfl, rfl⟩ := Prod.mk.inj (Except.ok.inj hcompile)
  have hempty : Disk.entry? (d.put names (.text "")) names ≠ some .directory := by
    rw [Disk.entry?_put _ _ hne, if_pos rfl]
    simp
  refine ⟨names, hplace', rfl, ?_, fun other hother => ?_,
    hemptied.trans (Disk.Fills.put hW hne hempty _)⟩
  · rw [Disk.entry?_put _ _ hne, if_pos rfl]
    rfl
  · rw [Disk.entry?_put _ _ hne, if_neg hother, Disk.entry?_put _ _ hne, if_neg hother]

/--
What compiling sources one after the other leaves, starting with a disk on which only targets
were written since the build directory was made: every source is compiled as it is alone, and
a target holds the text of the last source that has it.
-/
theorem compileAll_targets
    (hprepared : ∀ e, Disk.Fills (Places settings all ready) ready e →
      e.makeDirs settings.buildDir = .ok e)
    (hall : ∀ p ∈ sources.zipIdx number, p ∈ all)
    (hfills : Disk.Fills (Places settings all ready) ready r.disk)
    (hapart : ∀ source e, Stage settings sources number r.disk source e →
      Apart settings all source e)
    (hexit : (compileAll settings false sources number r).exit = 0) :
    let final := (compileAll settings false sources number r).disk
    (∀ p ∈ sources.zipIdx number,
        (p.1.compileOn ready settings.includeDirs).result = .ok ()) ∧
      Disk.Fills (Places settings all ready) r.disk final ∧
      (∀ names, (∀ p ∈ sources.zipIdx number,
          ready.place (target settings p.1 p.2) ≠ .ok (some names)) →
        final.entry? names = r.disk.entry? names) ∧
      ∀ before p after, sources.zipIdx number = before ++ p :: after →
        (∀ q ∈ after, target settings q.1 q.2 ≠ target settings p.1 p.2) →
        final.read (target settings p.1 p.2) = .ok (aloneText settings ready p.1) := by
  induction sources generalizing number r with
  | nil => exact ⟨by simp, .refl _ _, fun _ _ => rfl, by simp⟩
  | cons source sources ih =>
      have hdir := hprepared r.disk hfills
      rw [compileAll] at hexit ⊢
      simp only [Bool.false_eq_true, if_false] at hexit ⊢
      rcases compileToFile_cases settings source number r with
        ⟨r', hfail, hone⟩ | ⟨ready', outcome, left, hdir', hcompile, hresult, hstep⟩
      · rw [hfail] at hexit
        simp [hone] at hexit
      · obtain rfl := Except.ok.inj (hdir.symm.trans hdir')
        rw [hstep] at hexit ⊢
        rw [List.zipIdx_cons] at hall
        obtain ⟨hmem, hrest⟩ := List.forall_mem_cons.1 hall
        obtain ⟨names, hplace, rfl, hentry, hother, hleft⟩ :=
          compileInto_target hmem hfills (fun _ e hcreate => hapart source e (.here hdir hcreate))
            hcompile
        have hready := hfills.trans hleft
        obtain ⟨hresults, hkept, hunwritten, hlast⟩ := ih (r := { r with disk := left }) hrest
          hready (fun other e hstage => hapart other e (.next hdir hcompile hresult hstage)) hexit
        dsimp only at hkept hunwritten
        rw [List.zipIdx_cons]
        refine ⟨List.forall_mem_cons.2 ⟨hresult, hresults⟩, hleft.trans hkept, ?_, ?_⟩
        · intro key hkey
          obtain ⟨hhead, htail⟩ := List.forall_mem_cons.1 hkey
          have hne : key ≠ names := fun heq => hhead (heq ▸ hplace)
          exact (hunwritten key htail).trans (hother key hne)
        · intro before p after hsplit hafter
          cases before with
          | cons _ before => exact hlast before p after (List.cons.inj hsplit).2 hafter
          | nil =>
              -- the later sources write elsewhere
              obtain ⟨rfl, rfl⟩ := List.cons.inj hsplit
              have hkeep := hunwritten names fun q hq hq' =>
                hafter q hq (target_injective hplace hq')
              have hresolve : left.resolve (target settings source number) = .ok names :=
                Disk.resolve_of_place (hready.place_iff.2 hplace) (by simp [hentry])
              rw [Disk.read, hkept.keeps.resolve hresolve]
              dsimp only
              rw [hkeep, hentry]

/-- Making the build directory first does not change a run. -/
theorem compileAll_of_makeDirs
    (hdir : r.disk.makeDirs settings.buildDir = .ok ready)
    (hready : ready.makeDirs settings.buildDir = .ok ready) :
    compileAll settings false (source :: sources) number r =
      compileAll settings false (source :: sources) number { r with disk := ready } := by
  have hstep : compileToFile settings source number r =
      compileToFile settings source number { r with disk := ready } := by
    unfold compileToFile
    rw [hdir, hready]
  rw [compileAll, compileAll]
  simp only [Bool.false_eq_true, if_false, hstep]

theorem Stage.of_makeDirs
    {other : Source}
    (hdir : d.makeDirs settings.buildDir = .ok ready)
    (hready : ready.makeDirs settings.buildDir = .ok ready)
    (h : Stage settings (source :: sources) number ready other e) :
    Stage settings (source :: sources) number d other e := by
  cases h with
  | here hdir' hcreate =>
      obtain rfl := Except.ok.inj (hready.symm.trans hdir')
      exact .here hdir hcreate
  | next hdir' hcompile hresult h =>
      obtain rfl := Except.ok.inj (hready.symm.trans hdir')
      exact .next hdir hcompile hresult h

/-- `compileAll_targets` for a whole run, which makes the build directory first. -/
theorem compileAll_outputs
    (hne : sources ≠ [])
    (hapart : ∀ source e, Stage settings sources number r.disk source e →
      Apart settings (sources.zipIdx number) source e)
    (hexit : (compileAll settings false sources number r).exit = 0) :
    ∃ ready, r.disk.makeDirs settings.buildDir = .ok ready ∧
      (∀ p ∈ sources.zipIdx number,
        (p.1.compileOn ready settings.includeDirs).result = .ok ()) ∧
      ∀ before p after, sources.zipIdx number = before ++ p :: after →
        (∀ q ∈ after, target settings q.1 q.2 ≠ target settings p.1 p.2) →
        (compileAll settings false sources number r).disk.read (target settings p.1 p.2) =
          .ok (aloneText settings ready p.1) := by
  cases sources with
  | nil => exact absurd rfl hne
  | cons source sources =>
      obtain ⟨ready, outcome, left, hdir, hcompile⟩ : ∃ ready outcome left,
          r.disk.makeDirs settings.buildDir = .ok ready ∧
          source.compileInto ready settings.includeDirs (target settings source number) =
            .ok (outcome, left) := by
        rcases compileToFile_cases settings source number r with
          ⟨r', hfail, hone⟩ | ⟨ready, outcome, left, hdir, hcompile, -, -⟩
        · rw [compileAll] at hexit
          simp [hfail, hone] at hexit
        · exact ⟨ready, outcome, left, hdir, hcompile⟩
      obtain ⟨names, e, hcreate⟩ := create_of_compileInto hcompile
      obtain ⟨hplace, -, -⟩ := Disk.create_eq_ok (getLast?_target _ _ _) hcreate
      have hprepared : ∀ W e, Disk.Fills W ready e → e.makeDirs settings.buildDir = .ok e :=
        fun W e hfills => makeDirs_of_place hplace hfills
      have hready := hprepared (fun _ => False) ready (.refl _ _)
      rw [compileAll_of_makeDirs hdir hready] at hexit ⊢
      obtain ⟨hresults, -, -, hlast⟩ := compileAll_targets (hprepared _) (fun _ hp => hp)
        (.refl _ _) (fun other e hstage => hapart other e (hstage.of_makeDirs hdir hready)) hexit
      exact ⟨ready, hdir, hresults, hlast⟩

end Stages

end CommandLine

end SpeechMarkup
