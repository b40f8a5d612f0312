import SpeechMarkup.Proofs.Targets

/-!
# What a run leaves in its target files

A target is named after the stem or the number of its source alone, so that sources of one
run can share a target.

* `CommandLine.plan_sound`: the sources of a run are collected without a change on the disk.
* `CommandLine.Delivered` says what stands in the targets when sources were compiled into them.
* `CommandLine.runWith_targets` is the result for any settings and options, and
  `CommandLine.run_targets` the one for any arguments.  All texts are kept if and only if sources
  with one target have one text, and `CommandLine.run_overwrites` is a run that loses one.
-/

namespace SpeechMarkup

open Expansion

namespace CommandLine

section Runs

variable {s : Settings} {options : Options} {d : Disk} {home : Option String}
variable {words : String → String}

/-- Sources are collected without a change on the disk, or the run ends with an error. -/
def Collected.Sound (d : Disk) : Collected → Prop
  | .ok (_, r) => r.disk = d
  | .error r => r.exit = 1

theorem readSource_sound (path : String) (sources : List Source) (r : Report) :
    Collected.Sound r.disk (readSource path sources r) := by
  unfold readSource
  cases Source.read r.disk path with
  | ok source => rfl
  | error fault => rfl

theorem readSources_sound (paths : List String) (sources : List Source) (r : Report) :
    Collected.Sound r.disk (readSources paths sources r) := by
  induction paths generalizing sources r with
  | nil => rfl
  | cons path paths ih =>
      have hread := readSource_sound path sources r
      rw [readSources]
      cases hcollected : readSource path sources r with
      | error r' =>
          rw [hcollected] at hread
          exact hread
      | ok collected =>
          rw [hcollected] at hread
          exact hread ▸ ih collected.1 collected.2

theorem collect_sound (extension : String) (args : List String) (sources : List Source)
    (r : Report) :
    Collected.Sound r.disk (collect extension args sources r) := by
  induction args generalizing sources r with
  | nil => rfl
  | cons arg args ih =>
      have hread := readSource_sound arg sources r
      rw [collect]
      split
      · cases hcollected : readSource arg sources r with
        | error r' =>
            rw [hcollected] at hread
            exact hread
        | ok collected =>
            rw [hcollected] at hread
            exact hread ▸ ih collected.1 collected.2
      · split
        · exact ih sources (r.warn _)
        · exact ih _ r

theorem plan_sound (s : Settings) (options : Options) (d : Disk) :
    Collected.Sound d (plan s options d) := by
  unfold plan
  dsimp only
  split
  · rfl
  · split
    · exact readSources_sound _ _ _
    · exact collect_sound _ _ _ _

/-- Among the entries of a list that have one image there is a last. -/
theorem exists_last
    {α β : Type}
    (f : α → β)
    {l : List α}
    {a : α}
    (h : a ∈ l) :
    ∃ before b after, l = before ++ b :: after ∧ f b = f a ∧ ∀ c ∈ after, f c ≠ f b := by
  induction l generalizing a with
  | nil => cases h
  | cons x l ih =>
      by_cases hlater : ∃ c ∈ l, f c = f a
      · obtain ⟨c, hc, hfc⟩ := hlater
        obtain ⟨before, b, after, rfl, hb, hafter⟩ := ih hc
        exact ⟨x :: before, b, after, rfl, hb.trans hfc, hafter⟩
      · rcases List.mem_cons.1 h with rfl | hmem
        · exact ⟨[], a, l, rfl, rfl, fun c hc hfc => hlater ⟨c, hc, hfc⟩⟩
        · exact absurd ⟨a, hmem, rfl⟩ hlater

/-- Where the last entry decides what is read, all entries are read back if and only if those
that are read in one place agree. -/
theorem reads_all_iff
    {α : Type}
    {l : List α}
    {place text : α → String}
    {read : String → Except FileFault String}
    (hlast : ∀ before p after, l = before ++ p :: after → (∀ q ∈ after, place q ≠ place p) →
      read (place p) = .ok (text p)) :
    (∀ p ∈ l, read (place p) = .ok (text p)) ↔
      ∀ p ∈ l, ∀ q ∈ l, place p = place q → text p = text q := by
  constructor
  · intro hall p hp q hq hplace
    have hread := hall p hp
    rw [hplace, hall q hq] at hread
    exact (Except.ok.inj hread).symm
  · intro hagree p hp
    obtain ⟨before, q, after, hsplit, hplace, hafter⟩ := exists_last place hp
    have hq : q ∈ l := by simp [hsplit]
    rw [← hplace, hlast before q after hsplit hafter, hagree q hq p hp hplace]

/--
What stands in the targets of `sources` on the disk `final`, when they were compiled into them
one after the other, starting with the disk `d` on which the build directory was made, which
gave `ready`.

The build directory matters only to a path that leads through it, such as one that goes on
with two dots: without such a path the text is that of the disk as it was.
-/
structure Delivered (settings : Settings) (sources : Numbered) (d ready final : Disk) : Prop where
  made : d.makeDirs settings.buildDir = .ok ready
  ready_eq : d.isDir settings.buildDir = true → ready = d
  compileOn_eq : ∀ p ∈ sources,
    (∀ path, p.1.Finds ready settings.includeDirs path → ∃ names, d.resolve path = .ok names) →
    p.1.compileOn d settings.includeDirs = p.1.compileOn ready settings.includeDirs
  /-- Every source is compiled without a fault. -/
  compiled : ∀ p ∈ sources, (p.1.compileOn ready settings.includeDirs).result = .ok ()
  /-- A target holds the text of the last source that has it, as the source gives it alone. -/
  last : ∀ before p after, sources = before ++ p :: after →
    (∀ q ∈ after, target settings q.1 q.2 ≠ target settings p.1 p.2) →
    final.read (target settings p.1 p.2) = .ok (aloneText settings ready p.1)
  /-- All texts are kept if and only if sources with one target have one text. -/
  all_iff :
    (∀ p ∈ sources,
      final.read (target settings p.1 p.2) = .ok (aloneText settings ready p.1)) ↔
    ∀ p ∈ sources, ∀ q ∈ sources, target settings p.1 p.2 = target settings q.1 q.2 →
      aloneText settings ready p.1 = aloneText settings ready q.1

/-- What a run with any settings and options leaves in its target files, if it ends well
and no import or play leads to a target. -/
theorem runWith_targets
    (hfiles : options.toStdout = false)
    (hexit : (runWith s options d).exit = 0) :
    ∃ sources r, plan s options d = .ok (sources, r) ∧
      ((∀ source e, Stage (adjust s options) sources 1 d source e →
          Apart (adjust s options) (sources.zipIdx 1) source e) →
        sources ≠ [] →
        ∃ ready, Delivered (adjust s options) (sources.zipIdx 1) d ready
          (runWith s options d).disk) := by
  have hsound := plan_sound s options d
  unfold runWith at hexit ⊢
  cases hplan : plan s options d with
  | error r =>
      rw [hplan] at hexit hsound
      exact absurd (hsound.symm.trans hexit) (by decide)
  | ok planned =>
      obtain ⟨sources, r⟩ := planned
      rw [hplan] at hexit hsound
      obtain rfl : r.disk = d := hsound
      refine ⟨sources, r, rfl, fun hapart hne => ?_⟩
      obtain ⟨source, rest, rfl⟩ := List.exists_cons_of_ne_nil hne
      rw [hfiles] at hexit ⊢
      dsimp only at hexit ⊢
      obtain ⟨ready, hdir, hresults, hlast⟩ := compileAll_outputs hne hapart hexit
      have hgrows : Disk.Grows r.disk ready := Disk.grows_of_makeDirsWith hdir
      refine ⟨ready, hdir, fun hexists => ?_, fun p _ hfound => ?_, hresults, hlast,
        reads_all_iff hlast⟩
      · exact Except.ok.inj (hdir.symm.trans (Disk.makeDirs_of_isDir hexists))
      · exact Source.compileOn_agree hgrows.workDir hgrows.agreeOff
          fun path hfinds => not_not.2 (hfound path hfinds)

/--
What a run leaves in its target files.  If it ends well and no import or play leads to a
target, then every source is compiled as it is alone once the build directory is made, and a
target holds the text of the last source that has it.  So all texts are kept if and only if
sources with one target have one text.
-/
theorem run_targets
    {args : List String}
    (hrequest : Request.ofArguments args = .run options)
    (hfiles : options.toStdout = false)
    (hexit : (run args d home words).exit = 0) :
    ∃ s sources r, settings options d home = .ok s ∧ plan s options d = .ok (sources, r) ∧
      ((∀ source e, Stage (adjust s options) sources 1 d source e →
          Apart (adjust s options) (sources.zipIdx 1) source e) →
        sources ≠ [] →
        ∃ ready, Delivered (adjust s options) (sources.zipIdx 1) d ready
          (run args d home words).disk) := by
  have hrun : run args d home words = runOptions options d home words := by rw [run, hrequest]
  rw [hrun, runOptions] at hexit ⊢
  cases hsettings : settings options d home with
  | error fault =>
      rw [hsettings] at hexit
      exact absurd hexit (by simp [Report.fail])
  | ok s =>
      rw [hsettings] at hexit
      obtain ⟨sources, r, hplan, hdelivered⟩ := runWith_targets hfiles hexit
      exact ⟨s, sources, r, rfl, hplan, hdelivered⟩

end Runs

section Twins

/-- Nodes that are spoken as they stand. -/
def isSpoken : Node → Bool
  | .phoneme p => isBuiltinPhoneme p.symbol
  | .stop _ => true
  | _ => false

theorem not_finds_of_isSpoken
    {files : Files}
    {scope : Scope}
    {nodes : List Node}
    {s : Store}
    {path : String}
    (h : ∀ n ∈ nodes, isSpoken n = true) :
    ¬ Expansion.Finds files scope nodes s path := by
  rintro ⟨inner, n, u, name, hreach, hlooks, -⟩
  induction hreach with
  | here =>
      have hspoken := h _ List.mem_cons_self
      cases hlooks <;> cases hspoken
  | next _ _ ih => exact ih (fun m hm => h m (List.mem_cons_of_mem _ hm)) hlooks
  | loop => cases h _ List.mem_cons_self
  | file => cases h _ List.mem_cons_self
  | phrase hsymbol => cases hsymbol.symm.trans (h _ List.mem_cons_self)

theorem eq_of_finds_import
    {files : Files}
    {scope : Scope}
    {pos : Position}
    {name file text path : String}
    {ns body : List Node}
    {s : Store}
    (hlocate : locate files scope s name = some file)
    (hread : files.read file = .ok text)
    (hbody : Node.ofText text file = .ok body)
    (hspoken : ∀ n ∈ body, isSpoken n = true)
    (hspoken' : ∀ n ∈ ns, isSpoken n = true)
    (h : Expansion.Finds files scope (.command pos "import" [.str name] [] :: ns) s path) :
    path = file := by
  obtain ⟨inner, n, u, name', hreach, hlooks, hfound⟩ := h
  generalize hnodes : Node.command pos "import" [.str name] [] :: ns = nodes at hreach
  cases hreach with
  | here =>
      obtain ⟨rfl, -⟩ := List.cons.inj hnodes
      generalize hnode : Node.command pos "import" [.str name] [] = n at hlooks
      cases hlooks with
      | importing =>
          simp only [Node.command.injEq, List.cons.injEq, Param.str.injEq, and_true, true_and]
            at hnode
          obtain ⟨-, rfl⟩ := hnode
          exact Option.some.inj (hfound.symm.trans hlocate)
      | playing => simp at hnode
  | next _ h =>
      obtain ⟨-, rfl⟩ := List.cons.inj hnodes
      exact absurd ⟨inner, n, u, name', h, hlooks, hfound⟩ (not_finds_of_isSpoken hspoken')
  | loop => simp at hnodes
  | file hlocate' _ hread' hbody' h =>
      simp only [Node.command.injEq, List.cons.injEq, Param.str.injEq, and_true, true_and]
        at hnodes
      obtain ⟨⟨-, rfl⟩, -⟩ := hnodes
      obtain rfl := Option.some.inj (hlocate'.symm.trans hlocate)
      obtain rfl := Except.ok.inj (hread'.symm.trans hread)
      obtain rfl := Except.ok.inj (hbody'.symm.trans hbody)
      exact absurd ⟨inner, n, u, name', h, hlooks, hfound⟩ (not_finds_of_isSpoken hspoken)
  | phrase => simp at hnodes

/-- Two directories that are searched for sources, with a source of the same name in each. -/
def twins : Disk where
  entries :=
    [(["work"], .directory), (["work", "a.opendec"], .text "aa"),
      (["work", "src"], .directory), (["work", "src", "a.opendec"], .text "[:import tone]"),
      (["work", "src", "tone"], .text "t")]
  workDir := "/work"

/-- The source in the working directory. -/
def elder : Source := ⟨"aa", some "./a.opendec"⟩

/-- The source in the other directory. -/
def younger : Source := ⟨"[:import tone]", some "src/a.opendec"⟩

theorem plan_twins :
    ∃ r, plan {} {} twins = .ok ([elder, younger], r) := by
  have hplan : (plan {} {} twins).toOption.map (·.1) = some [elder, younger] := by
    decide +kernel
  cases h : plan {} {} twins with
  | error r => simp [h, Except.toOption] at hplan
  | ok planned =>
      obtain ⟨sources, r⟩ := planned
      simp only [h, Except.toOption, Option.map_some, Option.some.injEq] at hplan
      exact ⟨r, by rw [hplan]⟩

/-- The names of the file that both sources are compiled into. -/
def twinTarget : List String := ["work", "build", "a.opendec.compiled"]

/-- The disk after the first source was compiled. -/
def afterElder : Disk :=
  (twins.put ["work", "build"] .directory).put twinTarget (.text "[aa]")

theorem ofText_isSpoken
    {text file : String}
    {nodes : List Node}
    (h : (Node.ofText text file).toOption.any (·.all isSpoken) = true)
    (hnodes : Node.ofText text file = .ok nodes) :
    ∀ n ∈ nodes, isSpoken n = true := by
  simpa [hnodes, Except.toOption] using h

/-- The younger source finds what it imports, and that is no target. -/
theorem younger_apart :
    Apart {} [(elder, 1), (younger, 2)] younger (afterElder.put twinTarget (.text "")) := by
  rintro path ⟨nodes, hnodes, hfinds⟩ p hp names hplace hresolve
  have himport : (Node.ofText younger.text younger.fileId).toOption.bind importedFirst? =
      some "tone" := by
    decide +kernel
  obtain ⟨pos, ns, hfirst⟩ := ofText_of_importedFirst? himport
  have hrest : (Node.ofText younger.text younger.fileId).toOption.any (·.tail.all isSpoken) =
      true := by
    decide +kernel
  have hbody : (Node.ofText "t" "/work/src/tone").toOption.any (·.all isSpoken) = true := by
    decide +kernel
  have hread : (afterElder.put twinTarget (.text "")).files.read "/work/src/tone" =
      .ok "t" := by
    decide +kernel
  obtain rfl := Except.ok.inj (hfirst.symm.trans hnodes)
  cases htone : Node.ofText "t" "/work/src/tone" with
  | error fault => simp [htone, Except.toOption] at hbody
  | ok body =>
      obtain rfl : path = "/work/src/tone" :=
        eq_of_finds_import (by decide +kernel) hread htone (ofText_isSpoken hbody htone)
          (by simpa [hfirst, Except.toOption] using hrest) hfinds
      have htarget : (afterElder.put twinTarget (.text "")).place (target {} p.1 p.2) =
          .ok (some twinTarget) := by
        rcases List.mem_cons.1 hp with rfl | hp
        · decide +kernel
        · obtain rfl := List.mem_singleton.1 hp
          decide +kernel
      have hpath : (afterElder.put twinTarget (.text "")).resolve "/work/src/tone" =
          .ok ["work", "src", "tone"] := by
        decide +kernel
      have hnames := Option.some.inj (Except.ok.inj (htarget.symm.trans hplace))
      have hsame := hnames.trans (Except.ok.inj (hresolve.symm.trans hpath))
      revert hsame
      decide

theorem twins_apart
    (source : Source)
    (e : Disk)
    (h : Stage {} [elder, younger] 1 twins source e) :
    Apart {} [(elder, 1), (younger, 2)] source e := by
  cases h with
  | here _ _ =>
      rintro path ⟨nodes, hnodes, hfinds⟩
      exact absurd hfinds (not_finds_of_isSpoken (ofText_isSpoken (by decide +kernel) hnodes))
  | @next _ _ _ _ _ ready left _ outcome hdir hcompile _ h =>
      cases h with
      | next _ _ _ h => cases h
      | here hdir' hcreate =>
          have hready : twins.makeDirs ({} : Settings).buildDir =
              .ok (twins.put ["work", "build"] .directory) := by
            decide +kernel
          have hleft : (elder.compileInto (twins.put ["work", "build"] .directory)
              ({} : Settings).includeDirs (target {} elder 1)).toOption.map (·.2) =
              some afterElder := by
            decide +kernel
          have hagain : afterElder.makeDirs ({} : Settings).buildDir = .ok afterElder := by
            decide +kernel
          have hemptied : afterElder.create (target {} younger 2) =
              .ok (twinTarget, afterElder.put twinTarget (.text "")) := by
            decide +kernel
          obtain rfl := Except.ok.inj (hready.symm.trans hdir)
          rw [hcompile] at hleft
          obtain rfl : left = afterElder := Option.some.inj hleft
          obtain rfl := Except.ok.inj (hagain.symm.trans hdir')
          obtain ⟨-, rfl⟩ := Prod.mk.inj (Except.ok.inj (hemptied.symm.trans hcreate))
          exact younger_apart

/-- The run of the two sources ends well, and leaves the text of the younger. -/
theorem run_targets_twins :
    (run [] twins none id).exit = 0 ∧
      (run [] twins none id).disk.read "build/a.opendec.compiled" = .ok "[t]" := by
  have hexit : (run [] twins none id).exit = 0 := by decide +kernel
  obtain ⟨r, hplan⟩ := plan_twins
  have hrequest : Request.ofArguments [] = .run {} := rfl
  have hsettings : settings {} twins none = .ok {} := rfl
  obtain ⟨s, sources, r', hsettings', hplan', hdelivered⟩ := run_targets hrequest rfl hexit
  obtain rfl := Except.ok.inj (hsettings.symm.trans hsettings')
  obtain ⟨rfl, -⟩ := Prod.mk.inj (Except.ok.inj (hplan.symm.trans hplan'))
  obtain ⟨ready, hdelivered⟩ := hdelivered twins_apart (by simp)
  have hready : twins.makeDirs ({} : Settings).buildDir =
      .ok (twins.put ["work", "build"] .directory) := by
    decide +kernel
  obtain rfl := Except.ok.inj (hready.symm.trans hdelivered.made)
  have htext : aloneText {} (twins.put ["work", "build"] .directory) younger = "[t]" := by
    decide +kernel
  have hread := hdelivered.last [(elder, 1)] (younger, 2) [] rfl (by simp)
  exact ⟨hexit, hread.trans (congrArg Except.ok htext)⟩

/-- The text of the elder source is lost: its target holds another, though on standard output
both appear. -/
theorem run_overwrites :
    settings {} twins none = .ok {} ∧
      (∃ r, plan {} {} twins = .ok ([elder, younger], r)) ∧
      (∀ source e, Stage (adjust {} {}) [elder, younger] 1 twins source e →
        Apart (adjust {} {}) [(elder, 1), (younger, 2)] source e) ∧
      (run [] twins none id).exit = 0 ∧
      aloneText (adjust {} {}) twins elder = "[aa]" ∧
      (run ["--stdout"] twins none id).stdout = "[aa][t]" ∧
      (run [] twins none id).disk.read (target (adjust {} {}) elder 1) = .ok "[t]" := by
  refine ⟨rfl, plan_twins, twins_apart, ?_, ?_, ?_, ?_⟩ <;> decide +kernel

end Twins

end CommandLine

end SpeechMarkup
