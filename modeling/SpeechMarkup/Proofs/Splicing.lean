import SpeechMarkup.Proofs.Definitions
import SpeechMarkup.Proofs.InPlace
import SpeechMarkup.Proofs.Origins

/-!
# Phrases in place

A call of a phrase stands for the body of the phrase.  The guard against a phrase that
refers to itself is the only difference, and without imports it refuses only what cannot be
expanded in place either: a phrase that comes back to itself does so again inside itself.

* `Expansion.guardedAtCall`: the guard of a phrase ends a run at a call of the phrase.
* `Expansion.Reaches.expandAll_of_error`: a node that fails ends the run that reaches it.
* `Expansion.Reaches.fails_again`: what led to a call once leads to it again, in a store
  that has grown, or fails before.
* `call_splices` is the main result.
-/

namespace SpeechMarkup

open Expansion

section Growth

theorem Store.Valid.isBuiltinPhoneme_eq_false
    {s : Store}
    {name : String}
    {body : List Node}
    (h : s.Valid)
    (hbody : s.phrase? name = some body) :
    isBuiltinPhoneme name = false :=
  (h.wellFormed .phrase name (.phrase body) (by simp [Store.definition?, hbody])).2

/-- The expansion of a node leaves every definition as it was. -/
theorem Expansion.expand_extends
    (files : Files)
    (scope : Scope)
    (n : Node)
    (s : Store) :
    s.Extends (expand files scope n s).2 := by
  have hdefine : ∀ r t m, s.Extends r → m.ruleFault? = none → r.define m = .ok t → s.Extends t :=
    fun _ _ _ hr _ ht => hr.define ht
  have hkeeps : (expandNode files (unbounded files) scope n).Keeps s.Extends (fun _ => True)
      fun _ => True :=
    expandNode_keeps_store hdefine (fun _ _ hr => hr)
      (unbounded_keeps_store hdefine fun _ _ hr => hr) n
  rw [expand_eq]
  exact (hkeeps s (.refl s)).1

end Growth

namespace Expansion

section Reaching

variable {files : Files} {scope scope' inner : Scope} {nodes ns body : List Node} {n : Node}
variable {s t u : Store} {paths names : List String} {x : String}

theorem Reaches.extends
    (h : Reaches files scope nodes s inner n u) :
    s.Extends u := by
  induction h with
  | here => exact .refl _
  | @next scope inner m n ns s t u text hrun _ ih =>
      have hstep := expand_extends files scope m s
      rw [hrun] at hstep
      exact hstep.trans ih
  | loop _ _ ih => exact ih
  | file _ _ _ _ _ ih => exact ih
  | phrase _ _ _ _ ih => exact ih

/-- What a run with more guards comes to, a run with fewer guards comes to as well. -/
theorem Reaches.of_guards
    (h : Reaches files scope nodes s inner n u)
    (hguards : scope.Guards paths names scope') :
    ∃ inner', Reaches files scope' nodes s inner' n u := by
  induction h generalizing scope' with
  | here => exact ⟨scope', .here⟩
  | @next scope inner m n ns s t u text hrun _ ih =>
      obtain ⟨inner', hreach⟩ := ih hguards
      have hsame : expand files scope m s = expand files scope' m s ∨
          ∃ d v, expand files scope m s = (.error d, v) ∧ d.value.OfGuards paths names :=
        expand_of_guards hguards m s
      rcases hsame with heq | ⟨d, v, hfail, -⟩
      · exact ⟨inner', .next (heq.symm.trans hrun) hreach⟩
      · cases hrun.symm.trans hfail
  | loop hfault _ ih =>
      obtain ⟨inner', hreach⟩ := ih hguards
      exact ⟨inner', .loop hfault hreach⟩
  | @file scope middle inner pos name path text n ns body s u hlocate hmiddle hread hbody _ ih =>
      have hentered := hguards.enterFile? path
      rw [hmiddle] at hentered
      generalize hother : scope'.enterFile? path = entered at hentered
      cases hentered with
      | some hmiddle' =>
          obtain ⟨inner', hreach⟩ := ih hmiddle'
          have hlocate' : locate files scope' s name = some path := by
            rw [← hlocate, locate, locate, hguards.dir]
          exact ⟨inner', .file hlocate' hother hread hbody hreach⟩
  | @phrase scope middle inner p n ns body s u hsymbol hbody hmiddle _ ih =>
      have hentered := hguards.enterPhrase? p.symbol
      rw [hmiddle] at hentered
      generalize hother : scope'.enterPhrase? p.symbol = entered at hentered
      cases hentered with
      | some hmiddle' =>
          obtain ⟨inner', hreach⟩ := ih hmiddle'
          exact ⟨inner', .phrase hsymbol hbody hother hreach⟩

/-- A node that fails ends the run that comes to it. -/
theorem Reaches.expandAll_of_error
    {d : Diagnostic}
    (h : Reaches files scope nodes s inner n u)
    (hrun : expand files inner n u = (.error d, t)) :
    expandAll files scope nodes s = (.error d, t) := by
  induction h with
  | here => exact expandAll_cons_of_error hrun
  | next hhead _ ih =>
      rw [expandAll_cons, hhead]
      dsimp only
      rw [ih hrun]
  | loop hfault _ ih =>
      refine expandAll_cons_of_error ?_
      rw [expand_loop hfault, ih hrun]
  | file hlocate hmiddle hread hbody _ ih =>
      refine expandAll_cons_of_error ?_
      rw [expand_import, hlocate]
      dsimp only
      rw [hmiddle, hread]
      dsimp only
      rw [hbody]
      exact ih hrun
  | phrase hsymbol hbody hmiddle _ ih =>
      refine expandAll_cons_of_error ?_
      rw [expand_phrase hsymbol hbody, hmiddle]
      exact ih hrun

/--
What led to a call of a phrase leads to it again in a store that has grown, unless the run
fails before; and where the phrase is being replayed, the call fails.  No import may lie on
the way, since another directory is searched for it then.
-/
theorem Reaches.fails_again
    {q : Phoneme}
    {v : Store}
    (h : Reaches files scope nodes s inner (.phoneme q) u)
    (himports : ∀ inner n u, Reaches files scope nodes s inner n u →
      ∀ pos params context, n ≠ .command pos "import" params context)
    (hsymbol : isBuiltinPhoneme q.symbol = false)
    (hbody : u.phrase? q.symbol = some body)
    (hextends : u.Extends v)
    (hreplaying : q.symbol ∈ scope'.replaying) :
    ∃ d t, expandAll files scope' nodes v = (.error d, t) := by
  generalize hcall : Node.phoneme q = n at h
  induction h generalizing scope' v with
  | here =>
      subst hcall
      refine ⟨⟨q.pos, .resolution (.selfReference q.symbol)⟩, v, expandAll_cons_of_error ?_⟩
      have hrefused : scope'.enterPhrase? q.symbol = none := by
        simp [Scope.enterPhrase?, hreplaying]
      rw [expand_phrase hsymbol (hextends.phrase? hbody), hrefused]
  | @next scope inner m n ns s t u text hrun _ ih =>
      have hstep := expand_extends files scope' m v
      rcases hagain : expand files scope' m v with ⟨d | text', w⟩
      · exact ⟨d, w, expandAll_cons_of_error hagain⟩
      · rw [hagain] at hstep
        obtain ⟨d, w', hfail⟩ := ih (fun inner n u hreach => himports inner n u (.next hrun hreach))
          hbody (hextends.trans hstep) hreplaying hcall
        refine ⟨d, w', ?_⟩
        rw [expandAll_cons, hagain]
        dsimp only
        rw [hfail]
  | loop hfault _ ih =>
      obtain ⟨d, w, hfail⟩ := ih (fun inner n u hreach => himports inner n u (.loop hfault hreach))
        hbody hextends hreplaying hcall
      refine ⟨d, w, expandAll_cons_of_error ?_⟩
      rw [expand_loop hfault, hfail]
  | file => exact absurd rfl (himports _ _ _ .here _ _ _)
  | @phrase scope middle inner p n ns body' s u hp hbody' hmiddle hreach ih =>
      have hsame := hextends.phrase? (hreach.extends.phrase? hbody')
      cases hmiddle' : scope'.enterPhrase? p.symbol with
      | none =>
          refine ⟨⟨p.pos, .resolution (.selfReference p.symbol)⟩, v, expandAll_cons_of_error ?_⟩
          rw [expand_phrase hp hsame, hmiddle']
      | some middle' =>
          have hreplaying' : q.symbol ∈ middle'.replaying := by
            obtain ⟨-, rfl⟩ := Scope.enterPhrase?_eq_some hmiddle'
            exact List.mem_cons_of_mem _ hreplaying
          obtain ⟨d, w, hfail⟩ := ih
            (fun inner n u hreach => himports inner n u (.phrase hp hbody' hmiddle hreach))
            hbody hextends hreplaying' hcall
          refine ⟨d, w, expandAll_cons_of_error ?_⟩
          rw [expand_phrase hp hsame, hmiddle']
          exact hfail

end Reaching

section Guarded

/-- The guard of a phrase ends a run at a call of the phrase. -/
theorem guardedAtCall
    {files : Files}
    {scope : Scope}
    {nodes : List Node}
    {s t : Store}
    {d : Diagnostic}
    {x : String}
    (hrun : expandAll files scope nodes s = (.error d, t))
    (hd : d.value = .resolution (.selfReference x)) :
    ∃ inner q u, Reaches files scope nodes s inner (.phoneme q) u ∧ q.symbol = x := by
  obtain ⟨inner, n, u, hreach, hraises⟩ := exists_origin hrun
  cases hraises with
  | @selfReference q =>
      cases hd
      exact ⟨inner, q, u, hreach, rfl⟩
  | unparsed h =>
      rcases ofText_error h with ⟨fault, hfault⟩ | ⟨fault, hfault⟩
      · cases hd.symm.trans hfault
      · cases hd.symm.trans hfault
  | _ => cases hd

end Guarded

end Expansion

section Calling

variable {files : Files} {scope : Scope} {s : Store} {p : Phoneme} {body : List Node}

/-- The scope inside the phrase guards against the phrase, and otherwise as the scope around
it. -/
theorem Scope.guards_cons (scope : Scope) (x : String) :
    Scope.Guards [] [x] { scope with replaying := x :: scope.replaying } scope := by
  refine ⟨rfl, fun _ hy => hy, fun _ hy => Or.inl hy, ?_, ?_⟩
  · intro y hy
    exact List.mem_cons_of_mem x hy
  · intro y hy
    rcases List.mem_cons.1 hy with rfl | hy
    · exact Or.inr (List.mem_singleton_self y)
    · exact Or.inl hy

/-- A call expands the body in a scope with one more guard. -/
theorem Expansion.expand_call
    (hsymbol : isBuiltinPhoneme p.symbol = false)
    (hbody : s.phrase? p.symbol = some body)
    (hfresh : p.symbol ∉ scope.replaying) :
    expand files scope (.phoneme p) s =
      expandAll files { scope with replaying := p.symbol :: scope.replaying } body s := by
  rw [expand_phrase hsymbol hbody, Scope.enterPhrase?, if_neg (by simpa using hfresh)]

/-- A call gives what its body gives in place, or its guard ends it. -/
theorem Expansion.expand_call_of_guards
    (hsymbol : isBuiltinPhoneme p.symbol = false)
    (hbody : s.phrase? p.symbol = some body)
    (hfresh : p.symbol ∉ scope.replaying) :
    expand files scope (.phoneme p) s = expandAll files scope body s ∨
      ∃ d t, expand files scope (.phoneme p) s = (.error d, t) ∧
        d.value = .resolution (.selfReference p.symbol) := by
  rw [expand_call hsymbol hbody hfresh]
  refine (expandAll_of_guards (scope.guards_cons p.symbol) body s).imp_right ?_
  rintro ⟨d, t, hrun, ⟨x, hx, -⟩ | ⟨x, hx, hd⟩⟩
  · cases hx
  · obtain rfl := List.mem_singleton.1 hx
    exact ⟨d, t, hrun, hd⟩

/--
A body that comes back to its own phrase cannot be expanded in place if no import lies on
the way: the call that it comes to expands the body once more, now with the guard.
-/
theorem Expansion.expandAll_fails_of_guard
    {d : Diagnostic}
    {t : Store}
    (hsymbol : isBuiltinPhoneme p.symbol = false)
    (hbody : s.phrase? p.symbol = some body)
    (hfresh : p.symbol ∉ scope.replaying)
    (himports : ∀ inner n u, Reaches files scope body s inner n u →
      ∀ pos params context, n ≠ .command pos "import" params context)
    (hrun : expand files scope (.phoneme p) s = (.error d, t))
    (hd : d.value = .resolution (.selfReference p.symbol)) :
    ∃ d t, expandAll files scope body s = (.error d, t) := by
  rw [expand_call hsymbol hbody hfresh] at hrun
  obtain ⟨inner, q, u, hguarded, hq⟩ := guardedAtCall hrun hd
  obtain ⟨inner', hreach⟩ := hguarded.of_guards (scope.guards_cons p.symbol)
  have hsymbol' : isBuiltinPhoneme q.symbol = false := hq ▸ hsymbol
  have hbody' : u.phrase? q.symbol = some body := hreach.extends.phrase? (hq ▸ hbody)
  have hcall : ∃ e v, expand files inner' (.phoneme q) u = (.error e, v) := by
    rw [expand_phrase hsymbol' hbody']
    cases hentered : inner'.enterPhrase? q.symbol with
    | none => exact ⟨_, _, rfl⟩
    | some entered =>
        have hreplaying : q.symbol ∈ entered.replaying := by
          obtain ⟨-, rfl⟩ := Scope.enterPhrase?_eq_some hentered
          exact List.mem_cons_self
        exact hreach.fails_again himports hsymbol' hbody' (.refl u) hreplaying
  obtain ⟨e, v, hfail⟩ := hcall
  exact ⟨e, v, hreach.expandAll_of_error hfail⟩

/--
A call of a phrase that is not being replayed gives what the nodes of its body give in its
place, whatever its length and pitch, or it fails since the phrase refers to itself.  If the
body comes to no import when it is expanded in place, at any depth, then the call succeeds
if and only if that expansion does.
-/
theorem call_splices
    (hs : s.Valid)
    (hbody : s.phrase? p.symbol = some body)
    (hfresh : p.symbol ∉ scope.replaying) :
    (expand files scope (.phoneme p) s = expandAll files scope body s ∨
      ∃ d t, expand files scope (.phoneme p) s = (.error d, t) ∧ d.kind = "ResolutionError" ∧
        d.message = "phrase '" ++ p.symbol ++ "' refers to itself") ∧
    ((∀ inner n u, Reaches files scope body s inner n u →
        ∀ pos params context, n ≠ .command pos "import" params context) →
      ((∃ text t, expand files scope (.phoneme p) s = (.ok text, t)) ↔
        ∃ text t, expandAll files scope body s = (.ok text, t))) := by
  have hsymbol := hs.isBuiltinPhoneme_eq_false hbody
  rcases expand_call_of_guards hsymbol hbody hfresh with heq | ⟨d, t, hrun, hd⟩
  · exact ⟨Or.inl heq, fun _ => by rw [heq]⟩
  · constructor
    · refine Or.inr ⟨d, t, hrun, ?_, ?_⟩
      · rw [Diagnostic.kind, hd]
        rfl
      · rw [Diagnostic.message, hd]
        rfl
    · intro himports
      obtain ⟨e, u, hfail⟩ := expandAll_fails_of_guard hsymbol hbody hfresh himports hrun hd
      constructor
      · rintro ⟨text, v, hok⟩
        cases hrun.symm.trans hok
      · rintro ⟨text, v, hok⟩
        cases hfail.symm.trans hok

/-- A phrase that calls another one. -/
def nested : Store where
  workDir := "/work"
  searchDirs := ["/work"]
  phrases :=
    [("lo", [.phoneme ⟨{}, "t", .int 0, 0⟩]),
      ("hi", [.phoneme ⟨{}, "lo", .int 0, 0⟩, .phoneme ⟨{}, "aa", .int 0, 0⟩])]

theorem valid_nested : nested.Valid :=
  .of_phrases rfl rfl (by decide +kernel)

/-- Inside another phrase, a call with a length and a pitch of its own gives its body. -/
theorem call_splices_nested :
    ∃ body, nested.phrase? "hi" = some body ∧
      (expandAll (Listing.files ⟨[]⟩) ⟨"/work", [], ["up"]⟩ body nested).1 = .ok "[t][aa]" ∧
      expand (Listing.files ⟨[]⟩) ⟨"/work", [], ["up"]⟩ (.phoneme ⟨{}, "hi", .int 300, 5⟩) nested =
        expandAll (Listing.files ⟨[]⟩) ⟨"/work", [], ["up"]⟩ body nested := by
  have htext : (expandAll (Listing.files ⟨[]⟩) ⟨"/work", [], ["up"]⟩
      [.phoneme ⟨{}, "lo", .int 0, 0⟩, .phoneme ⟨{}, "aa", .int 0, 0⟩] nested).1 =
      .ok "[t][aa]" := by
    decide +kernel
  have himports : ∀ inner n u, Reaches (Listing.files ⟨[]⟩) ⟨"/work", [], ["up"]⟩
      [.phoneme ⟨{}, "lo", .int 0, 0⟩, .phoneme ⟨{}, "aa", .int 0, 0⟩] nested inner n u →
      ∀ pos params context, n ≠ .command pos "import" params context := by
    intro inner n u h
    cases h with
    | here => simp
    | next _ h =>
        cases h with
        | here => simp
        | next _ h => cases h
        | phrase hsymbol _ _ _ => exact absurd hsymbol (by decide +kernel)
    | phrase _ hbody _ h =>
        obtain rfl := Option.some.inj hbody
        cases h with
        | here => simp
        | next _ h => cases h
        | phrase hsymbol _ _ _ => exact absurd hsymbol (by decide +kernel)
  refine ⟨_, rfl, htext, ?_⟩
  have hsplices := @call_splices (Listing.files ⟨[]⟩) ⟨"/work", [], ["up"]⟩ nested
    ⟨{}, "hi", .int 300, 5⟩ _ valid_nested rfl (by decide)
  obtain ⟨heq | ⟨d, t, hrun, -⟩, hiff⟩ := hsplices
  · exact heq
  · obtain ⟨text, u, hok⟩ := (hiff himports).2 ⟨_, _, Prod.ext htext rfl⟩
    cases hrun.symm.trans hok

end Calling

end SpeechMarkup
