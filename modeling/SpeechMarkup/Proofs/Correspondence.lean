import Mathlib.Data.List.Forall2
import SpeechMarkup.Proofs.Unbounded

/-!
# Runs that correspond

Two runs that start alike go on alike.  What "alike" means differs: the nodes may stand
at other places, the scopes may guard against other files and phrases, the stores may
hold other definitions.  What has to be shown for one step does not differ, and is listed
here once.

* `Node.Alike` relates nodes that differ only in their places.
* `Correspondence` holds relations on places, scopes and stores that every look-up, every
  definition and every change of scope respects.  It also says which faults of the first
  run the second need not share, and which stores of the first run put an end to the
  comparison.
* `Correspondence.expandNode_follows` is the step, and `Correspondence.expandAll_follows`
  and `Correspondence.process_follows` carry it to whole runs.
-/

namespace SpeechMarkup

section Alike

/-- Phonemes that differ only in their places. -/
structure Phoneme.Alike (places : Position → Position → Prop) (p q : Phoneme) : Prop where
  pos : places p.pos q.pos
  symbol : q.symbol = p.symbol
  duration : q.duration = p.duration
  pitch : q.pitch = p.pitch

/-- Voices that differ only in their places. -/
structure Voice.Alike (places : Position → Position → Prop) (v w : Voice) : Prop where
  pos : places v.pos w.pos
  name : w.name = v.name
  settings : w.settings = v.settings

/-- Nodes that differ only in their places, and these are related. -/
inductive Node.Alike (places : Position → Position → Prop) : Node → Node → Prop
  | command
      {pos pos' : Position}
      {name : String}
      {params : List Param}
      {context context' : List Node}
      (hpos : places pos pos')
      (hcontext : List.Forall₂ (Node.Alike places) context context') :
      Alike places (.command pos name params context) (.command pos' name params context')
  | phoneme
      {p q : Phoneme}
      (h : p.Alike places q) :
      Alike places (.phoneme p) (.phoneme q)
  | voice
      {v w : Voice}
      (h : v.Alike places w) :
      Alike places (.voice v) (.voice w)
  | stop
      {pos pos' : Position}
      (hpos : places pos pos') :
      Alike places (.stop pos) (.stop pos')

variable {places : Position → Position → Prop}

theorem Node.Alike.refl (hrefl : ∀ pos, places pos pos) (n : Node) : n.Alike places n := by
  match n with
  | .command pos name params context =>
      exact .command (hrefl pos)
        (List.forall₂_same.2 fun m _ => Node.Alike.refl hrefl m)
  | .voice v => exact .voice ⟨hrefl v.pos, rfl, rfl⟩
  | .phoneme p => exact .phoneme ⟨hrefl p.pos, rfl, rfl, rfl⟩
  | .stop pos => exact .stop (hrefl pos)
termination_by sizeOf n
decreasing_by
  have hlt := List.sizeOf_lt_of_mem ‹m ∈ context›
  simp only [Node.command.sizeOf_spec]
  omega

theorem Node.Alike.refl_all
    (hrefl : ∀ pos, places pos pos)
    (ns : List Node) :
    List.Forall₂ (Node.Alike places) ns ns :=
  List.forall₂_same.2 fun n _ => .refl hrefl n

theorem Node.Alike.eq
    {n n' : Node}
    (h : n.Alike Eq n') :
    n = n' := by
  match n, n', h with
  | .command _ _ _ context, .command _ _ _ context', .command hpos hcontext =>
      have hall : List.Forall₂ Eq context context' := by
        refine List.forall₂_iff_get.2 ⟨hcontext.length_eq, fun i hi hi' => ?_⟩
        exact Node.Alike.eq (hcontext.get hi hi')
      rw [List.forall₂_eq_eq_eq] at hall
      rw [hpos, hall]
  | .phoneme p, .phoneme q, .phoneme ⟨hpos, hsymbol, hduration, hpitch⟩ =>
      cases p
      cases q
      simp_all
  | .voice v, .voice w, .voice ⟨hpos, hname, hsettings⟩ =>
      cases v
      cases w
      simp_all
  | .stop _, .stop _, .stop hpos => rw [hpos]
termination_by sizeOf n
decreasing_by
  have hlt := List.sizeOf_lt_of_mem (List.get_mem context ⟨i, hi⟩)
  simp only [Node.command.sizeOf_spec]
  omega

theorem Node.Alike.pos
    {n n' : Node}
    (h : n.Alike places n') :
    places n.pos n'.pos := by
  cases h with
  | command hpos _ => exact hpos
  | phoneme h => exact h.pos
  | voice h => exact h.pos
  | stop hpos => exact hpos

mutual

theorem Node.Alike.render
    {n n' : Node}
    (h : n.Alike places n') :
    n'.render = n.render := by
  match n, n', h with
  | .command _ name params context, .command _ _ _ context', .command _ hcontext =>
      have hempty : context'.isEmpty = context.isEmpty := by
        cases hcontext <;> rfl
      simp only [Node.render, hempty, Node.renderAll_alike hcontext]
  | .phoneme _, .phoneme _, .phoneme h =>
      simp only [Node.render, Phoneme.render, h.symbol, h.duration, h.pitch]
  | .voice _, .voice _, .voice h => simp only [Node.render, Voice.render, h.name, h.settings]
  | .stop _, .stop _, .stop _ => simp only [Node.render]

theorem Node.renderAll_alike
    {ns ns' : List Node}
    (h : List.Forall₂ (Node.Alike places) ns ns') :
    Node.renderAll ns' = Node.renderAll ns := by
  match ns, ns', h with
  | [], [], .nil => rfl
  | _ :: _, _ :: _, .cons hn hns =>
      simp only [Node.renderAll, hn.render, Node.renderAll_alike hns]

end

theorem soundClasses_alike
    {context context' : List Node}
    (sound : String)
    (h : List.Forall₂ (Node.Alike places) context context') :
    soundClasses sound context' = soundClasses sound context := by
  induction h with
  | nil => rfl
  | @cons n n' ns ns' hn _ ih =>
      have hrender := hn.render
      cases hn with
      | phoneme hp =>
          simp only [Node.render] at hrender
          simp only [soundClasses, hp.symbol, ih, hrender]
      | command _ _ => simp only [soundClasses, hrender]
      | voice _ => simp only [soundClasses, hrender]
      | stop _ => simp only [soundClasses, hrender]

/-- The rules look at no places. -/
theorem commandFault?_alike
    {context context' : List Node}
    (name : String)
    (params : List Param)
    (h : List.Forall₂ (Node.Alike places) context context') :
    commandFault? name params context' = commandFault? name params context := by
  have hempty : context'.isEmpty = context.isEmpty := by
    cases h <;> rfl
  unfold commandFault? contextFault? soundFault?
  rw [hempty, soundClasses_alike _ h]

theorem voiceFault?_alike
    {v w : Voice}
    (h : v.Alike places w) :
    voiceFault? w = voiceFault? v := by
  unfold voiceFault?
  rw [h.name, h.settings]

theorem phonemes_alike
    {context context' : List Node}
    (h : List.Forall₂ (Node.Alike places) context context') :
    List.Forall₂ (Phoneme.Alike places) (Store.phonemes context) (Store.phonemes context') := by
  induction h with
  | nil => exact .nil
  | cons hn _ ih =>
      cases hn with
      | phoneme hp => exact .cons hp ih
      | command _ _ => exact ih
      | voice _ => exact ih
      | stop _ => exact ih

/-- A sound is spoken the same wherever its phonemes were written. -/
theorem expandSound_alike
    {p q : Phoneme}
    {sound sound' : List Phoneme}
    (hp : p.Alike places q)
    (hsound : List.Forall₂ (Phoneme.Alike places) sound sound')
    (millis : Int) :
    expandSound q sound' millis = expandSound p sound millis := by
  have hplaceless : ∀ ps : List Phoneme,
      expandSound p (ps.map fun r => { r with pos := {} }) millis = expandSound p ps millis := by
    intro ps
    simp [expandSound, soundParts, List.takeWhile_map, List.dropWhile_map, ← List.map_reverse,
      Function.comp_def]
  have hmap : (sound'.map fun r => { r with pos := {} } : List Phoneme) =
      sound.map fun r => { r with pos := {} } := by
    induction hsound with
    | nil => rfl
    | cons hr _ ih => simp only [List.map_cons, ih, hr.symbol, hr.duration, hr.pitch]
  rw [← hplaceless sound, ← hmap, hplaceless sound']
  unfold expandSound
  rw [hp.symbol, hp.pitch]

end Alike

open Expansion

section Correspondences

/-- What two look-ups find: related values, or both find nothing.  The second may find
something where the first does not if there is an excuse. -/
inductive Matches {α : Type} (related : α → α → Prop) (excuse : Prop) : Option α → Option α → Prop
  | some {a b : α} (h : related a b) : Matches related excuse (some a) (some b)
  | none : Matches related excuse none none
  | excused {r : Option α} (h : excuse) : Matches related excuse none r

theorem Matches.refl
    {α : Type}
    {related : α → α → Prop}
    {excuse : Prop}
    (hrefl : ∀ a, related a a)
    (found : Option α) :
    Matches related excuse found found := by
  cases found with
  | none => exact .none
  | some a => exact .some (hrefl a)

/-- Relations between the parts of two runs that every step of an expansion respects. -/
structure Correspondence (files : Files) where
  places : Position → Position → Prop
  scopes : Scope → Scope → Prop
  stores : Store → Store → Prop
  /-- The faults of the first run that the second need not share. -/
  excused : Fault → Prop
  /-- The stores of the first run from which on nothing is said of the second. -/
  lost : Store → Prop
  refl : ∀ pos, places pos pos
  unit : ∀ {s s'}, stores s s' → s'.unit = s.unit
  tempo : ∀ {s s'} bpm, stores s s' → stores (s.setTempo bpm) (s'.setTempo bpm)
  define : ∀ {s s' n n'}, stores s s' → n.Alike places n' →
    (∃ t t', s.define n = .ok t ∧ s'.define n' = .ok t' ∧ stores t t') ∨
      (∃ fault, s.define n = .error fault ∧
        (s'.define n' = .error fault ∨ excused (.registration fault))) ∨
      ∃ t, s.define n = .ok t ∧ lost t
  phrase : ∀ {s s'} name, stores s s' →
    Matches (List.Forall₂ (Node.Alike places))
      (s.sound? name = none ∧ excused (.resolution (.unknownSymbol name)))
      (s.phrase? name) (s'.phrase? name)
  sound : ∀ {s s'} name, stores s s' →
    Matches (List.Forall₂ (Phoneme.Alike places)) (excused (.resolution (.unknownSymbol name)))
      (s.sound? name) (s'.sound? name)
  voice : ∀ {s s'} name, stores s s' →
    Matches Eq (excused (.resolution (.unknownVoice name))) (s.voice? name) (s'.voice? name)
  locate : ∀ {scope scope' s s'} name, scopes scope scope' → stores s s' →
    Matches Eq
      (excused (.resolution (.missingImport name)) ∧ excused (.resolution (.missingSound name)))
      (locate files scope s name) (locate files scope' s' name)
  enterFile : ∀ {scope scope'} path, scopes scope scope' →
    Matches scopes (excused (.resolution (.circularImport path)))
      (scope.enterFile? path) (scope'.enterFile? path)
  enterPhrase : ∀ {scope scope'} name, scopes scope scope' →
    Matches scopes (excused (.resolution (.selfReference name)))
      (scope.enterPhrase? name) (scope'.enterPhrase? name)
  lost_define : ∀ s t n, lost s → s.define n = .ok t → lost t
  lost_tempo : ∀ s bpm, lost s → lost (s.setTempo bpm)

namespace Correspondence

variable {files : Files} (C : Correspondence files)

/-- How the ends of two expansions are related. -/
inductive Outcomes :
    Except Diagnostic String × Store → Except Diagnostic String × Store → Prop
  | ok {text : String} {t t' : Store} (ht : C.stores t t') :
      Outcomes (.ok text, t) (.ok text, t')
  | error {d d' : Diagnostic} {t t' : Store}
      (hvalue : d'.value = d.value)
      (hpos : C.places d.pos d'.pos)
      (ht : C.stores t t') :
      Outcomes (.error d, t) (.error d', t')
  | excused {d : Diagnostic} {t : Store} {out : Except Diagnostic String × Store}
      (hd : C.excused d.value) :
      Outcomes (.error d, t) out
  | lost {result : Except Diagnostic String} {t : Store}
      {out : Except Diagnostic String × Store}
      (ht : C.lost t) :
      Outcomes (result, t) out

/-- Nothing is said of what the first run does from a lost store on. -/
theorem outcomes_of_lost
    {out out' : Except Diagnostic String × Store}
    (h : C.lost out.2) :
    C.Outcomes out out' := by
  obtain ⟨result, t⟩ := out
  exact .lost h

/-- The second run follows the first from corresponding stores. -/
def Follows (m m' : Run String) : Prop :=
  ∀ s s', C.stores s s' → C.Outcomes (m.run s) (m'.run s')

/-- Corresponding nodes are entered so that the second run follows the first. -/
def Enters (enter enter' : Enter) : Prop :=
  ∀ scope scope' nodes nodes', C.scopes scope scope' →
    List.Forall₂ (Node.Alike C.places) nodes nodes' →
    C.Follows (enter scope nodes) (enter' scope' nodes')

variable {C}

theorem follows_pure (text : String) : C.Follows (pure text) (pure text) :=
  fun _ _ hs => .ok hs

theorem follows_fail
    {pos pos' : Position}
    (fault : Fault)
    (hpos : C.places pos pos') :
    C.Follows (Run.fail pos fault) (Run.fail pos' fault) :=
  fun _ _ hs => .error rfl hpos hs

theorem follows_lift
    {ε : Type}
    {pos pos' : Position}
    (fault : ε → Fault)
    (result : Except ε String)
    (hpos : C.places pos pos') :
    C.Follows (Run.lift pos fault result) (Run.lift pos' fault result) := by
  cases result with
  | ok text => exact follows_pure text
  | error e => exact follows_fail (fault e) hpos

/-- To look at the store first is to know it. -/
theorem follows_get
    {f f' : Store → Run String}
    (h : ∀ s s', C.stores s s' → C.Outcomes ((f s).run s) ((f' s').run s')) :
    C.Follows (get >>= f) (get >>= f') := by
  intro s s' hs
  rw [Run.run_bind, Run.run_bind, Run.run_get, Run.run_get]
  exact h s s' hs

/-- A run that goes on from where corresponding runs end.  It must not find its way back
from a lost store. -/
theorem Follows.bind
    {m m' : Run String}
    {f f' : String → Run String}
    (hm : C.Follows m m')
    (hf : ∀ text, C.Follows (f text) (f' text))
    (hlost : ∀ text s, C.lost s → C.lost ((f text).run s).2) :
    C.Follows (m >>= f) (m' >>= f') := by
  intro s s' hs
  have hstep := hm s s' hs
  rw [Run.run_bind, Run.run_bind]
  rcases hrun : m.run s with ⟨d | text, t⟩
  · rw [hrun] at hstep
    generalize m'.run s' = out at hstep
    cases hstep with
    | error hvalue hpos ht => exact .error hvalue hpos ht
    | excused hd => exact .excused hd
    | lost ht => exact .lost ht
  · rw [hrun] at hstep
    generalize m'.run s' = out at hstep
    cases hstep with
    | ok ht => exact hf text _ _ ht
    | lost ht => exact outcomes_of_lost C (hlost text t ht)

end Correspondence

end Correspondences

namespace Correspondence

section Steps

variable {files : Files} {C : Correspondence files} {enter enter' : Enter} {scope scope' : Scope}

theorem register_follows
    {n n' : Node}
    (hn : n.Alike C.places n') :
    C.Follows (register n) (register n') := by
  refine follows_get fun s s' hs => ?_
  rcases C.define hs hn with
    ⟨t, t', ht, ht', hstores⟩ | ⟨fault, hfault, hfault' | hexcused⟩ | ⟨t, ht, hlost⟩
  · rw [ht, ht']
    exact .ok hstores
  · rw [hfault, hfault']
    exact .error rfl hn.pos hs
  · rw [hfault]
    exact .excused hexcused
  · rw [ht]
    exact .lost hlost

theorem setTempo_follows (bpm : Int) : C.Follows (setTempo bpm) (setTempo bpm) :=
  fun _ _ hs => .ok (C.tempo bpm hs)

theorem selectVoice_follows
    {pos pos' : Position}
    (params : List Param)
    (name : String)
    (hpos : C.places pos pos') :
    C.Follows (selectVoice pos params name) (selectVoice pos' params name) := by
  unfold selectVoice
  split
  · have hrender : (Node.command pos' "name" params []).render =
        (Node.command pos "name" params []).render := by simp only [Node.render]
    rw [hrender]
    exact follows_pure _
  · refine follows_get fun s s' hs => ?_
    have hvoice := C.voice name hs
    generalize s.voice? name = found at hvoice
    generalize s'.voice? name = found' at hvoice
    cases hvoice with
    | some h =>
        subst h
        exact .ok hs
    | none => exact .error rfl hpos hs
    | excused h => exact .excused h

theorem play_follows
    {pos pos' : Position}
    (name : String)
    (more : List Param)
    (hscope : C.scopes scope scope')
    (hpos : C.places pos pos') :
    C.Follows (play files scope pos name more) (play files scope' pos' name more) := by
  refine follows_get fun s s' hs => ?_
  have hlocate := C.locate name hscope hs
  generalize Expansion.locate files scope s name = found at hlocate
  generalize Expansion.locate files scope' s' name = found' at hlocate
  cases hlocate with
  | @some path path' h =>
      subst h
      have hrender : (Node.command pos' "play" (.str path :: more) []).render =
          (Node.command pos "play" (.str path :: more) []).render := by simp only [Node.render]
      dsimp only
      rw [hrender]
      exact .ok hs
  | none => exact .error rfl hpos hs
  | excused h => exact .excused h.2

/-- The nodes of a file are the same in both runs. -/
theorem importFile_follows
    {pos pos' : Position}
    (name : String)
    (henter : C.Enters enter enter')
    (hscope : C.scopes scope scope')
    (hpos : C.places pos pos') :
    C.Follows (importFile files enter scope pos name)
      (importFile files enter' scope' pos' name) := by
  refine follows_get fun s s' hs => ?_
  have hlocate := C.locate name hscope hs
  generalize Expansion.locate files scope s name = found at hlocate
  generalize Expansion.locate files scope' s' name = found' at hlocate
  cases hlocate with
  | none => exact .error rfl hpos hs
  | excused h => exact .excused h.1
  | @some path path' h =>
      subst h
      dsimp only
      have hinner := C.enterFile path hscope
      generalize scope.enterFile? path = entered at hinner
      generalize scope'.enterFile? path = entered' at hinner
      cases hinner with
      | none => exact .error rfl hpos hs
      | excused h => exact .excused h
      | @some inner inner' hinner =>
          dsimp only
          cases files.read path with
          | error e => exact .error rfl hpos hs
          | ok text =>
              rw [Run.run_bind, Run.run_bind, Run.run_lift_ok, Run.run_lift_ok]
              dsimp only
              cases Node.ofText text path with
              | error d => exact .error rfl (C.refl d.pos) hs
              | ok body =>
                  exact henter inner inner' body body hinner
                    (Node.Alike.refl_all C.refl body) s s' hs

theorem phoneme_follows
    {p q : Phoneme}
    (henter : C.Enters enter enter')
    (hscope : C.scopes scope scope')
    (hp : p.Alike C.places q) :
    C.Follows (phoneme enter scope p) (phoneme enter' scope' q) := by
  refine follows_get fun s s' hs => ?_
  dsimp only
  rw [hp.symbol, hp.duration, hp.pitch, C.unit hs]
  split
  · exact .ok hs
  · have hphrase := C.phrase p.symbol hs
    have hsound := C.sound p.symbol hs
    generalize s.phrase? p.symbol = body at hphrase
    generalize s'.phrase? p.symbol = body' at hphrase
    generalize s.sound? p.symbol = sound at hphrase hsound
    generalize s'.sound? p.symbol = sound' at hsound
    cases hphrase with
    | @some body body' hbody =>
        dsimp only
        have hinner := C.enterPhrase p.symbol hscope
        generalize scope.enterPhrase? p.symbol = entered at hinner
        generalize scope'.enterPhrase? p.symbol = entered' at hinner
        cases hinner with
        | some hinner => exact henter _ _ body body' hinner hbody s s' hs
        | none => exact .error rfl hp.pos hs
        | excused h => exact .excused h
    | none =>
        dsimp only
        cases hsound with
        | @some sound sound' hsound =>
            dsimp only
            rw [expandSound_alike hp hsound]
            exact follows_lift .runtime _ hp.pos s s' hs
        | none => exact .error rfl hp.pos hs
        | excused h => exact .excused h
    | excused h =>
        obtain ⟨rfl, hexcused⟩ := h
        exact .excused hexcused

/-- A parameter is found or missing, wherever the command stands. -/
theorem follows_intParam
    {pos pos' : Position}
    {f f' : Int → Run String}
    (name : String)
    (params : List Param)
    (hpos : C.places pos pos')
    (hf : ∀ v, C.Follows (f v) (f' v)) :
    C.Follows (intParam pos name params >>= f) (intParam pos' name params >>= f') := by
  unfold intParam
  split
  · rw [pure_bind, pure_bind]
    exact hf _
  · exact follows_fail _ hpos

theorem follows_textParam
    {pos pos' : Position}
    {f f' : String → Run String}
    (name : String)
    (params : List Param)
    (hpos : C.places pos pos')
    (hf : ∀ t, C.Follows (f t) (f' t)) :
    C.Follows (textParam pos name params >>= f) (textParam pos' name params >>= f') := by
  unfold textParam
  split
  · rw [pure_bind, pure_bind]
    exact hf _
  · exact follows_fail _ hpos

theorem directive_follows
    {pos pos' : Position}
    (name : String)
    (params : List Param)
    (command : Command)
    (henter : C.Enters enter enter')
    (hscope : C.scopes scope scope')
    (hpos : C.places pos pos') :
    C.Follows (directive files enter scope pos name params command)
      (directive files enter' scope' pos' name params command) := by
  unfold directive
  split
  · exact follows_intParam name params hpos setTempo_follows
  · exact follows_textParam name params hpos fun t => importFile_follows t henter hscope hpos
  · exact follows_textParam name params hpos fun t => selectVoice_follows params t hpos
  · exact follows_textParam name params hpos fun t => play_follows t params.tail hscope hpos
  · exact follows_fail _ hpos

/-- A loop follows if its body does. -/
theorem loop_follows
    {pos pos' : Position}
    {name : String}
    {params : List Param}
    {m m' : Run String}
    (hpos : C.places pos pos')
    (hm : C.Follows m m') :
    C.Follows
      (do
        let count ← loopCount pos name params
        let body ← m
        Run.lift pos .runtime (repeatText count body))
      (do
        let count ← loopCount pos' name params
        let body ← m'
        Run.lift pos' .runtime (repeatText count body)) := by
  unfold loopCount
  rw [bind_assoc, bind_assoc]
  refine follows_intParam name params hpos fun v => ?_
  split
  · exact follows_fail _ hpos
  · rw [pure_bind, pure_bind]
    refine hm.bind (fun body => follows_lift .runtime _ hpos) ?_
    intro body s hs
    cases repeatText v.toNat body <;> exact hs

/-- Lists of nodes follow if every node does. -/
theorem expandNodes_follows_of_nodes
    {nodes nodes' : List Node}
    (hlost : ∀ inner body, (enter inner body).Keeps C.lost (fun _ => True) fun _ => True)
    (hstep : ∀ n ∈ nodes, ∀ n', n.Alike C.places n' →
      C.Follows (expandNode files enter scope n) (expandNode files enter' scope' n'))
    (h : List.Forall₂ (Node.Alike C.places) nodes nodes') :
    C.Follows (expandNodes files enter scope nodes) (expandNodes files enter' scope' nodes') := by
  induction h with
  | nil =>
      rw [expandNodes, expandNodes]
      exact follows_pure ""
  | @cons n n' ns ns' hn _ ih =>
      obtain ⟨hhead, htail⟩ := List.forall_mem_cons.1 hstep
      have hkeeps : (expandNodes files enter scope ns).Keeps C.lost (fun _ => True)
          fun _ => True :=
        expandNodes_keeps trivial (fun _ _ _ _ => trivial) fun m _ =>
          expandNode_keeps_store (fun s t n hs _ => C.lost_define s t n hs) C.lost_tempo hlost m
      rw [expandNodes, expandNodes]
      refine (hhead n' hn).bind (fun text => ?_) ?_
      · exact (ih htail).bind (fun more => follows_pure (text ++ more)) fun _ _ hs => hs
      · intro text s hs
        exact ((hkeeps.bind fun more _ => Run.Keeps.pure (Q := fun _ => True) trivial) s hs).1

/-- The second run follows the first at every node, if it does in files and phrases. -/
theorem expandNode_follows
    (henter : C.Enters enter enter')
    (hlost : ∀ inner body, (enter inner body).Keeps C.lost (fun _ => True) fun _ => True)
    (hscope : C.scopes scope scope')
    (n n' : Node)
    (hn : n.Alike C.places n') :
    C.Follows (expandNode files enter scope n) (expandNode files enter' scope' n') := by
  match n, n', hn with
  | .command pos name params context, .command pos' _ _ context', .command hpos hcontext =>
      have hbody : C.Follows (expandNodes files enter scope context)
          (expandNodes files enter' scope' context') :=
        expandNodes_follows_of_nodes hlost
          (fun m _ m' hm => expandNode_follows henter hlost hscope m m' hm) hcontext
      have hnode : (Node.command pos name params context).Alike C.places
          (.command pos' name params context') := .command hpos hcontext
      rw [expandNode, expandNode, commandFault?_alike name params hcontext]
      split
      · exact follows_fail _ hpos
      · split
        · exact follows_fail _ hpos
        · split
          · rw [hnode.render]
            exact follows_pure _
          · exact follows_pure ""
          · exact register_follows hnode
          · split
            · exact loop_follows hpos hbody
            · exact directive_follows name params _ henter hscope hpos
  | .voice v, .voice w, .voice hv =>
      rw [expandNode, expandNode, voiceFault?_alike hv]
      split
      · exact follows_fail _ hv.pos
      · exact register_follows (.voice hv)
  | .phoneme p, .phoneme q, .phoneme hp =>
      rw [expandNode, expandNode]
      exact phoneme_follows henter hscope hp
  | .stop _, .stop _, .stop _ =>
      rw [expandNode, expandNode]
      exact follows_pure ""
termination_by sizeOf n
decreasing_by
  have hlt := List.sizeOf_lt_of_mem ‹m ∈ context›
  simp only [Node.command.sizeOf_spec]
  omega

end Steps

section Runs

variable {files : Files} {C : Correspondence files} {scope scope' : Scope}

theorem nest_keeps_lost
    (room : Nat)
    (inner : Scope)
    (body : List Node) :
    (nest files room inner body).Keeps C.lost (fun _ => True) fun _ => True :=
  nest_keeps_store (fun s t n hs _ => C.lost_define s t n hs) C.lost_tempo room inner body

theorem nest_follows (room : Nat) : C.Enters (nest files room) (nest files room) := by
  induction room with
  | zero =>
      intro scope scope' nodes nodes' _ hnodes
      refine follows_fail _ ?_
      cases hnodes with
      | nil => exact C.refl _
      | cons hn _ => exact hn.pos
  | succ room ih =>
      intro scope scope' nodes nodes' hscope hnodes
      exact expandNodes_follows_of_nodes (nest_keeps_lost room)
        (fun n _ n' hn => expandNode_follows ih (nest_keeps_lost room) hscope n n' hn) hnodes

theorem unbounded_follows : C.Enters (unbounded files) (unbounded files) := by
  intro scope scope' nodes nodes' hscope hnodes s s' hs
  -- one room is enough for both runs
  have hfollows := nest_follows (C := C)
    (nestingBound files s nodes + nestingBound files s' nodes' + 1) scope scope' nodes nodes'
    hscope hnodes s s' hs
  rw [nest, nest, expandNodes_of_room (by omega), expandNodes_of_room (by omega)] at hfollows
  rw [run_unbounded, run_unbounded]
  exact hfollows

theorem expandAll_follows
    {nodes nodes' : List Node}
    {s s' : Store}
    (hscope : C.scopes scope scope')
    (hnodes : List.Forall₂ (Node.Alike C.places) nodes nodes')
    (hs : C.stores s s') :
    C.Outcomes (expandAll files scope nodes s) (expandAll files scope' nodes' s') := by
  rw [← run_unbounded, ← run_unbounded]
  exact unbounded_follows scope scope' nodes nodes' hscope hnodes s s' hs

theorem unbounded_keeps_lost
    (inner : Scope)
    (body : List Node) :
    (unbounded files inner body).Keeps C.lost (fun _ => True) fun _ => True :=
  unbounded_keeps_store (fun s t n hs _ => C.lost_define s t n hs) C.lost_tempo inner body

theorem expand_follows
    {n n' : Node}
    {s s' : Store}
    (hscope : C.scopes scope scope')
    (hn : n.Alike C.places n')
    (hs : C.stores s s') :
    C.Outcomes (expand files scope n s) (expand files scope' n' s') := by
  rw [expand_eq, expand_eq]
  exact expandNode_follows unbounded_follows unbounded_keeps_lost hscope n n' hn s s' hs

variable (C) in
/-- How the ends of two runs with sinks are related. -/
inductive Ends : Outcome → Outcome → Prop
  | ok {sink : Sink} {t t' : Store} (ht : C.stores t t') :
      Ends ⟨.ok (), sink, t⟩ ⟨.ok (), sink, t'⟩
  | error {d d' : Diagnostic} {sink : Sink} {t t' : Store}
      (hvalue : d'.value = d.value)
      (hpos : C.places d.pos d'.pos)
      (ht : C.stores t t') :
      Ends ⟨.error d, sink, t⟩ ⟨.error d', sink, t'⟩
  | excused {d : Diagnostic} {sink : Sink} {t : Store} {out : Outcome}
      (hd : C.excused d.value) :
      Ends ⟨.error d, sink, t⟩ out
  | lost {result : Except Diagnostic Unit} {sink : Sink} {t : Store} {out : Outcome}
      (ht : C.lost t) :
      Ends ⟨result, sink, t⟩ out

theorem ends_of_lost
    {out out' : Outcome}
    (h : C.lost out.store) :
    C.Ends out out' := by
  obtain ⟨result, sink, t⟩ := out
  exact .lost h

theorem emitNodes_keeps_lost
    {s : Store}
    (nodes : List Node)
    (sink : Sink)
    (hs : C.lost s) :
    C.lost (emitNodes files (unbounded files) scope nodes sink s).store := by
  have hnodes : ∀ n ∈ nodes, (expandNode files (unbounded files) scope n).Keeps C.lost
      (fun _ => True) fun _ => True := fun n _ =>
    expandNode_keeps_store (fun s t n hs _ => C.lost_define s t n hs) C.lost_tempo
      unbounded_keeps_lost n
  exact (emitNodes_keeps (fun _ => trivial) hnodes hs).1

theorem emitNodes_follows
    {nodes nodes' : List Node}
    {s s' : Store}
    (sink : Sink)
    (hscope : C.scopes scope scope')
    (hnodes : List.Forall₂ (Node.Alike C.places) nodes nodes')
    (hs : C.stores s s') :
    C.Ends (emitNodes files (unbounded files) scope nodes sink s)
      (emitNodes files (unbounded files) scope' nodes' sink s') := by
  induction hnodes generalizing sink s s' with
  | nil => exact .ok hs
  | @cons n n' ns ns' hn _ ih =>
      by_cases hstop : ∃ pos, n = .stop pos
      · obtain ⟨pos, rfl⟩ := hstop
        cases hn
        exact .ok hs
      · have hstop' : ∀ pos, n ≠ .stop pos := fun pos hpos => hstop ⟨pos, hpos⟩
        have hstop'' : ∀ pos, n' ≠ .stop pos := by
          rintro pos rfl
          cases hn
          exact hstop ⟨_, rfl⟩
        have hstep :=
          expandNode_follows unbounded_follows unbounded_keeps_lost hscope n n' hn s s' hs
        generalize hrun : (expandNode files (unbounded files) scope n).run s = out at hstep
        generalize hrun' : (expandNode files (unbounded files) scope' n').run s' = out' at hstep
        cases hstep with
        | ok ht =>
            rw [emitNodes_of_ok hstop' hrun, emitNodes_of_ok hstop'' hrun']
            split
            · exact ih sink ht
            · split
              · exact .error rfl hn.pos ht
              · exact ih _ ht
        | error hvalue hpos ht =>
            rw [emitNodes_of_error hstop' hrun, emitNodes_of_error hstop'' hrun']
            exact .error hvalue hpos ht
        | excused hd =>
            rw [emitNodes_of_error hstop' hrun]
            exact .excused hd
        | @lost result t _ ht =>
            refine ends_of_lost ?_
            cases result with
            | error d =>
                rw [emitNodes_of_error hstop' hrun]
                exact ht
            | ok text =>
                rw [emitNodes_of_ok hstop' hrun]
                split
                · exact emitNodes_keeps_lost ns sink ht
                · split
                  · exact ht
                  · exact emitNodes_keeps_lost ns _ ht

/-- A run with a sink follows another one. -/
theorem process_follows
    {nodes nodes' : List Node}
    {s s' : Store}
    (sink : Sink)
    (hscope : C.scopes scope scope')
    (hnodes : List.Forall₂ (Node.Alike C.places) nodes nodes')
    (hs : C.stores s s') :
    C.Ends (process files scope nodes sink s) (process files scope' nodes' sink s') := by
  rw [process_eq, process_eq]
  exact emitNodes_follows sink hscope hnodes hs

end Runs

end Correspondence

end SpeechMarkup
