import SpeechMarkup.Proofs.Nesting

/-!
# Chunks

A run hands the text of each node of the top level to the sink, as long as nodes can be
expanded and the sink takes chunks.  Both can end it, and this file says which of the
two does and what has been handed over by then.

* `Expansion.expand` and `Expansion.expandAll` expand nodes on their own, with all the
  room they need; more room changes nothing (`Expansion.expandNode_of_room`).
* `course` expands nodes one after the other up to the first fault, with no sink at all.
* `deliver` hands the texts of a course to a sink.  A run is the delivery of its course
  (`process_eq_deliver`), and a delivery is cut off at the first chunk that the sink
  refuses (`deliver_of_full`) or is complete (`deliver_of_fits`).
* `process_chunks` is the main result.
-/

namespace SpeechMarkup

namespace Expansion

section Alone

/-- Expands a node, with room for all that it can enter. -/
def expand (files : Files) (scope : Scope) (n : Node) (s : Store) :
    Except Diagnostic String × Store :=
  (expandNode files (nest files (room files s [n])) scope n).run s

/-- Expands nodes into one text, with room for all that they can enter. -/
def expandAll (files : Files) (scope : Scope) (nodes : List Node) (s : Store) :
    Except Diagnostic String × Store :=
  (expandNodes files (nest files (room files s nodes)) scope nodes).run s

variable {N : Set String} {files : Files} {scope : Scope} {nodes : List Node} {s : Store}

theorem filesWithin_phraseNames (files : Files) (s : Store) (nodes : List Node) :
    FilesWithin (phraseNames files s nodes) files :=
  fun path text body hfile hread hbody _ hx =>
    Or.inr (Or.inr ⟨path, text, body, hfile, hread, hbody, hx⟩)

theorem nodesWithin_phraseNames (files : Files) (s : Store) (nodes : List Node) :
    NodesWithin (phraseNames files s nodes) nodes :=
  fun _ hx => Or.inr (Or.inl hx)

theorem storeWithin_phraseNames (files : Files) (s : Store) (nodes : List Node) :
    StoreWithin (phraseNames files s nodes) s :=
  fun e he => ⟨Or.inl ⟨e, he, Or.inl rfl⟩, fun _ hx => Or.inl ⟨e, he, Or.inr hx⟩⟩

/-- What is entered from nodes does not depend on the room, once that is enough. -/
theorem nest_of_calls
    {room room' : Nat}
    {inner : Scope}
    {body : List Node}
    {u : Store}
    (hroom : nestingBound files s nodes ≤ room)
    (hroom' : nestingBound files s nodes ≤ room')
    (hcall : Calls files (nest files room) scope nodes s inner body u) :
    (nest files room inner body).run u = (nest files room' inner body).run u := by
  have hN := finite_phraseNames files s nodes
  have hfiles := filesWithin_phraseNames files s nodes
  obtain ⟨hbody, hu, hlt⟩ := hcall.within hN hfiles (nest_keeps_within hN hfiles room)
    (nodesWithin_phraseNames files s nodes) (storeWithin_phraseNames files s nodes)
  have hleft : left (phraseNames files s nodes) files scope ≤ nestingBound files s nodes :=
    left_le hN scope
  exact nest_congr hN hfiles (by omega) (by omega) hbody hu

theorem expandNode_of_room
    {room : Nat}
    {n : Node}
    (hroom : nestingBound files s [n] ≤ room) :
    (expandNode files (nest files room) scope n).run s = expand files scope n s :=
  expandNode_congr n [] s fun _ _ _ hcall =>
    nest_of_calls hroom (nestingBound_le_room files s [n]) hcall

theorem expandNodes_of_room
    {room : Nat}
    (hroom : nestingBound files s nodes ≤ room) :
    (expandNodes files (nest files room) scope nodes).run s = expandAll files scope nodes s :=
  expandNodes_congr fun _ _ _ hcall =>
    nest_of_calls hroom (nestingBound_le_room files s nodes) hcall

/-- Stores, nodes and files within some names need no more room than these. -/
theorem nestingBound_le_of_within
    (hN : N.Finite)
    (hfiles : FilesWithin N files)
    (hnodes : NodesWithin N nodes)
    (hs : StoreWithin N s) :
    nestingBound files s nodes ≤ (filePaths files).ncard + N.ncard := by
  have hsub : phraseNames files s nodes ⊆ N := by
    rintro x (⟨e, he, rfl | hx⟩ | hx | ⟨path, text, body, hfile, hread, hbody, hx⟩)
    · exact (hs e he).1
    · exact (hs e he).2 x hx
    · exact hnodes x hx
    · exact hfiles path text body hfile hread hbody x hx
  have hcard := Set.ncard_le_ncard hsub hN
  unfold nestingBound
  omega

theorem expandNode_of_within
    {room : Nat}
    {n : Node}
    (hN : N.Finite)
    (hfiles : FilesWithin N files)
    (hroom : (filePaths files).ncard + N.ncard ≤ room)
    (hn : NodesWithin N [n])
    (hs : StoreWithin N s) :
    (expandNode files (nest files room) scope n).run s = expand files scope n s :=
  expandNode_of_room ((nestingBound_le_of_within hN hfiles hn hs).trans hroom)

/-- A node expanded on its own leaves a store within the names. -/
theorem expand_within
    (scope : Scope)
    {n : Node}
    (hN : N.Finite)
    (hfiles : FilesWithin N files)
    (hn : NodesWithin N [n])
    (hs : StoreWithin N s) :
    StoreWithin N (expand files scope n s).2 := by
  have hkeeps : (expandNode files (nest files (room files s [n])) scope n).Keeps (StoreWithin N)
      (fun _ => True) fun _ => True :=
    expandNode_within n hN hfiles hn (fun _ _ => trivial) fun inner body _ hbody =>
      nest_keeps_within hN hfiles (room files s [n]) inner body hbody
  exact (hkeeps s hs).1

end Alone

end Expansion

open Expansion

section Courses

/-- A node that was expanded, its text, and the store that was left behind. -/
structure Expanded where
  node : Node
  text : String
  store : Store

/-- What became of nodes: those that were expanded, and the fault that ended it, if
there was one, with the store that it left behind. -/
structure Course where
  expanded : List Expanded
  fault : Option (Diagnostic × Store)

/-- Expands nodes one after the other, each from the store that the last one left behind,
up to the first fault. -/
def course (files : Files) (scope : Scope) : List Node → Store → Course
  | [], _ => ⟨[], none⟩
  | n :: ns, s =>
    match expand files scope n s with
    | (.error d, t) => ⟨[], some (d, t)⟩
    | (.ok text, t) =>
        ⟨⟨n, text, t⟩ :: (course files scope ns t).expanded, (course files scope ns t).fault⟩

/-- The expanded nodes that have a text. -/
def Expanded.chunks (es : List Expanded) : List Expanded :=
  es.filter fun e => !e.text.isEmpty

theorem Expanded.chunks_of_empty
    {e : Expanded}
    (es : List Expanded)
    (h : e.text.isEmpty = true) :
    Expanded.chunks (e :: es) = Expanded.chunks es := by
  simp [Expanded.chunks, h]

theorem Expanded.chunks_of_text
    {e : Expanded}
    (es : List Expanded)
    (h : ¬ e.text.isEmpty = true) :
    Expanded.chunks (e :: es) = e :: Expanded.chunks es := by
  simp [Expanded.chunks, h]

theorem Expanded.chunks_append (es fs : List Expanded) :
    Expanded.chunks (es ++ fs) = Expanded.chunks es ++ Expanded.chunks fs :=
  List.filter_append es fs

/-- The nodes without a text leave nothing out. -/
theorem Expanded.join_chunks (es : List Expanded) :
    String.join ((Expanded.chunks es).map Expanded.text) =
      String.join (es.map Expanded.text) := by
  induction es with
  | nil => rfl
  | cons e es ih =>
      by_cases hempty : e.text.isEmpty = true
      · have htext : e.text = "" := by simpa using hempty
        rw [Expanded.chunks_of_empty es hempty, ih, List.map_cons, String.join_cons, htext,
          String.empty_append]
      · rw [Expanded.chunks_of_text es hempty, List.map_cons, List.map_cons, String.join_cons,
          String.join_cons, ih]

/-- The store behind the last of the expanded nodes. -/
def Expanded.last (es : List Expanded) (s : Store) : Store :=
  es.foldl (fun _ e => e.store) s

def Node.isStop : Node → Bool
  | .stop _ => true
  | _ => false

/-- The nodes before the end marker. -/
def Node.untilStop (nodes : List Node) : List Node :=
  nodes.takeWhile fun n => !n.isStop

theorem Node.isStop_untilStop (nodes : List Node) :
    ∀ n ∈ Node.untilStop nodes, n.isStop = false := by
  intro n hn
  simpa using List.all_eq_true.1 List.all_takeWhile n hn

variable {files : Files} {scope : Scope}

theorem course_cons_of_error
    {n : Node}
    {ns : List Node}
    {s t : Store}
    {d : Diagnostic}
    (h : expand files scope n s = (.error d, t)) :
    course files scope (n :: ns) s = ⟨[], some (d, t)⟩ := by
  rw [course, h]

theorem course_cons_of_ok
    {n : Node}
    {ns : List Node}
    {s t : Store}
    {text : String}
    (h : expand files scope n s = (.ok text, t)) :
    course files scope (n :: ns) s =
      ⟨⟨n, text, t⟩ :: (course files scope ns t).expanded, (course files scope ns t).fault⟩ := by
  rw [course, h]

/-- The first of the nodes that were expanded make up a course of their own. -/
theorem course_take
    {nodes : List Node}
    {s : Store}
    {k : Nat}
    (hk : k ≤ (course files scope nodes s).expanded.length) :
    course files scope (nodes.take k) s =
      ⟨(course files scope nodes s).expanded.take k, none⟩ := by
  induction nodes generalizing s k with
  | nil => simp [course]
  | cons n ns ih =>
      cases k with
      | zero => simp [course]
      | succ k =>
          rcases hrun : expand files scope n s with ⟨d | text, t⟩
          · rw [course_cons_of_error hrun] at hk
            simp at hk
          · rw [course_cons_of_ok hrun] at hk
            have htail := ih (Nat.le_of_succ_le_succ hk)
            rw [List.take_succ_cons, course_cons_of_ok hrun, course_cons_of_ok hrun, htail]
            rfl

end Courses

section Deliveries

/-- Hands the texts of expanded nodes to a sink.  The run ends at the first one that the
sink refuses, or else with the fault of the course. -/
def deliver (fault : Option (Diagnostic × Store)) :
    List Expanded → Sink → Store → Outcome
  | [], sink, s =>
    match fault with
    | none => ⟨.ok (), sink, s⟩
    | some (d, t) => ⟨.error d, sink, t⟩
  | e :: es, sink, _ =>
    if e.text.isEmpty then deliver fault es sink e.store
    else if sink.isFull then ⟨.error ⟨e.node.pos, .io .sinkFull⟩, sink, e.store⟩
    else deliver fault es (sink.push e.text) e.store

variable {files : Files} {scope : Scope} {fault : Option (Diagnostic × Store)}

/-- A run with enough room is the delivery of its course. -/
theorem emitNodes_eq_deliver
    {N : Set String}
    {room : Nat}
    {nodes : List Node}
    {s : Store}
    (hN : N.Finite)
    (hfiles : FilesWithin N files)
    (hroom : (filePaths files).ncard + N.ncard ≤ room)
    (hnodes : NodesWithin N nodes)
    (hs : StoreWithin N s)
    (sink : Sink) :
    emitNodes files (nest files room) scope nodes sink s =
      deliver (course files scope (Node.untilStop nodes) s).fault
        (course files scope (Node.untilStop nodes) s).expanded sink s := by
  induction nodes generalizing sink s with
  | nil => rfl
  | cons n ns ih =>
      by_cases hstop : ∃ pos, n = .stop pos
      · obtain ⟨pos, rfl⟩ := hstop
        rfl
      · have hstop' : ∀ pos, n ≠ .stop pos := fun pos hpos => hstop ⟨pos, hpos⟩
        have huntil : Node.untilStop (n :: ns) = n :: Node.untilStop ns := by
          cases n <;> simp_all [Node.untilStop, Node.isStop]
        have hn := hnodes.mem List.mem_cons_self
        have hhead : (expandNode files (nest files room) scope n).run s = expand files scope n s :=
          expandNode_of_within hN hfiles hroom hn hs
        have hkept := expand_within scope hN hfiles hn hs
        rw [huntil]
        rcases hrun : expand files scope n s with ⟨d | text, t⟩
        · rw [emitNodes_of_error hstop' (hhead.trans hrun), course_cons_of_error hrun]
          rfl
        · rw [hrun] at hkept
          rw [emitNodes_of_ok hstop' (hhead.trans hrun), course_cons_of_ok hrun, deliver,
            ih hnodes.tail hkept, ih hnodes.tail hkept]

theorem process_eq_deliver
    (files : Files)
    (scope : Scope)
    (nodes : List Node)
    (sink : Sink)
    (s : Store) :
    process files scope nodes sink s =
      deliver (course files scope (Node.untilStop nodes) s).fault
        (course files scope (Node.untilStop nodes) s).expanded sink s :=
  emitNodes_eq_deliver (finite_phraseNames files s nodes) (filesWithin_phraseNames files s nodes)
    (nestingBound_le_room files s nodes) (nodesWithin_phraseNames files s nodes)
    (storeWithin_phraseNames files s nodes) sink

/-- A sink that has room for all chunks gets them all. -/
theorem deliver_of_fits
    {es : List Expanded}
    {sink : Sink}
    (s : Store)
    (hfits : ∀ n ∈ sink.limit, sink.chunks.size + (Expanded.chunks es).length ≤ n) :
    deliver fault es sink s =
      deliver fault [] ⟨sink.chunks ++ ((Expanded.chunks es).map Expanded.text).toArray, sink.limit⟩
        (Expanded.last es s) := by
  induction es generalizing sink s with
  | nil => simp [Expanded.chunks, Expanded.last]
  | cons e es ih =>
      rw [deliver]
      by_cases hempty : e.text.isEmpty = true
      · rw [Expanded.chunks_of_empty es hempty] at hfits ⊢
        rw [if_pos hempty, ih e.store hfits]
        rfl
      · have hchunks := Expanded.chunks_of_text es hempty
        rw [hchunks, List.length_cons] at hfits
        have hroom : sink.isFull = false := by
          cases hlimit : sink.limit with
          | none => simp [Sink.isFull, hlimit]
          | some n =>
              have hn := hfits n (by simp [hlimit])
              simp only [Sink.isFull, hlimit, decide_eq_false_iff_not]
              omega
        have htail : ∀ n ∈ (sink.push e.text).limit,
            (sink.push e.text).chunks.size + (Expanded.chunks es).length ≤ n := by
          intro n hn
          have hle := hfits n hn
          simp only [Sink.push, Array.size_push]
          omega
        rw [if_neg hempty, hroom, if_neg (by simp), ih e.store htail, hchunks]
        simp [Sink.push, Expanded.last]

/-- The first chunk that a sink has no room for ends the run at its node. -/
theorem deliver_of_full
    {before after : List Expanded}
    {e : Expanded}
    {sink : Sink}
    {n : Nat}
    (s : Store)
    (hlimit : sink.limit = some n)
    (hfull : sink.chunks.size + (Expanded.chunks before).length = n)
    (htext : e.text.isEmpty = false) :
    deliver fault (before ++ e :: after) sink s =
      ⟨.error ⟨e.node.pos, .io .sinkFull⟩,
        ⟨sink.chunks ++ ((Expanded.chunks before).map Expanded.text).toArray, sink.limit⟩,
        e.store⟩ := by
  induction before generalizing sink s with
  | nil =>
      have hisFull : sink.isFull = true := by
        simp only [Sink.isFull, hlimit, decide_eq_true_eq]
        exact Nat.le_of_eq hfull.symm
      simp [deliver, htext, hisFull, Expanded.chunks]
  | cons b before ih =>
      rw [List.cons_append, deliver]
      by_cases hempty : b.text.isEmpty = true
      · rw [Expanded.chunks_of_empty before hempty] at hfull ⊢
        rw [if_pos hempty, ih b.store hlimit hfull]
      · have hchunks := Expanded.chunks_of_text before hempty
        rw [hchunks, List.length_cons] at hfull
        have hroom : sink.isFull = false := by
          simp only [Sink.isFull, hlimit, decide_eq_false_iff_not]
          omega
        have hpush : (sink.push b.text).chunks.size + (Expanded.chunks before).length = n := by
          simp only [Sink.push, Array.size_push]
          omega
        have hlimit' : (sink.push b.text).limit = some n := hlimit
        have htail := ih b.store hlimit' hpush
        rw [if_neg hempty, hroom, if_neg (by simp), htail, hchunks]
        simp [Sink.push]

/-- The chunk of a given number, with the nodes before it. -/
theorem Expanded.split_of_chunks
    {es : List Expanded}
    {n : Nat}
    {e : Expanded}
    (h : (Expanded.chunks es)[n]? = some e) :
    ∃ before after, es = before ++ e :: after ∧ (Expanded.chunks before).length = n ∧
      e.text.isEmpty = false := by
  obtain ⟨hlt, hget⟩ := List.getElem?_eq_some_iff.1 h
  have hparts : Expanded.chunks es =
      (Expanded.chunks es).take n ++ e :: (Expanded.chunks es).drop (n + 1) := by
    rw [← hget, ← List.drop_eq_getElem_cons hlt, List.take_append_drop]
  obtain ⟨front, back, rfl, hfront, hback⟩ := List.filter_eq_append_iff.1 hparts
  obtain ⟨skipped, after, rfl, hskipped, htext, -⟩ := List.filter_eq_cons_iff.1 hback
  have hlength : (Expanded.chunks front).length = n := by
    rw [Expanded.chunks, hfront, List.length_take]
    omega
  have hnone : Expanded.chunks skipped = [] := by
    rw [Expanded.chunks, List.filter_eq_nil_iff]
    exact hskipped
  refine ⟨front ++ skipped, after, by simp, ?_, by simpa using htext⟩
  rw [Expanded.chunks_append, hnone, List.append_nil, hlength]

end Deliveries

section Whole

variable {files : Files} {scope : Scope}

theorem expandNodes_of_course
    {N : Set String}
    {room : Nat}
    {nodes : List Node}
    {s : Store}
    (hN : N.Finite)
    (hfiles : FilesWithin N files)
    (hroom : (filePaths files).ncard + N.ncard ≤ room)
    (hnodes : NodesWithin N nodes)
    (hs : StoreWithin N s)
    (hfault : (course files scope nodes s).fault = none) :
    (expandNodes files (nest files room) scope nodes).run s =
      (.ok (String.join ((course files scope nodes s).expanded.map Expanded.text)),
        Expanded.last (course files scope nodes s).expanded s) := by
  induction nodes generalizing s with
  | nil => rw [expandNodes]; rfl
  | cons n ns ih =>
      have hn := hnodes.mem List.mem_cons_self
      have hhead : (expandNode files (nest files room) scope n).run s = expand files scope n s :=
        expandNode_of_within hN hfiles hroom hn hs
      have hkept := expand_within scope hN hfiles hn hs
      rw [expandNodes, Run.run_bind, hhead]
      rcases hrun : expand files scope n s with ⟨d | text, t⟩
      · rw [course_cons_of_error hrun] at hfault
        cases hfault
      · rw [hrun] at hkept
        rw [course_cons_of_ok hrun] at hfault ⊢
        have htail := ih hnodes.tail hkept hfault
        dsimp only
        rw [Run.run_bind, htail]
        simp [Expanded.last, String.join_cons]

/-- A course without a fault gives the text of all its nodes. -/
theorem expandAll_of_course
    {nodes : List Node}
    {s : Store}
    {expanded : List Expanded}
    (hcourse : course files scope nodes s = ⟨expanded, none⟩) :
    expandAll files scope nodes s =
      (.ok (String.join (expanded.map Expanded.text)), Expanded.last expanded s) := by
  have hfault : (course files scope nodes s).fault = none := by rw [hcourse]
  have hrun := expandNodes_of_course (finite_phraseNames files s nodes)
    (filesWithin_phraseNames files s nodes) (nestingBound_le_room files s nodes)
    (nodesWithin_phraseNames files s nodes) (storeWithin_phraseNames files s nodes) hfault
  rw [hcourse] at hrun
  exact hrun

theorem expandNodes_stop
    (enter : Enter)
    (body : List Node)
    (pos : Position)
    (s : Store) :
    (expandNodes files enter scope (body ++ [.stop pos])).run s =
      (expandNodes files enter scope body).run s := by
  induction body generalizing s with
  | nil =>
      rw [List.nil_append, expandNodes, expandNodes, expandNode]
      rfl
  | cons n body ih =>
      rw [List.cons_append, expandNodes, expandNodes, Run.run_bind, Run.run_bind]
      rcases (expandNode files enter scope n).run s with ⟨d | text, t⟩
      · rfl
      · dsimp only
        rw [Run.run_bind, Run.run_bind, ih]

/-- An end marker adds nothing to the text of the nodes before it. -/
theorem expandAll_stop
    (body : List Node)
    (pos : Position)
    (s : Store) :
    expandAll files scope (body ++ [.stop pos]) s = expandAll files scope body s := by
  have hwithin : NodesWithin (phraseNames files s (body ++ [.stop pos])) body := by
    intro x hx
    obtain ⟨n, hn, hx⟩ := Node.mem_phraseNamesAll.1 hx
    exact nodesWithin_phraseNames files s (body ++ [.stop pos]) x
      (Node.mem_phraseNamesAll.2 ⟨n, List.mem_append_left _ hn, hx⟩)
  have hbound := nestingBound_le_of_within (finite_phraseNames files s (body ++ [.stop pos]))
    (filesWithin_phraseNames files s (body ++ [.stop pos])) hwithin
    (storeWithin_phraseNames files s (body ++ [.stop pos]))
  have hroom := nestingBound_le_room files s (body ++ [.stop pos])
  rw [expandAll, expandNodes_stop]
  exact expandNodes_of_room (hbound.trans hroom)

/-- What a run does whose sink takes every chunk. -/
theorem process_of_fits
    {nodes : List Node}
    {s : Store}
    {limit : Option Nat}
    {expanded : List Expanded}
    {fault : Option (Diagnostic × Store)}
    (hcourse : course files scope (Node.untilStop nodes) s = ⟨expanded, fault⟩)
    (hfits : ∀ n ∈ limit, (Expanded.chunks expanded).length ≤ n) :
    process files scope nodes ⟨#[], limit⟩ s =
      ⟨fault.elim (.ok ()) fun f => .error f.1,
        ⟨((Expanded.chunks expanded).map Expanded.text).toArray, limit⟩,
        fault.elim (Expanded.last expanded s) Prod.snd⟩ := by
  rw [process_eq_deliver, hcourse]
  dsimp only
  rw [deliver_of_fits s (by simpa using hfits)]
  cases fault <;> simp [deliver]

/-- What a run does whose sink refuses a chunk. -/
theorem process_of_full
    {nodes : List Node}
    {s : Store}
    {n : Nat}
    {before after : List Expanded}
    {e : Expanded}
    {fault : Option (Diagnostic × Store)}
    (hcourse : course files scope (Node.untilStop nodes) s = ⟨before ++ e :: after, fault⟩)
    (hfull : (Expanded.chunks before).length = n)
    (htext : e.text.isEmpty = false) :
    process files scope nodes ⟨#[], some n⟩ s =
      ⟨.error ⟨e.node.pos, .io .sinkFull⟩,
        ⟨((Expanded.chunks before).map Expanded.text).toArray, some n⟩, e.store⟩ := by
  rw [process_eq_deliver, hcourse]
  dsimp only
  rw [deliver_of_full s rfl (by simpa using hfull) htext]
  simp

/-- A run whose sink refuses a chunk is the run of the nodes up to that chunk. -/
theorem process_take_of_full
    {nodes : List Node}
    {s : Store}
    {n : Nat}
    {before after : List Expanded}
    {e : Expanded}
    {fault : Option (Diagnostic × Store)}
    (hcourse : course files scope (Node.untilStop nodes) s = ⟨before ++ e :: after, fault⟩)
    (hfull : (Expanded.chunks before).length = n)
    (htext : e.text.isEmpty = false) :
    process files scope (nodes.take (before.length + 1)) ⟨#[], some n⟩ s =
      process files scope nodes ⟨#[], some n⟩ s := by
  have hlength : before.length + 1 ≤
      (course files scope (Node.untilStop nodes) s).expanded.length := by
    rw [hcourse]
    simp
  have huntil : Node.untilStop (nodes.take (before.length + 1)) =
      (Node.untilStop nodes).take (before.length + 1) := by
    exact List.take_takeWhile.symm
  have htake := course_take hlength
  rw [hcourse, List.take_length_add_append, List.take_one] at htake
  rw [process_of_full (huntil ▸ htake) hfull htext, process_of_full hcourse hfull htext]

/-- Nodes of a program are nodes before an end marker, and the marker. -/
theorem Node.untilStop_of_ofTokens
    {ts : List Token}
    {nodes : List Node}
    (h : Node.ofTokens ts = .ok nodes) :
    ∃ pos, nodes = Node.untilStop nodes ++ [.stop pos] := by
  obtain ⟨body, pos, rfl, hformed⟩ :=
    Node.formed_of_ofTokens (K := fun _ => True) trivial (fun _ _ => trivial) h
  have hbody : ∀ n ∈ body, (!n.isStop) = true := by
    intro n hn
    cases hformed n hn <;> rfl
  refine ⟨pos, ?_⟩
  rw [Node.untilStop, List.takeWhile_append_of_pos hbody]
  simp [Node.isStop]

/--
A sink that takes `limit` chunks gets the texts that the nodes give one after the other,
without the empty ones, as far as it takes them.  The run succeeds if every node can be
expanded and every text is taken.  The first text that is not taken ends it with an
error at its node, and no later node is expanded.  Otherwise the first node that cannot
be expanded ends it with its own error, and nothing of that node is handed over.  A run
that succeeds hands over what the nodes give when they are expanded into one text.
-/
theorem process_chunks
    {ts : List Token}
    {nodes : List Node}
    {files : Files}
    {scope : Scope}
    {s : Store}
    {expanded : List Expanded}
    {fault : Option (Diagnostic × Store)}
    {out : Outcome}
    (limit : Option Nat)
    (hnodes : Node.ofTokens ts = .ok nodes)
    (hcourse : course files scope (Node.untilStop nodes) s = ⟨expanded, fault⟩)
    (hout : process files scope nodes ⟨#[], limit⟩ s = out) :
    (∃ m, m = limit.elim (Expanded.chunks expanded).length
          (min · (Expanded.chunks expanded).length) ∧
        out.sink.chunks.toList = ((Expanded.chunks expanded).map Expanded.text).take m) ∧
      (out.result = .ok () ↔
        fault = none ∧ ∀ n ∈ limit, (Expanded.chunks expanded).length ≤ n) ∧
      (∀ n ∈ limit, ∀ e, (Expanded.chunks expanded)[n]? = some e →
        (∃ d, out.result = .error d ∧ d.kind = "IoError" ∧
          d.message = "could not write compiled output: sink is full" ∧ d.pos = e.node.pos) ∧
        out.store = e.store ∧
        ∃ k, expanded[k]? = some e ∧
          process files scope (nodes.take (k + 1)) ⟨#[], limit⟩ s = out) ∧
      ((∀ n ∈ limit, (Expanded.chunks expanded).length ≤ n) →
        ∀ d t, fault = some (d, t) → out.result = .error d ∧ out.store = t) ∧
      (out.result = .ok () → expandAll files scope nodes s = (.ok out.sink.text, out.store)) := by
  by_cases hfits : ∀ n ∈ limit, (Expanded.chunks expanded).length ≤ n
  · have hrun := process_of_fits hcourse hfits
    obtain rfl := hout.symm.trans hrun
    refine ⟨⟨_, rfl, ?_⟩, ?_, ?_, ?_, ?_⟩
    · cases limit with
      | none => simp
      | some n => simpa using hfits
    · cases fault with
      | none => simpa using hfits
      | some f => simp
    · intro n hn e he
      obtain ⟨hlt, -⟩ := List.getElem?_eq_some_iff.1 he
      have hle := hfits n hn
      omega
    · rintro - d t rfl
      exact ⟨rfl, rfl⟩
    · intro hok
      cases fault with
      | some f => cases hok
      | none =>
          obtain ⟨pos, hstop⟩ := Node.untilStop_of_ofTokens hnodes
          rw [hstop, expandAll_stop, expandAll_of_course hcourse]
          simp [Sink.text, Expanded.join_chunks]
  · push Not at hfits
    obtain ⟨n, hlimit, hlt⟩ := hfits
    obtain rfl : limit = some n := by simpa using hlimit
    obtain ⟨e, he⟩ : ∃ e, (Expanded.chunks expanded)[n]? = some e :=
      ⟨_, List.getElem?_eq_getElem hlt⟩
    obtain ⟨before, after, rfl, hbefore, htext⟩ := Expanded.split_of_chunks he
    have hrun := process_of_full hcourse hbefore htext
    have htake := process_take_of_full hcourse hbefore htext
    rw [hout] at hrun htake
    have hchunks : Expanded.chunks (before ++ e :: after) =
        Expanded.chunks before ++ e :: Expanded.chunks after := by
      rw [Expanded.chunks_append, Expanded.chunks_of_text after (by simp [htext])]
    refine ⟨⟨_, rfl, ?_⟩, ?_, ?_, ?_, ?_⟩
    · rw [hrun, hchunks, Option.elim_some, Nat.min_eq_left (by simp [hbefore]),
        List.map_append, ← hbefore, List.take_left' (by simp)]
    · rw [hrun]
      constructor
      · intro hok
        cases hok
      · rintro ⟨-, hle⟩
        have hle' := hle n rfl
        omega
    · rintro _ ⟨⟩ e' he'
      obtain rfl := Option.some.inj (he.symm.trans he')
      refine ⟨⟨⟨e.node.pos, .io .sinkFull⟩, by rw [hrun], rfl, rfl, rfl⟩, by rw [hrun], ?_⟩
      exact ⟨before.length, by simp, htake⟩
    · intro hle
      have hle' := hle n rfl
      omega
    · rw [hrun]
      intro hok
      cases hok

/-- A phoneme, a loop, and a symbol that stands for nothing. -/
def brokenTune : List Token :=
  [⟨.str "aa", {}⟩, ⟨.leftBracket, ⟨"", 3, 0, 3⟩⟩, ⟨.str ":loop", {}⟩, ⟨.int 2, {}⟩,
    ⟨.rightBracket, {}⟩, ⟨.leftBrace, {}⟩, ⟨.str "t", {}⟩, ⟨.rightBrace, {}⟩, ⟨.str "zz", {}⟩]

theorem process_chunks_brokenTune :
    ∃ nodes, Node.ofTokens brokenTune = .ok nodes ∧
      (process (Listing.files ⟨[]⟩) ⟨"/work", [], []⟩ nodes ⟨#[], some 1⟩
        (Store.new "/work" [])).sink.chunks.toList = ["[aa]"] ∧
      (∃ d, (process (Listing.files ⟨[]⟩) ⟨"/work", [], []⟩ nodes ⟨#[], some 1⟩
        (Store.new "/work" [])).result = .error d ∧ d.kind = "IoError" ∧ d.pos = ⟨"", 3, 0, 3⟩) ∧
      (process (Listing.files ⟨[]⟩) ⟨"/work", [], []⟩ nodes ⟨#[], none⟩
        (Store.new "/work" [])).sink.chunks.toList = ["[aa]", "[t][t]"] ∧
      (process (Listing.files ⟨[]⟩) ⟨"/work", [], []⟩ nodes ⟨#[], none⟩
        (Store.new "/work" [])).result = .error ⟨{}, .resolution (.unknownSymbol "zz")⟩ := by
  have hrun : (Node.ofTokens brokenTune).toOption.map (fun nodes =>
      (course (Listing.files ⟨[]⟩) ⟨"/work", [], []⟩ (Node.untilStop nodes)
        (Store.new "/work" [])).expanded.map fun e => (e.text, e.node.pos)) =
      some [("[aa]", {}), ("[t][t]", ⟨"", 3, 0, 3⟩)] := by
    decide +kernel
  have hfault : (Node.ofTokens brokenTune).toOption.bind (fun nodes =>
      (course (Listing.files ⟨[]⟩) ⟨"/work", [], []⟩ (Node.untilStop nodes)
        (Store.new "/work" [])).fault.map Prod.fst) =
      some ⟨{}, .resolution (.unknownSymbol "zz")⟩ := by
    decide +kernel
  cases hnodes : Node.ofTokens brokenTune with
  | error e => simp [hnodes, Except.toOption] at hrun
  | ok nodes =>
      simp only [hnodes, Except.toOption, Option.map_some, Option.bind_some, Option.some.injEq]
        at hrun hfault
      obtain ⟨first, rest, hexpanded, hfirst, hrest⟩ := List.map_eq_cons_iff.1 hrun
      obtain ⟨second, rest, rfl, hsecond, hnone⟩ := List.map_eq_cons_iff.1 hrest
      obtain rfl := List.map_eq_nil_iff.1 hnone
      obtain ⟨⟨d, t⟩, hended, hd⟩ := Option.map_eq_some_iff.1 hfault
      have hcourse : course (Listing.files ⟨[]⟩) ⟨"/work", [], []⟩ (Node.untilStop nodes)
          (Store.new "/work" []) = ⟨[first, second], some (d, t)⟩ := by
        rw [← hexpanded, ← hended]
      simp only [Prod.mk.injEq] at hfirst hsecond
      have hchunks : Expanded.chunks [first, second] = [first, second] := by
        rw [Expanded.chunks_of_text _ (by simp [hfirst.1]),
          Expanded.chunks_of_text _ (by simp [hsecond.1])]
        rfl
      obtain ⟨⟨m, rfl, hone⟩, -, hrefused, -, -⟩ :=
        process_chunks (some 1) hnodes hcourse rfl
      obtain ⟨⟨m, rfl, hall⟩, -, -, hown, -⟩ := process_chunks none hnodes hcourse rfl
      rw [hchunks] at hone hall hrefused
      refine ⟨nodes, rfl, ?_, ?_, ?_, ?_⟩
      · simpa [hfirst.1] using hone
      · obtain ⟨⟨d, herror, hkind, -, hpos⟩, -⟩ := hrefused 1 rfl second rfl
        exact ⟨d, herror, hkind, hpos.trans hsecond.2⟩
      · simpa [hfirst.1, hsecond.1] using hall
      · rw [(hown (by simp) d t rfl).1]
        exact congrArg Except.error hd

end Whole

end SpeechMarkup
