import SpeechMarkup.Proofs.Rendering

/-!
# Reading printed tokens

The tokens that the text of a node is read as are read as that node again, up to
the places, unless it holds an infinite number.

* `Node.holdsInfinity` looks for infinite numbers at every depth.
* `VoiceSettings.insertEntry_of_lt` stores entries that come in the order of their names.
* `Parse.params_printed`, `Parse.phoneme_printed` and `Parse.voice_printed` read the
  parts of a node back.
* `Parse.rereads` reads a node back, whatever is open around it and whatever follows.
-/

namespace SpeechMarkup

section Infinity

def Param.isInfinite : Param → Bool
  | .float x => x.isInfinite
  | _ => false

def Duration.isInfinite : Duration → Bool
  | .float x => x.isInfinite
  | .int _ => false

mutual

/-- Whether a node holds an infinite number, as a parameter or as a length, at any
depth. -/
def Node.holdsInfinity : Node → Bool
  | .command _ _ params context => params.any Param.isInfinite || Node.anyHoldsInfinity context
  | .phoneme p => p.duration.isInfinite
  | .voice _ => false
  | .stop _ => false

def Node.anyHoldsInfinity : List Node → Bool
  | [] => false
  | n :: ns => n.holdsInfinity || Node.anyHoldsInfinity ns

end

theorem Node.anyHoldsInfinity_eq_false_iff (ns : List Node) :
    Node.anyHoldsInfinity ns = false ↔ ∀ n ∈ ns, n.holdsInfinity = false := by
  induction ns with
  | nil => simp [Node.anyHoldsInfinity]
  | cons n ns ih => simp [Node.anyHoldsInfinity, ih]

theorem Param.printed_of_finite
    {p : Param}
    (h : p.isInfinite = false) :
    p.printed = p.token := by
  cases p with
  | int v => rfl
  | float x =>
      have hx : x.isInfinite = false := h
      simp [Param.printed, Binary64.printed, hx, Param.token]
  | str s => rfl

theorem Duration.printed_of_finite
    {d : Duration}
    (h : d.isInfinite = false) :
    d.printed = d.token := by
  cases d with
  | int v => rfl
  | float x =>
      have hx : x.isInfinite = false := h
      simp [Duration.printed, Binary64.printed, hx, Duration.token]

end Infinity

section Same

open Scan

theorem Binary64.equal_self
    {x : Binary64}
    (h : Lexed (.float x)) :
    x.equal x = true := by
  have hnan : x.isNaN = false := by
    simp only [Binary64.isNaN, decide_eq_false_iff_not]
    exact Nat.not_lt.2 h.2
  simp [Binary64.equal, hnan]

theorem Param.sameAll_self
    {ps : List Param}
    (h : ∀ p ∈ ps, Lexed p.token) :
    Param.sameAll ps ps = true := by
  induction ps with
  | nil => rfl
  | cons p ps ih =>
      obtain ⟨hp, hps⟩ := List.forall_mem_cons.1 h
      have hself : p.same p = true := by
        cases p with
        | int v => simp [Param.same]
        | float x => exact Binary64.equal_self hp
        | str s => simp [Param.same]
      simp [Param.sameAll, hself, ih hps]

theorem Phoneme.same_pos
    {p : Phoneme}
    (h : p.Formed Lexed)
    (pos : Position) :
    ({ p with pos := pos } : Phoneme).same p = true := by
  have hduration : p.duration.same p.duration = true := by
    cases hd : p.duration with
    | int v => simp [Duration.same]
    | float x =>
        have hlexed := h.duration.resolve_left (by simp [hd])
        rw [hd] at hlexed
        exact Binary64.equal_self hlexed
  simp [Phoneme.same, hduration]

end Same

section Settings

theorem VoiceSettings.insertEntry_of_lt
    {key : String}
    {value : Int}
    {entries : List (String × Int)}
    (h : ∀ e ∈ entries, e.1 < key) :
    VoiceSettings.insertEntry key value entries = entries ++ [(key, value)] := by
  induction entries with
  | nil => rfl
  | cons e rest ih =>
      obtain ⟨hlt, hrest⟩ := List.forall_mem_cons.1 h
      obtain ⟨k, v⟩ := e
      have hnlt : ¬ key < k := fun hgt => String.lt_irrefl _ (String.lt_trans hlt hgt)
      have hne : key ≠ k := by
        rintro rfl
        exact String.lt_irrefl _ hlt
      simp [VoiceSettings.insertEntry, hnlt, hne, ih hrest]

theorem VoiceSettings.contains_of_lt
    {settings : VoiceSettings}
    {key : String}
    (h : ∀ e ∈ settings.entries, e.1 < key) :
    settings.contains key = false := by
  unfold VoiceSettings.contains VoiceSettings.get?
  cases hlookup : settings.entries.lookup key with
  | none => rfl
  | some value =>
      obtain ⟨before, after, hsplit, -⟩ := List.lookup_eq_some_iff.1 hlookup
      have hmem : (key, value) ∈ settings.entries := by simp [hsplit]
      exact absurd (h _ hmem) (String.lt_irrefl _)

end Settings

namespace Parse

open Scan

section Items

variable {stack : List Frame} {done : List Node} {t : Token} {ts rest : List Token}

theorem items_whole
    {node : Node}
    (hkind : t.kind = .leftBracket)
    (h : bracket t.pos ts = .ok (.whole node) rest) :
    items stack done (t :: ts) = items stack (node :: done) rest := by
  conv_lhs => rw [items.eq_def]
  simp only [hkind]
  split <;> simp_all [Reading.ok]

theorem items_block
    {name : String}
    {ps : List Param}
    (hkind : t.kind = .leftBracket)
    (h : bracket t.pos ts = .ok (.block name ps) rest) :
    items stack done (t :: ts) = items (⟨t.pos, name, ps, done⟩ :: stack) [] rest := by
  conv_lhs => rw [items.eq_def]
  simp only [hkind]
  split <;> simp_all [Reading.ok]

theorem items_symbol
    {symbol : String}
    {p : Phoneme}
    (hkind : t.kind = symbolPrinted symbol)
    (h : phoneme t.pos symbol ts = .ok p rest) :
    items stack done (t :: ts) = items stack (.phoneme p :: done) rest := by
  conv_lhs => rw [items.eq_def]
  by_cases hcomma : symbol = ","
  · subst hcomma
    have hkind' : t.kind = .comma := by simpa [symbolPrinted] using hkind
    simp only [hkind']
    split <;> simp_all [Reading.ok]
  · have hkind' : t.kind = .str symbol := by simpa [symbolPrinted, hcomma] using hkind
    simp only [hkind']
    split <;> simp_all [Reading.ok]

theorem items_close
    {frame : Frame}
    (hkind : t.kind = .rightBrace) :
    items (frame :: stack) done (t :: ts) =
      items stack
        (.command frame.pos frame.name frame.params done.reverse :: frame.before) ts := by
  conv_lhs => rw [items.eq_def]
  simp only [hkind]

theorem items_eof (hkind : t.kind = .eof) :
    items [] done (t :: ts) = .ok (done.reverse ++ [.stop t.pos]) (t :: ts) := by
  rw [items.eq_def]
  simp only [hkind]

end Items

section Readers

theorem map_kind_eq_cons
    {ts : List Token}
    {k : Token.Kind}
    {ks : List Token.Kind}
    (h : ts.map Token.kind = k :: ks) :
    ∃ t us, ts = t :: us ∧ t.kind = k ∧ us.map Token.kind = ks :=
  List.map_eq_cons_iff.1 h

theorem params_printed
    (pos : Position)
    (name : String)
    {ps : List Param}
    {us : List Token}
    {ks : List Token.Kind}
    (more : List Token)
    (hus : us.map Token.kind = ps.map Param.token ++ .rightBracket :: ks) :
    ∃ vs, vs.map Token.kind = ks ∧ params pos name (us ++ more) = .ok ps (vs ++ more) := by
  induction ps generalizing us with
  | nil =>
      obtain ⟨t, vs, rfl, ht, hvs⟩ := map_kind_eq_cons hus
      refine ⟨vs, hvs, ?_⟩
      rw [List.cons_append, params]
      simp only [ht]
  | cons p ps ih =>
      obtain ⟨t, ws, rfl, ht, hws⟩ := map_kind_eq_cons hus
      obtain ⟨vs, hvs, hread⟩ := ih hws
      refine ⟨vs, hvs, ?_⟩
      rw [List.cons_append, params]
      cases p <;> simp only [ht, Param.token, hread, Reading.map, Reading.ok] <;> rfl

theorem accept_of_kind
    {t : Token}
    {k : Token.Kind}
    (h : t.kind = k)
    (ts : List Token) :
    accept k (t :: ts) = some ts := by
  simp [accept, h]

theorem accept_of_peek_ne
    {k : Token.Kind}
    {ts : List Token}
    (h : peek ts ≠ k) :
    accept k ts = none := by
  cases ts with
  | nil => rfl
  | cons t ts =>
      have hne : ¬ t.kind = k := h
      simp [accept, hne]

theorem length_printed
    {d : Duration}
    {us : List Token}
    {k : Token.Kind}
    {ks : List Token.Kind}
    (more : List Token)
    (hint : ∀ v, k ≠ .int v)
    (hfloat : ∀ x, k ≠ .float x)
    (hus : us.map Token.kind = (if d.isShown then [d.token] else []) ++ k :: ks) :
    ∃ vs, vs.map Token.kind = k :: ks ∧ length (us ++ more) = (d, vs ++ more) := by
  cases hshown : d.isShown with
  | true =>
      rw [hshown, if_pos rfl] at hus
      obtain ⟨⟨kind, pos⟩, vs, rfl, ht, hvs⟩ := map_kind_eq_cons hus
      refine ⟨vs, hvs, ?_⟩
      cases d <;> (obtain rfl : kind = _ := ht; rfl)
  | false =>
      have hd : d = .int 0 := by
        cases d with
        | int v =>
            have hv : v = 0 := by simpa [Duration.isShown] using hshown
            rw [hv]
        | float x => simp [Duration.isShown] at hshown
      rw [hshown, if_neg (by simp)] at hus
      refine ⟨us, hus, ?_⟩
      obtain ⟨⟨kind, pos⟩, vs, rfl, ht, -⟩ := map_kind_eq_cons hus
      obtain rfl : kind = k := ht
      rw [hd, List.cons_append]
      unfold length
      split
      · rename_i heq
        simp_all
      · rename_i heq
        simp_all
      · rfl

theorem pitch_printed
    {v : Int}
    {us : List Token}
    {ks : List Token.Kind}
    (more : List Token)
    (hus : us.map Token.kind =
      (if v ≠ 0 then [.comma, .int v] else []) ++ .rightChevron :: ks) :
    ∃ vs, vs.map Token.kind = .rightChevron :: ks ∧ pitch (us ++ more) = (v, vs ++ more) := by
  by_cases hv : v = 0
  · subst hv
    refine ⟨us, by simpa using hus, ?_⟩
    obtain ⟨⟨kind, pos⟩, vs, rfl, ht, -⟩ := map_kind_eq_cons (by simpa using hus)
    obtain rfl : kind = .rightChevron := ht
    rfl
  · rw [if_pos hv] at hus
    obtain ⟨⟨kind, pos⟩, ws, rfl, ht, hws⟩ := map_kind_eq_cons hus
    obtain ⟨⟨kind', pos'⟩, vs, rfl, ht', hvs⟩ := map_kind_eq_cons hws
    obtain rfl : kind = .comma := ht
    obtain rfl : kind' = .int v := ht'
    exact ⟨vs, hvs, rfl⟩

theorem phoneme_printed
    {p : Phoneme}
    (h : p.Formed Lexed)
    (hfin : p.duration.isInfinite = false)
    {us more : List Token}
    (hus : us.map Token.kind = p.printed)
    (hmore : peek more ≠ .leftChevron) :
    ∃ t vs, us = t :: vs ∧ t.kind = symbolPrinted p.symbol ∧
      phoneme t.pos p.symbol (vs ++ more) = .ok { p with pos := t.pos } more := by
  have hrestrict : ∀ pos,
      restrict ⟨pos, p.symbol, p.duration, p.pitch⟩ = { p with pos := pos } := by
    intro pos
    have hduration : (if hasNoLength p.symbol then .int 0 else p.duration) = p.duration :=
      congrArg Phoneme.duration h.restricted
    have hpitch : (if hasNoPitch p.symbol then 0 else p.pitch) = p.pitch :=
      congrArg Phoneme.pitch h.restricted
    simp [restrict, hduration, hpitch]
  unfold Phoneme.printed at hus
  dsimp only at hus
  rw [Duration.printed_of_finite hfin] at hus
  split at hus
  · obtain ⟨t, ws, rfl, ht, hws⟩ := map_kind_eq_cons hus
    obtain ⟨t₁, us₁, rfl, ht₁, hus₁⟩ := map_kind_eq_cons hws
    have hhead : ∃ (k : Token.Kind) (ks : List Token.Kind),
        (if p.pitch ≠ 0 then [.comma, .int p.pitch] else []) ++ [.rightChevron] = k :: ks ∧
          (∀ v, k ≠ .int v) ∧ ∀ x, k ≠ .float x := by
      by_cases hzero : p.pitch = 0
      · exact ⟨.rightChevron, [], by simp [hzero], by simp, by simp⟩
      · exact ⟨.comma, [.int p.pitch, .rightChevron], by simp [hzero], by simp, by simp⟩
    obtain ⟨k, ks, hk, hint, hfloat⟩ := hhead
    rw [hk] at hus₁
    obtain ⟨us₂, hus₂, hlength⟩ := length_printed more hint hfloat hus₁
    rw [← hk] at hus₂
    obtain ⟨us₃, hus₃, hpitch⟩ := pitch_printed more hus₂
    obtain ⟨t₄, us₄, rfl, ht₄, hus₄⟩ := map_kind_eq_cons hus₃
    obtain rfl : us₄ = [] := by simpa using hus₄
    refine ⟨t, t₁ :: us₁, rfl, ht, ?_⟩
    unfold phoneme
    rw [List.cons_append, accept_of_kind ht₁]
    dsimp only
    rw [hlength, hpitch]
    dsimp only
    rw [List.cons_append, accept_of_kind ht₄]
    dsimp only
    rw [hrestrict]
    rfl
  · rename_i hplain
    obtain ⟨t, ws, rfl, ht, hws⟩ := map_kind_eq_cons hus
    obtain rfl : ws = [] := by simpa using hws
    refine ⟨t, [], rfl, ht, ?_⟩
    have hpitch : p.pitch = 0 := by
      by_contra hne
      simp [hne] at hplain
    have hduration : p.duration = .int 0 := by
      cases hd : p.duration with
      | int v =>
          have hv : v = 0 := by
            by_contra hne
            simp [hd, Duration.isShown, hne] at hplain
          rw [hv]
      | float x => simp [hd, Duration.isShown] at hplain
    unfold phoneme
    rw [List.nil_append, accept_of_peek_ne hmore]
    dsimp only
    have hp := hrestrict t.pos
    rw [hpitch, hduration] at hp ⊢
    rw [hp]

/-- Values that are listed in the order of their names are stored as they are listed. -/
theorem voicePairs_printed
    (pos : Position)
    (name : String)
    (settings : VoiceSettings)
    {entries : List (String × Int)}
    {us : List Token}
    {ks : List Token.Kind}
    (more : List Token)
    (hsorted : (settings.entries ++ entries).Pairwise (fun a b => a.1 < b.1))
    (hus : us.map Token.kind = pairsPrinted entries ++ .rightBrace :: ks) :
    ∃ vs, vs.map Token.kind = ks ∧
      voicePairs pos name settings (us ++ more) =
        .ok ⟨settings.entries ++ entries, hsorted⟩ (vs ++ more) := by
  induction entries generalizing settings us with
  | nil =>
      obtain ⟨t, vs, rfl, ht, hvs⟩ := map_kind_eq_cons hus
      refine ⟨vs, hvs, ?_⟩
      rw [List.cons_append, voicePairs.eq_def]
      simp [ht]
  | cons e rest ih =>
      obtain ⟨key, value⟩ := e
      have hlt : ∀ e ∈ settings.entries, e.1 < key := by
        intro e he
        exact (List.pairwise_append.1 hsorted).2.2 e he (key, value) (by simp)
      have hinsert : (settings.insert key value).entries = settings.entries ++ [(key, value)] :=
        VoiceSettings.insertEntry_of_lt hlt
      have hfresh := VoiceSettings.contains_of_lt hlt
      have heq : (settings.insert key value).entries ++ rest =
          settings.entries ++ (key, value) :: rest := by
        rw [hinsert]
        simp
      have hstep : ∃ ws, ws.map Token.kind = pairsPrinted rest ++ .rightBrace :: ks ∧
          voicePairs pos name settings (us ++ more) =
            voicePairs pos name (settings.insert key value) (ws ++ more) := by
        cases rest with
        | nil =>
            obtain ⟨t₁, us₁, rfl, ht₁, hus₁⟩ := map_kind_eq_cons hus
            obtain ⟨t₂, us₂, rfl, ht₂, hus₂⟩ := map_kind_eq_cons hus₁
            obtain ⟨t₃, us₃, rfl, ht₃, hus₃⟩ := map_kind_eq_cons hus₂
            refine ⟨t₃ :: us₃, hus₂, ?_⟩
            conv_lhs => rw [List.cons_append, voicePairs.eq_def]
            simp [ht₁, ht₂, ht₃, hfresh]
        | cons e rest =>
            obtain ⟨t₁, us₁, rfl, ht₁, hus₁⟩ := map_kind_eq_cons hus
            obtain ⟨t₂, us₂, rfl, ht₂, hus₂⟩ := map_kind_eq_cons hus₁
            obtain ⟨t₃, us₃, rfl, ht₃, hus₃⟩ := map_kind_eq_cons hus₂
            refine ⟨us₃, hus₃, ?_⟩
            conv_lhs => rw [List.cons_append, voicePairs.eq_def]
            simp [ht₁, ht₂, ht₃, hfresh]
      obtain ⟨ws, hws, hread⟩ := hstep
      obtain ⟨vs, hvs, htail⟩ := ih (settings.insert key value) (by rw [heq]; exact hsorted) hws
      refine ⟨vs, hvs, ?_⟩
      rw [hread, htail]
      simp only [heq]

theorem voice_printed
    {v : Voice}
    {us : List Token}
    (pos : Position)
    (more : List Token)
    (hmore : peek more ≠ .leftBrace)
    (hus : us.map Token.kind = .str v.name :: .rightBracket ::
      (if v.settings.entries.isEmpty then []
        else .leftBrace :: (pairsPrinted v.settings.entries ++ [.rightBrace]))) :
    voice pos (us ++ more) = .ok { v with pos := pos } more := by
  obtain ⟨⟨kind, q⟩, us₁, rfl, ht, hus₁⟩ := map_kind_eq_cons hus
  obtain rfl : kind = .str v.name := ht
  obtain ⟨t₂, us₂, rfl, ht₂, hus₂⟩ := map_kind_eq_cons hus₁
  rw [List.cons_append, voice, List.cons_append, accept_of_kind ht₂]
  dsimp only
  cases hempty : v.settings.entries.isEmpty with
  | true =>
      obtain rfl : us₂ = [] := by simpa [hempty] using hus₂
      have hsettings : v.settings = .empty := by
        cases hs : v.settings with
        | mk entries sorted =>
            obtain rfl : entries = [] := by simpa [hs] using hempty
            rfl
      rw [List.nil_append, accept_of_peek_ne hmore]
      simp [hsettings]
  | false =>
      rw [hempty, if_neg (by simp)] at hus₂
      obtain ⟨t₃, us₃, rfl, ht₃, hus₃⟩ := map_kind_eq_cons hus₂
      have hpeek : peek (us₃ ++ more) ≠ .rightBrace := by
        cases hentries : v.settings.entries with
        | nil => simp [hentries] at hempty
        | cons e rest =>
            obtain ⟨key, value⟩ := e
            rw [hentries] at hus₃
            have hhead : ∃ ks, pairsPrinted ((key, value) :: rest) = .str key :: ks := by
              cases rest <;> exact ⟨_, rfl⟩
            obtain ⟨ks, hks⟩ := hhead
            rw [hks] at hus₃
            obtain ⟨t₄, us₄, rfl, ht₄, -⟩ := map_kind_eq_cons hus₃
            simp [peek, ht₄]
      obtain ⟨vs, hvs, hread⟩ := voicePairs_printed pos v.name .empty more
        v.settings.sorted hus₃
      obtain rfl : vs = [] := by simpa using hvs
      rw [List.cons_append, accept_of_kind ht₃]
      dsimp only
      rw [if_neg hpeek, hread]
      rfl

theorem bareName_colon
    {name : String}
    (h : name ≠ "") :
    bareName (":" ++ name) = .ok name := by
  have hlist : (":" ++ name).toList = ':' :: name.toList := by simp
  unfold bareName
  rw [hlist]
  split
  · rename_i heq
    have hnil : name.toList = [] := (List.cons.inj heq).2
    exact absurd (String.toList_eq_nil_iff.1 hnil) h
  · rename_i cs _ heq
    obtain ⟨-, rfl⟩ := List.cons.inj heq
    simp
  · rename_i hcolon
    exact absurd rfl (hcolon _)

end Readers

section Nodes

/-- No block and no length starts with the next token. -/
def Ends (ts : List Token) : Prop :=
  peek ts ≠ .leftBrace ∧ peek ts ≠ .leftChevron

/-- Tokens of a node's parts are read as that node, up to its place. -/
def Rereads (n : Node) : Prop :=
  ∀ (us more : List Token) (stack : List Frame) (done : List Node),
    us.map Token.kind = n.printed → Ends more →
      ∃ m, m.same n = true ∧ items stack done (us ++ more) = items stack (m :: done) more

theorem printed_head
    {n : Node}
    (h : n.Formed Lexed) :
    ∃ k ks, n.printed = k :: ks ∧ k ≠ .leftBrace ∧ k ≠ .leftChevron := by
  cases h with
  | command => exact ⟨.leftBracket, _, by rw [Node.printed], by simp, by simp⟩
  | @phoneme p hp =>
      have hsymbol :
          symbolPrinted p.symbol ≠ .leftBrace ∧ symbolPrinted p.symbol ≠ .leftChevron := by
        unfold symbolPrinted
        split <;> simp
      rw [Node.printed, Phoneme.printed]
      split
      · exact ⟨_, _, rfl, hsymbol⟩
      · exact ⟨_, _, rfl, hsymbol⟩
  | voice => exact ⟨.leftBracket, _, by rw [Node.printed, Voice.printed], by simp, by simp⟩

theorem rereads_all
    {ns : List Node}
    (hformed : ∀ n ∈ ns, n.Formed Lexed)
    (h : ∀ n ∈ ns, Rereads n)
    {us more : List Token}
    (stack : List Frame)
    (done : List Node)
    (hus : us.map Token.kind = Node.printedAll ns)
    (hmore : Ends more) :
    ∃ ms, Node.sameAll ms ns = true ∧
      items stack done (us ++ more) = items stack (ms.reverse ++ done) more := by
  induction ns generalizing us done with
  | nil =>
      obtain rfl : us = [] := by simpa [Node.printedAll] using hus
      exact ⟨[], by simp [Node.sameAll], rfl⟩
  | cons n ns ih =>
      obtain ⟨hnf, hnsf⟩ := List.forall_mem_cons.1 hformed
      obtain ⟨hn, hns⟩ := List.forall_mem_cons.1 h
      rw [Node.printedAll] at hus
      obtain ⟨us₁, us₂, rfl, hus₁, hus₂⟩ := List.map_eq_append_iff.1 hus
      have hends : Ends (us₂ ++ more) := by
        cases ns with
        | nil =>
            obtain rfl : us₂ = [] := by simpa [Node.printedAll] using hus₂
            exact hmore
        | cons n' ns =>
            obtain ⟨k, ks, hk, hbrace, hchevron⟩ := printed_head (hnsf n' (by simp))
            rw [Node.printedAll, hk] at hus₂
            obtain ⟨t, us₃, rfl, ht, -⟩ := map_kind_eq_cons hus₂
            exact ⟨by simpa [peek, ht] using hbrace, by simpa [peek, ht] using hchevron⟩
      obtain ⟨m, hm, hread⟩ := hn us₁ (us₂ ++ more) stack done hus₁ hends
      obtain ⟨ms, hms, htail⟩ := ih hnsf hns (m :: done) hus₂
      refine ⟨m :: ms, by simp [Node.sameAll, hm, hms], ?_⟩
      rw [List.append_assoc, hread, htail]
      simp

theorem rereads
    {n : Node}
    (h : n.Formed Lexed)
    (hfin : n.holdsInfinity = false) :
    Rereads n := by
  induction h with
  | @command pos name params context keyword hne hvoice hparams hcontext ih =>
      intro us more stack done hus hmore
      simp only [Node.holdsInfinity, Bool.or_eq_false_iff, List.any_eq_false,
        Bool.not_eq_true] at hfin
      obtain ⟨hfinite, hinner⟩ := hfin
      have hprinted : params.map Param.printed = params.map Param.token :=
        List.map_congr_left fun p hp => Param.printed_of_finite (hfinite p hp)
      rw [Node.printed, hprinted] at hus
      obtain ⟨t, us₁, rfl, ht, hus₁⟩ := map_kind_eq_cons hus
      obtain ⟨⟨kind, q⟩, us₂, rfl, ht₁, hus₂⟩ := map_kind_eq_cons hus₁
      obtain rfl : kind = .str (":" ++ name) := ht₁
      obtain ⟨us₃, hus₃, hread⟩ := params_printed t.pos name more hus₂
      have hsame := Param.sameAll_self hparams
      have hbracket : bracket t.pos (⟨.str (":" ++ name), q⟩ :: (us₂ ++ more)) =
          (accept .leftBrace (us₃ ++ more)).elim
            (.ok (.whole (.command t.pos name params [])) (us₃ ++ more))
            (.ok (.block name params)) := by
        cases haccept : accept .leftBrace (us₃ ++ more) <;>
          simp [bracket, bareName_colon hne, hvoice, hread, Reading.bind, Reading.ok, haccept]
      cases hempty : context.isEmpty with
      | true =>
          obtain rfl : context = [] := by simpa using hempty
          obtain rfl : us₃ = [] := by simpa using hus₃
          rw [List.nil_append, accept_of_peek_ne hmore.1, Option.elim_none] at hbracket
          refine ⟨.command t.pos name params [], ?_, items_whole ht hbracket⟩
          simp [Node.same, hsame, Node.sameAll]
      | false =>
          rw [hempty, if_neg (by simp)] at hus₃
          obtain ⟨t₄, us₄, rfl, ht₄, hus₄⟩ := map_kind_eq_cons hus₃
          obtain ⟨us₅, us₆, rfl, hus₅, hus₆⟩ := List.map_eq_append_iff.1 hus₄
          obtain ⟨t₆, us₇, rfl, ht₆, hus₇⟩ := map_kind_eq_cons hus₆
          obtain rfl : us₇ = [] := by simpa using hus₇
          have hends : Ends ([t₆] ++ more) := by simp [Ends, peek, ht₆]
          have hall : ∀ n ∈ context, Rereads n := by
            intro n hn
            exact ih n hn ((Node.anyHoldsInfinity_eq_false_iff context).1 hinner n hn)
          obtain ⟨ms, hms, hbody⟩ := rereads_all hcontext hall
            (⟨t.pos, name, params, done⟩ :: stack) [] hus₅ hends
          rw [List.cons_append, accept_of_kind ht₄, Option.elim_some] at hbracket
          refine ⟨.command t.pos name params ms, by simp [Node.same, hsame, hms], ?_⟩
          rw [List.cons_append, List.cons_append, items_block ht hbracket, List.append_assoc, hbody,
            List.singleton_append, items_close ht₆]
          simp
  | @phoneme p hp =>
      intro us more stack done hus hmore
      obtain ⟨t, vs, rfl, ht, hread⟩ := phoneme_printed hp hfin hus hmore.2
      refine ⟨.phoneme { p with pos := t.pos }, ?_, items_symbol ht hread⟩
      simpa [Node.same] using Phoneme.same_pos hp t.pos
  | @voice v hv =>
      intro us more stack done hus hmore
      rw [Node.printed, Voice.printed] at hus
      obtain ⟨t, us₁, rfl, ht, hus₁⟩ := map_kind_eq_cons hus
      obtain ⟨⟨kind, q⟩, us₂, rfl, ht₁, hus₂⟩ := map_kind_eq_cons hus₁
      obtain rfl : kind = .str ":voice" := ht₁
      have hread := voice_printed t.pos more hmore.1 hus₂
      have hbracket : bracket t.pos (⟨.str ":voice", q⟩ :: (us₂ ++ more)) =
          .ok (.whole (.voice { v with pos := t.pos })) more := by
        have hname : bareName ":voice" = .ok "voice" := by decide
        simp [bracket, hname, hread, Reading.map, Reading.ok, Except.map]
      refine ⟨.voice { v with pos := t.pos }, ?_, items_whole ht hbracket⟩
      simp [Node.same, Voice.same]

end Nodes

end Parse
end SpeechMarkup
