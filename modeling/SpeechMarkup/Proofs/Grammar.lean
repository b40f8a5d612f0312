import SpeechMarkup.Proofs.Reparse

/-!
# Derivation trees

The grammar of programs, as trees.  With `S` for a string:

```text
program  := item*
item     := command | voice | phoneme
command  := '[' S param* ']' ('{' item* '}')?        S is ':' and a name
voice    := '[' ':voice' S ']' ('{' (S INT ','?)+ '}')?
phoneme  := (S | ',') ('<' (INT | FLOAT)? (',' INT?)? '>')?
```

* `Grammar.Item` is a derivation of one item, and a list of items one of a program.
  The conditions on names and keys are part of the trees.
* `Item.yield` are the tokens that a tree derives.
* `Item.node` is the node that a tree stands for, placed at the first of its tokens.
* `Item.yields_injective`: tokens have one derivation at most.
-/

namespace SpeechMarkup
namespace Grammar

section Trees

/-- The bracket that a command starts with; a voice declaration is no command. -/
structure Head where
  name : String
  params : List Param
  name_ne_empty : name ≠ ""
  name_ne_voice : name ≠ "voice"

inductive Symbol
  | comma
  | text (s : String)

/-- What stands between chevrons; a pitch may leave out its number. -/
structure Chevrons where
  length : Option Duration
  pitch : Option (Option Int)

/-- A value in the block of a voice, and whether a comma follows it. -/
structure Setting where
  key : String
  value : Int
  comma : Bool

/-- The block of a voice. -/
structure VoiceBlock where
  settings : List Setting
  ne_nil : settings ≠ []
  distinct : (settings.map Setting.key).Nodup

/-- A derivation of an item. -/
inductive Item
  | command (head : Head)
  | block (head : Head) (items : List Item)
  | voice (name : String) (body : Option VoiceBlock)
  | phoneme (symbol : Symbol) (chevrons : Option Chevrons)

end Trees

section Yields

def Head.yield (head : Head) : List Token.Kind :=
  .leftBracket :: .str (":" ++ head.name) :: (head.params.map Param.token ++ [.rightBracket])

def Symbol.yield : Symbol → Token.Kind
  | .comma => .comma
  | .text s => .str s

def lengthYield (length : Option Duration) : List Token.Kind :=
  (length.map Duration.token).toList

def pitchYield : Option (Option Int) → List Token.Kind
  | none => []
  | some none => [.comma]
  | some (some v) => [.comma, .int v]

def Chevrons.yield (chevrons : Chevrons) : List Token.Kind :=
  .leftChevron :: (lengthYield chevrons.length ++ pitchYield chevrons.pitch ++ [.rightChevron])

def Setting.yield (setting : Setting) : List Token.Kind :=
  .str setting.key :: .int setting.value :: (if setting.comma then [.comma] else [])

def VoiceBlock.yield (block : VoiceBlock) : List Token.Kind :=
  .leftBrace :: (block.settings.flatMap Setting.yield ++ [.rightBrace])

mutual

/-- The tokens that an item derives. -/
def Item.yield : Item → List Token.Kind
  | .command head => head.yield
  | .block head items => head.yield ++ .leftBrace :: (Item.yields items ++ [.rightBrace])
  | .voice name body =>
      .leftBracket :: .str ":voice" :: .str name :: .rightBracket ::
        body.elim [] VoiceBlock.yield
  | .phoneme symbol chevrons => symbol.yield :: chevrons.elim [] Chevrons.yield

/-- The tokens that items derive one after the other. -/
def Item.yields : List Item → List Token.Kind
  | [] => []
  | item :: items => item.yield ++ Item.yields items

end

theorem Item.yields_append (as bs : List Item) :
    Item.yields (as ++ bs) = Item.yields as ++ Item.yields bs := by
  induction as with
  | nil => rw [Item.yields, List.nil_append, List.nil_append]
  | cons a as ih => rw [List.cons_append, Item.yields, Item.yields, ih, List.append_assoc]

theorem eof_notMem_head (head : Head) :
    .eof ∉ head.yield := by
  have hparams : ∀ p ∈ head.params, p.token ≠ .eof := by
    rintro (v | x | s) - <;> simp [Param.token]
  simpa [Head.yield] using hparams

theorem eof_notMem_chevrons (chevrons : Chevrons) :
    .eof ∉ chevrons.yield := by
  obtain ⟨length, pitch⟩ := chevrons
  rcases length with _ | _ | _ <;> rcases pitch with _ | _ | _ <;>
    simp [Chevrons.yield, lengthYield, pitchYield, Duration.token]

theorem eof_notMem_voiceBlock (block : VoiceBlock) :
    .eof ∉ block.yield := by
  have hsettings : ∀ s ∈ block.settings, .eof ∉ s.yield := by
    rintro ⟨key, value, comma⟩ -
    cases comma <;> simp [Setting.yield]
  simpa [VoiceBlock.yield] using hsettings

mutual

theorem Item.eof_notMem_yield (item : Item) :
    .eof ∉ item.yield := by
  match item with
  | .command head =>
      rw [Item.yield]
      exact eof_notMem_head head
  | .block head items =>
      rw [Item.yield]
      simp [eof_notMem_head head, Item.eof_notMem_yields items]
  | .voice name body =>
      rw [Item.yield]
      cases body with
      | none => simp
      | some block => simpa using eof_notMem_voiceBlock block
  | .phoneme symbol chevrons =>
      rw [Item.yield]
      cases symbol <;> cases chevrons <;> simp [Symbol.yield, eof_notMem_chevrons]

/-- No derivation reaches past the end of a program. -/
theorem Item.eof_notMem_yields (items : List Item) :
    .eof ∉ Item.yields items := by
  match items with
  | [] => simp [Item.yields]
  | item :: items =>
      simp [Item.yields, item.eof_notMem_yield, Item.eof_notMem_yields items]

end

end Yields

section Nodes

/-- The place of the first token. -/
def start : List Token → Position
  | [] => {}
  | t :: _ => t.pos

def Symbol.name : Symbol → String
  | .comma => ","
  | .text s => s

def VoiceBlock.values (block : VoiceBlock) : VoiceSettings :=
  .ofList (block.settings.map fun s => (s.key, s.value))

/-- The length between chevrons, if the symbol can have one. -/
def lengthOf (symbol : String) (chevrons : Option Chevrons) : Duration :=
  if hasNoLength symbol then .int 0 else (chevrons.bind Chevrons.length).getD (.int 0)

/-- The pitch between chevrons, if the symbol can have one. -/
def pitchOf (symbol : String) (chevrons : Option Chevrons) : Int :=
  if hasNoPitch symbol then 0 else (chevrons.bind Chevrons.pitch).join.getD 0

mutual

/-- The node that an item stands for, given the item's tokens. -/
def Item.node : Item → List Token → Node
  | .command head, ts => .command (start ts) head.name head.params []
  | .block head items, ts =>
      -- the tokens of the block stand between its braces
      .command (start ts) head.name head.params
        (Item.nodes items
          ((ts.drop (head.yield.length + 1)).take (Item.yields items).length))
  | .voice name body, ts =>
      .voice ⟨start ts, name, body.elim .empty VoiceBlock.values⟩
  | .phoneme symbol chevrons, ts =>
      .phoneme ⟨start ts, symbol.name, lengthOf symbol.name chevrons,
        pitchOf symbol.name chevrons⟩

/-- The nodes that items stand for, each given the tokens of its own. -/
def Item.nodes : List Item → List Token → List Node
  | [], _ => []
  | item :: items, ts =>
      item.node (ts.take item.yield.length) ::
        Item.nodes items (ts.drop item.yield.length)

end

end Nodes

section Unambiguity

variable {r s : List Token.Kind}

/-- Neither a block nor chevrons start here. -/
def Stops (ks : List Token.Kind) : Prop :=
  ks.head? ≠ some .leftBrace ∧ ks.head? ≠ some .leftChevron

theorem token_injective : Function.Injective Param.token := by
  intro p q h
  cases p <;> cases q <;> simp_all [Param.token]

theorem Head.yield_append_inj
    {a b : Head}
    (h : a.yield ++ r = b.yield ++ s) :
    a = b ∧ r = s := by
  simp only [Head.yield, List.cons_append, List.append_assoc, List.nil_append,
    List.cons.injEq, Token.Kind.str.injEq, true_and] at h
  obtain ⟨hname, hparams⟩ := h
  have hcut : ∀ ps : List Param, ∀ k ∈ ps.map Param.token, ¬ k = .rightBracket := by
    intro ps k hk
    obtain ⟨p, -, rfl⟩ := List.mem_map.1 hk
    cases p <;> simp [Param.token]
  obtain ⟨hps, hrest⟩ := append_inj_of_cut (· = .rightBracket) (hcut a.params) (hcut b.params)
    (by simp) (by simp) hparams
  obtain ⟨name, params, _, _⟩ := a
  obtain ⟨name', params', _, _⟩ := b
  obtain rfl : name = name' := by simpa using hname
  obtain rfl : params = params' := List.map_injective_iff.2 token_injective hps
  exact ⟨rfl, (List.cons.inj hrest).2⟩

/-- The name of a command is not `voice`, so its bracket is not that of a voice. -/
theorem Head.yield_append_ne_voice
    (head : Head)
    (r s : List Token.Kind) :
    head.yield ++ r ≠ .leftBracket :: .str ":voice" :: s := by
  intro h
  simp only [Head.yield, List.cons_append, List.cons.injEq, Token.Kind.str.injEq,
    true_and] at h
  have hname : ":" ++ head.name = ":" ++ "voice" := h.1
  exact head.name_ne_voice ((String.append_right_inj ":").1 hname)

theorem Symbol.yield_ne_leftBracket (symbol : Symbol) :
    symbol.yield ≠ .leftBracket := by
  cases symbol <;> simp [Symbol.yield]

theorem Symbol.yield_injective : Function.Injective Symbol.yield := by
  intro a b h
  cases a <;> cases b <;> simp_all [Symbol.yield]

theorem pitchYield_append_inj
    {a b : Option (Option Int)}
    (h : pitchYield a ++ .rightChevron :: r = pitchYield b ++ .rightChevron :: s) :
    a = b ∧ r = s := by
  rcases a with _ | _ | v <;> rcases b with _ | _ | w <;> simp_all [pitchYield]

theorem Chevrons.yield_append_inj
    {a b : Chevrons}
    (h : a.yield ++ r = b.yield ++ s) :
    a = b ∧ r = s := by
  obtain ⟨l, p⟩ := a
  obtain ⟨m, q⟩ := b
  simp only [Chevrons.yield, List.cons_append, List.append_assoc, List.nil_append,
    List.cons.injEq, true_and] at h
  -- a number belongs to the length, since a pitch starts with its comma
  have hlength : l = m := by
    rcases l with _ | _ | _ <;> rcases m with _ | _ | _ <;>
      rcases p with _ | _ | _ <;> rcases q with _ | _ | _ <;>
      simp_all [lengthYield, pitchYield, Duration.token]
  subst hlength
  obtain ⟨rfl, hrest⟩ := pitchYield_append_inj (List.append_cancel_left h)
  exact ⟨rfl, hrest⟩

/-- The comma behind a value is never the start of what follows. -/
theorem settings_eq_cons
    (settings : List Setting)
    (ks : List Token.Kind) :
    ∃ k ls, settings.flatMap Setting.yield ++ .rightBrace :: ks = k :: ls ∧ k ≠ .comma := by
  cases settings with
  | nil => exact ⟨_, _, rfl, by simp⟩
  | cons s settings => exact ⟨_, _, rfl, by simp⟩

theorem settings_append_inj
    {as bs : List Setting}
    (h : as.flatMap Setting.yield ++ .rightBrace :: r =
      bs.flatMap Setting.yield ++ .rightBrace :: s) :
    as = bs ∧ r = s := by
  induction as generalizing bs with
  | nil =>
      cases bs with
      | nil => exact ⟨rfl, (List.cons.inj h).2⟩
      | cons b bs => simp [Setting.yield] at h
  | cons a as ih =>
      cases bs with
      | nil => simp [Setting.yield] at h
      | cons b bs =>
          obtain ⟨key, value, comma⟩ := a
          obtain ⟨key', value', comma'⟩ := b
          simp only [List.flatMap_cons, Setting.yield, List.cons_append, List.append_assoc,
            List.cons.injEq, Token.Kind.str.injEq, Token.Kind.int.injEq] at h
          obtain ⟨rfl, rfl, h⟩ := h
          obtain ⟨k, ks, hk, hne⟩ := settings_eq_cons as r
          obtain ⟨l, ls, hl, hne'⟩ := settings_eq_cons bs s
          have hcomma : comma = comma' := by
            rw [hk, hl] at h
            cases comma <;> cases comma' <;> simp_all
          subst hcomma
          obtain ⟨rfl, hrest⟩ := ih (List.append_cancel_left h)
          exact ⟨rfl, hrest⟩

theorem VoiceBlock.yield_append_inj
    {a b : VoiceBlock}
    (h : a.yield ++ r = b.yield ++ s) :
    a = b ∧ r = s := by
  simp only [VoiceBlock.yield, List.cons_append, List.append_assoc, List.nil_append,
    List.cons.injEq, true_and] at h
  obtain ⟨hsettings, hrest⟩ := settings_append_inj h
  obtain ⟨settings, _, _⟩ := a
  obtain ⟨settings', _, _⟩ := b
  obtain rfl : settings = settings' := hsettings
  exact ⟨rfl, hrest⟩

/-- An optional part is read off its first token. -/
theorem elim_append_inj
    {α : Type}
    {f : α → List Token.Kind}
    {k : Token.Kind}
    (hinj : ∀ {a b : α}, f a ++ r = f b ++ s → a = b ∧ r = s)
    (hhead : ∀ a, (f a).head? = some k)
    (hr : r.head? ≠ some k)
    (hs : s.head? ≠ some k)
    {a b : Option α}
    (h : a.elim [] f ++ r = b.elim [] f ++ s) :
    a = b ∧ r = s := by
  cases a with
  | none =>
      cases b with
      | none => exact ⟨rfl, h⟩
      | some b =>
          rw [Option.elim_none, Option.elim_some, List.nil_append] at h
          exact absurd (by simp [h, List.head?_append, hhead b]) hr
  | some a =>
      cases b with
      | none =>
          rw [Option.elim_none, Option.elim_some, List.nil_append] at h
          exact absurd (by simp [← h, List.head?_append, hhead a]) hs
      | some b =>
          obtain ⟨rfl, hrest⟩ := hinj h
          exact ⟨rfl, hrest⟩

/-- An item starts with a bracket, a comma or a string. -/
theorem Item.yield_eq_cons (item : Item) :
    ∃ k ks, item.yield = k :: ks ∧
      k ≠ .leftBrace ∧ k ≠ .leftChevron ∧ k ≠ .rightBrace := by
  cases item with
  | command head => exact ⟨_, _, by rw [Item.yield, Head.yield], by simp, by simp, by simp⟩
  | block head items =>
      exact ⟨_, _, by rw [Item.yield, Head.yield, List.cons_append], by simp, by simp, by simp⟩
  | voice name body => exact ⟨_, _, by rw [Item.yield], by simp, by simp, by simp⟩
  | phoneme symbol chevrons =>
      refine ⟨symbol.yield, _, by rw [Item.yield], ?_⟩
      cases symbol <;> simp [Symbol.yield]

theorem stops_yields_append
    (items : List Item)
    (hr : ∀ k ∈ r.head?, k = .rightBrace) :
    Stops (Item.yields items ++ r) := by
  cases items with
  | nil =>
      rw [Item.yields, List.nil_append]
      constructor
      · intro h
        exact absurd (hr _ h) (by simp)
      · intro h
        exact absurd (hr _ h) (by simp)
  | cons item items =>
      obtain ⟨k, ks, hyield, hbrace, hchevron, -⟩ := item.yield_eq_cons
      rw [Item.yields, hyield]
      exact ⟨by simpa using hbrace, by simpa using hchevron⟩

mutual

-- One token tells the items apart, apart from commands and voices, whose names do.
theorem Item.yield_append_inj
    (a b : Item)
    {r s : List Token.Kind}
    (hr : Stops r)
    (hs : Stops s)
    (h : a.yield ++ r = b.yield ++ s) :
    a = b ∧ r = s := by
  match a, b with
  | .command head, .command head' =>
      simp only [Item.yield] at h
      obtain ⟨rfl, hrest⟩ := Head.yield_append_inj h
      exact ⟨rfl, hrest⟩
  | .command head, .block head' items =>
      simp only [Item.yield, List.append_assoc] at h
      obtain ⟨-, rfl⟩ := Head.yield_append_inj h
      exact absurd rfl hr.1
  | .block head items, .command head' =>
      simp only [Item.yield, List.append_assoc] at h
      obtain ⟨-, rfl⟩ := Head.yield_append_inj h
      exact absurd rfl hs.1
  | .block head items, .block head' items' =>
      simp only [Item.yield, List.append_assoc, List.cons_append] at h
      obtain ⟨rfl, hblock⟩ := Head.yield_append_inj h
      obtain ⟨rfl, hrest⟩ := Item.yields_append_inj items items' (by simp) (by simp)
        (List.cons.inj hblock).2
      exact ⟨rfl, (List.cons.inj hrest).2⟩
  | .voice name body, .voice name' body' =>
      simp only [Item.yield, List.cons_append, List.cons.injEq, Token.Kind.str.injEq,
        true_and] at h
      obtain ⟨rfl, h⟩ := h
      obtain ⟨rfl, hrest⟩ := elim_append_inj VoiceBlock.yield_append_inj (fun _ => rfl)
        hr.1 hs.1 h
      exact ⟨rfl, hrest⟩
  | .phoneme symbol chevrons, .phoneme symbol' chevrons' =>
      simp only [Item.yield, List.cons_append, List.cons.injEq] at h
      obtain ⟨hsymbol, h⟩ := h
      obtain rfl := Symbol.yield_injective hsymbol
      obtain ⟨rfl, hrest⟩ := elim_append_inj Chevrons.yield_append_inj (fun _ => rfl)
        hr.2 hs.2 h
      exact ⟨rfl, hrest⟩
  | .command head, .voice _ _ | .block head _, .voice _ _ =>
      simp only [Item.yield, List.append_assoc, List.cons_append] at h
      exact absurd h (head.yield_append_ne_voice _ _)
  | .voice _ _, .command head | .voice _ _, .block head _ =>
      simp only [Item.yield, List.append_assoc, List.cons_append] at h
      exact absurd h.symm (head.yield_append_ne_voice _ _)
  | .phoneme symbol _, .command _ | .phoneme symbol _, .block _ _ | .phoneme symbol _, .voice _ _ =>
      simp only [Item.yield, Head.yield, List.cons_append] at h
      exact absurd (List.cons.inj h).1 symbol.yield_ne_leftBracket
  | .command _, .phoneme symbol _ | .block _ _, .phoneme symbol _ | .voice _ _, .phoneme symbol _ =>
      simp only [Item.yield, Head.yield, List.cons_append] at h
      exact absurd (List.cons.inj h).1.symm symbol.yield_ne_leftBracket

theorem Item.yields_append_inj
    (as bs : List Item)
    {r s : List Token.Kind}
    (hr : ∀ k ∈ r.head?, k = .rightBrace)
    (hs : ∀ k ∈ s.head?, k = .rightBrace)
    (h : Item.yields as ++ r = Item.yields bs ++ s) :
    as = bs ∧ r = s := by
  match as, bs with
  | [], [] => exact ⟨rfl, h⟩
  | [], b :: bs =>
      obtain ⟨k, ks, hyield, -, -, hbrace⟩ := b.yield_eq_cons
      simp only [Item.yields, hyield, List.nil_append, List.cons_append] at h
      exact absurd (hr k (by simp [h])) hbrace
  | a :: as, [] =>
      obtain ⟨k, ks, hyield, -, -, hbrace⟩ := a.yield_eq_cons
      simp only [Item.yields, hyield, List.nil_append, List.cons_append] at h
      exact absurd (hs k (by simp [← h])) hbrace
  | a :: as, b :: bs =>
      simp only [Item.yields, List.append_assoc] at h
      obtain ⟨rfl, htail⟩ := Item.yield_append_inj a b (stops_yields_append as hr)
        (stops_yields_append bs hs) h
      obtain ⟨rfl, hrest⟩ := Item.yields_append_inj as bs hr hs htail
      exact ⟨rfl, hrest⟩

end

/-- Tokens have one derivation at most. -/
theorem Item.yields_injective : Function.Injective Item.yields := by
  intro as bs h
  exact (Item.yields_append_inj as bs (r := []) (s := []) (by simp) (by simp) (by simp [h])).1

end Unambiguity

end Grammar
end SpeechMarkup
