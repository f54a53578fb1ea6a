import Gamebook.Proofs.Frames
import Gamebook.Proofs.Sections
import Gamebook.Proofs.Upkeep

/-!
Forms of records. A record of one line has a form, which says how the line is read. What the
record is about can be told from the form and from the words of its line, before anything of
it is put into a document.
-/
namespace Gamebook

/-- The words of a line, with nothing in the place of every other token. -/
def Line.words (line : Line) : List (Option String) := line.map (·.content.word?)

namespace Wording

/-- The name at the front. -/
def named (words : List (Option String)) : Option String := words.head?.join

/-- What stands behind the word of a negation, if it comes first. -/
def affirmed : List (Option String) → List (Option String)
  | some "no" :: words => words
  | words => words

end Wording

/-- What a word of a boring line puts into its item: a reaction of the category, negated or
not. -/
def Record.reaction (id : String) (ref : Nat) (word : Category × Bool) : Record :=
  .behavior id word.1 { mods := [Behavior.boringMod], negated := word.2, ref := some ref }

/-- How a record of one line is read. -/
inductive Form where
  | start | node | property | path | action | boring | item | modifier
  | behavior (category : Category) (count : Option Nat)
  | location | resources
  deriving DecidableEq, Repr

namespace Form

def subject : Form → String
  | start => "start"
  | node => "node"
  | property => "property"
  | path => "path"
  | action => "action"
  | boring => "boring-default"
  | item => "item"
  | modifier => "mod"
  | behavior category _ => category.name
  | location => "location"
  | resources => "resources"

/-- The reader of the form, in the block of an item or outside of one. -/
def reader (block : Option String) : Form → Nat → Entry Record
  | start => Entry.start
  | node => Entry.node
  | property => Entry.property
  | path => Entry.path
  | action => Entry.action
  | boring => Entry.boring
  | item => Entry.item
  | modifier => Entry.modifier
  | behavior category count => Entry.behavior category block count
  | location => Entry.location block
  | resources => Entry.resources block

/-- What a record of the form is about, by the words of its line. -/
def region? (block : Option String) (words : List (Option String)) : Form → Option Region
  | start => some .start
  | node => some .nodes
  | property => some .properties
  | path => some .edges
  | action => some .actions
  | boring => some .boring
  | item => (Wording.named words).map .item
  | modifier => (Wording.named words).map .modifier
  | behavior .. => (block.or (Wording.named (Wording.affirmed words))).map .item
  | location | resources => (block.or (Wording.named words)).map .item

/-- The records that can come of a line with the words, read at the place. -/
inductive Gives (block : Option String) (ref : Nat) (words : List (Option String)) :
    Form → Record → Prop
  | start (s : Start) : Gives block ref words .start (.start s)
  | node (id : String) (n : Node) : Gives block ref words .node (.node id n)
  | property (name : String) (p : Property) : Gives block ref words .property (.property name p)
  | path (source target : String) (p : Path) :
    Gives block ref words .path (.path source target p)
  | action {a : Action} (hr : a.ref = ref) : Gives block ref words .action (.action a)
  | boring (case : BoringCase) (message : String) :
    Gives block ref words .boring (.boring case message)
  | item {id : String} (hi : Wording.named words = some id) (label : String)
    (appendix : Option String) : Gives block ref words .item (.item id label appendix)
  | modifier {name : String} (hn : Wording.named words = some name) :
    Gives block ref words .modifier (.modifier name)
  | behavior {id : String} (hi : block.or (Wording.named (Wording.affirmed words)) = some id)
    {category : Category} {count : Option Nat} {b : Behavior} (hr : b.ref = some ref) :
    Gives block ref words (.behavior category count) (.behavior id category b)
  | location {id : String} (hi : block.or (Wording.named words) = some id) (p : Placement) :
    Gives block ref words .location (.location id p)
  | resources {id : String} (hi : block.or (Wording.named words) = some id)
    (nodes : List String) : Gives block ref words .resources (.resources id nodes)

theorem Gives.region {block : Option String} {ref : Nat} {words : List (Option String)}
    {f : Form} {r : Record} (h : Gives block ref words f r) :
    f.region? block words = some r.region := by
  cases h with
  | item hi => simp [region?, Record.region, hi]
  | modifier hn => simp [region?, Record.region, hn]
  | behavior hi => simp only [region?, hi, Option.map_some, Record.region]
  | location hi => simp only [region?, hi, Option.map_some, Record.region]
  | resources hi => simp only [region?, hi, Option.map_some, Record.region]
  | _ => rfl

end Form

namespace Entry

variable {line rest : Line} {block : Option String} {ref : Nat} {r : Record}

theorem named_of_need {wanted : Wanted} {name : String}
    (h : need word? wanted line = .ok (name, rest)) : Wording.named line.words = some name := by
  obtain ⟨o, mid, hword, hneed⟩ := bind_ok h
  cases o with
  | none => cases hneed
  | some w =>
    cases hneed
    obtain ⟨t, rfl, ht⟩ := cons_of_take? hword
    exact congrArg Option.join (congrArg some ht)

theorem named_of_itemOr {id : String} (h : itemOr block line = .ok (id, rest)) :
    block.or (Wording.named line.words) = some id := by
  cases block with
  | none => exact named_of_need h
  | some id' =>
    cases h
    rfl

theorem keyword_of_eq {name : String} {t : Token} (h : t.content = .word name) (rest : Line) :
    keyword name (t :: rest) = .ok (true, rest) := by
  simp [keyword, Line.eatOne, h, Slot.accepts]

theorem keyword_of_ne {name : String}
    (h : ∀ t ∈ line.head?, t.content ≠ .word name) : keyword name line = .ok (false, line) := by
  cases line with
  | nil => rfl
  | cons t line =>
    have ha : (Slot.word name).accepts t.content = false := by
      have hne := h t rfl
      cases hc : t.content <;> simp_all [Slot.accepts]
    simp [keyword, Line.eatOne, ha]

/-- A word that is looked for in front is taken, or the line is left as it is. -/
theorem affirmed_of_keyword {b : Bool} (h : keyword "no" line = .ok (b, rest)) :
    Wording.affirmed line.words = rest.words := by
  cases line with
  | nil =>
    cases h
    rfl
  | cons t line =>
    by_cases ht : t.content = .word "no"
    · rw [keyword_of_eq ht] at h
      cases h
      simp [Line.words, ht, Content.word?, Wording.affirmed]
    · have hw : t.content.word? ≠ some "no" := fun hw => ht (content_of_word? hw)
      -- the line is left as it is, and there is no negation in front of its words either
      rw [keyword_of_ne (by simpa using ht)] at h
      cases h
      simp only [Line.words, List.map_cons]
      unfold Wording.affirmed
      split
      · rename_i heq
        exact absurd (List.cons.inj heq).1 hw
      · rfl

/-- What comes of the rest of a line when its first reader has given its value. -/
theorem Yields.of_bind {x : Entry α} {k : α → Entry β} {P : β → Prop} {b : β}
    (h : (x >>= k) line = .ok (b, rest))
    (hk : ∀ a mid, x line = .ok (a, mid) → Yields P (k a)) : P b := by
  obtain ⟨a, mid, ha, hb⟩ := bind_ok h
  exact hk a mid ha mid _ hb

open Form (Gives)

theorem gives_action (h : action ref line = .ok (r, rest)) :
    Gives block ref line.words .action r := by
  have hy : Yields (Gives block ref line.words .action) (action ref) := by
    refine .bind fun trigger => .bind fun label => .bind fun message => .bind fun mods => ?_
    cases trigger with
    | node id => exact .pure (.action rfl)
    | condition cond =>
      by_cases hnone : (message.isNone && mods.isEmpty) = true
      · simp only [hnone, if_true]
        exact .bind fun _ => .pure (.action rfl)
      · simp only [hnone]
        exact .pure (.action rfl)
  exact hy line _ h

theorem gives_behavior {category : Category} {count : Option Nat}
    (h : behavior category block count ref line = .ok (r, rest)) :
    Gives block ref line.words (.behavior category count) r := by
  obtain ⟨negated, mid, hno, h⟩ := bind_ok h
  refine Yields.of_bind h fun id left hid => .bind fun target => .bind fun cond =>
    .bind fun message => .bind fun mods => .pure (.behavior ?_ rfl)
  rw [affirmed_of_keyword hno]
  exact named_of_itemOr hid

theorem reactions_eq (id : String) (ref : Nat) (line : Line) :
    reactions id ref line =
      .ok (((boringWords line).1.map (Record.reaction id ref), ref), (boringWords line).2) :=
  rfl

/-- Every reader gives a record of its form. -/
theorem gives {f : Form} (h : f.reader block ref line = .ok (r, rest)) :
    Gives block ref line.words f r := by
  cases f with
  | start => exact Yields.of_bind h fun _ _ _ => .bind fun _ => .pure (.start _)
  | node => exact Yields.of_bind h fun _ _ _ => .bind fun _ => .bind fun _ => .pure (.node ..)
  | property =>
    exact Yields.of_bind h fun _ _ _ => .bind fun _ => .bind fun _ => .pure (.property ..)
  | path =>
    exact Yields.of_bind h fun _ _ _ => .bind fun _ => .bind fun _ => .bind fun _ =>
      .pure (.path ..)
  | action => exact gives_action h
  | boring => exact Yields.of_bind h fun _ _ _ => .bind fun _ => .pure (.boring ..)
  | item =>
    exact Yields.of_bind h fun _ _ hid => .bind fun _ => .bind fun _ =>
      .pure (.item (named_of_need hid) _ _)
  | modifier => exact Yields.of_bind h fun _ _ hname => .pure (.modifier (named_of_need hname))
  | behavior category count => exact gives_behavior h
  | location =>
    exact Yields.of_bind h fun _ _ hid => .bind fun _ => .pure (.location (named_of_itemOr hid) _)
  | resources =>
    exact Yields.of_bind h fun _ _ hid => .bind fun _ => .pure (.resources (named_of_itemOr hid) _)

end Entry

namespace Read

variable {setting : Setting} {subject : String}

/-- An entry is read from its line, at the place where it begins. -/
theorem line_of_entry {reader : Nat → Entry α} {a : α} {left : Line} {c d : Cursor}
    (h : Read.entry setting subject reader c = .ok (a, left) d) :
    ∃ line, Read.line setting (c.note subject) = .ok line d ∧
      reader c.pos line = .ok (a, left) := by
  obtain ⟨ref, c', hbegin, h⟩ := bind_eq_ok.1 h
  cases hbegin
  obtain ⟨line, d', hline, h⟩ := bind_eq_ok.1 h
  cases hr : reader c.pos line with
  | error complaint =>
    simp only [hr] at h
    cases h
  | ok p =>
    simp only [hr] at h
    cases h
    exact ⟨line, hline, hr⟩

theorem entry_of_line {reader : Nat → Entry α} {p : α × Line} {line : Line} {c d : Cursor}
    (h : Read.line setting (c.note subject) = .ok line d) (hr : reader c.pos line = .ok p) :
    Read.entry setting subject reader c = .ok p d := by
  refine bind_eq_ok.2 ⟨_, _, rfl, bind_eq_ok.2 ⟨line, d, h, ?_⟩⟩
  simp only [hr]
  rfl

/-- What comes of a reader does not hang on where the text stands. -/
theorem Moves.ofText {x : Read α} {R : α → α → Prop} (hx : Moves .blind R x x) {a : α}
    {c d : Cursor} (h : x c = .ok a d) :
    ∃ b e, x (.ofText c.rest) = .ok b e ∧ R a b ∧ e.rest = d.rest := by
  have hm : Agrees _ _ _ (x c) (x (.ofText c.rest)) := hx c (.ofText c.rest) (.blind rfl)
  rw [h] at hm
  cases hk : x (.ofText c.rest) with
  | error fault e =>
    rw [hk] at hm
    cases hm
  | ok b e =>
    rw [hk] at hm
    cases hm with
    | ok hv hc => exact ⟨b, e, rfl, hv, hc.rest.symm⟩

theorem first_ofText {c d : Cursor} {p : Nat × Category} (h : Read.first c = .ok p d) :
    ∃ e, Read.first (.ofText c.rest) = .ok p e ∧ e.rest = d.rest := by
  obtain ⟨q, e, he, rfl, hrest⟩ := Moves.first.ofText h
  exact ⟨e, he, hrest⟩

/-- The words of the line at the beginning of a text; of a line that cannot be read, none. -/
def words (setting : Setting) (text : List Char) : List (Option String) :=
  match Read.line setting (.ofText text) with
  | .ok line _ => line.words
  | .error .. => []

theorem words_of_line {c d : Cursor} {line : Line} (h : Read.line setting c = .ok line d) :
    words setting c.rest = line.words := by
  obtain ⟨line', e, he, hl, -⟩ := (Moves.line setting).ofText h
  have hwords : ∀ l : Line, l.words = (l.relocate Views.blind.left).words := by
    intro l
    simp [Line.words, Line.relocate, Token.relocate]
  simp only [words, he]
  exact (hwords line').trans ((congrArg Line.words hl.symm).trans (hwords line).symm)

theorem gives_of_entry {f : Form} {block : Option String} {r : Record} {unused : Line}
    {c d : Cursor} (h : Read.entry setting f.subject (f.reader block) c = .ok (r, unused) d) :
    f.Gives block c.pos (words setting c.rest) r := by
  obtain ⟨line, hline, hr⟩ := line_of_entry h
  have hw : words setting c.rest = line.words := words_of_line (c := c.note f.subject) hline
  exact hw ▸ Entry.gives hr

theorem reaction_of_entry {id : String} {rs : List Record} {ref : Nat} {left : Line}
    {c d : Cursor} (h : Read.entry setting "boring" (Entry.reactions id) c =
      .ok ((rs, ref), left) d) : ∀ r ∈ rs, ∃ word, r = Record.reaction id c.pos word := by
  intro r hr
  obtain ⟨line, -, hline⟩ := line_of_entry h
  cases hline
  obtain ⟨word, -, rfl⟩ := List.mem_map.1 hr
  exact ⟨word, rfl⟩

end Read
end Gamebook
