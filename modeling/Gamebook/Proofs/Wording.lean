import Gamebook.Proofs.Offsets

/-!
The wording of records and commands: the contents that stand on their line, and that the
readers of tokens make the same records and commands of them again, with no token left.
-/
namespace Gamebook

namespace Entry

/-- Off a line with these contents the reader makes `a`, and the contents of the tokens it
leaves are `left`. -/
def Reads (x : Entry α) (contents : List Content) (a : α) (left : List Content) : Prop :=
  ∀ line : Line, line.map Token.content = contents →
    ∃ rest, x line = .ok (a, rest) ∧ rest.map Token.content = left

namespace Reads

variable {cs ds es : List Content}

theorem pure {a : α} : Reads (Pure.pure a) cs a cs :=
  fun line h => ⟨line, rfl, h⟩

theorem bind {x : Entry α} {f : α → Entry β} {a : α} {b : β} (hx : Reads x cs a ds)
    (hf : Reads (f a) ds b es) : Reads (x >>= f) cs b es := by
  intro line hline
  obtain ⟨rest, hrest, hds⟩ := hx line hline
  obtain ⟨last, hlast, hes⟩ := hf rest hds
  refine ⟨last, ?_, hes⟩
  change (x line >>= fun p => f p.1 p.2) = _
  rw [hrest]
  exact hlast

theorem eatOne (slot : Slot) {c : Content} (h : slot.accepts c = true) {line : Line}
    (hline : line.map Token.content = c :: cs) :
    ∃ rest, line.eatOne slot = (some c, rest) ∧ rest.map Token.content = cs := by
  obtain ⟨t, rest, rfl, rfl, hrest⟩ := List.map_eq_cons_iff.1 hline
  exact ⟨rest, by simp [Line.eatOne, h], hrest⟩

theorem eatOne_none {slot : Slot} (h : ∀ c ∈ cs.head?, slot.accepts c = false) {line : Line}
    (hline : line.map Token.content = cs) : line.eatOne slot = (none, line) := by
  cases line with
  | nil => rfl
  | cons t line =>
    have ht := h t.content (by simp [← hline])
    simp [Line.eatOne, ht]

theorem take? {kind : TokenKind} {value? : Content → Option α} {c : Content} {a : α}
    (hk : c.kind = kind) (hv : value? c = some a) :
    Reads (Entry.take? kind value?) (c :: cs) (some a) cs := by
  intro line hline
  obtain ⟨rest, hrest, hcs⟩ := eatOne (.kind kind) (by simp [Slot.accepts, hk]) hline
  exact ⟨rest, by simp [Entry.take?, hrest, hv], hcs⟩

/-- A token that may be missing, where none of its kind follows. -/
theorem optional {kind : TokenKind} {value? : Content → Option α} (make : α → Content)
    (hk : ∀ a, (make a).kind = kind) (hv : ∀ a, value? (make a) = some a) (o : Option α)
    (h : ∀ c ∈ cs.head?, c.kind ≠ kind) :
    Reads (Entry.take? kind value?) ((o.map make).toList ++ cs) o cs := by
  cases o with
  | some a => exact take? (hk a) (hv a)
  | none =>
    intro line hline
    have hnone : ∀ c ∈ cs.head?, (Slot.kind kind).accepts c = false := by
      intro c hc
      simpa [Slot.accepts] using h c hc
    exact ⟨line, by simp [Entry.take?, eatOne_none hnone hline], hline⟩

theorem need {x : Entry (Option α)} {a : α} (hx : Reads x cs (some a) ds) (wanted : Wanted) :
    Reads (Entry.need x wanted) cs a ds :=
  hx.bind .pure

theorem word? {name : String} : Reads Entry.word? (.word name :: cs) (some name) cs :=
  take? rfl rfl

theorem word {name : String} {wanted : Wanted} :
    Reads (Entry.need Entry.word? wanted) (.word name :: cs) name cs :=
  word?.need wanted

theorem string {s : String} {wanted : Wanted} :
    Reads (Entry.need Entry.string? wanted) (.string s :: cs) s cs :=
  need (x := Entry.string?) (take? rfl rfl) wanted

end Reads

/-- A word that is there or not. -/
def flag (name : String) (given : Bool) : List Content := if given then [.word name] else []

namespace Reads

variable {cs : List Content}

theorem keyword {name : String} (given : Bool)
    (h : given = false → ∀ c ∈ cs.head?, c ≠ .word name) :
    Reads (Entry.keyword name) (flag name given ++ cs) given cs := by
  intro line hline
  cases given with
  | true =>
    obtain ⟨rest, hrest, hcs⟩ := eatOne (.word name) (by simp [Slot.accepts]) hline
    exact ⟨rest, by simp [Entry.keyword, hrest], hcs⟩
  | false =>
    have hnone : ∀ c ∈ cs.head?, (Slot.word name).accepts c = false := by
      intro c hc
      have hne := h rfl c hc
      cases c <;> simp_all [Slot.accepts]
    exact ⟨line, by simp [Entry.keyword, eatOne_none hnone hline], hline⟩

theorem words (names : List String) : Reads Entry.words (names.map .word) names [] := by
  intro line hline
  have h : line.eatAll (.kind .word) = (names.map .word, []) := by
    induction line generalizing names with
    | nil =>
      rw [← hline]
      rfl
    | cons t line ih =>
      obtain ⟨name, names, rfl, hname, hnames⟩ := List.map_eq_cons_iff.1 hline.symm
      simp [Line.eatAll, ← hname, ih names hnames.symm, Slot.accepts, Content.kind]
  refine ⟨[], ?_, rfl⟩
  simp [Entry.words, h, List.filterMap_map, Function.comp_def, Content.word?]

theorem string? (o : Option String) (h : ∀ c ∈ cs.head?, c.kind ≠ .string) :
    Reads Entry.string? ((o.map .string).toList ++ cs) o cs :=
  optional .string (fun _ => rfl) (fun _ => rfl) o h

theorem expression? (o : Option Expr) (h : ∀ c ∈ cs.head?, c.kind ≠ .expression) :
    Reads Entry.expression? ((o.map .expression).toList ++ cs) o cs :=
  optional .expression (fun _ => rfl) (fun _ => rfl) o h

/-- A token at the end of the line that may be missing. -/
theorem optional_last {kind : TokenKind} {value? : Content → Option α} (make : α → Content)
    (hk : ∀ a, (make a).kind = kind) (hv : ∀ a, value? (make a) = some a) (o : Option α) :
    Reads (Entry.take? kind value?) (o.map make).toList o [] := by
  rw [← List.append_nil (o.map make).toList]
  exact optional make hk hv o nofun

theorem range?_last (o : Option Range) : Reads Entry.range? (o.map .range).toList o [] :=
  optional_last .range (fun _ => rfl) (fun _ => rfl) o

theorem string?_last (o : Option String) : Reads Entry.string? (o.map .string).toList o [] :=
  optional_last .string (fun _ => rfl) (fun _ => rfl) o

end Reads
end Entry

def Trigger.content : Trigger → Content
  | condition cond => .expression cond
  | node id => .word id

def Place.word : Place → String
  | nowhere => "no"
  | player => "player"
  | node id => id

/-- A message and the modifiers that are run with it. -/
def Content.effect (message : Option String) (mods : List String) : List Content :=
  (message.map .string).toList ++ mods.map .word

/-- What an item is used on. -/
def Content.target : Option String → List Content
  | some name => [.word "on", .word name]
  | none => []

/-- What the line of a record says behind its keyword. -/
def Record.contents : Record → List Content
  | start s => [.string s.message, .word s.node]
  | node id n => Entry.flag "final" n.final ++ [.word id, .string n.message]
  | property name p => .word name :: .string p.label :: (p.range.map .range).toList
  | path source target p => .word source :: .string p.label :: .word target :: p.mods.map .word
  | action a => a.trigger.content :: .string a.label :: Content.effect a.message a.mods
  | behavior id _ b =>
    Entry.flag "no" b.negated ++ .word id ::
      (Content.target b.target ++
        ((b.cond.map .expression).toList ++ Content.effect b.message b.mods))
  | resources id nodes => .word id :: nodes.map .word
  | location id p => [.word id, .word p.place.word]
  | item id label appendix => .word id :: .string label :: (appendix.map .string).toList
  | modifier name => [.word name]
  | boring .. | directive .. | definition _ => []

/-- The record as it is read at a place. -/
def Record.placed (ref : Nat) : Record → Record
  | behavior id category b => behavior id category { b with ref := some ref }
  | r => r.relocate fun _ => ref

/-- The readers find what the record says: no name is taken for a word that has a meaning
in its place, only using an item has a target, and a condition leads to something. -/
def Record.Clear : Record → Prop
  | node id n => n.final = false → id ≠ "final"
  | action a => ∀ cond, a.trigger = .condition cond → a.message ≠ none ∨ a.mods ≠ []
  | behavior id category b =>
    (b.negated = false → id ≠ "no") ∧ (category ≠ .use → b.target = none) ∧
      (category = .use → b.target = none → b.cond = none → b.message = none →
        b.mods.head? ≠ some "on")
  | location _ p => ∀ id, p.place = .node id → id ∉ ["no", "player"]
  | _ => True

namespace Entry.Reads

theorem start (s : Start) (ref : Nat) :
    Reads (Entry.start ref) (Record.start s).contents ((Record.start s).placed ref) [] :=
  bind string (bind word pure)

theorem node {id : String} {n : Node} (h : (Record.node id n).Clear) (ref : Nat) :
    Reads (Entry.node ref) (Record.node id n).contents ((Record.node id n).placed ref) [] := by
  have hf : n.final = false → ∀ c ∈ [Content.word id, .string n.message].head?,
      c ≠ .word "final" := by
    intro hn
    simpa using h hn
  exact bind (keyword n.final hf) (bind word (bind string pure))

theorem property (name : String) (p : Property) (ref : Nat) :
    Reads (Entry.property ref) (Record.property name p).contents
      ((Record.property name p).placed ref) [] := by
  have hname {cs : List Content} : Reads Entry.propertyName (.word name :: cs) name cs :=
    bind (optional .variableName (fun _ => rfl) (fun _ => rfl) none (by simp [Content.kind])) word
  exact bind hname (bind string (bind (range?_last _) pure))

theorem path (source target : String) (p : Path) (ref : Nat) :
    Reads (Entry.path ref) (Record.path source target p).contents
      ((Record.path source target p).placed ref) [] :=
  bind word (bind string (bind word (bind (words _) pure)))

theorem trigger (t : Trigger) {cs : List Content} :
    Reads Entry.trigger (t.content :: cs) t cs := by
  cases t with
  | condition cond => exact bind (take? rfl rfl) pure
  | node id =>
    exact bind (expression? none (by simp [Trigger.content, Content.kind])) (bind word pure)

theorem action {a : Action} (h : (Record.action a).Clear) (ref : Nat) :
    Reads (Entry.action ref) (Record.action a).contents ((Record.action a).placed ref) [] := by
  obtain ⟨trigger, label, message, mods, _⟩ := a
  refine bind (.trigger trigger) (bind string (bind (string? _ ?_) (bind (words _) ?_)))
  · simp [Content.kind]
  cases trigger with
  | node id => exact pure
  | condition cond =>
    have heffect : (message.isNone && mods.isEmpty) = false := by
      have := h cond rfl
      cases message <;> simp_all
    simp only [heffect]
    exact pure

theorem target {category : Category} {target : Option String} {cs : List Content}
    (h : category ≠ .use → target = none)
    (hon : category = .use → target = none → ∀ c ∈ cs.head?, c ≠ .word "on") :
    Reads (Entry.target category) (Content.target target ++ cs) target cs := by
  by_cases hc : category = .use
  · subst hc
    cases target with
    | none => exact bind (keyword false fun _ => hon rfl rfl) pure
    | some name => exact bind (keyword true nofun) (bind word pure)
  · rw [h hc]
    cases category with
    | use => exact absurd rfl hc
    | pick | check | lay => exact pure

theorem behavior {id : String} {category : Category} {b : Behavior}
    (h : (Record.behavior id category b).Clear) (ref : Nat) :
    Reads (Entry.behavior category none b.count ref) (Record.behavior id category b).contents
      ((Record.behavior id category b).placed ref) [] := by
  obtain ⟨hno, htarget, hon⟩ := h
  obtain ⟨cond, message, mods, count, negated, target, _⟩ := b
  refine bind (keyword negated ?_) (bind word (bind (.target htarget ?_)
    (bind (expression? cond ?_) (bind (string? message ?_) (bind (words mods) pure)))))
  · intro hn
    simpa using hno hn
  · intro hc ht
    cases cond <;> cases message <;> cases mods <;> simp_all [Content.effect]
  · cases message <;> simp [Content.effect, Content.kind]
  · simp [Content.kind]

theorem resources (id : String) (nodes : List String) (ref : Nat) :
    Reads (Entry.resources none ref) (Record.resources id nodes).contents
      ((Record.resources id nodes).placed ref) [] :=
  bind word (bind (words _) pure)

theorem place {p : Place} (h : ∀ id, p = .node id → id ∉ ["no", "player"]) :
    Reads Entry.place [.word p.word] p [] := by
  cases p with
  | nowhere => exact bind (keyword true nofun) pure
  | player =>
    exact bind (keyword false (by simp [Place.word])) (bind (keyword true nofun) pure)
  | node id =>
    have hid := h id rfl
    simp only [List.mem_cons, List.not_mem_nil, or_false, not_or] at hid
    exact bind (keyword false (by simpa [Place.word] using hid.1))
      (bind (keyword false (by simpa [Place.word] using hid.2)) (bind word pure))

theorem location {id : String} {p : Placement} (h : (Record.location id p).Clear) (ref : Nat) :
    Reads (Entry.location none ref) (Record.location id p).contents
      ((Record.location id p).placed ref) [] :=
  bind word (bind (place h) pure)

theorem item (id label : String) (appendix : Option String) (ref : Nat) :
    Reads (Entry.item ref) (Record.item id label appendix).contents
      ((Record.item id label appendix).placed ref) [] :=
  bind word (bind string (bind (string?_last _) pure))

theorem modifier (name : String) (ref : Nat) :
    Reads (Entry.modifier ref) (Record.modifier name).contents
      ((Record.modifier name).placed ref) [] :=
  bind word pure

end Entry.Reads

/-- What the line of a command says behind its keyword. -/
def Command.arguments : Command → List Content
  | message text => [.string text]
  | addItem item node => (node.map .word).toList ++ [.word item]
  | delItem item => [.word item]
  | setItem item label appendix => .word item :: .string label :: (appendix.map .string).toList
  | addResource item node | delResource item node => [.word item, .word node]
  | setNode node text => [.word node, .string text]
  | addPath source label target => [.word source, .string label, .word target]
  | delPath source target => [.word source, .word target]
  | teleport node => [.word node]
  | callMod modifier cond => (cond.map .expression).toList ++ [.word modifier]
  | skip count => [.number (.int count)]
  | .return | setVariable _ => []

namespace Entry.Reads

theorem addItem (item : String) (node : Option String) :
    Reads Entry.addItem (Command.addItem item node).arguments (.addItem item node) [] := by
  cases node with
  | some node => exact bind word (bind word? pure)
  | none =>
    have hw : Reads Entry.word? [] none [] :=
      optional_last .word (fun _ => rfl) (fun _ => rfl) none
    exact bind word (bind hw pure)

/-- Any command but a definition is read back from its keyword and its arguments. -/
theorem command {c : Command} (h : ∀ v, c ≠ .setVariable v) :
    Reads Entry.command (.word c.keyword :: c.arguments) c [] := by
  refine bind word? ?_
  cases c with
  | message text => exact bind string pure
  | addItem item node => exact addItem item node
  | delItem item => exact bind word pure
  | setItem item label appendix => exact bind word (bind string (bind (string?_last _) pure))
  | addResource item node => exact bind word (bind word pure)
  | delResource item node => exact bind word (bind word pure)
  | setNode node message => exact bind word (bind string pure)
  | addPath source label target => exact bind word (bind string (bind word pure))
  | delPath source target => exact bind word (bind word pure)
  | teleport node => exact bind word pure
  | callMod modifier cond => exact bind (expression? cond (by simp [Content.kind])) (bind word pure)
  | skip count =>
    have hn : Reads Entry.number? [.number (.int count)] (some (.int count)) [] := take? rfl rfl
    exact bind hn pure
  | «return» => exact pure
  | setVariable v => exact absurd rfl (h v)

end Entry.Reads
end Gamebook
