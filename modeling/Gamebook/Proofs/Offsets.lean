import Gamebook.Proofs.Relocation
import Gamebook.Script.Progress

/-!
Offsets in records and documents. They are carried along and never looked at: adding
a record to a document, the warnings about it, and reading it off a line of tokens do
not depend on them. So a document may be moved as a whole, or stripped of its offsets,
before or after.
-/
namespace Gamebook

namespace Table

variable {κ α β : Type}

/-- Change the values and keep the keys. -/
def map (g : α → β) (t : Table κ α) : Table κ β :=
  ⟨t.entries.map fun e => (e.1, g e.2), by simpa [Function.comp_def] using t.nodup⟩

theorem ext_entries {t u : Table κ α} (h : t.entries = u.entries) : t = u := by
  cases t
  cases u
  cases h
  rfl

@[simp] theorem map_empty (g : α → β) : (empty : Table κ α).map g = empty := rfl

variable [DecidableEq κ]

theorem lookup_map (g : α → β) (k : κ) (entries : List (κ × α)) :
    (entries.map fun e => (e.1, g e.2)).lookup k = (entries.lookup k).map g := by
  induction entries with
  | nil => rfl
  | cons e entries ih =>
    obtain ⟨k', v⟩ := e
    simp only [List.map_cons, List.lookup_cons]
    cases k == k' <;> simp [ih]

@[simp] theorem get?_map (g : α → β) (t : Table κ α) (k : κ) :
    (t.map g).get? k = (t.get? k).map g := lookup_map g k t.entries

@[simp] theorem contains_map (g : α → β) (t : Table κ α) (k : κ) :
    (t.map g).contains k = t.contains k := by
  simp [contains]

theorem put_map (g : α → β) (k : κ) (v : α) (entries : List (κ × α)) :
    (put k v entries).map (fun e => (e.1, g e.2)) =
      put k (g v) (entries.map fun e => (e.1, g e.2)) := by
  induction entries with
  | nil => rfl
  | cons e entries ih =>
    obtain ⟨k', v'⟩ := e
    simp only [put, List.map_cons]
    split
    · rfl
    · simp [ih]

theorem insert_map (g : α → β) (t : Table κ α) (k : κ) (v : α) :
    (t.insert k v).map g = (t.map g).insert k (g v) :=
  ext_entries (put_map g k v t.entries)

theorem update_map (g : α → β) (f : α → α) (f' : β → β) (h : ∀ a, g (f a) = f' (g a))
    (t : Table κ α) (k : κ) (fallback : α) :
    (t.update k fallback f).map g = (t.map g).update k (g fallback) f' := by
  simp only [update, insert_map, get?_map, h]
  cases t.get? k <;> rfl

end Table

section Values

variable (f : Nat → Nat)

def Definition.relocate (v : Definition) : Definition := { v with ref := f v.ref }
def Property.relocate (p : Property) : Property := { p with ref := f p.ref }
def Node.relocate (n : Node) : Node := { n with ref := f n.ref }
def Path.relocate (p : Path) : Path := { p with ref := f p.ref }
def Start.relocate (s : Start) : Start := { s with ref := f s.ref }
def Action.relocate (a : Action) : Action := { a with ref := f a.ref }
def Behavior.relocate (b : Behavior) : Behavior := { b with ref := b.ref.map f }
def Placement.relocate (p : Placement) : Placement := { p with ref := f p.ref }

def Item.relocate (i : Item) : Item :=
  { i with
    pick := i.pick.map (Behavior.relocate f)
    check := i.check.map (Behavior.relocate f)
    use := i.use.map (Behavior.relocate f)
    lay := i.lay.map (Behavior.relocate f)
    location := i.location.map (Placement.relocate f) }

def Command.relocate : Command → Command
  | setVariable v => setVariable (v.relocate f)
  | c => c

def Directive.relocate (d : Directive) : Directive :=
  { d with command := d.command.relocate f, ref := f d.ref }

def Document.relocate (d : Document) : Document where
  definitions := d.definitions.map (Definition.relocate f)
  properties := d.properties.map (Property.relocate f)
  nodes := d.nodes.map (Node.relocate f)
  edges := d.edges.map (Table.map (Path.relocate f))
  items := d.items.map (Item.relocate f)
  modifiers := d.modifiers.map (List.map (Directive.relocate f))
  boring := d.boring
  actions := d.actions.map (Action.relocate f)
  start := d.start.map (Start.relocate f)

def Record.relocate : Record → Record
  | start s => start (s.relocate f)
  | node id n => node id (n.relocate f)
  | property name p => property name (p.relocate f)
  | path source target p => path source target (p.relocate f)
  | action a => action (a.relocate f)
  | behavior id category b => behavior id category (b.relocate f)
  | location id p => location id (p.relocate f)
  | directive name d => directive name (d.relocate f)
  | definition v => definition (v.relocate f)
  | r => r

def Token.relocate (t : Token) : Token := { t with offset := f t.offset }

def Line.relocate (line : Line) : Line := line.map (Token.relocate f)

def Warning.relocate : Warning → Warning
  | trailing record tokens => trailing record (tokens.relocate f)
  | w => w

def Event.relocate : Event → Event
  | note n => note (n.relocate f)
  | record r => record (r.relocate f)
  | warning w => warning (w.relocate f)

end Values

variable {f g : Nat → Nat}

namespace Item

theorem addBehavior_relocate (i : Item) (b : Behavior) (category : Category) :
    (i.addBehavior b category).relocate f = (i.relocate f).addBehavior (b.relocate f) category := by
  cases category <;> simp [addBehavior, relocate]

theorem addResource_relocate (i : Item) (node : String) :
    (i.addResource node).relocate f = (i.relocate f).addResource node := by
  have hr : (i.relocate f).resources = i.resources := rfl
  simp only [addResource, hr]
  split <;> rfl

theorem addResources_relocate (i : Item) (nodes : List String) :
    (nodes.foldl addResource i).relocate f = nodes.foldl addResource (i.relocate f) := by
  induction nodes generalizing i with
  | nil => rfl
  | cons node nodes ih => rw [List.foldl_cons, List.foldl_cons, ih, addResource_relocate]

end Item

namespace Document

theorem updateItem_relocate (d : Document) (id : String) {h h' : Item → Item}
    (hh : ∀ i, (h i).relocate f = h' (i.relocate f)) :
    (d.updateItem id h).relocate f = (d.relocate f).updateItem id h' := by
  simp only [updateItem, relocate, Table.update_map (Item.relocate f) h h' hh]
  rfl

/-- A record may be moved before it is added or after. -/
theorem add_relocate (d : Document) (r : Record) :
    (d.add r).relocate f = (d.relocate f).add (r.relocate f) := by
  cases r with
  | start s => rfl
  | node id n => simp [add, relocate, Record.relocate, Table.insert_map]
  | property name p => simp [add, relocate, Record.relocate, Table.insert_map]
  | path source target p =>
    have h := Table.update_map (Table.map (Path.relocate f)) (·.insert target p)
      (·.insert target (p.relocate f)) (fun t => Table.insert_map _ t target p) d.edges source .empty
    simp only [add, relocate, Record.relocate, h, Table.map_empty]
  | action a => simp [add, relocate, Record.relocate]
  | behavior id category b =>
    exact d.updateItem_relocate id fun i => i.addBehavior_relocate b category
  | resources id nodes => exact d.updateItem_relocate id fun i => i.addResources_relocate nodes
  | location id p => exact d.updateItem_relocate id fun i => rfl
  | boring => rfl
  | item id label appendix => exact d.updateItem_relocate id fun i => rfl
  | modifier name =>
    have h := Table.update_map (List.map (Directive.relocate f)) id id (fun _ => rfl)
      d.modifiers name []
    simp only [add, relocate, Record.relocate, h, List.map_nil]
  | directive name directive =>
    have h := Table.update_map (List.map (Directive.relocate f)) (· ++ [directive])
      (· ++ [directive.relocate f]) (by simp) d.modifiers name []
    simp only [add, relocate, Record.relocate, h, List.map_nil]
  | definition v =>
    simp only [add, relocate, Record.relocate, Table.insert_map]
    rfl

/-- What a record replaces does not depend on offsets. -/
theorem warning?_relocate (d : Document) (r : Record) :
    (d.relocate f).warning? (r.relocate f) = d.warning? r := by
  cases r with
  | node id n => simp [warning?, relocate, Record.relocate]
  | property name p => simp [warning?, relocate, Record.relocate]
  | path source target p =>
    have h : (d.relocate f).hasPath source target = d.hasPath source target := by
      simp only [hasPath, relocate, Table.get?_map]
      cases d.edges.get? source <;> simp
    simp only [warning?, Record.relocate, h]
  | item id label appendix =>
    simp only [warning?, relocate, Record.relocate, Table.get?_map]
    cases d.items.get? id <;> rfl
  | _ => rfl

theorem start_relocate (d : Document) : (d.relocate f).start.isSome = d.start.isSome := by
  simp [relocate]

end Document

theorem Record.label_relocate (r : Record) : (r.relocate f).label = r.label := by
  cases r with
  | directive name d =>
    obtain ⟨command, cond, ref⟩ := d
    cases command <;> rfl
  | _ => rfl

theorem Record.trailing?_relocate (r : Record) (line : Line) :
    (r.relocate f).trailing? (line.relocate f) = (r.trailing? line).map (Warning.relocate f) := by
  cases line with
  | nil => rfl
  | cons t line => exact congrArg some (by rw [label_relocate]; rfl)

theorem Record.relocate_relocate (r : Record) :
    (r.relocate f).relocate g = r.relocate fun n => g (f n) := by
  cases r with
  | directive name d =>
    obtain ⟨command, cond, ref⟩ := d
    cases command <;> rfl
  | behavior id category b =>
    obtain ⟨cond, message, mods, count, negated, target, ref⟩ := b
    cases ref <;> rfl
  | _ => rfl

theorem Record.relocate_id (r : Record) : r.relocate (fun n => n) = r := by
  cases r with
  | directive name d =>
    obtain ⟨command, cond, ref⟩ := d
    cases command <;> rfl
  | behavior id category b =>
    obtain ⟨cond, message, mods, count, negated, target, ref⟩ := b
    cases ref <;> rfl
  | _ => rfl

theorem Event.relocate_id (e : Event) : e.relocate (fun n => n) = e := by
  cases e with
  | note n => rfl
  | record r => exact congrArg Event.record r.relocate_id
  | warning w =>
    cases w with
    | trailing label line => exact congrArg (fun l => Event.warning (.trailing label l)) line.map_id
    | _ => rfl

theorem Event.map_relocate_id (events : List Event) :
    events.map (Event.relocate fun n => n) = events := by
  induction events with
  | nil => rfl
  | cons e events ih => rw [List.map_cons, e.relocate_id, ih]

/-- The text of a warning shows no offset. -/
theorem Warning.text_relocate (w : Warning) : (w.relocate f).text = w.text := by
  cases w with
  | trailing label line =>
    have hv : Line.values (line.relocate f) = line.values := by
      simp only [Line.values, Line.relocate, List.map_map]
      rfl
    simp only [text, message, relocate, hv]
    rfl
  | _ => rfl

namespace Entry

variable {f : Nat → Nat} {g : α → β}

/-- The second reader does with moved tokens what the first does with the tokens. -/
def Natural (f : Nat → Nat) (g : α → β) (x : Entry α) (y : Entry β) : Prop :=
  ∀ line : Line, y (line.relocate f) = (x line).map fun p => (g p.1, p.2.relocate f)

namespace Natural

theorem pure {a : α} {b : β} (h : g a = b) : Natural f g (Pure.pure a) (Pure.pure b) := by
  intro line
  subst h
  rfl

theorem refuse (complaint : Complaint) : Natural f g (Entry.refuse complaint)
    (Entry.refuse complaint) := fun _ => rfl

/-- A value without offsets is read the same. -/
theorem bind {x : Entry γ} {k : γ → Entry α} {k' : γ → Entry β} (hx : Natural f id x x)
    (hk : ∀ c, Natural f g (k c) (k' c)) : Natural f g (x >>= k) (x >>= k') := by
  intro line
  have h := hx line
  change (x (line.relocate f) >>= fun p => k' p.1 p.2) =
    (x line >>= fun p => k p.1 p.2).map fun p => (g p.1, p.2.relocate f)
  rw [h]
  cases x line with
  | error complaint => rfl
  | ok p => exact hk p.1 p.2

theorem ite {b : Bool} {x y : Entry α} {x' y' : Entry β} (hx : Natural f g x x')
    (hy : Natural f g y y') : Natural f g (if b then x else y) (if b then x' else y') := by
  cases b
  · exact hy
  · exact hx

theorem eatOne (slot : Slot) (line : Line) :
    (line.relocate f).eatOne slot = ((line.eatOne slot).1, (line.eatOne slot).2.relocate f) := by
  cases line with
  | nil => rfl
  | cons t line =>
    change Line.eatOne slot (t.relocate f :: Line.relocate f line) = _
    by_cases h : slot.accepts t.content = true
    · simp [Line.eatOne, Token.relocate, h]
    · simp only [Line.eatOne, Token.relocate, h]
      rfl

theorem eatAll (slot : Slot) (line : Line) :
    (line.relocate f).eatAll slot = ((line.eatAll slot).1, (line.eatAll slot).2.relocate f) := by
  induction line with
  | nil => rfl
  | cons t line ih =>
    change Line.eatAll slot (t.relocate f :: Line.relocate f line) = _
    simp only [Line.eatAll, Token.relocate, ih]
    split <;> rfl

theorem take? (kind : TokenKind) (value? : Content → Option α) :
    Natural f id (Entry.take? kind value?) (Entry.take? kind value?) := by
  intro line
  simp only [Entry.take?, eatOne]
  rfl

theorem keyword (name : String) : Natural f id (Entry.keyword name) (Entry.keyword name) := by
  intro line
  simp only [Entry.keyword, eatOne]
  rfl

theorem words : Natural f id Entry.words Entry.words := by
  intro line
  simp only [Entry.words, eatAll]
  rfl

theorem need {x : Entry (Option α)} (hx : Natural f id x x) (wanted : Wanted) :
    Natural f id (Entry.need x wanted) (Entry.need x wanted) := by
  refine .bind hx fun a => ?_
  split
  · exact .pure rfl
  · exact .refuse _

theorem itemOr (item : Option String) : Natural f id (Entry.itemOr item) (Entry.itemOr item) := by
  cases item with
  | some id => exact .pure rfl
  | none => exact .need (.take? _ _) _

theorem string? : Natural f id Entry.string? Entry.string? := .take? _ _
theorem number? : Natural f id Entry.number? Entry.number? := .take? _ _
theorem range? : Natural f id Entry.range? Entry.range? := .take? _ _
theorem word? : Natural f id Entry.word? Entry.word? := .take? _ _
theorem expression? : Natural f id Entry.expression? Entry.expression? := .take? _ _

theorem start (ref : Nat) :
    Natural f (Record.relocate f) (Entry.start ref) (Entry.start (f ref)) :=
  .bind (.need .string? _) fun _ => .bind (.need .word? _) fun _ => .pure rfl

theorem node (ref : Nat) : Natural f (Record.relocate f) (Entry.node ref) (Entry.node (f ref)) :=
  .bind (.keyword _) fun _ => .bind (.need .word? _) fun _ => .bind (.need .string? _) fun _ =>
    .pure rfl

theorem propertyName : Natural f id Entry.propertyName Entry.propertyName := by
  refine .bind (.take? _ _) fun name => ?_
  split
  · exact .pure rfl
  · exact .need .word? _

theorem property (ref : Nat) :
    Natural f (Record.relocate f) (Entry.property ref) (Entry.property (f ref)) :=
  .bind .propertyName fun _ => .bind (.need .string? _) fun _ => .bind .range? fun _ => .pure rfl

theorem path (ref : Nat) : Natural f (Record.relocate f) (Entry.path ref) (Entry.path (f ref)) :=
  .bind (.need .word? _) fun _ => .bind (.need .string? _) fun _ => .bind (.need .word? _) fun _ =>
    .bind .words fun _ => .pure rfl

theorem trigger : Natural f id Entry.trigger Entry.trigger := by
  refine .bind .expression? fun cond => ?_
  split
  · exact .pure rfl
  · exact .bind (.need .word? _) fun _ => .pure rfl

theorem action (ref : Nat) :
    Natural f (Record.relocate f) (Entry.action ref) (Entry.action (f ref)) := by
  refine .bind .trigger fun trigger => .bind (.need .string? _) fun label =>
    .bind .string? fun message => .bind .words fun mods => ?_
  cases trigger with
  | node id => exact .pure rfl
  | condition cond =>
    by_cases h : (message.isNone && mods.isEmpty) = true
    · simp only [h, if_true]
      exact .refuse _
    · simp only [h]
      exact .pure rfl

theorem target (category : Category) : Natural f id (Entry.target category) (Entry.target category) := by
  cases category with
  | use => exact .bind (.keyword _) fun _ => .ite (.bind (.need .word? _) fun _ => .pure rfl) (.pure rfl)
  | _ => exact .pure rfl

theorem behavior (category : Category) (item : Option String) (count : Option Nat) (ref : Nat) :
    Natural f (Record.relocate f) (Entry.behavior category item count ref)
      (Entry.behavior category item count (f ref)) :=
  .bind (.keyword _) fun _ => .bind (.itemOr item) fun _ => .bind (.target category) fun _ =>
    .bind .expression? fun _ => .bind .string? fun _ => .bind .words fun _ => .pure rfl

theorem resources (item : Option String) (ref : Nat) :
    Natural f (Record.relocate f) (Entry.resources item ref) (Entry.resources item (f ref)) :=
  .bind (.itemOr item) fun _ => .bind .words fun _ => .pure rfl

theorem place : Natural f id Entry.place Entry.place :=
  .bind (.keyword _) fun _ => .ite (.pure rfl) <| .bind (.keyword _) fun _ => .ite (.pure rfl) <|
    .bind (.need .word? _) fun _ => .pure rfl

theorem location (item : Option String) (ref : Nat) :
    Natural f (Record.relocate f) (Entry.location item ref) (Entry.location item (f ref)) :=
  .bind (.itemOr item) fun _ => .bind .place fun _ => .pure rfl

theorem boringCase : Natural f id Entry.boringCase Entry.boringCase :=
  .bind (.keyword _) fun _ => .ite (.bind (.keyword _) fun _ => .pure rfl) <|
    .bind (.keyword _) fun _ => .ite (.pure rfl) <|
    .bind (.keyword _) fun _ => .ite (.pure rfl) <|
    .bind (.keyword _) fun _ => .ite (.bind (.keyword _) fun _ => .pure rfl) (.refuse _)

theorem boring (ref : Nat) :
    Natural f (Record.relocate f) (Entry.boring ref) (Entry.boring (f ref)) :=
  .bind .boringCase fun _ => .bind (.need .string? _) fun _ => .pure rfl

theorem item (ref : Nat) : Natural f (Record.relocate f) (Entry.item ref) (Entry.item (f ref)) :=
  .bind (.need .word? _) fun _ => .bind (.need .string? _) fun _ => .bind .string? fun _ => .pure rfl

theorem modifier (ref : Nat) :
    Natural f (Record.relocate f) (Entry.modifier ref) (Entry.modifier (f ref)) :=
  .bind (.need .word? _) fun _ => .pure rfl

theorem pairOf {make : String → String → Command} (h : ∀ a b, (make a b).relocate f = make a b)
    (wanted : Wanted) :
    Natural f (Command.relocate f) (Entry.pairOf make wanted) (Entry.pairOf make wanted) :=
  .bind (.need .word? _) fun _ => .bind (.need .word? _) fun _ => .pure (h _ _)

theorem addItem : Natural f (Command.relocate f) Entry.addItem Entry.addItem := by
  refine .bind (.need .word? _) fun first => .bind .word? fun item => ?_
  split <;> exact .pure rfl

theorem skip : Natural f (Command.relocate f) Entry.skip Entry.skip := by
  refine .bind .number? fun count => ?_
  split
  · exact .pure rfl
  · exact .refuse _

/-- A command is read off a line without a look at offsets. -/
theorem arguments {keyword : String} {x : Entry Command} (h : arguments? keyword = some x) :
    Natural f (Command.relocate f) x x := by
  unfold arguments? at h
  split at h <;> cases h
  · exact .bind (.need .string? _) fun _ => .pure rfl
  · exact addItem
  · exact .bind (.need .word? _) fun _ => .pure rfl
  · exact .bind (.need .word? _) fun _ => .bind (.need .string? _) fun _ => .bind .string? fun _ =>
      .pure rfl
  · exact .pairOf (fun _ _ => rfl) _
  · exact .pairOf (fun _ _ => rfl) _
  · exact .bind (.need .word? _) fun _ => .bind (.need .string? _) fun _ => .pure rfl
  · exact .bind (.need .word? _) fun _ => .bind (.need .string? _) fun _ =>
      .bind (.need .word? _) fun _ => .pure rfl
  · exact .pairOf (fun _ _ => rfl) _
  · exact .bind (.need .word? _) fun _ => .pure rfl
  · exact .bind .expression? fun _ => .bind (.need .word? _) fun _ => .pure rfl
  · exact skip
  · exact .pure rfl

theorem command : Natural f (Command.relocate f) Entry.command Entry.command := by
  refine .bind .word? fun keyword => ?_
  split
  · rename_i x h
    obtain ⟨w, -, hw⟩ := Option.bind_eq_some_iff.1 h
    exact arguments hw
  · exact .refuse _

theorem boringWords (line : Line) : Entry.boringWords (Line.relocate f line) =
    ((Entry.boringWords line).1, (Entry.boringWords line).2.relocate f) := by
  fun_induction Entry.boringWords line with
  | case1 => rfl
  | case2 t line h => simp [Line.relocate, Entry.boringWords, Token.relocate, h]
  | case3 t line h words rest heq ih =>
    simp only [Line.relocate] at ih ⊢
    simp [Entry.boringWords, Token.relocate, h, ih, heq]
  | case4 t category hne h offset line words rest heq ih =>
    simp only [Line.relocate] at ih ⊢
    simp [Entry.boringWords, Token.relocate, h, ih, heq]
  | case5 t category hne h line hno words rest heq ih =>
    have hno' : ∀ offset rest, line.map (Token.relocate f) = ⟨.word "no", offset⟩ :: rest → False := by
      intro offset rest hl
      cases line with
      | nil => simp at hl
      | cons u line =>
        simp only [List.map_cons, List.cons.injEq] at hl
        have hu : u.content = .word "no" := congrArg Token.content hl.1
        exact hno u.offset line (by rw [← hu])
    have ht : (t.relocate f).content.word?.bind Category.ofName? = some category := h
    simp only [Line.relocate, List.map_cons] at ih ⊢
    rw [Entry.boringWords, ht]
    split
    · simp_all
    · simp_all
    · rename_i c _ hc
      cases hc
      split
      · rename_i offset rest hl
        exact absurd hl (hno' offset rest)
      · simp [ih, heq]

/-- The reactions of a boring line, and where the line began. -/
theorem reactions (id : String) (ref : Nat) :
    Natural f (fun p => (p.1.map (Record.relocate f), f p.2)) (Entry.reactions id ref)
      (Entry.reactions id (f ref)) := by
  intro line
  simp only [Entry.reactions, boringWords]
  simp [Except.map, Record.relocate, Behavior.relocate]

end Natural
end Entry

end Gamebook
