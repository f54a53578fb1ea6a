import Gamebook.Document.Record

/-!
What a document holds, said in terms of the records alone. A cell holds the last value
that a record puts there, and a series holds all that records put there, in their order.
Adding a record is looked at once for every cell and every series; what a list of records
leaves in a document follows by induction.
-/
namespace Gamebook

namespace Table

variable {κ α : Type} [DecidableEq κ]

theorem lookup_cons (k j : κ) (v : α) (entries : List (κ × α)) :
    ((k, v) :: entries).lookup j = if j = k then some v else entries.lookup j := by
  by_cases h : j = k
  · simp [h]
  · have hj : (j == k) = false := beq_eq_false_iff_ne.2 h
    simp [List.lookup_cons, hj, h]

theorem lookup_put (k j : κ) (v : α) (entries : List (κ × α)) :
    (put k v entries).lookup j = if j = k then some v else entries.lookup j := by
  induction entries with
  | nil => exact lookup_cons k j v []
  | cons e entries ih =>
    obtain ⟨k', v'⟩ := e
    by_cases hk : k' = k
    · simp only [put, hk, if_true, lookup_cons]
      split <;> rfl
    · simp only [put, hk, if_false, lookup_cons, ih]
      by_cases h : j = k'
      · simp [h, hk]
      · simp [h]

@[simp] theorem get?_empty (k : κ) : (empty : Table κ α).get? k = none := rfl

@[simp] theorem get?_insert (t : Table κ α) (k j : κ) (v : α) :
    (t.insert k v).get? j = if j = k then some v else t.get? j :=
  lookup_put k j v t.entries

@[simp] theorem get?_update (t : Table κ α) (k j : κ) (fallback : α) (f : α → α) :
    (t.update k fallback f).get? j =
      if j = k then some (f ((t.get? k).getD fallback)) else t.get? j :=
  get?_insert ..

end Table

/-- A place of a document that holds one value. -/
inductive Cell : Type → Type where
  | start : Cell Start
  | node (id : String) : Cell Node
  | property (name : String) : Cell Property
  | path (source target : String) : Cell Path
  /-- The label and the appendix of an item. -/
  | header (item : String) : Cell (String × Option String)
  | location (item : String) : Cell Placement
  | boring (case : BoringCase) : Cell String
  | definition (name : String) : Cell Definition

/-- A list in a document. -/
inductive Series : Type → Type where
  | actions : Series Action
  | behaviors (item : String) (category : Category) : Series Behavior
  | directives (modifier : String) : Series Directive

namespace Record

/-- What the record puts into the cell. -/
def cell? : Record → Cell α → Option α
  | start s, .start => some s
  | node id n, .node id' => if id' = id then some n else none
  | property name p, .property name' => if name' = name then some p else none
  | path source target p, .path source' target' =>
    if source' = source ∧ target' = target then some p else none
  | item id label appendix, .header id' => if id' = id then some (label, appendix) else none
  | location id p, .location id' => if id' = id then some p else none
  | boring case message, .boring case' => if case' = case then some message else none
  | definition v, .definition name => if name = v.name then some v else none
  | _, _ => none

/-- What the record puts at the end of the series. -/
def series? : Record → Series α → Option α
  | action a, .actions => some a
  | behavior id category b, .behaviors id' category' =>
    if id' = id ∧ category' = category then some b else none
  | directive name d, .directives name' => if name' = name then some d else none
  | _, _ => none

/-- The nodes at which the record lets the item be found. -/
def resourcesOf (id : String) : Record → List String
  | resources id' nodes => if id = id' then nodes else []
  | _ => []

/-- The item that the record is about. -/
def item? : Record → Option String
  | behavior id _ _ | resources id _ | location id _ | item id _ _ => some id
  | _ => none

/-- The modifier that the record is about. -/
def modifier? : Record → Option String
  | modifier name | directive name _ => some name
  | _ => none

end Record

namespace Item

/-- A list of resources is a list without what it has twice. -/
theorem resources_foldl {item : Item} {known : List String}
    (h : item.resources = known.eraseDups) (nodes : List String) :
    (nodes.foldl addResource item).resources = (known ++ nodes).eraseDups := by
  induction nodes generalizing item known with
  | nil => rw [List.append_nil, List.foldl_nil, h]
  | cons node nodes ih =>
    have hadd : (item.addResource node).resources = (known ++ [node]).eraseDups := by
      rw [addResource, h, List.eraseDups_append]
      by_cases hk : node ∈ known <;> simp [hk, List.removeAll, h, List.eraseDups_cons]
    rw [List.foldl_cons, ih hadd, List.append_assoc, List.singleton_append]

/-- Nothing but the resources changes. -/
theorem foldl_addResource (nodes : List String) (item : Item) :
    nodes.foldl addResource item =
      { item with resources := (nodes.foldl addResource item).resources } := by
  induction nodes generalizing item with
  | nil => rfl
  | cons node nodes ih =>
    rw [List.foldl_cons, ih, addResource]
    split <;> rfl

@[simp] theorem label_foldl (nodes : List String) (item : Item) :
    (nodes.foldl addResource item).label = item.label := by rw [foldl_addResource]

@[simp] theorem appendix_foldl (nodes : List String) (item : Item) :
    (nodes.foldl addResource item).appendix = item.appendix := by rw [foldl_addResource]

@[simp] theorem location_foldl (nodes : List String) (item : Item) :
    (nodes.foldl addResource item).location = item.location := by rw [foldl_addResource]

@[simp] theorem behaviors_foldl (nodes : List String) (item : Item) (category : Category) :
    (nodes.foldl addResource item).behaviors category = item.behaviors category := by
  rw [foldl_addResource]
  cases category <;> rfl

variable (item : Item) (b : Behavior) (category : Category)

@[simp] theorem label_addBehavior : (item.addBehavior b category).label = item.label := by
  cases category <;> rfl

@[simp] theorem appendix_addBehavior :
    (item.addBehavior b category).appendix = item.appendix := by
  cases category <;> rfl

@[simp] theorem location_addBehavior :
    (item.addBehavior b category).location = item.location := by
  cases category <;> rfl

@[simp] theorem resources_addBehavior :
    (item.addBehavior b category).resources = item.resources := by
  cases category <;> rfl

@[simp] theorem behaviors_addBehavior (category' : Category) :
    (item.addBehavior b category).behaviors category' =
      item.behaviors category' ++ (if category' = category then some b else none).toList := by
  cases category <;> cases category' <;> simp [addBehavior, behaviors]

end Item

namespace Document

/-- The item of the name, with nothing in it if there is none. -/
def item (d : Document) (id : String) : Item := (d.items.get? id).getD {}

theorem item_updateItem (d : Document) (id id' : String) (f : Item → Item) :
    (d.updateItem id f).item id' = if id' = id then f (d.item id) else d.item id' := by
  simp only [item, updateItem, Table.get?_update]
  split <;> rfl

def cell? (d : Document) : Cell α → Option α
  | .start => d.start
  | .node id => d.nodes.get? id
  | .property name => d.properties.get? name
  | .path source target => (d.edges.get? source).bind (·.get? target)
  | .header id => (d.item id).label.map (·, (d.item id).appendix)
  | .location id => (d.item id).location
  | .boring case => d.boring.get? case
  | .definition name => d.definitions.get? name

def series (d : Document) : Series α → List α
  | .actions => d.actions
  | .behaviors id category => (d.item id).behaviors category
  | .directives name => (d.modifiers.get? name).getD []

/-- A cell holds what the record puts there, and what it held if the record puts nothing. -/
theorem cell?_add (d : Document) (r : Record) (c : Cell α) :
    (d.add r).cell? c = (r.cell? c).or (d.cell? c) := by
  cases c with
  | start => cases r <;> rfl
  | node id =>
    cases r
    case node => simp only [cell?, add, Record.cell?, Table.get?_insert]; split <;> rfl
    all_goals rfl
  | property name =>
    cases r
    case property => simp only [cell?, add, Record.cell?, Table.get?_insert]; split <;> rfl
    all_goals rfl
  | boring case =>
    cases r
    case boring => simp only [cell?, add, Record.cell?, Table.get?_insert]; split <;> rfl
    all_goals rfl
  | definition name =>
    cases r
    case definition => simp only [cell?, add, Record.cell?, Table.get?_insert]; split <;> rfl
    all_goals rfl
  | path source target =>
    cases r
    case path source' target' p =>
      simp only [cell?, add, Record.cell?, Table.get?_update]
      by_cases hs : source = source'
      · subst hs
        by_cases ht : target = target'
        · simp [ht]
        · cases h : d.edges.get? source <;> simp [ht]
      · simp [hs]
    all_goals rfl
  | header id =>
    cases r
    case item | behavior | resources | location =>
      simp only [cell?, add, Record.cell?, item_updateItem]
      split <;> simp_all
    all_goals rfl
  | location id =>
    cases r
    case item | behavior | resources | location =>
      simp only [cell?, add, Record.cell?, item_updateItem]
      split <;> simp_all
    all_goals rfl

/-- The record is put at the end of its series, and every other one stays. -/
theorem series_add (d : Document) (r : Record) (q : Series α) :
    (d.add r).series q = d.series q ++ (r.series? q).toList := by
  cases q with
  | actions =>
    cases r
    case action => rfl
    all_goals exact (List.append_nil _).symm
  | behaviors id category =>
    cases r
    case behavior | resources =>
      simp only [series, add, Record.series?, item_updateItem]
      split <;> simp_all
    case item | location =>
      simp only [series, add, Record.series?, item_updateItem]
      split <;> cases category <;> simp_all [Item.behaviors]
    all_goals exact (List.append_nil _).symm
  | directives name =>
    cases r
    case modifier | directive =>
      simp only [series, add, Record.series?, Table.get?_update]
      split <;> simp_all
    all_goals exact (List.append_nil _).symm

theorem resources_add {d : Document} {id : String} {known : List String}
    (h : (d.item id).resources = known.eraseDups) (r : Record) :
    ((d.add r).item id).resources = (known ++ r.resourcesOf id).eraseDups := by
  cases r
  case resources id' nodes =>
    simp only [add, Record.resourcesOf, item_updateItem]
    split
    · rename_i hid
      subst hid
      exact Item.resources_foldl h nodes
    · rw [h, List.append_nil]
  case item | behavior | location =>
    simp only [add, Record.resourcesOf, item_updateItem, List.append_nil]
    split <;> simp_all
  all_goals exact h.trans (congrArg _ (List.append_nil _).symm)

theorem contains_items_add (d : Document) (r : Record) (id : String) :
    (d.add r).items.contains id = (decide (r.item? = some id) || d.items.contains id) := by
  cases r
  case item | behavior | resources | location =>
    simp only [add, updateItem, Table.contains, Table.get?_update, Record.item?]
    split <;> simp_all [eq_comm]
  all_goals rfl

theorem contains_modifiers_add (d : Document) (r : Record) (name : String) :
    (d.add r).modifiers.contains name =
      (decide (r.modifier? = some name) || d.modifiers.contains name) := by
  cases r
  case modifier | directive =>
    simp only [add, Table.contains, Table.get?_update, Record.modifier?]
    split <;> simp_all [eq_comm]
  all_goals rfl

/-- The document has in it what the records say, and nothing besides. -/
structure Holds (d : Document) (rs : List Record) : Prop where
  cell {α : Type} (c : Cell α) : d.cell? c = (rs.filterMap (·.cell? c)).getLast?
  series {α : Type} (q : Series α) : d.series q = rs.filterMap (·.series? q)
  /-- A resource stands where it is first named. -/
  resources (id : String) : (d.item id).resources = (rs.flatMap (·.resourcesOf id)).eraseDups
  items (id : String) : d.items.contains id = rs.any (·.item? = some id)
  modifiers (name : String) : d.modifiers.contains name = rs.any (·.modifier? = some name)

theorem Holds.empty : ({} : Document).Holds [] where
  cell c := by cases c <;> rfl
  series q := by
    cases q with
    | actions => rfl
    | behaviors id category => cases category <;> rfl
    | directives name => rfl
  resources id := rfl
  items id := rfl
  modifiers name := rfl

theorem Holds.add {d : Document} {rs : List Record} (h : d.Holds rs) (r : Record) :
    (d.add r).Holds (rs ++ [r]) where
  cell c := by
    rw [cell?_add, h.cell, List.filterMap_append, List.getLast?_append]
    cases hr : r.cell? c <;> simp [hr]
  series q := by
    rw [series_add, h.series, List.filterMap_append]
    cases hr : r.series? q <;> simp [hr]
  resources id := by
    rw [resources_add (h.resources id), List.flatMap_append, List.flatMap_singleton]
  items id := by
    rw [contains_items_add, h.items, List.any_append, Bool.or_comm]
    simp
  modifiers name := by
    rw [contains_modifiers_add, h.modifiers, List.any_append, Bool.or_comm]
    simp

theorem Holds.foldl {d : Document} {ks : List Record} (h : d.Holds ks) (rs : List Record) :
    (rs.foldl Document.add d).Holds (ks ++ rs) := by
  induction rs generalizing d ks with
  | nil => rwa [List.append_nil]
  | cons r rs ih =>
    have hall := ih (h.add r)
    rwa [List.append_assoc, List.singleton_append] at hall

/-- What a document holds that is made from records alone. -/
theorem holds_foldl (rs : List Record) : (rs.foldl add {}).Holds rs := Holds.empty.foldl rs

end Document
end Gamebook
