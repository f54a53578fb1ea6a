import Gamebook.Proofs.Holdings

/-!
What a record leaves alone. A document falls into regions, and a record is about one of
them: outside of it adding the record changes nothing. Within it nothing gets lost: keys
stay in their order, and what is listed stays listed in front of what comes later.
-/
namespace Gamebook

namespace Table

variable {κ α : Type} [DecidableEq κ]

/-- The other entries, in their order. -/
def erase (t : Table κ α) (k : κ) : Table κ α where
  entries := t.entries.filter fun e => e.1 ≠ k
  nodup := t.nodup.sublist (List.filter_sublist.map Prod.fst)

theorem filter_put (k : κ) (v : α) (entries : List (κ × α)) :
    ((put k v entries).filter fun e => e.1 ≠ k) = entries.filter fun e => e.1 ≠ k := by
  induction entries with
  | nil => simp [put]
  | cons e entries ih =>
    obtain ⟨k', v'⟩ := e
    by_cases h : k' = k
    · simp [put, h]
    · rw [put, if_neg h, List.filter_cons, List.filter_cons, ih]

@[simp] theorem erase_insert (t : Table κ α) (k : κ) (v : α) :
    (t.insert k v).erase k = t.erase k := by
  simp only [erase, insert, filter_put]

@[simp] theorem erase_update (t : Table κ α) (k : κ) (fallback : α) (f : α → α) :
    (t.update k fallback f).erase k = t.erase k :=
  erase_insert ..

theorem keys_insert (t : Table κ α) (k : κ) (v : α) : t.keys <+: (t.insert k v).keys := by
  unfold keys insert
  dsimp only
  rw [keys_put]
  split
  · exact List.prefix_rfl
  · exact List.prefix_append ..

theorem keys_update (t : Table κ α) (k : κ) (fallback : α) (f : α → α) :
    t.keys <+: (t.update k fallback f).keys :=
  keys_insert ..

end Table

/-- What a record can be about. -/
inductive Region where
  | definitions | properties | nodes | edges | boring | actions | start
  | item (id : String)
  | modifier (name : String)
  deriving DecidableEq, Repr

def Record.region : Record → Region
  | start _ => .start
  | node .. => .nodes
  | property .. => .properties
  | path .. => .edges
  | action _ => .actions
  | behavior id _ _ | resources id _ | location id _ | item id _ _ => .item id
  | boring .. => .boring
  | modifier name | directive name _ => .modifier name
  | definition _ => .definitions

namespace Document

/-- The document with nothing in the region. -/
def without (d : Document) : Region → Document
  | .definitions => { d with definitions := .empty }
  | .properties => { d with properties := .empty }
  | .nodes => { d with nodes := .empty }
  | .edges => { d with edges := .empty }
  | .boring => { d with boring := .empty }
  | .actions => { d with actions := [] }
  | .start => { d with start := none }
  | .item id => { d with items := d.items.erase id }
  | .modifier name => { d with modifiers := d.modifiers.erase name }

/-- At most the region tells the two documents apart; without one they are the same. -/
def Within : Option Region → Document → Document → Prop
  | none, d, e => d = e
  | some p, d, e => d.without p = e.without p

theorem Within.refl (p : Option Region) (d : Document) : Within p d d := by
  cases p <;> rfl

theorem Within.trans {p : Option Region} {d e f : Document} (h : Within p d e)
    (h' : Within p e f) : Within p d f := by
  cases p with
  | none => exact Eq.trans h h'
  | some p => exact Eq.trans h h'

theorem Within.of_eq {d e : Document} (h : d = e) (p : Option Region) : Within p d e :=
  h ▸ .refl p d

/-- A record is put where it belongs. -/
theorem within_add (d : Document) (r : Record) : Within (some r.region) d (d.add r) := by
  cases r with
  | behavior | resources | location | item | modifier | directive =>
    simp [Within, without, Record.region, add, updateItem]
  | _ => rfl

theorem within_foldl {p : Option Region} {rs : List Record} (h : ∀ r ∈ rs, some r.region = p)
    (d : Document) : Within p d (rs.foldl add d) := by
  induction rs generalizing d with
  | nil => exact .refl p d
  | cons r rs ih =>
    obtain ⟨hr, hrs⟩ := List.forall_mem_cons.1 h
    exact (hr ▸ d.within_add r).trans (ih hrs (d.add r))

/-- The paths that begin at a node. -/
def targets (d : Document) (source : String) : Table String Path :=
  (d.edges.get? source).getD .empty

/-- Nothing of the first document is lost in the second. -/
structure Grows (d e : Document) : Prop where
  definitions : d.definitions.keys <+: e.definitions.keys
  properties : d.properties.keys <+: e.properties.keys
  nodes : d.nodes.keys <+: e.nodes.keys
  edges : d.edges.keys <+: e.edges.keys
  targets (source : String) : (d.targets source).keys <+: (e.targets source).keys
  items : d.items.keys <+: e.items.keys
  modifiers : d.modifiers.keys <+: e.modifiers.keys
  boring : d.boring.keys <+: e.boring.keys
  series {α : Type} (q : Series α) : d.series q <+: e.series q
  resources (id : String) : (d.item id).resources <+: (e.item id).resources
  start (s : Start) : d.start = some s → e.start = some s

namespace Grows

variable {d e f : Document}

theorem refl (d : Document) : d.Grows d where
  definitions := List.prefix_rfl
  properties := List.prefix_rfl
  nodes := List.prefix_rfl
  edges := List.prefix_rfl
  targets _ := List.prefix_rfl
  items := List.prefix_rfl
  modifiers := List.prefix_rfl
  boring := List.prefix_rfl
  series _ := List.prefix_rfl
  resources _ := List.prefix_rfl
  start _ h := h

theorem trans (h : d.Grows e) (h' : e.Grows f) : d.Grows f where
  definitions := h.definitions.trans h'.definitions
  properties := h.properties.trans h'.properties
  nodes := h.nodes.trans h'.nodes
  edges := h.edges.trans h'.edges
  targets source := (h.targets source).trans (h'.targets source)
  items := h.items.trans h'.items
  modifiers := h.modifiers.trans h'.modifiers
  boring := h.boring.trans h'.boring
  series q := (h.series q).trans (h'.series q)
  resources id := (h.resources id).trans (h'.resources id)
  start s hs := h'.start s (h.start s hs)

end Grows

theorem prefix_series_add (d : Document) (r : Record) (q : Series α) :
    d.series q <+: (d.add r).series q :=
  d.series_add r q ▸ List.prefix_append ..

theorem prefix_resources_foldl (nodes : List String) (item : Item) :
    item.resources <+: (nodes.foldl Item.addResource item).resources := by
  induction nodes generalizing item with
  | nil => exact List.prefix_rfl
  | cons node nodes ih =>
    refine List.IsPrefix.trans ?_ (ih (item.addResource node))
    unfold Item.addResource
    split
    · exact List.prefix_rfl
    · exact List.prefix_append ..

/-- Only a record of resources changes what is listed there. -/
theorem prefix_resources_add (d : Document) (r : Record) (id : String) :
    (d.item id).resources <+: ((d.add r).item id).resources := by
  cases r with
  | resources id' nodes =>
    simp only [add, item_updateItem]
    split
    · rename_i h
      exact h ▸ prefix_resources_foldl nodes (d.item id)
    · exact List.prefix_rfl
  | behavior | location | item =>
    simp only [add, item_updateItem]
    split <;> simp_all
  | _ => exact List.prefix_rfl

/-- Adding a record loses nothing, unless it is a second start. -/
theorem grows_add (d : Document) {r : Record} (h : r.region = .start → d.start = none) :
    d.Grows (d.add r) := by
  have hseries : ∀ {α : Type} (q : Series α), d.series q <+: (d.add r).series q :=
    fun q => d.prefix_series_add r q
  have hresources := d.prefix_resources_add r
  have hold := Grows.refl d
  cases r with
  | start s =>
    refine { hold with series := hseries, resources := hresources, start := fun s' hs => ?_ }
    rw [h rfl] at hs
    cases hs
  | node id n =>
    exact { hold with series := hseries, resources := hresources, nodes := Table.keys_insert .. }
  | property name p =>
    exact { hold with
      series := hseries, resources := hresources, properties := Table.keys_insert .. }
  | path source target p =>
    refine { hold with
      series := hseries, resources := hresources, edges := Table.keys_update ..
      targets := fun source' => ?_ }
    simp only [targets, add, Table.get?_update]
    split
    · rename_i hs
      exact hs ▸ Table.keys_insert ..
    · exact List.prefix_rfl
  | action a => exact { hold with series := hseries, resources := hresources }
  | behavior | resources | location | item =>
    exact { hold with series := hseries, resources := hresources, items := Table.keys_update .. }
  | boring case message =>
    exact { hold with series := hseries, resources := hresources, boring := Table.keys_insert .. }
  | modifier | directive =>
    exact { hold with
      series := hseries, resources := hresources, modifiers := Table.keys_update .. }
  | definition v =>
    exact { hold with
      series := hseries, resources := hresources, definitions := Table.keys_insert .. }

theorem grows_foldl {rs : List Record} (h : ∀ r ∈ rs, r.region ≠ .start) (d : Document) :
    d.Grows (rs.foldl add d) := by
  induction rs generalizing d with
  | nil => exact .refl d
  | cons r rs ih =>
    obtain ⟨hr, hrs⟩ := List.forall_mem_cons.1 h
    exact (d.grows_add fun hs => absurd hs hr).trans (ih hrs (d.add r))

end Document
end Gamebook
