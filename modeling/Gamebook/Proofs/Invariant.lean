import Gamebook.Document.Form
import Gamebook.Proofs.Holdings
import Gamebook.Proofs.Printing

/-!
What holds of a document however far its source is read. A record is sound on its own: its
names are words that do not begin with a digit, its place lies in the source, and its parts
go together. Adding a sound record to a sound document gives a sound one, so it is enough
that every record is sound.
-/
namespace Gamebook

namespace Table

variable {κ α : Type}

/-- Every entry has the property. -/
def All (P : κ → α → Prop) (t : Table κ α) : Prop := ∀ k v, (k, v) ∈ t.entries → P k v

theorem All.empty {P : κ → α → Prop} : (Table.empty : Table κ α).All P := by
  intro k v h
  cases h

variable [DecidableEq κ] {P : κ → α → Prop} {t : Table κ α} {k : κ}

theorem mem_put {v : α} {entries : List (κ × α)} {e : κ × α} (h : e ∈ put k v entries) :
    e = (k, v) ∨ e ∈ entries := by
  induction entries with
  | nil => exact .inl (List.mem_singleton.1 h)
  | cons e' entries ih =>
    obtain ⟨k', v'⟩ := e'
    by_cases hk : k' = k
    · rw [put, if_pos hk] at h
      rcases List.mem_cons.1 h with h | h
      · exact .inl h
      · exact .inr (List.mem_cons_of_mem _ h)
    · rw [put, if_neg hk] at h
      rcases List.mem_cons.1 h with h | h
      · exact .inr (h ▸ List.mem_cons_self)
      · exact (ih h).imp_right (List.mem_cons_of_mem _)

theorem All.insert (h : t.All P) {v : α} (hv : P k v) : (t.insert k v).All P := by
  intro k' v' hmem
  rcases mem_put hmem with he | he
  · cases he
    exact hv
  · exact h k' v' he

theorem mem_of_get? {v : α} (h : t.get? k = some v) : (k, v) ∈ t.entries := by
  obtain ⟨front, back, hs, -⟩ := List.lookup_eq_some_iff.1 h
  rw [hs]
  simp

/-- What a key has is changed, and a new key gets what becomes of the fallback. -/
theorem All.update (h : t.All P) {fallback : α} {f : α → α} (hnew : P k (f fallback))
    (hold : ∀ v, P k v → P k (f v)) : (t.update k fallback f).All P := by
  refine h.insert ?_
  cases hv : t.get? k with
  | none => exact hnew
  | some v => exact hold v (h k v (mem_of_get? hv))

theorem entries_insert_ne_nil (t : Table κ α) (k : κ) (v : α) : (t.insert k v).entries ≠ [] := by
  change put k v t.entries ≠ []
  cases t.entries with
  | nil => simp [put]
  | cons e entries =>
    obtain ⟨k', v'⟩ := e
    rw [put]
    split <;> simp

end Table

def AreNames (names : List String) : Prop := ∀ name ∈ names, IsName name

namespace AreNames

variable {a b : String} {names more : List String}

theorem nil : AreNames [] := fun _ h => nomatch h

theorem one (h : IsName a) : AreNames [a] := List.forall_mem_singleton.2 h

theorem append (h : AreNames names) (hm : AreNames more) : AreNames (names ++ more) :=
  List.forall_mem_append.2 ⟨h, hm⟩

theorem two (ha : IsName a) (hb : IsName b) : AreNames [a, b] := (one ha).append (one hb)

end AreNames

structure Definition.Sound (n : Nat) (v : Definition) : Prop where
  /-- Only a declaration has no value. -/
  value : v.change.value?.isSome ↔ v.change.code ≠ 0
  ref : v.ref ≤ n

structure Start.Sound (n : Nat) (s : Start) : Prop where
  node : IsName s.node
  ref : s.ref ≤ n

structure Path.Sound (n : Nat) (p : Path) : Prop where
  mods : AreNames p.mods
  ref : p.ref ≤ n

structure Action.Sound (n : Nat) (a : Action) : Prop where
  /-- It is chosen in exactly one of two ways. -/
  trigger : a.trigger.cond?.isSome ↔ a.trigger.node? = none
  node : AreNames a.trigger.node?.toList
  effect : a.trigger.cond?.isSome → a.message.isSome ∨ a.mods ≠ []
  mods : AreNames a.mods
  ref : a.ref ≤ n

structure Behavior.Sound (n : Nat) (category : Category) (b : Behavior) : Prop where
  target : b.target.isSome → category = .use
  names : AreNames (b.target.toList ++ b.mods)
  ref : ∃ r, b.ref = some r ∧ r ≤ n

structure Placement.Sound (n : Nat) (p : Placement) : Prop where
  /-- The kind of place that has a node is the third. -/
  kind : p.place.node?.isSome ↔ p.place.code = 3
  node : AreNames p.place.node?.toList
  ref : p.ref ≤ n

structure Item.Sound (n : Nat) (item : Item) : Prop where
  behaviors : ∀ category, ∀ b ∈ item.behaviors category, b.Sound n category
  nodup : item.resources.Nodup
  resources : AreNames item.resources
  location : ∀ p, item.location = some p → p.Sound n

/-- The nodes, items and modifiers that a command is about. -/
def Command.names : Command → List String
  | message _ | skip _ | .return | setVariable _ => []
  | addItem item node => item :: node.toList
  | delItem item | setItem item _ _ => [item]
  | addResource item node | delResource item node => [item, node]
  | setNode node _ | teleport node => [node]
  | addPath source _ target | delPath source target => [source, target]
  | callMod modifier _ => [modifier]

structure Command.Sound (n : Nat) (c : Command) : Prop where
  names : AreNames c.names
  definition : ∀ v, c = .setVariable v → v.Sound n

structure Directive.Sound (n : Nat) (d : Directive) : Prop where
  command : d.command.Sound n
  ref : d.ref ≤ n

/-- The names of the cases that have a default message. -/
def BoringCase.names : List String := ["pick", "pickNo", "check", "use", "lay", "layNo"]

/-- A document of a source that has `n` characters. How often a reaction fires and how much a
command skips are natural numbers by their type. -/
structure Document.Sound (n : Nat) (d : Document) : Prop where
  definitions : d.definitions.All fun name v => v.name = name ∧ v.Sound n
  properties : d.properties.All fun _ p => p.ref ≤ n
  nodes : d.nodes.All fun id x => IsName id ∧ x.ref ≤ n
  edges : d.edges.All fun source targets =>
    IsName source ∧ targets.entries ≠ [] ∧ targets.All fun target p => IsName target ∧ p.Sound n
  items : d.items.All fun id item => IsName id ∧ item.Sound n
  modifiers : d.modifiers.All fun name ds => IsName name ∧ ∀ x ∈ ds, x.Sound n
  boring : d.boring.All fun case _ => case.name ∈ BoringCase.names
  actions : ∀ a ∈ d.actions, a.Sound n
  start : ∀ s, d.start = some s → s.Sound n

def Record.Sound (n : Nat) : Record → Prop
  | start s => s.Sound n
  | node id x => IsName id ∧ x.ref ≤ n
  | property _ p => p.ref ≤ n
  | path source target p => IsName source ∧ IsName target ∧ p.Sound n
  | action a => a.Sound n
  | behavior id category b => IsName id ∧ b.Sound n category
  | resources id nodes => IsName id ∧ AreNames nodes
  | location id p => IsName id ∧ p.Sound n
  | boring _ _ => True
  | item id _ _ => IsName id
  | modifier name => IsName name
  | directive name d => IsName name ∧ d.Sound n
  | definition v => v.Sound n

namespace Item

variable {n : Nat} {item : Item}

theorem Sound.empty : ({} : Item).Sound n := by
  constructor
  · intro category b hb
    cases category <;> cases hb
  · exact List.nodup_nil
  · exact .nil
  · intro p h
    cases h

theorem Sound.addBehavior (h : item.Sound n) {b : Behavior} {category : Category}
    (hb : b.Sound n category) : (item.addBehavior b category).Sound n := by
  constructor
  · intro category' b' hb'
    rw [behaviors_addBehavior] at hb'
    rcases List.mem_append.1 hb' with hb' | hb'
    · exact h.behaviors category' b' hb'
    · split at hb'
      · rename_i hc
        obtain rfl := List.mem_singleton.1 hb'
        exact hc ▸ hb
      · cases hb'
  · rw [resources_addBehavior]
    exact h.nodup
  · rw [resources_addBehavior]
    exact h.resources
  · rw [location_addBehavior]
    exact h.location

/-- What is not a reaction can be replaced. -/
theorem Sound.replace (h : item.Sound n) {label appendix : Option String}
    {resources : List String} {location : Option Placement} (hd : resources.Nodup)
    (hr : AreNames resources) (hl : ∀ p, location = some p → p.Sound n) :
    ({ item with label, appendix, resources, location } : Item).Sound n := by
  refine ⟨fun category => ?_, hd, hr, hl⟩
  cases category with
  | pick => exact h.behaviors .pick
  | check => exact h.behaviors .check
  | use => exact h.behaviors .use
  | lay => exact h.behaviors .lay

/-- A resource that is there is not put there again. -/
theorem Sound.addResource (h : item.Sound n) {node : String} (hn : IsName node) :
    (item.addResource node).Sound n := by
  unfold Item.addResource
  split
  · exact h
  · rename_i hnew
    have hnot : node ∉ item.resources := by simpa using hnew
    refine h.replace (List.nodup_append.2 ⟨h.nodup, by simp, ?_⟩) ?_ h.location
    · intro a ha b hb hab
      obtain rfl := List.mem_singleton.1 hb
      exact hnot (hab ▸ ha)
    · exact h.resources.append (.one hn)

theorem Sound.addResources (h : item.Sound n) {nodes : List String} (hn : AreNames nodes) :
    (nodes.foldl Item.addResource item).Sound n := by
  induction nodes generalizing item with
  | nil => exact h
  | cons node nodes ih =>
    obtain ⟨hnode, hnodes⟩ := List.forall_mem_cons.1 hn
    exact ih (h.addResource hnode) hnodes

end Item

namespace Document

variable {n : Nat} {d : Document}

theorem Sound.empty : ({} : Document).Sound n where
  definitions := .empty
  properties := .empty
  nodes := .empty
  edges := .empty
  items := .empty
  modifiers := .empty
  boring := .empty
  actions _ h := nomatch h
  start _ h := nomatch h

/-- A new item has nothing in it that could be unsound. -/
theorem Sound.updateItem (h : d.Sound n) {id : String} (hid : IsName id) {f : Item → Item}
    (hf : ∀ item : Item, item.Sound n → (f item).Sound n) : (d.updateItem id f).Sound n :=
  { h with items := h.items.update ⟨hid, hf {} .empty⟩ fun item hi => ⟨hid, hf item hi.2⟩ }

theorem Sound.addPath (h : d.Sound n) {source target : String} {p : Path}
    (hs : IsName source) (ht : IsName target) (hp : p.Sound n) :
    (d.add (.path source target p)).Sound n := by
  refine { h with edges := h.edges.update ?_ fun targets hold => ?_ }
  · exact ⟨hs, Table.entries_insert_ne_nil _ _ _, Table.All.empty.insert ⟨ht, hp⟩⟩
  · exact ⟨hs, Table.entries_insert_ne_nil _ _ _, hold.2.2.insert ⟨ht, hp⟩⟩

theorem Sound.addDirective (h : d.Sound n) {name : String} {x : Directive} (hn : IsName name)
    (hx : x.Sound n) : (d.add (.directive name x)).Sound n := by
  refine { h with modifiers := h.modifiers.update ?_ fun ds hold => ?_ }
  · exact ⟨hn, List.forall_mem_singleton.2 hx⟩
  · exact ⟨hn, List.forall_mem_append.2 ⟨hold.2, List.forall_mem_singleton.2 hx⟩⟩

/-- A sound record keeps a document sound. -/
theorem Sound.add (h : d.Sound n) {r : Record} (hr : r.Sound n) : (d.add r).Sound n := by
  cases r with
  | start s =>
    refine { h with start := fun s' hs => ?_ }
    cases hs
    exact hr
  | node id x => exact { h with nodes := h.nodes.insert hr }
  | property name p => exact { h with properties := h.properties.insert hr }
  | path source target p => exact h.addPath hr.1 hr.2.1 hr.2.2
  | action a =>
    have hall := List.forall_mem_append.2 ⟨h.actions, List.forall_mem_singleton.2 hr⟩
    exact { h with actions := hall }
  | behavior id category b => exact h.updateItem hr.1 fun item hi => hi.addBehavior hr.2
  | resources id nodes => exact h.updateItem hr.1 fun item hi => hi.addResources hr.2
  | location id p =>
    refine h.updateItem hr.1 fun item hi => hi.replace hi.nodup hi.resources fun p' hp => ?_
    cases hp
    exact hr.2
  | boring case message =>
    refine { h with boring := h.boring.insert ?_ }
    cases case <;> decide
  | item id label appendix =>
    exact h.updateItem hr fun item hi => hi.replace hi.nodup hi.resources hi.location
  | modifier name =>
    refine { h with modifiers := h.modifiers.update ⟨hr, fun x hx => ?_⟩ fun ds hold => hold }
    cases hx
  | directive name x => exact h.addDirective hr.1 hr.2
  | definition v => exact { h with definitions := h.definitions.insert ⟨rfl, hr⟩ }

end Document
end Gamebook
