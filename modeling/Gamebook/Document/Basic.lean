import Gamebook.Document.Table
import Gamebook.Line.Token

/-!
The document of a game: what a script defines. Names are free texts, and whether a
named node or item exists is the engine's concern. A `ref` is the offset in the
source at which a record began.
-/
namespace Gamebook

inductive Assignment where
  | set | increase | decrease | multiply | divide
  deriving DecidableEq, Repr

/-- What a definition does to its variable. -/
inductive Change where
  | declare
  | assign (how : Assignment) (value : Expr)
  deriving Repr

structure Definition where
  name : String
  change : Change
  ref : Nat
  deriving Repr

/-- A variable shown to the player. -/
structure Property where
  label : String
  range : Option Range
  ref : Nat
  deriving Repr

structure Node where
  message : String
  final : Bool
  ref : Nat
  deriving DecidableEq, Repr

/-- A way from one node to another, with the modifiers run when it is taken. -/
structure Path where
  label : String
  mods : List String
  ref : Nat
  deriving DecidableEq, Repr

structure Start where
  message : String
  node : String
  ref : Nat
  deriving DecidableEq, Repr

/-- When an action is offered. -/
inductive Trigger where
  | condition (cond : Expr)
  | node (id : String)
  deriving Repr

structure Action where
  trigger : Trigger
  label : String
  message : Option String
  mods : List String
  ref : Nat
  deriving Repr

inductive Category where
  | pick | check | use | lay
  deriving DecidableEq, Repr

/-- One reaction of an item. It fires at most `count` times if that is given, and
a `target` is for using the item on something. A behavior made by hand has no ref. -/
structure Behavior where
  cond : Option Expr := none
  message : Option String := none
  mods : List String := []
  count : Option Nat := none
  negated : Bool := false
  target : Option String := none
  ref : Option Nat := none
  deriving Repr

inductive Place where
  | nowhere
  | player
  | node (id : String)
  deriving DecidableEq, Repr

structure Placement where
  place : Place
  ref : Nat
  deriving DecidableEq, Repr

structure Item where
  label : Option String := none
  appendix : Option String := none
  pick : List Behavior := []
  check : List Behavior := []
  use : List Behavior := []
  lay : List Behavior := []
  resources : List String := []
  location : Option Placement := none
  deriving Repr

/-- The cases that have a default message. -/
inductive BoringCase where
  | pick | pickNo | check | use | lay | layNo
  deriving DecidableEq, Repr

inductive Command where
  | message (text : String)
  | addItem (item : String) (node : Option String)
  | delItem (item : String)
  | setItem (item label : String) (appendix : Option String)
  | addResource (item node : String)
  | delResource (item node : String)
  | setNode (node message : String)
  | addPath (source label target : String)
  | delPath (source target : String)
  | teleport (node : String)
  | callMod (modifier : String) (cond : Option Expr)
  | skip (count : Nat)
  | return
  | setVariable (definition : Definition)
  deriving Repr

/-- A command of a modifier, under a condition if it has one. -/
structure Directive where
  command : Command
  cond : Option Expr
  ref : Nat
  deriving Repr

structure Document where
  definitions : Table String Definition := .empty
  properties : Table String Property := .empty
  nodes : Table String Node := .empty
  /-- Paths by their source and then by their target. -/
  edges : Table String (Table String Path) := .empty
  items : Table String Item := .empty
  modifiers : Table String (List Directive) := .empty
  boring : Table BoringCase String := .empty
  actions : List Action := []
  start : Option Start := none
  deriving Repr

namespace Category

def name : Category → String
  | pick => "pick"
  | check => "check"
  | use => "use"
  | lay => "lay"

def all : List Category := [pick, check, use, lay]

def ofName? (name : String) : Option Category := all.find? (·.name == name)

end Category

namespace Behavior

/-- The modifier that marks a reaction as one of the default messages. -/
def boringMod : String := "boring"

def isBoring (b : Behavior) : Bool := b.mods.contains boringMod

end Behavior

namespace Item

def behaviors (item : Item) : Category → List Behavior
  | .pick => item.pick
  | .check => item.check
  | .use => item.use
  | .lay => item.lay

def addBehavior (item : Item) (b : Behavior) : Category → Item
  | .pick => { item with pick := item.pick ++ [b] }
  | .check => { item with check := item.check ++ [b] }
  | .use => { item with use := item.use ++ [b] }
  | .lay => { item with lay := item.lay ++ [b] }

/-- A resource is kept once. -/
def addResource (item : Item) (node : String) : Item :=
  if item.resources.contains node then item
  else { item with resources := item.resources ++ [node] }

end Item

namespace Document

def empty : Document := {}

/-- Change an item, which is an empty one if there is none yet. -/
def updateItem (d : Document) (id : String) (f : Item → Item) : Document :=
  { d with items := d.items.update id {} f }

def describe (d : Document) : String :=
  s!"Program({d.nodes.size} nodes, {d.items.size} items, " ++
    s!"{d.actions.length} actions, {d.modifiers.size} mods)"

end Document
end Gamebook
