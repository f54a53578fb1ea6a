import Gamebook.Document.Basic

/-!
Equality of documents as the engine sees them: refs do not count, nor the order of
tables, and numbers are compared as numbers.
-/
namespace Gamebook

def sameOption (eq : α → α → Bool) : Option α → Option α → Bool
  | none, none => true
  | some a, some b => eq a b
  | _, _ => false

def sameList (eq : α → α → Bool) : List α → List α → Bool
  | [], [] => true
  | a :: as, b :: bs => eq a b && sameList eq as bs
  | _, _ => false

def Change.same : Change → Change → Bool
  | declare, declare => true
  | assign h e, assign i f => h == i && e.same f
  | _, _ => false

def Definition.same (a b : Definition) : Bool := a.name == b.name && a.change.same b.change

def Property.same (a b : Property) : Bool :=
  a.label == b.label && sameOption Range.same a.range b.range

def Node.same (a b : Node) : Bool := a.message == b.message && a.final == b.final

def Path.same (a b : Path) : Bool := a.label == b.label && a.mods == b.mods

def Start.same (a b : Start) : Bool := a.message == b.message && a.node == b.node

def Trigger.same : Trigger → Trigger → Bool
  | condition e, condition f => e.same f
  | node a, node b => a == b
  | _, _ => false

def Action.same (a b : Action) : Bool :=
  a.trigger.same b.trigger && a.label == b.label && a.message == b.message && a.mods == b.mods

def Behavior.same (a b : Behavior) : Bool :=
  sameOption Expr.same a.cond b.cond && a.message == b.message && a.mods == b.mods &&
    a.count == b.count && a.negated == b.negated && a.target == b.target

def Placement.same (a b : Placement) : Bool := a.place == b.place

def Item.same (a b : Item) : Bool :=
  a.label == b.label && a.appendix == b.appendix &&
    (Category.all.all fun c => sameList Behavior.same (a.behaviors c) (b.behaviors c)) &&
    a.resources == b.resources && sameOption Placement.same a.location b.location

def Command.same : Command → Command → Bool
  | message a, message b => a == b
  | addItem a b, addItem c d => a == c && b == d
  | delItem a, delItem b => a == b
  | setItem a b c, setItem d e f => a == d && b == e && c == f
  | addResource a b, addResource c d => a == c && b == d
  | delResource a b, delResource c d => a == c && b == d
  | setNode a b, setNode c d => a == c && b == d
  | addPath a b c, addPath d e f => a == d && b == e && c == f
  | delPath a b, delPath c d => a == c && b == d
  | teleport a, teleport b => a == b
  | callMod a e, callMod b f => a == b && sameOption Expr.same e f
  | skip a, skip b => a == b
  | .return, .return => true
  | setVariable a, setVariable b => a.same b
  | _, _ => false

def Directive.same (a b : Directive) : Bool :=
  a.command.same b.command && sameOption Expr.same a.cond b.cond

def Document.same (a b : Document) : Bool :=
  Table.same Definition.same a.definitions b.definitions &&
    Table.same Property.same a.properties b.properties &&
    Table.same Node.same a.nodes b.nodes &&
    Table.same (Table.same Path.same) a.edges b.edges &&
    Table.same Item.same a.items b.items &&
    Table.same (sameList Directive.same) a.modifiers b.modifiers &&
    Table.same (· == ·) a.boring b.boring &&
    sameList Action.same a.actions b.actions &&
    sameOption Start.same a.start b.start

end Gamebook
