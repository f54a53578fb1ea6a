import Gamebook.Document.Basic
import Gamebook.Expr.Form

/-!
The engine form of a document. Every record carries its ref; operations and places
are given by number; the parts of an item that are empty are left out.
-/
namespace Gamebook

/-- The form of an expression that may be missing. -/
def formOption : Option Expr → Except FormError Data
  | none => .ok .null
  | some e => e.form

def formList (f : α → Except FormError Data) (items : List α) : Except FormError Data :=
  (items.mapM f).map .list

def Table.form (name : κ → String) (f : α → Except FormError Data) (t : Table κ α) :
    Except FormError Data :=
  (t.entries.mapM fun (k, v) => (f v).map (name k, ·)).map .record

def optionalText (s : Option String) : Data := .ofOption .text s

def Assignment.code : Assignment → Nat
  | set => 1
  | increase => 2
  | decrease => 3
  | multiply => 4
  | divide => 5

def Change.code : Change → Nat
  | declare => 0
  | assign how _ => how.code

def Change.value? : Change → Option Expr
  | declare => none
  | assign _ e => some e

def Definition.form (v : Definition) : Except FormError Data := do
  let value ← formOption v.change.value?
  return .record [("_ref", .nat v.ref), ("type", .nat v.change.code), ("expression", value)]

def Range.form (r : Range) : Data := .record [("from", .number r.low), ("to", .number r.high)]

def Property.form (p : Property) : Data :=
  .record [("_ref", .nat p.ref), ("label", .text p.label), ("range", .ofOption Range.form p.range)]

def Node.form (n : Node) : Data :=
  .record [("_ref", .nat n.ref), ("message", .text n.message), ("isFinal", .bool n.final)]

def Path.form (p : Path) : Data :=
  .record [("_ref", .nat p.ref), ("label", .text p.label), ("mods", .texts p.mods)]

def Start.form (s : Start) : Data :=
  .record [("_ref", .nat s.ref), ("message", .text s.message), ("node", .text s.node)]

def Trigger.cond? : Trigger → Option Expr
  | condition e => some e
  | node _ => none

def Trigger.node? : Trigger → Option String
  | condition _ => none
  | node id => some id

def Action.form (a : Action) : Except FormError Data := do
  let cond ← formOption a.trigger.cond?
  return .record [("_ref", .nat a.ref), ("cond", cond), ("node", optionalText a.trigger.node?),
    ("label", .text a.label), ("msg", optionalText a.message), ("mods", .texts a.mods)]

def Behavior.form (b : Behavior) : Except FormError Data := do
  let cond ← formOption b.cond
  let target := match b.target with
    | some t => [("target", .text t)]
    | none => []
  return .record ([("_ref", .ofOption .nat b.ref), ("cond", cond), ("msg", optionalText b.message),
    ("mods", .texts b.mods), ("no", .bool b.negated), ("count", .ofOption .nat b.count)] ++ target)

def Place.code : Place → Nat
  | nowhere => 0
  | player => 1
  | node _ => 3

def Place.node? : Place → Option String
  | node id => some id
  | _ => none

def Placement.form (p : Placement) : Data :=
  .record [("_ref", .nat p.ref), ("type", .nat p.place.code), ("node", optionalText p.place.node?)]

/-- One field for every category that has reactions. -/
def Item.behaviorFields (item : Item) : List Category → Except FormError (List (String × Data))
  | [] => .ok []
  | c :: cs => do
    if (item.behaviors c).isEmpty then item.behaviorFields cs
    else
      let list ← formList Behavior.form (item.behaviors c)
      return (c.name, list) :: (← item.behaviorFields cs)

def Item.form (item : Item) : Except FormError Data := do
  let behaviors ← item.behaviorFields Category.all
  let resources := if item.resources.isEmpty then [] else [("resources", .texts item.resources)]
  let location := match item.location with
    | some p => [("location", p.form)]
    | none => []
  return .record ([("label", optionalText item.label), ("appendix", optionalText item.appendix)] ++
    behaviors ++ resources ++ location)

def BoringCase.name : BoringCase → String
  | pick => "pick"
  | pickNo => "pickNo"
  | check => "check"
  | use => "use"
  | lay => "lay"
  | layNo => "layNo"

def Command.name : Command → String
  | message _ => "message"
  | addItem .. => "addItem"
  | delItem _ => "delItem"
  | setItem .. => "setItem"
  | addResource .. => "addResource"
  | delResource .. => "delResource"
  | setNode .. => "setNode"
  | addPath .. => "addPath"
  | delPath .. => "delPath"
  | teleport _ => "teleport"
  | callMod .. => "callMod"
  | skip _ => "skip"
  | .return => "return"
  | setVariable _ => "var"

def Command.args : Command → Except FormError (List Data)
  | message text => .ok [.text text]
  | addItem item node => .ok [.text item, optionalText node]
  | delItem item => .ok [.text item]
  | setItem item label appendix => .ok [.text item, .text label, optionalText appendix]
  | addResource item node => .ok [.text item, .text node]
  | delResource item node => .ok [.text item, .text node]
  | setNode node text => .ok [.text node, .text text]
  | addPath source label target => .ok [.text source, .text label, .text target]
  | delPath source target => .ok [.text source, .text target]
  | teleport node => .ok [.text node]
  | callMod modifier cond => do return [.text modifier, ← formOption cond]
  | skip count => .ok [.nat count]
  | .return => .ok []
  | setVariable definition => do return [.text definition.name, ← definition.form]

/-- A command of no kind has no arguments to give. -/
def Command.argsOf : Option Command → Except FormError (List Data)
  | some command => command.args
  | none => .error .blankNode

def Directive.form (d : Directive) : Except FormError Data := do
  let cond ← formOption d.cond
  let args ← d.command.args
  return .record [("_ref", .nat d.ref), ("cond", cond),
    ("command", .list (.text d.command.name :: args))]

def Document.form (d : Document) : Except FormError Data := do
  let definitions ← d.definitions.form id Definition.form
  let properties ← d.properties.form id fun p => .ok p.form
  let actions ← formList Action.form d.actions
  let nodes ← d.nodes.form id fun n => .ok n.form
  let edges ← d.edges.form id fun targets => targets.form id fun p => .ok p.form
  let items ← d.items.form id Item.form
  let boring ← d.boring.form BoringCase.name fun s => .ok (.text s)
  let modifiers ← d.modifiers.form id (formList Directive.form)
  return .record [("variables", definitions), ("properties", properties), ("actions", actions),
    ("nodes", nodes), ("edges", edges), ("items", items), ("boring", boring),
    ("modifiers", modifiers), ("start", .ofOption Start.form d.start)]

end Gamebook
