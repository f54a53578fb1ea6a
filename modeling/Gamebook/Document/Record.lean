import Gamebook.Document.Warning

/-!
Records: the single entries of a script, each complete in itself. Adding a record
to a document writes one place of it and always succeeds; replacing an entry of a
table is worth a warning.
-/
namespace Gamebook

inductive Record where
  | start (start : Start)
  | node (id : String) (node : Node)
  | property (name : String) (property : Property)
  | path (source target : String) (path : Path)
  | action (action : Action)
  | behavior (item : String) (category : Category) (behavior : Behavior)
  | resources (item : String) (nodes : List String)
  | location (item : String) (placement : Placement)
  | boring (case : BoringCase) (message : String)
  | item (id label : String) (appendix : Option String)
  | modifier (name : String)
  | directive (modifier : String) (directive : Directive)
  | definition (definition : Definition)
  deriving Repr

/-- The word that calls a command in a script. -/
def Command.keyword : Command → String
  | message _ => "message"
  | addItem .. => "additem"
  | delItem _ => "delitem"
  | setItem .. => "setitem"
  | addResource .. => "addresource"
  | delResource .. => "delresource"
  | setNode .. => "setnode"
  | addPath .. => "addpath"
  | delPath .. => "delpath"
  | teleport _ => "teleport"
  | callMod .. => "callmod"
  | skip _ => "skip"
  | .return => "return"
  | setVariable _ => "var"

namespace Record

/-- What warnings call the record. -/
def label : Record → String
  | start _ => "start"
  | node .. => "node"
  | property .. => "property"
  | path .. => "path"
  | action _ => "action"
  | behavior _ category _ => category.name
  | resources .. => "resources"
  | location .. => "location"
  | boring .. => "boring"
  | item .. => "item"
  | modifier _ => "mod"
  | directive _ d => d.command.keyword
  | definition _ => "var"

/-- The warning about tokens that the record does not use. -/
def trailing? (r : Record) : Line → Option Warning
  | [] => none
  | line => some (.trailing r.label line)

end Record

namespace Document

def add (d : Document) : Record → Document
  | .start s => { d with start := some s }
  | .node id n => { d with nodes := d.nodes.insert id n }
  | .property name p => { d with properties := d.properties.insert name p }
  | .path source target p =>
    { d with edges := d.edges.update source .empty (·.insert target p) }
  | .action a => { d with actions := d.actions ++ [a] }
  | .behavior id category b => d.updateItem id (·.addBehavior b category)
  | .resources id nodes => d.updateItem id (nodes.foldl Item.addResource)
  | .location id p => d.updateItem id fun item => { item with location := some p }
  | .boring case message => { d with boring := d.boring.insert case message }
  | .item id label appendix =>
    d.updateItem id fun item => { item with label := some label, appendix := appendix }
  | .modifier name => { d with modifiers := d.modifiers.update name [] id }
  | .directive name directive =>
    { d with modifiers := d.modifiers.update name [] (· ++ [directive]) }
  | .definition v => { d with definitions := d.definitions.insert v.name v }

/-- Is there a path between the two nodes? -/
def hasPath (d : Document) (source target : String) : Bool :=
  (d.edges.get? source).any (·.contains target)

/-- The warning about what adding the record replaces. -/
def warning? (d : Document) : Record → Option Warning
  | .node id _ => if d.nodes.contains id then some (.nodeRedefined id) else none
  | .property name _ => if d.properties.contains name then some (.propertyRedefined name) else none
  | .path source target _ =>
    if d.hasPath source target then some (.pathRedefined source target) else none
  | .item id _ _ => ((d.items.get? id).bind (·.label)).map (.itemRedefined id)
  | _ => none

end Document
end Gamebook
