import Gamebook.Script.Progress

/-!
Scopes. At the top of a script a statement is chosen by its leading keyword. A
section keyword opens a list of records of one kind, one to a line, up to a blank
line; an item and a modifier open a block of records or directives, up to an empty
line. Nothing nests deeper, so a scope is all that reading has to remember.
-/
namespace Gamebook

/-- The sections of a script. -/
inductive Heading where
  | nodes | vars | properties | actions | map | boring
  deriving DecidableEq, Repr

def Heading.name : Heading → String
  | nodes => "nodes"
  | vars => "vars"
  | properties => "properties"
  | actions => "actions"
  | map => "map"
  | boring => "boring"

inductive Scope where
  | top
  | lines (heading : Heading)
  | item (id : String)
  | modifier (name : String)
  deriving DecidableEq, Repr

/-- What text can come next in a scope. -/
inductive Lead where
  | gap | close | comment | block
  | heading (heading : Heading)
  | item | modifier | start | node | property | path | action
  | first | behavior (category : Category) | location | resources
  | boring (id : String)
  /-- A variable with its sigil, which is left to be read. -/
  | sigil
  | var
  deriving DecidableEq, Repr

namespace Scope

/-- The item that a block is about. -/
def item? : Scope → Option String
  | item id => some id
  | _ => none

/-- The records that name an item, or are about the item of a block. -/
def itemLeads : List (Lead × Pattern) :=
  [(.first, Grammar.keyword "first"), (.behavior .pick, Grammar.keyword "pick"),
    (.behavior .check, Grammar.keyword "check"), (.behavior .use, Grammar.keyword "use"),
    (.behavior .lay, Grammar.keyword "lay"), (.location, Grammar.keyword "location"),
    (.resources, Grammar.resources)]

/-- What stands between the lines of a block. -/
def blockLeads : List (Lead × Pattern) :=
  [(.gap, Grammar.blanks), (.close, Grammar.lineEnd), (.block, Grammar.blockOpen),
    (.comment, Grammar.comment)]

/-- The leads of a scope in the order they are tried. -/
def leads : Scope → List (Lead × Pattern)
  | top =>
    [(.block, Grammar.blockOpen), (.comment, Grammar.comment),
      (.heading .nodes, Grammar.keyword "nodes"), (.heading .vars, Grammar.keyword "vars"),
      (.heading .properties, Grammar.keyword "properties"),
      (.heading .actions, Grammar.keyword "actions"), (.heading .map, Grammar.keyword "map"),
      (.item, Grammar.keyword "item"), (.heading .boring, Grammar.keyword "boring"),
      (.modifier, Grammar.keyword "mod"), (.start, Grammar.keyword "start"),
      (.node, Grammar.keyword "node"), (.property, Grammar.keyword "property"),
      (.path, Grammar.keyword "path"), (.action, Grammar.keyword "action")] ++
    itemLeads ++
    [(.sigil, Grammar.variableName), (.var, Grammar.keyword "var"),
      (.gap, Grammar.blanks), (.gap, Grammar.lineEnd)]
  | lines _ =>
    [(.close, Grammar.blankLine), (.block, Grammar.blockLine), (.comment, Grammar.commentLine)]
  | item id => blockLeads ++ itemLeads ++ [(.boring id, Grammar.keyword "boring")]
  | modifier _ => blockLeads

theorem leads_progress (scope : Scope) : scope.leads.all (·.2.progresses) = true := by
  cases scope with
  | top => decide
  | lines h => rfl
  | item id => rfl
  | modifier name => rfl

end Scope

/-- Move past what comes next in a scope. -/
def Read.lead (scope : Scope) : Read (Option Lead) := fun c =>
  match Pattern.firstOf scope.leads c.rest with
  | some (.sigil, _) => .ok (some .sigil) c
  | some (lead, m) => .ok (some lead) (c.past m)
  | none => .ok none c

/-- The scope that a record opens. -/
def Record.opens? : Record → Option Scope
  | .item id _ _ => some (.item id)
  | .modifier name => some (.modifier name)
  | _ => none

namespace Parse

/-- A record of one line; the result is the scope after it. -/
def statement (setting : Setting) (scope : Scope) (subject : String)
    (reader : Nat → Entry Record) : Parse Scope := do
  let (r, unused) ← read (Read.entry setting subject reader)
  commit r unused
  return r.opens?.getD scope

/-- A definition counts as soon as it is read, before the end of its line. -/
def definition (setting : Setting) : Parse Unit := do
  let v ← read (Read.definition setting)
  commit (.definition v) []
  read (Read.lineEnd .lineEnd)

def directive (setting : Setting) (modifier : String) : Parse Unit := do
  let (d, unused) ← read (Read.directive setting)
  commit (.directive modifier d) unused

/-- The reactions before a word that names none count. -/
def reactions (setting : Setting) (id : String) : Parse Unit := do
  let ((records, ref), line) ← read (Read.entry setting "boring" (Entry.reactions id))
  commitAll records
  match line with
  | [] => return ()
  | t :: _ => fail (.unexpectedAction t.content.plain) ref

def start (setting : Setting) (scope : Scope) : Parse Scope := do
  if (← get).document.start.isSome then read (Read.failHere .startDefined)
  else statement setting scope "start" Entry.start

def behavior (setting : Setting) (scope : Scope) (category : Category) (count : Option Nat) :
    Parse Scope :=
  statement setting scope category.name (Entry.behavior category scope.item? count)

/-- Go on after a lead; the result is the scope of what follows. -/
def follow (setting : Setting) (scope : Scope) : Lead → Parse Scope
  | .gap => return scope
  | .close => return .top
  | .comment => do read (Read.skipThrough Grammar.lineEnd); return scope
  | .block => do read Read.blockComment; return scope
  | .heading h => do read (Read.heading h.name); return .lines h
  | .item => statement setting scope "item" Entry.item
  | .modifier => statement setting scope "mod" Entry.modifier
  | .start => start setting scope
  | .node => statement setting scope "node" Entry.node
  | .property => statement setting scope "property" Entry.property
  | .path => statement setting scope "path" Entry.path
  | .action => statement setting scope "action" Entry.action
  | .first => do
    let (count, category) ← read Read.first
    behavior setting scope category (some count)
  | .behavior category => behavior setting scope category none
  | .location => statement setting scope "location" (Entry.location scope.item?)
  | .resources => statement setting scope "resources" (Entry.resources scope.item?)
  | .boring id => do reactions setting id; return scope
  | .sigil | .var => do definition setting; return scope

/-- A line of a section. -/
def sectionLine (setting : Setting) (scope : Scope) : Heading → Parse Scope
  | .nodes => statement setting scope "node" Entry.node
  | .vars => do definition setting; return scope
  | .properties => statement setting scope "property" Entry.property
  | .actions => statement setting scope "action" Entry.action
  | .map => statement setting scope "path" Entry.path
  | .boring => statement setting scope "boring-default" Entry.boring

/-- Text that has no lead in its scope. -/
def plainLine (setting : Setting) : Scope → Parse Scope
  | .top | .item _ => read (Read.failHere .unexpectedToken)
  | .lines h => sectionLine setting (.lines h) h
  | .modifier name => do directive setting name; return .modifier name

def proceed (setting : Setting) (scope : Scope) : Option Lead → Parse Scope
  | some lead => follow setting scope lead
  | none => plainLine setting scope

/-- Read what comes next. -/
def step (setting : Setting) (scope : Scope) : Parse Scope := do
  proceed setting scope (← read (Read.lead scope))

namespace Takes

theorem statement (setting : Setting) (scope : Scope) (subject : String)
    (reader : Nat → Entry Record) : Takes (Parse.statement setting scope subject reader) :=
  .bind_left (.read (.entry ..)) fun _ => .bind (.commit _ _) fun _ => .pure _

theorem definition (setting : Setting) : Takes (Parse.definition setting) :=
  .bind_left (.read (.definition setting)) fun _ => .bind (.commit _ _) fun _ =>
    .read (.lineEnd _)

theorem directive (setting : Setting) (modifier : String) :
    Takes (Parse.directive setting modifier) :=
  .bind_left (.read (.directive setting)) fun _ => .commit _ _

theorem reactions (setting : Setting) (id : String) : Takes (Parse.reactions setting id) := by
  refine .bind_left (.read (.entry ..)) fun _ => .bind (.commitAll _) fun _ => ?_
  split
  · exact .pure _
  · exact .fail _ _

theorem sectionLine (setting : Setting) (scope : Scope) (h : Heading) :
    Takes (Parse.sectionLine setting scope h) := by
  cases h with
  | vars => exact .bind_left (definition setting) fun _ => .pure _
  | _ => exact statement ..

theorem plainLine (setting : Setting) (scope : Scope) : Takes (Parse.plainLine setting scope) := by
  cases scope with
  | top => exact .read (.failHere _)
  | item => exact .read (.failHere _)
  | lines h => exact sectionLine ..
  | modifier name => exact .bind_left (directive ..) fun _ => .pure _

end Takes

namespace Advances

theorem start (setting : Setting) (scope : Scope) : Advances (Parse.start setting scope) := by
  refine .bind (fun s => .refl s.cursor) fun s => ?_
  split
  · exact .read (.failHere _)
  · exact (Takes.statement ..).advances

theorem follow (setting : Setting) (scope : Scope) (lead : Lead) :
    Advances (Parse.follow setting scope lead) := by
  cases lead with
  | gap => exact .pure _
  | close => exact .pure _
  | comment => exact .bind (.read (.skipThrough _)) fun _ => .pure _
  | block => exact .bind (.read .blockComment) fun _ => .pure _
  | heading h => exact .bind (.read (.heading _)) fun _ => .pure _
  | start => exact start _ _
  | first => exact .bind (.read .first) fun _ => (Takes.statement ..).advances
  | boring => exact .bind (Takes.reactions ..).advances fun _ => .pure _
  | sigil => exact .bind (Takes.definition ..).advances fun _ => .pure _
  | var => exact .bind (Takes.definition ..).advances fun _ => .pure _
  | _ => exact (Takes.statement ..).advances

theorem lead (scope : Scope) : Read.Advances (Read.lead scope) := by
  intro c
  unfold Read.lead
  split
  · exact .refl c
  · rename_i l m _ h
    obtain ⟨p, -, hp⟩ := Pattern.run_of_firstOf h
    exact Cursor.reaches_past hp
  · exact .refl c

theorem proceed (setting : Setting) (scope : Scope) (lead : Option Lead) :
    Advances (Parse.proceed setting scope lead) := by
  cases lead with
  | none => exact (Takes.plainLine ..).advances
  | some l => exact follow _ _ l

theorem step (setting : Setting) (scope : Scope) : Advances (Parse.step setting scope) :=
  .bind (.read (lead scope)) (proceed setting scope)

end Advances

/-- A lead is taken, unless it is a variable or there is none. -/
theorem lead_lt {scope : Scope} {c d : Cursor} {l : Option Lead}
    (h : Read.lead scope c = .ok l d) (hc : c.rest ≠ []) :
    d.rest.length < c.rest.length ∨ d = c ∧ (l = none ∨ l = some .sigil) := by
  unfold Read.lead at h
  split at h
  · simp_all
  · rename_i lead m _ hl
    obtain ⟨p, hp, hm⟩ := Pattern.run_of_firstOf hl
    simp only [EStateM.Result.ok.injEq] at h
    rw [← h.2]
    exact .inl (Pattern.run_length_lt_of_progresses
      (List.all_eq_true.1 scope.leads_progress _ hp) hc hm)
  · simp_all

/-- Every step takes text. -/
theorem Takes.step (setting : Setting) (scope : Scope) : Takes (Parse.step setting scope) := by
  refine ⟨.step setting scope, fun {s a t} h hs => ?_⟩
  change EStateM.bind (Parse.read (Read.lead scope)) (proceed setting scope) s = .ok a t at h
  unfold EStateM.bind Parse.read at h
  cases hl : Read.lead scope s.cursor with
  | error fault c => simp [hl] at h
  | ok l c =>
    simp only [hl] at h
    have hr := (Advances.proceed setting scope l (s.moveTo c)).length_le
    rw [h] at hr
    rcases lead_lt hl hs with hlt | ⟨rfl, rfl | rfl⟩
    · exact Nat.lt_of_le_of_lt hr hlt
    · exact (plainLine setting scope).lt (s := s.moveTo s.cursor) h hs
    · exact (bind_left (definition setting) fun _ => .pure scope).lt (s := s.moveTo s.cursor) h hs

end Parse
end Gamebook
