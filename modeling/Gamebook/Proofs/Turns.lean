import Gamebook.Proofs.Forms
import Gamebook.Proofs.RoundTrip

/-!
What a step can do, said once. A step finds a lead, and the lead calls for a turn: text
without a record, a record of some form, a definition, a directive, or a line of reactions.
A turn that fails has put nothing into the document, but for the two that put it there
before they are at the end of their line.
-/
namespace Gamebook

/-- What is read behind a lead. -/
inductive Turn where
  /-- Text that holds no record. -/
  | pass
  | form (form : Form)
  /-- A behavior behind its count. -/
  | first
  | definition
  | directive (modifier : String)
  | reactions (item : String)
  deriving DecidableEq, Repr

/-- The form of the record that comes next, and the text of its line. -/
def Turn.form? (text : List Char) : Turn → Option (Form × List Char)
  | form f => some (f, text)
  | first =>
    match Read.first (.ofText text) with
    | .ok (count, category) c => some (.behavior category (some count), c.rest)
    | .error .. => none
  | _ => none

def Lead.turn : Lead → Turn
  | gap | close | comment | block | heading _ => .pass
  | item => .form .item
  | modifier => .form .modifier
  | start => .form .start
  | node => .form .node
  | property => .form .property
  | path => .form .path
  | action => .form .action
  | first => .first
  | behavior category => .form (.behavior category none)
  | location => .form .location
  | resources => .form .resources
  | boring id => .reactions id
  | sigil | var => .definition

def Heading.turn : Heading → Turn
  | nodes => .form .node
  | vars => .definition
  | properties => .form .property
  | actions => .form .action
  | map => .form .path
  | boring => .form .boring

namespace Scope

def turn : Scope → Option Lead → Turn
  | _, some lead => lead.turn
  | top, none | item _, none => .pass
  | lines h, none => h.turn
  | modifier name, none => .directive name

/-- The scope behind text that holds no record. -/
def behind (scope : Scope) : Option Lead → Scope
  | some .close => top
  | some (.heading h) => lines h
  | _ => scope

/-- The lead at the beginning of a text, and the text behind it. -/
def ahead (scope : Scope) (text : List Char) : Option Lead × List Char :=
  match Pattern.firstOf scope.leads text with
  | some (.sigil, _) => (some .sigil, text)
  | some (lead, m) => (some lead, m.rest)
  | none => (none, text)

theorem ahead_of_lead {scope : Scope} {lead : Option Lead} {c d : Cursor}
    (h : Read.lead scope c = .ok lead d) : scope.ahead c.rest = (lead, d.rest) := by
  unfold Read.lead at h
  unfold ahead
  cases hf : Pattern.firstOf scope.leads c.rest with
  | none =>
    rw [hf] at h
    cases h
    rfl
  | some p =>
    obtain ⟨l, m⟩ := p
    rw [hf] at h
    cases l <;> cases h <;> rfl

theorem mem_of_lead {scope : Scope} {lead : Lead} {c d : Cursor}
    (h : Read.lead scope c = .ok (some lead) d) : lead ∈ scope.leads.map Prod.fst := by
  have hmem : ∀ {l : Lead} {m : Match}, Pattern.firstOf scope.leads c.rest = some (l, m) →
      l ∈ scope.leads.map Prod.fst := by
    intro l m hm
    obtain ⟨p, hp, -⟩ := Pattern.run_of_firstOf hm
    exact List.mem_map_of_mem hp
  unfold Read.lead at h
  split at h <;> cases h
  · rename_i hm
    exact hmem hm
  · rename_i hm
    exact hmem hm

/-- Only an item has a line of reactions. -/
theorem eq_of_turn_reactions {scope : Scope} {lead : Option Lead} {c d : Cursor} {id : String}
    (hl : Read.lead scope c = .ok lead d) (h : scope.turn lead = .reactions id) :
    scope = item id ∧ lead = some (.boring id) := by
  cases lead with
  | none =>
    cases scope with
    | lines heading => cases heading <;> cases h
    | _ => cases h
  | some l =>
    cases l <;> cases h
    have hmem := mem_of_lead hl
    cases scope with
    | top => simp [leads, itemLeads] at hmem
    | lines => simp [leads] at hmem
    | modifier => simp [leads, blockLeads] at hmem
    | item =>
      simp only [leads, blockLeads, itemLeads, List.cons_append,
        List.nil_append, List.map_cons, List.map_nil, List.mem_cons, List.not_mem_nil,
        Lead.boring.injEq, reduceCtorEq, false_or, or_false] at hmem
      exact ⟨by rw [hmem], rfl⟩

end Scope

namespace Progress

def commitAll (s : Progress) (rs : List Record) : Progress := rs.foldl (·.commit · []) s

@[simp] theorem cursor_commitAll (s : Progress) (rs : List Record) :
    (s.commitAll rs).cursor = s.cursor := by
  induction rs generalizing s with
  | nil => rfl
  | cons r rs ih => exact ih (s.commit r [])

theorem Adds.refl (s : Progress) : s.Adds [] s := ⟨rfl, rfl⟩

theorem Adds.commitAll (s : Progress) (rs : List Record) : s.Adds rs (s.commitAll rs) := by
  induction rs generalizing s with
  | nil => exact .refl s
  | cons r rs ih => exact (Adds.commit s r).trans (ih (s.commit r []))

end Progress

/-- A sequence whose first part gives a value goes on with it. -/
theorem bind_of_ok {x : EStateM ε σ α} {f : α → EStateM ε σ β} {s t : σ} {a : α}
    (h : x s = .ok a t) : (x >>= f) s = f a t := by
  change EStateM.bind x f s = f a t
  simp only [EStateM.bind, h]

theorem bind_of_error {x : EStateM ε σ α} {f : α → EStateM ε σ β} {s t : σ} {e : ε}
    (h : x s = .error e t) : (x >>= f) s = .error e t := by
  change EStateM.bind x f s = .error e t
  simp only [EStateM.bind, h]

namespace Parse

variable {setting : Setting} {scope : Scope} {s t : Progress} {c : Cursor} {fault : Fault}

theorem read_of_error {x : Read α} (h : x s.cursor = .error fault c) :
    read x s = .error fault (s.moveTo c) := by
  simp only [read, h]

/-- A lead is always found or missed. -/
theorem exists_lead (scope : Scope) (c : Cursor) : ∃ lead d, Read.lead scope c = .ok lead d := by
  unfold Read.lead
  split <;> exact ⟨_, _, rfl⟩

theorem commitAll_eq (rs : List Record) (s : Progress) :
    commitAll rs s = .ok () (s.commitAll rs) := by
  induction rs generalizing s with
  | nil => rfl
  | cons r rs ih => exact ih (s.commit r [])

/-- A record of the form comes next, and its line is read from the second state on. -/
inductive Begins (s : Progress) : Turn → Form → Progress → Prop
  | form {f : Form} (hs : f = .start → s.document.start = none) : Begins s (.form f) f s
  | first {count : Nat} {category : Category} {c : Cursor}
    (h : Read.first s.cursor = .ok (count, category) c) :
    Begins s .first (.behavior category (some count)) (s.moveTo c)

theorem Begins.adds {turn : Turn} {f : Form} (h : Begins s turn f t) : s.Adds [] t := by
  cases h with
  | form => exact .refl s
  | first => exact .moveTo s _

theorem Begins.reaches {turn : Turn} {f : Form} (h : Begins s turn f t) :
    s.cursor.Reaches t.cursor := by
  cases h with
  | form => exact .refl _
  | first h =>
    have hr := Read.Advances.first.of_ok h
    exact hr

theorem Begins.form?_eq {turn : Turn} {f : Form} (h : Begins s turn f t) :
    turn.form? s.cursor.rest = some (f, t.cursor.rest) := by
  cases h with
  | form => rfl
  | first h =>
    obtain ⟨e, he, hrest⟩ := Read.first_ofText h
    simp only [Turn.form?, he, hrest]
    rfl

/-- A turn that could put records into the document before the end of its line does not get
that far. -/
def Unread (setting : Setting) (s : Progress) : Turn → Prop
  | .definition => ∀ v c, Read.definition setting s.cursor ≠ .ok v c
  | .reactions id => ∀ p c, Read.entry setting "boring" (Entry.reactions id) s.cursor ≠ .ok p c
  | _ => True

theorem Begins.unread {turn : Turn} {f : Form} (h : Begins s turn f t) :
    Unread setting s turn := by
  cases h with
  | form => trivial
  | first => trivial

/-- What comes of going on behind a lead, with the records that it has put into the
document. -/
inductive Turned (setting : Setting) (scope : Scope) (lead : Option Lead) (s : Progress) :
    List Record → EStateM.Result Fault Progress Scope → Prop
  | pass {t : Progress} (h : scope.turn lead = .pass) (ht : s.Adds [] t) :
    Turned setting scope lead s [] (.ok (scope.behind lead) t)
  | refused {fault : Fault} {t : Progress} (h : Unread setting s (scope.turn lead))
    (ht : s.Adds [] t) :
    Turned setting scope lead s [] (.error fault t)
  | record {f : Form} {t : Progress} {r : Record} {unused : Line} {c : Cursor}
    (hb : Begins s (scope.turn lead) f t)
    (h : Read.entry setting f.subject (f.reader scope.item?) t.cursor = .ok (r, unused) c) :
    Turned setting scope lead s [r] (.ok (r.opens?.getD scope) ((t.moveTo c).commit r unused))
  | definition {v : Definition} {c d : Cursor} (h : scope.turn lead = .definition)
    (hv : Read.definition setting s.cursor = .ok v c)
    (hd : Read.lineEnd .lineEnd (s.moveTo c).cursor = .ok () d) :
    Turned setting scope lead s [.definition v]
      (.ok scope (((s.moveTo c).commit (.definition v) []).moveTo d))
  | unfinished {v : Definition} {c d : Cursor} {fault : Fault} (h : scope.turn lead = .definition)
    (hv : Read.definition setting s.cursor = .ok v c)
    (hd : Read.lineEnd .lineEnd (s.moveTo c).cursor = .error fault d) :
    Turned setting scope lead s [.definition v]
      (.error fault (((s.moveTo c).commit (.definition v) []).moveTo d))
  | directive {name : String} {d : Directive} {unused : Line} {c : Cursor}
    (h : scope.turn lead = .directive name)
    (hd : Read.directive setting s.cursor = .ok (d, unused) c) :
    Turned setting scope lead s [.directive name d]
      (.ok scope ((s.moveTo c).commit (.directive name d) unused))
  | reactions {id : String} {rs : List Record} {ref : Nat} {c : Cursor}
    (h : scope.turn lead = .reactions id)
    (hr : Read.entry setting "boring" (Entry.reactions id) s.cursor = .ok ((rs, ref), []) c) :
    Turned setting scope lead s rs (.ok scope ((s.moveTo c).commitAll rs))
  | stray {id : String} {rs : List Record} {ref : Nat} {t : Token} {line : Line} {c : Cursor}
    (h : scope.turn lead = .reactions id)
    (hr : Read.entry setting "boring" (Entry.reactions id) s.cursor =
      .ok ((rs, ref), t :: line) c) :
    Turned setting scope lead s rs
      (.error (.refused (.unexpectedAction t.content.plain) ref) ((s.moveTo c).commitAll rs))

namespace Turned

variable {lead : Option Lead}

/-- The records, and nothing else, are what the document gets. -/
theorem document {rs : List Record} {r : EStateM.Result Fault Progress Scope}
    (h : Turned setting scope lead s rs r) :
    (reached r).document = rs.foldl Document.add s.document := by
  cases h with
  | pass _ ht => exact ht.document
  | refused _ ht => exact ht.document
  | @record f t r unused c hb _ => exact congrArg (Document.add · r) hb.adds.document
  | definition => rfl
  | unfinished => rfl
  | directive => rfl
  | @reactions id rs ref c => exact (Progress.Adds.commitAll (s.moveTo c) rs).document
  | @stray id rs ref t line c => exact (Progress.Adds.commitAll (s.moveTo c) rs).document

theorem congr {rs : List Record} {r r' : EStateM.Result Fault Progress Scope}
    (h : Turned setting scope lead s rs r) (hr : r' = r) : Turned setting scope lead s rs r' :=
  hr ▸ h

/-- A fault that leaves the document alone. -/
theorem fail {fault : Fault} (h : Unread setting s (scope.turn lead)) (ht : s.Adds [] t)
    {r : EStateM.Result Fault Progress Scope} (hr : r = .error fault t) :
    ∃ rs, Turned setting scope lead s rs r :=
  ⟨[], (refused h ht).congr hr⟩

variable (setting)

theorem read {x : Read α} (next : α → Scope) (h : scope.turn lead = .pass)
    (hn : ∀ a, next a = scope.behind lead) :
    ∃ rs, Turned setting scope lead s rs
      ((do let a ← Parse.read x; return next a : Parse Scope) s) := by
  cases hx : x s.cursor with
  | ok a c =>
    have heq := bind_of_ok (f := fun a => pure (next a)) (read_of_ok hx)
    exact ⟨[], (pass h (.moveTo s c)).congr (heq.trans (hn a ▸ rfl))⟩
  | error fault c => exact fail (h ▸ trivial) (.moveTo s c) (bind_of_error (read_of_error hx))

theorem statement {f : Form} (hb : Begins s (scope.turn lead) f t) :
    ∃ rs, Turned setting scope lead s rs
      (Parse.statement setting scope f.subject (f.reader scope.item?) t) := by
  cases he : Read.entry setting f.subject (f.reader scope.item?) t.cursor with
  | ok p c => exact ⟨[p.1], (record hb he).congr (bind_of_ok (read_of_ok he))⟩
  | error fault c =>
    have ht : s.Adds [] (t.moveTo c) := hb.adds.trans (.moveTo t c)
    exact fail hb.unread ht (bind_of_error (read_of_error he))

theorem form {f : Form} (h : scope.turn lead = .form f) (hf : f ≠ .start) :
    ∃ rs, Turned setting scope lead s rs
      (Parse.statement setting scope f.subject (f.reader scope.item?) s) :=
  statement setting (h ▸ .form fun hs => absurd hs hf)

theorem start (h : scope.turn lead = .form .start) :
    ∃ rs, Turned setting scope lead s rs (Parse.start setting scope s) := by
  by_cases hs : s.document.start.isSome = true
  · have hstart : Parse.start setting scope s = Parse.read (Read.failHere .startDefined) s := by
      change (if s.document.start.isSome then _ else _ : Parse Scope) s = _
      rw [if_pos hs]
    exact fail (h ▸ trivial) (.moveTo s _) (hstart.trans (read_of_error rfl))
  · have hstart : Parse.start setting scope s =
        Parse.statement setting scope "start" Entry.start s := by
      change (if s.document.start.isSome then _ else _ : Parse Scope) s = _
      rw [if_neg hs]
    have hb : Begins s (scope.turn lead) .start s := h ▸ .form fun _ => by simpa using hs
    obtain ⟨rs, hrs⟩ := statement setting hb
    exact ⟨rs, hrs.congr hstart⟩

theorem first (h : scope.turn lead = .first) :
    ∃ rs, Turned setting scope lead s rs
      ((do
        let (count, category) ← Parse.read Read.first
        Parse.behavior setting scope category (some count) : Parse Scope) s) := by
  cases hf : Read.first s.cursor with
  | ok p c =>
    have hb : Begins s (scope.turn lead) (.behavior p.2 (some p.1)) (s.moveTo c) := h ▸ .first hf
    obtain ⟨rs, hrs⟩ := statement setting hb
    exact ⟨rs, hrs.congr (bind_of_ok (read_of_ok hf))⟩
  | error fault c => exact fail (h ▸ trivial) (.moveTo s c) (bind_of_error (read_of_error hf))

/-- A definition stands in the document before the end of its line is looked for. -/
theorem defined (h : scope.turn lead = .definition) :
    ∃ rs, Turned setting scope lead s rs
      ((do Parse.definition setting; return scope : Parse Scope) s) := by
  cases hv : Read.definition setting s.cursor with
  | error fault c =>
    have heq := bind_of_error (f := fun v => do
      Parse.commit (.definition v) []
      Parse.read (Read.lineEnd .lineEnd)) (read_of_error hv)
    have hu : Unread setting s (scope.turn lead) := by
      rw [h]
      intro v d hd
      cases hv.symm.trans hd
    exact fail hu (.moveTo s c) (bind_of_error heq)
  | ok v c =>
    have heq : Parse.definition setting s =
        Parse.read (Read.lineEnd .lineEnd) ((s.moveTo c).commit (.definition v) []) :=
      bind_of_ok (read_of_ok hv)
    cases hd : Read.lineEnd .lineEnd (s.moveTo c).cursor with
    | ok a d =>
      exact ⟨_, (definition h hv hd).congr (bind_of_ok (heq.trans (read_of_ok hd)))⟩
    | error fault d =>
      exact ⟨_, (unfinished h hv hd).congr (bind_of_error (heq.trans (read_of_error hd)))⟩

theorem directed {name : String} (h : scope.turn lead = .directive name) :
    ∃ rs, Turned setting scope lead s rs
      ((do Parse.directive setting name; return scope : Parse Scope) s) := by
  cases hd : Read.directive setting s.cursor with
  | ok p c =>
    have heq : Parse.directive setting name s =
        .ok () ((s.moveTo c).commit (.directive name p.1) p.2) :=
      bind_of_ok (read_of_ok hd)
    exact ⟨_, (directive h hd).congr (bind_of_ok heq)⟩
  | error fault c =>
    have heq : Parse.directive setting name s = .error fault (s.moveTo c) :=
      bind_of_error (read_of_error hd)
    exact fail (h ▸ trivial) (.moveTo s c) (bind_of_error heq)

/-- The reactions of a line stand in the document before the rest of it is looked at. -/
theorem reacted {id : String} (h : scope.turn lead = .reactions id) :
    ∃ rs, Turned setting scope lead s rs
      ((do Parse.reactions setting id; return scope : Parse Scope) s) := by
  cases hr : Read.entry setting "boring" (Entry.reactions id) s.cursor with
  | error fault c =>
    have heq : Parse.reactions setting id s = .error fault (s.moveTo c) :=
      bind_of_error (read_of_error hr)
    have hu : Unread setting s (scope.turn lead) := by
      rw [h]
      intro p d hd
      cases hr.symm.trans hd
    exact fail hu (.moveTo s c) (bind_of_error heq)
  | ok p c =>
    obtain ⟨⟨rs, ref⟩, line⟩ := p
    cases line with
    | nil =>
      have heq : Parse.reactions setting id s = .ok () ((s.moveTo c).commitAll rs) :=
        (bind_of_ok (read_of_ok hr)).trans (bind_of_ok (commitAll_eq rs _))
      exact ⟨rs, (reactions h hr).congr (bind_of_ok heq)⟩
    | cons t line =>
      have heq : Parse.reactions setting id s =
          .error (.refused (.unexpectedAction t.content.plain) ref) ((s.moveTo c).commitAll rs) :=
        (bind_of_ok (read_of_ok hr)).trans (bind_of_ok (commitAll_eq rs _))
      exact ⟨rs, (stray h hr).congr (bind_of_error heq)⟩

theorem follow (lead : Lead) :
    ∃ rs, Turned setting scope (some lead) s rs (Parse.follow setting scope lead s) := by
  cases lead with
  | gap => exact ⟨[], .pass rfl (.refl s)⟩
  | close => exact ⟨[], .pass rfl (.refl s)⟩
  | comment => exact read setting (fun _ => scope) rfl fun _ => rfl
  | block => exact read setting (fun _ => scope) rfl fun _ => rfl
  | heading h => exact read setting (fun _ => .lines h) rfl fun _ => rfl
  | start => exact start setting rfl
  | first => exact first setting rfl
  | boring id => exact reacted setting rfl
  | sigil => exact defined setting rfl
  | var => exact defined setting rfl
  | item => exact form setting (f := .item) rfl (nomatch ·)
  | modifier => exact form setting (f := .modifier) rfl (nomatch ·)
  | node => exact form setting (f := .node) rfl (nomatch ·)
  | property => exact form setting (f := .property) rfl (nomatch ·)
  | path => exact form setting (f := .path) rfl (nomatch ·)
  | action => exact form setting (f := .action) rfl (nomatch ·)
  | behavior category => exact form setting (f := .behavior category none) rfl (nomatch ·)
  | location => exact form setting (f := .location) rfl (nomatch ·)
  | resources => exact form setting (f := .resources) rfl (nomatch ·)

theorem sectionLine (h : Heading) :
    ∃ rs, Turned setting (.lines h) none s rs (Parse.sectionLine setting (.lines h) h s) := by
  cases h with
  | nodes => exact form setting (f := .node) rfl (nomatch ·)
  | vars => exact defined setting rfl
  | properties => exact form setting (f := .property) rfl (nomatch ·)
  | actions => exact form setting (f := .action) rfl (nomatch ·)
  | map => exact form setting (f := .path) rfl (nomatch ·)
  | boring => exact form setting (f := .boring) rfl (nomatch ·)

theorem plainLine (scope : Scope) :
    ∃ rs, Turned setting scope none s rs (Parse.plainLine setting scope s) := by
  cases scope with
  | top => exact ⟨[], .refused trivial (.moveTo s _)⟩
  | item => exact ⟨[], .refused trivial (.moveTo s _)⟩
  | lines h => exact sectionLine setting h
  | modifier name => exact directed setting rfl

theorem proceed (lead : Option Lead) :
    ∃ rs, Turned setting scope lead s rs (Parse.proceed setting scope lead s) := by
  cases lead with
  | none => exact plainLine setting scope
  | some lead => exact follow setting lead

end Turned

/-- A step takes the turn that its lead calls for. -/
theorem step_turned (setting : Setting) (scope : Scope) (s : Progress) :
    ∃ lead c rs, Read.lead scope s.cursor = .ok lead c ∧
      Turned setting scope lead (s.moveTo c) rs (step setting scope s) := by
  obtain ⟨lead, c, hl⟩ := exists_lead scope s.cursor
  obtain ⟨rs, hrs⟩ : ∃ rs, Turned setting scope lead (s.moveTo c) rs
      (proceed setting scope lead (s.moveTo c)) := Turned.proceed setting lead
  exact ⟨lead, c, rs, hl, hrs.congr (bind_of_ok (read_of_ok hl))⟩

/-- Where the steps of a run begin, in their order. -/
def stops (setting : Setting) (scope : Scope) (s : Progress) : List (Scope × Progress) :=
  if _hs : s.cursor.rest = [] then []
  else
    (scope, s) ::
      match _h : Parse.step setting scope s with
      | .ok next t => stops setting next t
      | .error .. => []
termination_by s.cursor.rest.length
decreasing_by exact (Takes.step setting scope).lt _h _hs

theorem stops_of_nil (h : s.cursor.rest = []) : stops setting scope s = [] := by
  unfold stops
  rw [dif_pos h]

theorem stops_of_ok {next : Scope} (hs : s.cursor.rest ≠ [])
    (h : Parse.step setting scope s = .ok next t) :
    stops setting scope s = (scope, s) :: stops setting next t := by
  rw [stops, dif_neg hs]
  split
  · rename_i heq
    cases h.symm.trans heq
    rfl
  · rename_i heq
    cases h.symm.trans heq

theorem stops_of_error (hs : s.cursor.rest ≠ [])
    (h : Parse.step setting scope s = .error fault t) :
    stops setting scope s = [(scope, s)] := by
  rw [stops, dif_neg hs]
  split
  · rename_i heq
    cases h.symm.trans heq
  · rfl

end Parse
end Gamebook
