import Gamebook.Proofs.Directives
import Gamebook.Proofs.Sections

/-!
Scripts written out record by record. Every record is put behind its keyword, a block with
an empty line behind it; read again, the script adds these records and no others, in their
order and at their places.
-/
namespace Gamebook

open Grammar

/-- What lasts of adding the records one after another: they, and the warnings about what
they replace. -/
def Document.log (d : Document) : List Record → List Event
  | [] => []
  | r :: rs => (d.warning? r).toList.map .warning ++ .record r :: (d.add r).log rs

theorem Document.log_append (d : Document) (rs ks : List Record) :
    d.log (rs ++ ks) = d.log rs ++ (rs.foldl add d).log ks := by
  induction rs generalizing d with
  | nil => rfl
  | cons r rs ih => simp [log, ih]

/-- From one state to the other the records are added, and nothing else lasts. -/
structure Progress.Adds (s : Progress) (rs : List Record) (t : Progress) : Prop where
  document : t.document = rs.foldl Document.add s.document
  events : t.events.filter Event.lasts =
    (s.document.log rs).reverse ++ s.events.filter Event.lasts

namespace Progress.Adds

variable {s t u : Progress} {rs ks : List Record}

theorem trans (h : s.Adds rs t) (h' : t.Adds ks u) : s.Adds (rs ++ ks) u := by
  constructor
  · rw [h'.document, h.document, List.foldl_append]
  · rw [h'.events, h.events, h.document, Document.log_append, List.reverse_append,
      List.append_assoc]

theorem moveTo (s : Progress) (c : Cursor) : s.Adds [] (s.moveTo c) := by
  constructor
  · rfl
  · simp [Progress.moveTo, Document.log, List.filter_map, Function.comp_def, Event.lasts]

theorem commit (s : Progress) (r : Record) : s.Adds [r] (s.commit r []) := by
  constructor
  · rfl
  · cases hw : s.document.warning? r <;>
      simp [Progress.commit, Record.trailing?, Document.log, List.filter_cons, Event.lasts, hw]

end Progress.Adds

namespace Record

/-- The text of a record up to the place that it is known by. -/
def opening : Record → List Char
  | behavior _ category b =>
    (b.count.map fun n => "first".toList ++ ' ' :: (Numeral.digitsOf n ++ [' '])).getD [] ++
      category.name.toList
  | r => r.label.toList

def body : Record → List Char
  | definition v => v.print
  | r => Content.printLine r.contents

def print (r : Record) : List Char := r.opening ++ r.body

/-- Records that stand by themselves and can be printed. -/
def Printable (setting : Setting) : Record → Prop
  | definition v => v.Printable setting
  | behavior id category b =>
    (∀ c ∈ (behavior id category b).contents, c.Printable setting) ∧
      (behavior id category b).Clear ∧ ∀ n, b.count = some n → Numeral.Fits n
  | boring .. | directive .. | modifier _ => False
  | r => (∀ c ∈ r.contents, c.Printable setting) ∧ r.Clear

def isStart : Record → Bool
  | start _ => true
  | _ => false

theorem kind_contents (r : Record) : ∀ c ∈ r.contents, c.kind ≠ .number := by
  cases r with
  | action a =>
    cases ha : a.trigger <;>
      grind [contents, Trigger.content, Content.effect, Content.kind, Option.map_eq_some_iff]
  | behavior id category b =>
    cases hb : b.target <;> grind [contents, Entry.flag, Content.target, Content.effect,
      Content.kind, Option.map_eq_some_iff]
  | _ => grind [contents, Entry.flag, Content.kind, Option.map_eq_some_iff]

theorem printableLine_contents {setting : Setting} {r : Record}
    (h : ∀ c ∈ r.contents, c.Printable setting) : Content.PrintableLine setting r.contents :=
  Content.printableLine_of_forall h r.kind_contents

end Record

namespace Parse

variable {setting : Setting} {s : Progress} {contents : List Content} {v : List Char}

/-- A statement whose line is printed adds its record. -/
theorem statement_print {reader : Nat → Entry Record} {r : Record}
    (hp : Content.PrintableLine setting contents)
    (hr : (reader s.cursor.pos).Reads contents r [])
    (hs : s.cursor.rest = Content.printLine contents ++ '\n' :: v) (scope : Scope)
    (subject : String) :
    ∃ t, Parse.statement setting scope subject reader s = .ok (r.opens?.getD scope) t ∧
      t.cursor.rest = v ∧ s.Adds [r] t := by
  obtain ⟨line, c, hc, hline, hrest⟩ := Read.line_print (c := s.cursor.note subject) hp hs
  obtain ⟨left, hread, hleft⟩ := hr line hline
  rw [List.map_eq_nil_iff] at hleft
  subst hleft
  refine ⟨(s.moveTo c).commit r [], ?_, hrest, (Progress.Adds.moveTo s c).trans (.commit _ r)⟩
  rw [statement_of_line hc, hread]

/-- A record behind its keyword is added in one step. -/
theorem leads_statement {keyword subject : String} {lead : Lead} {reader : Nat → Entry Record}
    {r : Record} (hk : (keyword, lead) ∈ Scope.keywords)
    (hf : ∀ t : Progress, t.document = s.document →
      Parse.follow setting .top lead t = Parse.statement setting .top subject reader t)
    (hp : Content.PrintableLine setting contents) (hne : contents ≠ [])
    (hr : (reader (s.cursor.pos + keyword.toList.length)).Reads contents r [])
    (hs : s.cursor.rest = keyword.toList ++ (Content.printLine contents ++ '\n' :: v)) :
    ∃ t, Leads setting .top s (r.opens?.getD .top) t ∧ t.cursor.rest = v ∧ s.Adds [r] t := by
  have hblank : ∃ x ∈ (Content.printLine contents).head?, isBlank x = true := by
    obtain ⟨c, cs, rfl⟩ := List.exists_cons_of_ne_nil hne
    exact ⟨' ', rfl, rfl⟩
  have hstep : Parse.step setting .top s = _ := step_of_lead (Read.lead_keyword hk hblank hs)
  have hmove := Progress.Adds.moveTo s
    (s.cursor.past ⟨keyword.toList, [], Content.printLine contents ++ '\n' :: v⟩)
  generalize hs' : s.moveTo _ = s' at hstep hmove
  have hpos : s'.cursor.pos = s.cursor.pos + keyword.toList.length := by rw [← hs']; rfl
  have hrest : s'.cursor.rest = Content.printLine contents ++ '\n' :: v := by rw [← hs']; rfl
  rw [← hpos] at hr
  obtain ⟨t, ht, htrest, hadds⟩ := statement_print hp hr hrest .top subject
  refine ⟨t, .step (by simp [hs]) ?_ (.refl ..), htrest, hmove.trans hadds⟩
  exact hstep.trans ((hf s' hmove.document).trans ht)

end Parse

namespace Read

variable {setting : Setting} {u : List Char}

theorem definitionLine_print {v : Definition} (h : v.Printable setting) {c : Cursor}
    (hc : c.rest = v.print ++ '\n' :: u) :
    ∃ d, definitionLine setting c = .ok { v with ref := c.pos } d ∧ d.rest = u := by
  obtain ⟨d, hd, hrest⟩ := definition_print h hc
  obtain ⟨e, he, herest⟩ := lineEnd_gives .lineEnd d hrest
  exact ⟨e, bind_eq_ok.2 ⟨_, d, hd, bind_eq_ok.2 ⟨(), e, he, rfl⟩⟩, herest⟩

/-- The count of a reaction and its category are read back. -/
theorem first_print {n : Nat} (hn : Numeral.Fits n) (category : Category) :
    Gives Read.first (' ' :: (Numeral.digitsOf n ++ ' ' :: (category.name.toList ++ ' ' :: u)))
      (n, category) (' ' :: u) := by
  have hdigits : digits.run (Numeral.digitsOf n ++ ' ' :: (category.name.toList ++ ' ' :: u)) =
      some ⟨Numeral.digitsOf n, [], ' ' :: (category.name.toList ++ ' ' :: u)⟩ :=
    Pattern.run_span (Numeral.made_digitsOf n) (by simp [Free])
  have hcount : Gives (Read.count (some ⟨Numeral.digitsOf n, [],
      ' ' :: (category.name.toList ++ ' ' :: u)⟩)) (' ' :: (category.name.toList ++ ' ' :: u)) n
      (' ' :: (category.name.toList ++ ' ' :: u)) := by
    rw [Read.count, Numeral.integer?_digitsOf hn]
    exact .pure
  have hcategory : Gives (Read.firstOf categories) (category.name.toList ++ ' ' :: u)
      (some category) (' ' :: u) :=
    .firstOf (m := ⟨category.name.toList, [], ' ' :: u⟩) (by cases category <;> rfl)
  have hblank : Free isBlank (category.name.toList ++ ' ' :: u) := by
    cases category <;> simp [Category.name, Free, isBlank]
  intro c hc
  refine Gives.begin (b := fun _ => (n, category)) (fun _ => ?_) _ hc
  exact (Gives.skip_blank (free_isBlank_of_digits (Numeral.made_digitsOf n) _)).bind
    ((Gives.match? hdigits).bind (hcount.bind ((Gives.skip_blank hblank).bind
      (hcategory.bind .pure))))

end Read

namespace Parse

variable {setting : Setting} {s : Progress} {w : List Char}

theorem leads_definition {v : Definition} (h : v.Printable setting)
    (hs : s.cursor.rest = "var".toList ++ (v.print ++ '\n' :: w)) :
    ∃ t, Leads setting .top s .top t ∧ t.cursor.rest = w ∧
      s.Adds [.definition { v with ref := s.cursor.pos + "var".toList.length }] t := by
  have hk : ("var", Lead.var) ∈ Scope.keywords := by decide
  have hstep : Parse.step setting .top s = _ := step_of_lead (Read.lead_keyword hk ⟨' ', rfl, rfl⟩ hs)
  obtain ⟨d, hd, hrest⟩ := Read.definitionLine_print (u := w)
    (c := { s.cursor.past ⟨"var".toList, [], v.print ++ '\n' :: w⟩ with notes := [] }) h rfl
  obtain ⟨c, e, hdef, he⟩ := definition_of_line
    (s := s.moveTo (s.cursor.past ⟨"var".toList, [], v.print ++ '\n' :: w⟩)) hd
  refine ⟨_, .step (by simp [hs]) (hstep.trans (bind_eq_ok.2 ⟨(), _, hdef, rfl⟩)) (.refl ..),
    he.trans hrest, ?_⟩
  have hmove := Progress.Adds.moveTo s (s.cursor.past ⟨"var".toList, [], v.print ++ '\n' :: w⟩)
  exact hmove.trans ((Progress.Adds.moveTo _ c).trans ((Progress.Adds.commit _ _).trans (.moveTo _ e)))

/-- A reaction with a count is added in one step. -/
theorem leads_first {id : String} {category : Category} {b : Behavior} {n : Nat}
    (h : (Record.behavior id category b).Printable setting) (hn : b.count = some n)
    (hs : s.cursor.rest = (Record.behavior id category b).print ++ '\n' :: w) :
    ∃ t, Leads setting .top s .top t ∧ t.cursor.rest = w ∧
      s.Adds [(Record.behavior id category b).placed
        (s.cursor.pos + (Record.behavior id category b).opening.length)] t := by
  obtain ⟨hcontents, hclear, hfits⟩ := h
  obtain ⟨u, hu⟩ : ∃ u, (Record.behavior id category b).body ++ '\n' :: w = ' ' :: u := by
    cases hb : b.negated <;> simp [Record.body, Record.contents, Content.printLine, Entry.flag, hb]
  have hs : s.cursor.rest = "first".toList ++ ([' '] ++
      (Numeral.digitsOf n ++ ' ' :: (category.name.toList ++ ' ' :: u))) := by
    rw [hs, Record.print, List.append_assoc, hu]
    simp [Record.opening, hn]
  have hk : ("first", Lead.first) ∈ Scope.keywords := by decide
  have hstep : Parse.step setting .top s = _ := step_of_lead (Read.lead_keyword hk ⟨' ', rfl, rfl⟩ hs)
  have hmove := Progress.Adds.moveTo s (s.cursor.past ⟨"first".toList, [], [' '] ++
    (Numeral.digitsOf n ++ ' ' :: (category.name.toList ++ ' ' :: u))⟩)
  generalize hs₁ : s.moveTo _ = s₁ at hstep hmove
  have hpos₁ : s₁.cursor.pos = s.cursor.pos + "first".toList.length := by rw [← hs₁]; rfl
  have hrest₁ : s₁.cursor.rest =
      ' ' :: (Numeral.digitsOf n ++ ' ' :: (category.name.toList ++ ' ' :: u)) := by rw [← hs₁]; rfl
  obtain ⟨c, hc, hcrest⟩ := Read.first_print (hfits n hn) category s₁.cursor hrest₁
  have hpos : (s₁.moveTo c).cursor.pos =
      s.cursor.pos + (Record.behavior id category b).opening.length := by
    have htaken : s₁.cursor.rest =
        (' ' :: (Numeral.digitsOf n ++ ' ' :: category.name.toList)) ++ c.rest := by
      rw [hrest₁, hcrest]
      simp
    have hc := Read.Advances.first.pos_eq hc htaken
    simp only [Progress.pos_moveTo, hc, hpos₁, Record.opening, hn, Option.map_some, Option.getD_some,
      List.length_append, List.length_cons, List.length_nil]
    omega
  have hr := Entry.Reads.behavior hclear (s₁.moveTo c).cursor.pos
  obtain ⟨t, ht, htrest, hadds⟩ := statement_print (Record.printableLine_contents hcontents) hr
    (hcrest.trans hu.symm) .top category.name
  rw [hn] at ht
  rw [hpos] at hadds
  refine ⟨t, .step (by simp [hs]) (hstep.trans ?_) (.refl ..), htrest,
    hmove.trans ((Progress.Adds.moveTo s₁ c).trans hadds)⟩
  exact bind_eq_ok.2 ⟨(n, category), s₁.moveTo c, read_of_ok hc, ht⟩

/-- A printed record is added in one step, at the place behind its opening. -/
theorem leads_record {r : Record} (h : r.Printable setting)
    (hstart : r.isStart = true → s.document.start = none)
    (hs : s.cursor.rest = r.print ++ '\n' :: w) :
    ∃ t, Leads setting .top s (r.opens?.getD .top) t ∧ t.cursor.rest = w ∧
      s.Adds [r.placed (s.cursor.pos + r.opening.length)] t := by
  have htext : s.cursor.rest = r.opening ++ (r.body ++ '\n' :: w) := by
    rw [hs, Record.print, List.append_assoc]
  cases r with
  | start st =>
    have hk : ("start", Lead.start) ∈ Scope.keywords := by decide
    have hf : ∀ t : Progress, t.document = s.document → Parse.follow setting .top .start t =
        Parse.statement setting .top "start" Entry.start t := by
      intro t ht
      change (if t.document.start.isSome then _ else Parse.statement setting .top "start" _) t = _
      rw [ht, hstart rfl]
      rfl
    exact leads_statement hk hf (Record.printableLine_contents h.1)
      (by simp [Record.contents]) (.start st _) htext
  | node id n =>
    have hk : ("node", Lead.node) ∈ Scope.keywords := by decide
    exact leads_statement hk (fun _ _ => rfl) (Record.printableLine_contents h.1)
      (by simp [Record.contents]) (.node h.2 _) htext
  | property name p =>
    have hk : ("property", Lead.property) ∈ Scope.keywords := by decide
    exact leads_statement hk (fun _ _ => rfl) (Record.printableLine_contents h.1)
      (by simp [Record.contents]) (.property name p _) htext
  | path source target p =>
    have hk : ("path", Lead.path) ∈ Scope.keywords := by decide
    exact leads_statement hk (fun _ _ => rfl) (Record.printableLine_contents h.1)
      (by simp [Record.contents]) (.path source target p _) htext
  | action a =>
    have hk : ("action", Lead.action) ∈ Scope.keywords := by decide
    exact leads_statement hk (fun _ _ => rfl) (Record.printableLine_contents h.1)
      (by simp [Record.contents]) (.action h.2 _) htext
  | behavior id category b =>
    cases hn : b.count with
    | some n => exact leads_first h hn hs
    | none =>
      have hk : (category.name, Lead.behavior category) ∈ Scope.keywords := by
        cases category <;> decide
      have hopening : (Record.behavior id category b).opening = category.name.toList := by
        simp [Record.opening, hn]
      have hr := Entry.Reads.behavior h.2.1 (s.cursor.pos + category.name.toList.length)
      rw [hn] at hr
      rw [hopening] at htext ⊢
      exact leads_statement hk (fun _ _ => rfl) (Record.printableLine_contents h.1)
        (by simp [Record.contents]) hr htext
  | resources id nodes =>
    have hk : ("resources", Lead.resources) ∈ Scope.keywords := by decide
    exact leads_statement hk (fun _ _ => rfl) (Record.printableLine_contents h.1)
      (by simp [Record.contents]) (.resources id nodes _) htext
  | location id p =>
    have hk : ("location", Lead.location) ∈ Scope.keywords := by decide
    exact leads_statement hk (fun _ _ => rfl) (Record.printableLine_contents h.1)
      (by simp [Record.contents]) (.location h.2 _) htext
  | item id label appendix =>
    have hk : ("item", Lead.item) ∈ Scope.keywords := by decide
    exact leads_statement hk (fun _ _ => rfl) (Record.printableLine_contents h.1)
      (by simp [Record.contents]) (.item id label appendix _) htext
  | definition v => exact leads_definition h htext
  | boring => exact h.elim
  | modifier => exact h.elim
  | directive => exact h.elim

end Parse

/-- The records of a modifier's directives, which stand one to a line. -/
def Directive.records (name : String) : Nat → List Directive → List Record
  | _, [] => []
  | pos, d :: ds => .directive name (d.placed pos) :: records name (pos + d.print.length + 1) ds

/-- What a script is written from: a single record, or a modifier with its directives. -/
inductive Clause where
  | single (record : Record)
  | modifier (name : String) (directives : List Directive)

namespace Clause

/-- The lines of a clause; a block has an empty line at its end. -/
def render : Clause → List Char
  | single r => r.print ++ '\n' :: if r.opens?.isSome then ['\n'] else []
  | modifier name ds =>
    (Record.modifier name).print ++ '\n' :: (ds.flatMap (·.print ++ ['\n']) ++ ['\n'])

/-- The records of a clause that is written at a place. -/
def records (pos : Nat) : Clause → List Record
  | single r => [r.placed (pos + r.opening.length)]
  | modifier name ds =>
    .modifier name :: Directive.records name (pos + (Record.modifier name).print.length + 1) ds

def Printable (setting : Setting) : Clause → Prop
  | single r => r.Printable setting
  | modifier name ds => IsName name ∧ ∀ d ∈ ds, d.Printable setting

def isStart : Clause → Bool
  | single r => r.isStart
  | modifier .. => false

/-- The records of clauses that are written one after another. -/
def allRecords : Nat → List Clause → List Record
  | _, [] => []
  | pos, c :: cs => c.records pos ++ allRecords (pos + c.render.length) cs

end Clause

namespace Parse

variable {setting : Setting} {s : Progress} {v : List Char}

theorem leads_emptyLine (setting : Setting) (scope : Scope) (hs : s.cursor.rest = '\n' :: v) :
    ∃ t, Leads setting scope s .top t ∧ t.cursor.rest = v ∧ s.Adds [] t :=
  ⟨_, .step (by simp [hs]) (step_lineEnd setting scope hs) (.refl ..), rfl, .moveTo ..⟩

/-- No directive begins like what stands between directives. -/
theorem lead_directive {name : String} {d : Directive} {c : Cursor}
    (hc : c.rest = d.print ++ v) : Read.lead (.modifier name) c = .ok none c := by
  obtain ⟨x, s, hx, hfirst⟩ := d.exists_first
  have hblank : isBlank x = false := by
    rcases hfirst with rfl | hword
    · rfl
    · exact isBlank_of_isWordChar hword
  have hne : x ≠ '\n' ∧ x ≠ '#' := by
    rcases hfirst with rfl | hword
    · decide
    · constructor <;> rintro rfl <;> exact absurd hword (by decide)
  have hnone : Pattern.firstOf (Scope.modifier name).leads c.rest = none := by
    rw [hc, hx]
    refine (Pattern.firstOf_cons (by rfl) x (s ++ v)).trans ?_
    simp [Scope.leads, Scope.blockLeads, blanks, lineEnd, blockOpen, comment, Pattern.span,
      Pattern.char, Pattern.literal, Pattern.spell, Pattern.starts, Pattern.consumes,
      Pattern.firstOf, hblank, hne]
  simp only [Read.lead, hnone]

theorem leads_directive {name : String} {d : Directive} (h : d.Printable setting)
    (hs : s.cursor.rest = d.print ++ '\n' :: v) :
    ∃ t, Leads setting (.modifier name) s (.modifier name) t ∧ t.cursor.rest = v ∧
      s.Adds [.directive name (d.placed s.cursor.pos)] t := by
  have hstep : Parse.step setting (.modifier name) s = _ := step_of_lead (lead_directive hs)
  obtain ⟨c, hc, hrest⟩ := Read.directive_print (c := (s.moveTo s.cursor).cursor) h hs
  have hd : Parse.directive setting name (s.moveTo s.cursor) =
      .ok () (((s.moveTo s.cursor).moveTo c).commit (.directive name (d.placed s.cursor.pos)) []) :=
    bind_eq_ok.2 ⟨_, _, read_of_ok hc, rfl⟩
  refine ⟨_, .step (by simp [hs]) (hstep.trans (bind_eq_ok.2 ⟨(), _, hd, rfl⟩)) (.refl ..), hrest, ?_⟩
  exact (Progress.Adds.moveTo s _).trans ((Progress.Adds.moveTo _ c).trans (.commit _ _))

/-- The directives of a modifier are added one by one. -/
theorem leads_directives (name : String) {ds : List Directive}
    (h : ∀ d ∈ ds, d.Printable setting)
    (hs : s.cursor.rest = ds.flatMap (·.print ++ ['\n']) ++ v) :
    ∃ t, Leads setting (.modifier name) s (.modifier name) t ∧ t.cursor.rest = v ∧
      s.Adds (Directive.records name s.cursor.pos ds) t := by
  induction ds generalizing s with
  | nil => exact ⟨s, .refl .., hs, rfl, rfl⟩
  | cons d ds ih =>
    have hs : s.cursor.rest = d.print ++ '\n' :: (ds.flatMap (·.print ++ ['\n']) ++ v) := by
      rw [hs]
      simp
    obtain ⟨t, hl, hrest, hadds⟩ := leads_directive (h d List.mem_cons_self) hs
    obtain ⟨u, hl', hrest', hadds'⟩ := ih (fun d hd => h d (List.mem_cons_of_mem _ hd)) hrest
    have htaken : s.cursor.rest = (d.print ++ ['\n']) ++ t.cursor.rest := by
      rw [hs, hrest]
      simp
    have hpos : t.cursor.pos = s.cursor.pos + d.print.length + 1 := by
      simpa [Nat.add_assoc] using hl.reaches.pos_eq htaken
    rw [hpos] at hadds'
    exact ⟨u, hl.trans hl', hrest', hadds.trans hadds'⟩

/-- A clause that is written out adds its records, and reading is back at the top. -/
theorem leads_clause {c : Clause} (h : c.Printable setting)
    (hstart : c.isStart = true → s.document.start = none) (hs : s.cursor.rest = c.render ++ v) :
    ∃ t, Leads setting .top s .top t ∧ t.cursor.rest = v ∧ s.Adds (c.records s.cursor.pos) t := by
  cases c with
  | single r =>
    have hs : s.cursor.rest = r.print ++ '\n' :: ((if r.opens?.isSome then ['\n'] else []) ++ v) := by
      rw [hs]
      simp [Clause.render]
    obtain ⟨t, hl, hrest, hadds⟩ := leads_record h hstart hs
    cases ho : r.opens? with
    | none =>
      simp only [ho] at hl hrest
      exact ⟨t, hl, hrest, hadds⟩
    | some scope =>
      simp only [ho] at hl hrest
      obtain ⟨u, hl', hrest', hadds'⟩ := leads_emptyLine setting scope hrest
      exact ⟨u, hl.trans hl', hrest', hadds.trans hadds'⟩
  | modifier name ds =>
    obtain ⟨hname, hds⟩ := h
    have hs : s.cursor.rest = "mod".toList ++ (Content.printLine (Record.modifier name).contents ++
        '\n' :: (ds.flatMap (·.print ++ ['\n']) ++ '\n' :: v)) := by
      rw [hs]
      simp [Clause.render, Record.print, Record.opening, Record.body, Record.label]
    have hk : ("mod", Lead.modifier) ∈ Scope.keywords := by decide
    have hp : Content.PrintableLine setting (Record.modifier name).contents :=
      ⟨hname, nofun, trivial⟩
    obtain ⟨t, hl, hrest, hadds⟩ := leads_statement hk (fun _ _ => rfl) hp
      (by simp [Record.contents]) (.modifier name _) hs
    obtain ⟨u, hl', hrest', hadds'⟩ := leads_directives name hds hrest
    obtain ⟨x, hl'', hrest'', hadds''⟩ := leads_emptyLine setting (.modifier name) hrest'
    have htaken : s.cursor.rest = ((Record.modifier name).print ++ ['\n']) ++ t.cursor.rest := by
      rw [hs, hrest]
      simp [Record.print, Record.opening, Record.body, Record.label]
    have hpos : t.cursor.pos = s.cursor.pos + (Record.modifier name).print.length + 1 := by
      simpa [Nat.add_assoc] using hl.reaches.pos_eq htaken
    have hall := hadds.trans (hadds'.trans hadds'')
    rw [hpos, List.append_nil] at hall
    exact ⟨x, hl.trans (hl'.trans hl''), hrest'', hall⟩

end Parse

theorem Document.start_add (d : Document) (r : Record) :
    (d.add r).start.isSome = (d.start.isSome || r.isStart) := by
  cases r <;> simp [add, updateItem, Record.isStart]

theorem Document.start_foldl (d : Document) (rs : List Record) :
    (rs.foldl add d).start.isSome = (d.start.isSome || rs.any Record.isStart) := by
  induction rs generalizing d with
  | nil => simp
  | cons r rs ih => rw [List.foldl_cons, ih, start_add, List.any_cons, Bool.or_assoc]

theorem Directive.any_records (name : String) (pos : Nat) (ds : List Directive) :
    (records name pos ds).any Record.isStart = false := by
  induction ds generalizing pos with
  | nil => rfl
  | cons d ds ih => simp [records, Record.isStart, ih]

theorem Clause.any_records (c : Clause) (pos : Nat) :
    (c.records pos).any Record.isStart = c.isStart := by
  cases c with
  | single r => cases r <;> rfl
  | modifier name ds => simp [records, isStart, Record.isStart, Directive.any_records]

namespace Parse

variable {setting : Setting} {s : Progress} {v : List Char}

/-- All clauses are read, each from the state that those before it lead to. -/
theorem leads_clauses {cs : List Clause} (h : ∀ c ∈ cs, c.Printable setting)
    (hstart : cs.countP Clause.isStart + s.document.start.isSome.toNat ≤ 1)
    (hs : s.cursor.rest = cs.flatMap Clause.render ++ v) :
    ∃ t, Leads setting .top s .top t ∧ t.cursor.rest = v ∧
      s.Adds (Clause.allRecords s.cursor.pos cs) t := by
  induction cs generalizing s with
  | nil => exact ⟨s, .refl .., hs, rfl, rfl⟩
  | cons c cs ih =>
    rw [List.flatMap_cons, List.append_assoc] at hs
    have hfirst : c.isStart = true → s.document.start = none := by
      intro hc
      rw [List.countP_cons, if_pos hc] at hstart
      cases hd : s.document.start with
      | none => rfl
      | some start =>
        rw [hd] at hstart
        simp at hstart
    obtain ⟨t, hl, hrest, hadds⟩ := leads_clause (h c List.mem_cons_self) hfirst hs
    have hstart' : cs.countP Clause.isStart + t.document.start.isSome.toNat ≤ 1 := by
      rw [hadds.document, Document.start_foldl, Clause.any_records]
      rw [List.countP_cons] at hstart
      generalize c.isStart = first at hstart ⊢
      generalize s.document.start.isSome = earlier at hstart ⊢
      cases first <;> cases earlier <;> simp at hstart ⊢ <;> omega
    obtain ⟨u, hl', hrest', hadds'⟩ := ih (fun c hc => h c (List.mem_cons_of_mem _ hc)) hstart' hrest
    rw [hl.reaches.pos_eq (hrest.symm ▸ hs)] at hadds'
    exact ⟨u, hl.trans hl', hrest', hadds.trans hadds'⟩

end Parse

/-- A script that is written out from records is read without a fault. It adds these
records in their order, each at its place, and there are no warnings but those about what
is defined again. -/
theorem Script.read_render (setting : Setting) {clauses : List Clause}
    (h : ∀ c ∈ clauses, c.Printable setting) (hstart : clauses.countP Clause.isStart ≤ 1) :
    let script := Script.read setting (clauses.flatMap Clause.render)
    let records := Clause.allRecords 0 clauses
    script.fault? = none ∧ script.document = records.foldl Document.add {} ∧
      script.events.filter Event.lasts = Document.log {} records := by
  intro script records
  have hs : (Progress.ofText (clauses.flatMap Clause.render)).cursor.rest =
      clauses.flatMap Clause.render ++ [] := by
    rw [List.append_nil]
    rfl
  have hstart : clauses.countP Clause.isStart +
      (Progress.ofText (clauses.flatMap Clause.render)).document.start.isSome.toNat ≤ 1 := hstart
  obtain ⟨t, hl, hrest, hadds⟩ := Parse.leads_clauses h hstart hs
  have hscript : script = ⟨t.document, t.events.reverse, none⟩ := by
    simp only [script, Script.read, hl.run_eq, Parse.run_of_nil hrest, Script.ofResult]
  rw [hscript]
  refine ⟨rfl, hadds.document, ?_⟩
  have hevents : t.events.filter Event.lasts = (Document.log {} records).reverse ++ [] := hadds.events
  rw [List.filter_reverse, hevents, List.append_nil, List.reverse_reverse]

/-- Names that have a meaning elsewhere or begin with a digit, a constant with a long s, a
call, a string over two lines, a count, and a block with a condition and a definition in it. -/
theorem Script.read_render_reserved_names :
    let unarmed : Expr := .unary .not (.hasItem "on" false)
    let twice : Expr := .binary .mul
      (.binary .add (.localVar "9x") (.call "min" [.globalVar "x", .number (.int 1)]))
      (.number (.int 2))
    let clauses : List Clause :=
      [.single (.behavior "no" .use
          ⟨some unarmed, some "a \"b\"\n", ["on"], some 2, true, none, none⟩),
        .modifier "final" [⟨.setVariable ⟨"no", .assign .multiply twice, 0⟩,
          some (.constant "fal\u017fe"), 0⟩, ⟨.skip 3, none, 0⟩]]
    let text := "first 2 use no no (!hasitem on) \"a \\\"b\\\"\n\" on\n".toList ++
      "mod final\n(fal\u017fe) var no *= ($9x + MIN(@x,1)) * 2\nskip 3\n\n".toList
    ((∀ c ∈ clauses, c.Printable {}) ∧ clauses.countP Clause.isStart ≤ 1 ∧
        clauses.flatMap Clause.render = text) ∧
      (Script.read {} text).fault? = none ∧
      (Script.read {} text).document = (Clause.allRecords 0 clauses).foldl Document.add {} := by
  intro unarmed twice clauses text
  have hon : IsName "on" := by decide
  have hno : IsName "no" := by decide
  have hunarmed : unarmed.Printable {} := by
    have hword : IsWord "on" := hon.1
    refine ⟨?_, trivial, List.forall_mem_nil _, by decide⟩
    simp [unarmed, Expr.Proper, hword]
  have htwice : twice.Printable {} := by
    have hdigit : IsWord "9x" := by decide
    have hx : IsWord "x" := by decide
    have hmin : IsCallName "min" := by decide
    have hone : Numeral.Fits 1 := by decide
    have htwo : Numeral.Fits 2 := by decide
    refine ⟨?_, ?_, fun _ _ => rfl, by decide⟩
    · simp [twice, Expr.Proper, Expr.ProperAll, hdigit, hx, hmin, BinaryOp.all, Number.nonneg_int]
    · simp [twice, Expr.Plain, Expr.PlainAll, hone, htwo]
  have hfalse : (Expr.constant "fal\u017fe").Printable {} := by
    refine ⟨?_, trivial, List.forall_mem_nil _, by decide⟩
    simp [Expr.Proper, Lexeme.constantNames]
  have hreaction : Record.Printable {} (.behavior "no" .use
      ⟨some unarmed, some "a \"b\"\n", ["on"], some 2, true, none, none⟩) := by
    refine ⟨?_, ⟨by simp, fun h => absurd rfl h, by simp⟩, ?_⟩
    · exact List.forall_mem_cons.2 ⟨hno, List.forall_mem_cons.2 ⟨hno, List.forall_mem_cons.2
        ⟨hunarmed, List.forall_mem_cons.2 ⟨trivial, List.forall_mem_singleton.2 hon⟩⟩⟩⟩
    · rintro n ⟨⟩
      decide
  have hassign : Directive.Printable {} ⟨.setVariable ⟨"no", .assign .multiply twice, 0⟩,
      some (.constant "fal\u017fe"), 0⟩ := by
    refine ⟨?_, by decide, htwice⟩
    rintro cond ⟨⟩
    exact hfalse
  have hskip : Directive.Printable {} ⟨.skip 3, none, 0⟩ :=
    ⟨by simp, List.forall_mem_singleton.2 ⟨by decide, by decide⟩⟩
  have hall : ∀ c ∈ clauses, c.Printable {} := by
    refine List.forall_mem_cons.2 ⟨hreaction, List.forall_mem_singleton.2 ⟨by decide, ?_⟩⟩
    exact List.forall_mem_cons.2 ⟨hassign, List.forall_mem_singleton.2 hskip⟩
  have htext : clauses.flatMap Clause.render = text := by decide +kernel
  have hstart : clauses.countP Clause.isStart ≤ 1 := by decide
  have h := Script.read_render {} hall hstart
  rw [htext] at h
  exact ⟨⟨hall, hstart, htext⟩, h.1, h.2.1⟩

namespace Read

/-- Where the text is ahead, the reader stops at the fault. -/
def Stops (x : Read α) (text : List Char) (fault : Fault) : Prop :=
  ∀ c : Cursor, c.rest = text → ∃ d, x c = .error fault d

variable {s t : List Char} {fault : Fault}

theorem Stops.bind {x : Read α} (hx : Stops x s fault) (f : α → Read β) :
    Stops (x >>= f) s fault := by
  intro c hc
  obtain ⟨d, hd⟩ := hx c hc
  refine ⟨d, ?_⟩
  change EStateM.bind x f c = _
  rw [EStateM.bind, hd]

theorem Gives.stops {x : Read α} {f : α → Read β} {a : α} (hx : Gives x s a t)
    (hf : Stops (f a) t fault) : Stops (x >>= f) s fault := by
  intro c hc
  obtain ⟨d, hd, ht⟩ := hx c hc
  obtain ⟨e, he⟩ := hf d ht
  refine ⟨e, ?_⟩
  change EStateM.bind x f c = _
  rw [EStateM.bind, hd]
  exact he

theorem Stops.begin {f : Nat → Read α} (hf : ∀ pos, Stops (f pos) s fault) (subject : String) :
    Stops (Read.begin subject >>= f) s fault :=
  fun c hc => hf c.pos (c.note subject) hc

/-- A count with too many digits cannot be read, whatever follows it. -/
theorem first_stops {n : Nat} (hn : ¬ Numeral.Fits n) (u : List Char) :
    Stops Read.first (' ' :: (Numeral.digitsOf n ++ ' ' :: u))
      (.longNumeral (Numeral.digitsOf n).length) := by
  have hdigits : digits.run (Numeral.digitsOf n ++ ' ' :: u) =
      some ⟨Numeral.digitsOf n, [], ' ' :: u⟩ :=
    Pattern.run_span (Numeral.made_digitsOf n) (by simp [Free])
  have hcount : Stops (Read.count (some ⟨Numeral.digitsOf n, [], ' ' :: u⟩)) (' ' :: u)
      (.longNumeral (Numeral.digitsOf n).length) := by
    intro c _
    rw [Read.count, Numeral.integer?_of_not_fits hn]
    exact ⟨c, rfl⟩
  refine Stops.begin (fun _ => ?_) "first"
  exact (Gives.skip_blank (free_isBlank_of_digits (Numeral.made_digitsOf n) _)).stops
    ((Gives.match? hdigits).stops (hcount.bind _))

end Read

theorem Script.fault_of_long_count (setting : Setting) {n : Nat} (hn : ¬ Numeral.Fits n)
    (u : List Char) :
    (Script.read setting ("first".toList ++ ([' '] ++ (Numeral.digitsOf n ++ ' ' :: u)))).fault? =
      some (.longNumeral (Numeral.digitsOf n).length) := by
  generalize hs : Progress.ofText ("first".toList ++ ([' '] ++ (Numeral.digitsOf n ++ ' ' :: u))) = s
  have hrest : s.cursor.rest = "first".toList ++ ([' '] ++ (Numeral.digitsOf n ++ ' ' :: u)) := by
    rw [← hs]
    rfl
  have hk : ("first", Lead.first) ∈ Scope.keywords := by decide
  have hlead : Parse.step setting .top s = _ :=
    Parse.step_of_lead (Read.lead_keyword hk ⟨' ', rfl, rfl⟩ hrest)
  generalize hs₁ : s.moveTo _ = s₁ at hlead
  have hrest₁ : s₁.cursor.rest = ' ' :: (Numeral.digitsOf n ++ ' ' :: u) := by
    rw [← hs₁]
    rfl
  obtain ⟨d, hd⟩ := Read.first_stops hn u s₁.cursor hrest₁
  have hstep : Parse.step setting .top s =
      .error (.longNumeral (Numeral.digitsOf n).length) (s₁.moveTo d) := by
    refine hlead.trans ?_
    change EStateM.bind (Parse.read Read.first) _ s₁ = _
    simp only [EStateM.bind, Parse.read, hd]
  rw [Script.read, hs, Parse.run_of_error (by simp [hrest]) hstep]
  rfl

/-- Without the bound on its digits a count is not read back: one more digit is too many. -/
theorem Script.read_render_long_count :
    let record := Record.behavior "x" .pick { count := some (pow10 Numeral.digitLimit) }
    (∀ c ∈ record.contents, c.Printable {}) ∧ record.Clear ∧
      (Script.read {} (Clause.single record).render).fault? =
        some (.longNumeral (Numeral.digitLimit + 1)) := by
  intro record
  have hlength := Numeral.length_digitsOf_pow10 Numeral.digitLimit
  have hn : ¬ Numeral.Fits (pow10 Numeral.digitLimit) := by
    rw [Numeral.Fits, hlength]
    exact Nat.not_succ_le_self _
  refine ⟨?_, by simp [record, Record.Clear], ?_⟩
  · exact List.forall_mem_singleton.2 (by decide : IsName "x")
  · have htext : (Clause.single record).render = "first".toList ++ ([' '] ++
        (Numeral.digitsOf (pow10 Numeral.digitLimit) ++ ' ' :: "pick x\n".toList)) := by
      simp [record, Clause.render, Record.print, Record.opening, Record.body, Record.contents,
        Record.opens?, Content.printLine, Content.print, Content.target, Content.effect, Entry.flag,
        Category.name]
    rw [htext, Script.fault_of_long_count {} hn, hlength]

end Gamebook
