import Gamebook.Proofs.Offsets
import Gamebook.Script.Read

/-!
Statements are read alike wherever they stand. Readers of text count offsets up, and
the loop over statements only adds records and events; so the same text read further
on gives the same records further on.
-/
namespace Gamebook

namespace Line

variable {v : Views}

inductive Part.Moved (v : Views) : Part → Part → Prop
  | gap {c d} (cursor : c.Moved v d) : Part.Moved v (.gap c) (.gap d)
  | token {t u c d} (token : t.relocate v.left = u.relocate v.right) (cursor : c.Moved v d) :
    Part.Moved v (.token t c) (.token u d)
  | finish {c d} (cursor : c.Moved v d) : Part.Moved v (.finish c) (.finish d)
  | stop {e f c d} (fault : Fault.Moved v e f) (cursor : c.Moved v d) :
    Part.Moved v (.stop e c) (.stop f d)

theorem moved_token {a b : Nat} (h : v.Same a b) (content : Content) :
    Token.relocate v.left ⟨content, a⟩ = Token.relocate v.right ⟨content, b⟩ := by
  simp only [Token.relocate]
  rw [h]

theorem moved_ofResult {a b : Nat} (h : v.Same a b) (make : α → Content)
    {r r' : EStateM.Result Fault Cursor α}
    (hr : Agrees (Cursor.Moved v) (Fault.Moved v) Eq r r') :
    Part.Moved v (.ofResult make a r) (.ofResult make b r') := by
  cases hr with
  | ok value cursor => exact value ▸ .token (moved_token h _) cursor
  | error fault cursor => exact .stop fault cursor

theorem moved_follow {c d : Cursor} (hc : c.Moved v d) {a b : Nat} (h : v.Same a b)
    (setting : Setting) (m : Match) (lead : Lead) :
    Part.Moved v (follow setting a m c lead) (follow setting b m d lead) := by
  cases lead with
  | gap => exact .gap hc
  | quote => exact moved_ofResult h _ (Read.Moves.string c d hc)
  | range => exact moved_ofResult h _ (Read.Moves.numeral _ c d hc)
  | variableName => exact .token (moved_token h _) hc
  | number => exact moved_ofResult h _ (Read.Moves.numeral _ c d hc)
  | paren => exact moved_ofResult h _ (Read.Moves.expr setting .parens c d hc)
  | word => exact .token (moved_token h _) hc
  | lineEnd => exact .finish hc
  | comment => exact .finish (hc.skipThrough _)

theorem moved_next {c d : Cursor} (hc : c.Moved v d) (setting : Setting) :
    Part.Moved v (next setting c) (next setting d) := by
  unfold next
  rw [hc.rest]
  split
  · exact moved_follow (hc.past _) hc.pos setting _ _
  · split
    · exact .finish hc
    · exact .stop (.refused hc.pos _) hc

theorem readFrom_of_gap {setting : Setting} {c c' : Cursor} (h : next setting c = .gap c')
    (tokens : List Token) : readFrom setting c tokens = readFrom setting c' tokens := by
  rw [readFrom]
  split <;> simp_all

theorem readFrom_of_token {setting : Setting} {c c' : Cursor} {t : Token}
    (h : next setting c = .token t c') (tokens : List Token) :
    readFrom setting c tokens = readFrom setting c' (t :: tokens) := by
  rw [readFrom]
  split <;> simp_all

theorem readFrom_of_finish {setting : Setting} {c c' : Cursor} (h : next setting c = .finish c')
    (tokens : List Token) : readFrom setting c tokens = .ok tokens.reverse c' := by
  rw [readFrom]
  split <;> simp_all

theorem readFrom_of_stop {setting : Setting} {c c' : Cursor} {fault : Fault}
    (h : next setting c = .stop fault c') (tokens : List Token) :
    readFrom setting c tokens = .error fault c' := by
  rw [readFrom]
  split <;> simp_all

/-- The same tokens at places that look the same. -/
def Moved (v : Views) (l k : Line) : Prop := l.relocate v.left = k.relocate v.right

theorem Moved.nil (v : Views) : Line.Moved v [] [] := rfl

theorem moved_readFrom {c d : Cursor} (hc : c.Moved v d) (setting : Setting) {l k : List Token}
    (hl : Line.Moved v l k) :
    Agrees (Cursor.Moved v) (Fault.Moved v) (Line.Moved v) (readFrom setting c l)
      (readFrom setting d k) := by
  fun_induction readFrom setting c l generalizing d k with
  | case1 c l c' h ih =>
    have hm := moved_next hc setting
    generalize hn : next setting d = part at hm
    rw [h] at hm
    cases hm with
    | gap hc' => exact readFrom_of_gap hn k ▸ ih hc' hl
  | case2 c l t c' h ih =>
    have hm := moved_next hc setting
    generalize hn : next setting d = part at hm
    rw [h] at hm
    cases hm with
    | token ht hc' =>
      refine readFrom_of_token hn k ▸ ih hc' ?_
      simp only [Line.Moved, Line.relocate, List.map_cons] at hl ⊢
      rw [ht, hl]
  | case3 c l c' h =>
    have hm := moved_next hc setting
    generalize hn : next setting d = part at hm
    rw [h] at hm
    cases hm with
    | finish hc' =>
      refine readFrom_of_finish hn k ▸ .ok ?_ hc'
      simp only [Line.Moved, Line.relocate, List.map_reverse] at hl ⊢
      rw [hl]
  | case4 c l fault c' h =>
    have hm := moved_next hc setting
    generalize hn : next setting d = part at hm
    rw [h] at hm
    cases hm with
    | stop hf hc' => exact readFrom_of_stop hn k ▸ .error hf hc'

end Line

/-- The same value up to places, and the same tokens left over. -/
def Entry.Moved (g : (Nat → Nat) → α → β) (v : Views) (p q : α × Line) : Prop :=
  g v.left p.1 = g v.right q.1 ∧ Line.Moved v p.2 q.2

theorem Entry.Natural.moved {g : (Nat → Nat) → α → β} {x y : Entry α} {z z' : Entry β} {v : Views}
    (hx : Natural v.left (g v.left) x z) (hy : Natural v.right (g v.right) y z') (hz : z = z')
    {l k : Line} (hl : Line.Moved v l k) :
    (∃ p q, x l = .ok p ∧ y k = .ok q ∧ Entry.Moved g v p q) ∨
      ∃ complaint, x l = .error complaint ∧ y k = .error complaint := by
  have h := (hx l).symm.trans ((hl ▸ hz ▸ rfl : z (l.relocate v.left) = _).trans (hy k))
  cases hxl : x l with
  | error complaint =>
    cases hyk : y k with
    | error complaint' =>
      rw [hxl, hyk] at h
      cases h
      exact .inr ⟨complaint, rfl, rfl⟩
    | ok q =>
      rw [hxl, hyk] at h
      cases h
  | ok p =>
    cases hyk : y k with
    | error complaint' =>
      rw [hxl, hyk] at h
      cases h
    | ok q =>
      rw [hxl, hyk] at h
      simp only [Except.map, Except.ok.injEq, Prod.mk.injEq] at h
      exact .inl ⟨p, q, rfl, rfl, h⟩

namespace Read.Moves

variable {v : Views}

theorem line (setting : Setting) : Moves v (Line.Moved v) (Read.line setting) (Read.line setting) :=
  fun _ _ hc => Line.moved_readFrom hc setting rfl

theorem entry (setting : Setting) (subject : String) {reader : Nat → Entry α}
    {g : (Nat → Nat) → α → α}
    (hr : ∀ f ref, Entry.Natural f (g f) (reader ref) (reader (f ref))) :
    Moves v (Entry.Moved g v) (Read.entry setting subject reader)
      (Read.entry setting subject reader) := by
  refine (begin subject).bind fun {ref ref'} hs => (line setting).bind fun {l k} hl => ?_
  have h := Entry.Natural.moved (hr v.left ref) (hr v.right ref') (by rw [hs]) hl
  rcases h with ⟨p, q, hp, hq, hpq⟩ | ⟨complaint, hp, hq⟩
  · simp only [hp, hq]
    exact .pure hpq
  · simp only [hp, hq]
    exact fail hs complaint

theorem change (setting : Setting) : Moves v Eq (Read.change setting) (Read.change setting) := by
  refine (firstOf _).bind fun {how how'} h => ?_
  subst h
  split
  · exact (expr setting _).bind fun h => .pure (by rw [h])
  · exact .pure rfl

theorem definition (setting : Setting) :
    Moves v (fun a b => a.relocate v.left = b.relocate v.right) (Read.definition setting)
      (Read.definition setting) := by
  refine (begin _).bind fun href => (skip _).bind fun _ => (skip _).bind fun _ =>
    (require _ _).bind fun hname => (skip _).bind fun _ => (change setting).bind fun hchange =>
      .pure ?_
  simp only [Definition.relocate]
  rw [hname, hchange, href]

theorem lineEnd (wanted : Wanted) : Moves v Eq (Read.lineEnd wanted) (Read.lineEnd wanted) := by
  refine (skip _).bind fun _ => (firstOf _).bind fun {how how'} h => ?_
  subst h
  split
  · exact skipThrough _
  · exact .pure rfl
  · exact failHere _

theorem definitionAhead : Moves v Eq Read.definitionAhead Read.definitionAhead := by
  refine (peek _).bind fun {b b'} h => ?_
  subst h
  cases b
  · exact accept _
  · exact .pure rfl

theorem condition (setting : Setting) :
    Moves v Eq (Read.condition setting) (Read.condition setting) := by
  refine (accept _).bind fun {b b'} h => ?_
  subst h
  cases b
  · exact .pure rfl
  · exact (expr setting _).bind fun h => (skip _).bind fun _ => .pure (by rw [h])

theorem command (setting : Setting) {ref ref' : Nat} (href : v.Same ref ref') :
    Moves v (Entry.Moved Command.relocate v) (Read.command setting ref)
      (Read.command setting ref') := by
  refine definitionAhead.bind fun {b b'} h => ?_
  subst h
  cases b
  · refine (line setting).bind fun {l k} hl => ?_
    have h := Entry.Natural.moved (g := Command.relocate) (v := v) .command .command rfl hl
    rcases h with ⟨p, q, hp, hq, hpq⟩ | ⟨complaint, hp, hq⟩
    · simp only [hp, hq]
      exact .pure hpq
    · simp only [hp, hq]
      exact fail href complaint
  · refine (definition setting).bind fun hv => (lineEnd _).bind fun _ => .pure ⟨?_, rfl⟩
    exact congrArg Command.setVariable hv

theorem directive (setting : Setting) :
    Moves v (Entry.Moved Directive.relocate v) (Read.directive setting)
      (Read.directive setting) := by
  refine (begin _).bind fun href => (condition setting).bind fun hcond =>
    (command setting href).bind fun hcommand => .pure ⟨?_, hcommand.2⟩
  simp only [Directive.relocate]
  rw [hcond, hcommand.1, href]

theorem count (m : Option Match) : Moves v Eq (Read.count m) (Read.count m) := by
  cases m with
  | none => exact .pure rfl
  | some m => exact numeral _

theorem first : Moves v Eq Read.first Read.first := by
  refine (begin _).bind fun _ => (skip _).bind fun _ => (match? _).bind fun {m m'} hm => ?_
  subst hm
  refine (count m).bind fun hn => (skip _).bind fun _ => (firstOf _).bind fun {c c'} hc => ?_
  subst hc
  split
  · exact .pure (by rw [hn])
  · exact failHere _

theorem heading (name : String) : Moves v Eq (Read.heading name) (Read.heading name) :=
  (begin _).bind fun _ => lineEnd _

theorem blockComment : Moves v Eq Read.blockComment Read.blockComment :=
  (skipThrough _).bind fun _ => skip _

theorem lead (scope : Scope) : Moves v Eq (Read.lead scope) (Read.lead scope) := by
  intro c d hc
  unfold Read.lead
  rw [hc.rest]
  split
  · exact .ok rfl hc
  · exact .ok rfl (hc.past _)
  · exact .ok rfl hc

end Read.Moves

/-- What an event does to the document. -/
def Event.apply : Event → Document → Document
  | record r, d => d.add r
  | _, d => d

/-- The document after some events, given latest first. -/
def Event.document (doc : Document) (events : List Event) : Document := events.foldr apply doc

theorem Event.document_relocate {f : Nat → Nat} (doc : Document) (events : List Event) :
    (Event.document doc events).relocate f =
      Event.document (doc.relocate f) (events.map (Event.relocate f)) := by
  induction events with
  | nil => rfl
  | cons e events ih =>
    cases e with
    | record r =>
      simp only [document, List.foldr_cons, apply, List.map_cons] at ih ⊢
      rw [Document.add_relocate, ih]
      rfl
    | note | warning => exact ih

theorem Event.document_notes (doc : Document) (notes : List Note) (events : List Event) :
    Event.document doc (notes.map .note ++ events) = Event.document doc events := by
  induction notes with
  | nil => rfl
  | cons n notes ih => exact ih

theorem Event.document_warnings (doc : Document) (warnings : List Warning) (events : List Event) :
    Event.document doc (warnings.map .warning ++ events) = Event.document doc events := by
  induction warnings with
  | nil => rfl
  | cons w warnings ih => exact ih

theorem Event.relocate_relocate {f g : Nat → Nat} (e : Event) :
    (e.relocate f).relocate g = e.relocate fun n => g (f n) := by
  cases e with
  | note => rfl
  | record r => exact congrArg Event.record r.relocate_relocate
  | warning w =>
    cases w with
    | trailing label line =>
      simp [relocate, Warning.relocate, Line.relocate, Token.relocate]
    | _ => rfl

/-- The events of a record that is put into the document, latest first. -/
def Event.ofCommit (replaced : Option Warning) (r : Record) (unused : Line) : List Event :=
  (r.trailing? unused).toList.map .warning ++ .record r :: replaced.toList.map .warning

theorem Event.document_ofCommit (doc : Document) (replaced : Option Warning) (r : Record)
    (unused : Line) (events : List Event) :
    Event.document doc (Event.ofCommit replaced r unused ++ events) =
      (Event.document doc events).add r := by
  simp only [ofCommit, List.append_assoc, document_warnings, List.cons_append]
  exact congrArg (·.add r) (document_warnings doc replaced.toList events)

theorem Event.ofCommit_relocate {f : Nat → Nat} (replaced : Option Warning) (r : Record)
    (unused : Line) : (Event.ofCommit replaced r unused).map (Event.relocate f) =
      Event.ofCommit (replaced.map (Warning.relocate f)) (r.relocate f) (unused.relocate f) := by
  simp only [ofCommit, Record.trailing?_relocate]
  cases r.trailing? unused <;> cases replaced <;> rfl

/-- The warnings about what is replaced show no tokens. -/
theorem Document.warning?_map_relocate {f : Nat → Nat} (d : Document) (r : Record) :
    (d.warning? r).map (Warning.relocate f) = d.warning? r := by
  cases r with
  | node | property | path =>
    simp only [warning?]
    split <;> rfl
  | item id label appendix =>
    simp only [warning?]
    cases (d.items.get? id).bind (·.label) <;> rfl
  | _ => rfl

/-- Records and warnings last, notes only tell how reading went. -/
def Event.lasts : Event → Bool
  | note _ => false
  | _ => true

theorem Event.document_lasting (doc : Document) (events : List Event) :
    Event.document doc (events.filter Event.lasts) = Event.document doc events := by
  induction events with
  | nil => rfl
  | cons e events ih =>
    cases e with
    | note => exact ih
    | record r => exact congrArg (·.add r) ih
    | warning => exact ih

/-- The same events at places that look the same; notes are compared where the views
compare them. -/
structure Event.Alike (v : Views) (l k : List Event) : Prop where
  lasting : (l.filter lasts).map (relocate v.left) = (k.filter lasts).map (relocate v.right)
  notes : v.notes → l.map (relocate v.left) = k.map (relocate v.right)

namespace Event.Alike

variable {v : Views} {l l' k k' : List Event}

theorem nil : Event.Alike v [] [] := ⟨rfl, fun _ => rfl⟩

theorem append (h : Event.Alike v l k) (h' : Event.Alike v l' k') :
    Event.Alike v (l ++ l') (k ++ k') := by
  refine ⟨?_, fun hv => ?_⟩
  · simp only [List.filter_append, List.map_append, h.lasting, h'.lasting]
  · simp only [List.map_append, h.notes hv, h'.notes hv]

theorem reverse (h : Event.Alike v l k) : Event.Alike v l.reverse k.reverse := by
  refine ⟨?_, fun hv => ?_⟩
  · simp only [List.filter_reverse, List.map_reverse, h.lasting]
  · simp only [List.map_reverse, h.notes hv]

theorem of_map (h : l.map (relocate v.left) = k.map (relocate v.right)) : Event.Alike v l k := by
  have hf : ∀ (f : Nat → Nat) (l : List Event),
      (l.filter lasts).map (relocate f) = (l.map (relocate f)).filter lasts := by
    intro f l
    rw [List.filter_map]
    refine congrArg _ (List.filter_congr fun e _ => ?_)
    cases e <;> rfl
  exact ⟨by rw [hf, hf, h], fun _ => h⟩

theorem ofNotes {c d : Cursor} (hc : c.Moved v d) :
    Event.Alike v (c.notes.map .note) (d.notes.map .note) := by
  refine ⟨by simp [List.filter_map, Function.comp_def, lasts], fun hv => ?_⟩
  have hnotes := congrArg (List.map Event.note) (hc.notes hv)
  simp only [List.map_map] at hnotes ⊢
  exact hnotes

/-- Without their offsets the documents that the events lead to are the same. -/
theorem document (h : Event.Alike v l k) (doc : Document) :
    (Event.document doc l).relocate (fun _ => 0) = (Event.document doc k).relocate fun _ => 0 := by
  have hn := congrArg (List.map (Event.relocate fun _ => 0)) h.lasting
  simp only [List.map_map, Function.comp_def, Event.relocate_relocate] at hn
  rw [← document_lasting doc l, ← document_lasting doc k, document_relocate, document_relocate, hn]

end Event.Alike

/-- Two states of reading that began with the same document: the same happened since. -/
def Progress.Alike (v : Views) (doc : Document) (base base' : List Event)
    (s t : Progress) : Prop :=
  ∃ new new', s.events = new ++ base ∧ t.events = new' ++ base' ∧ Event.Alike v new new' ∧
    s.document = Event.document doc new ∧ t.document = Event.document doc new'

namespace Progress.Alike

variable {v : Views} {doc : Document} {base base' : List Event} {s t : Progress}

theorem document (h : s.Alike v doc base base' t) :
    s.document.relocate (fun _ => 0) = t.document.relocate (fun _ => 0) := by
  obtain ⟨new, new', -, -, hn, hs, ht⟩ := h
  rw [hs, ht, hn.document]

theorem moveTo (h : s.Alike v doc base base' t) {c d : Cursor}
    (hc : Event.Alike v (c.notes.map .note) (d.notes.map .note)) :
    (s.moveTo c).Alike v doc base base' (t.moveTo d) := by
  obtain ⟨new, new', hse, hte, hn, hs, ht⟩ := h
  refine ⟨c.notes.map .note ++ new, d.notes.map .note ++ new', by simp [Progress.moveTo, hse],
    by simp [Progress.moveTo, hte], hc.append hn, ?_, ?_⟩
  · exact hs.trans (Event.document_notes ..).symm
  · exact ht.trans (Event.document_notes ..).symm

theorem commit (h : s.Alike v doc base base' t) {r r' : Record} {l l' : Line}
    (hr : r.relocate v.left = r'.relocate v.right) (hl : Line.Moved v l l') :
    (s.commit r l).Alike v doc base base' (t.commit r' l') := by
  -- the warnings about what is replaced are the same, since offsets do not matter for them
  have hw : s.document.warning? r = t.document.warning? r' := by
    have hr := congrArg (Record.relocate fun _ => 0) hr
    simp only [Record.relocate_relocate] at hr
    rw [← Document.warning?_relocate s.document r (f := fun _ => 0), h.document, hr,
      Document.warning?_relocate]
  obtain ⟨new, new', hse, hte, hn, hs, ht⟩ := h
  refine ⟨Event.ofCommit (s.document.warning? r) r l ++ new,
    Event.ofCommit (t.document.warning? r') r' l' ++ new',
    by simp [Progress.commit, hse, Event.ofCommit],
    by simp [Progress.commit, hte, Event.ofCommit], .append (.of_map ?_) hn, ?_, ?_⟩
  · have hl : Line.relocate v.left l = Line.relocate v.right l' := hl
    rw [Event.ofCommit_relocate, Event.ofCommit_relocate, hw, hr, hl,
      Document.warning?_map_relocate]
    exact congrArg (fun w => Event.ofCommit w _ _) (Document.warning?_map_relocate ..).symm
  · rw [Event.document_ofCommit, ← hs]
    rfl
  · rw [Event.document_ofCommit, ← ht]
    rfl

end Progress.Alike

/-- Two states from which the same text is read after the same happened. -/
structure Progress.Moved (v : Views) (doc : Document) (base base' : List Event)
    (s t : Progress) : Prop where
  cursor : s.cursor.Moved v t.cursor
  log : s.Alike v doc base base' t

namespace Progress.Moved

variable {v : Views} {doc : Document} {base base' : List Event} {s t : Progress}

theorem moveTo (h : s.Moved v doc base base' t) {c d : Cursor} (hc : c.Moved v d) :
    (s.moveTo c).Moved v doc base base' (t.moveTo d) :=
  ⟨⟨hc.rest, hc.pos, fun _ => rfl⟩, h.log.moveTo (.ofNotes hc)⟩

theorem commit (h : s.Moved v doc base base' t) {r r' : Record} {l l' : Line}
    (hr : r.relocate v.left = r'.relocate v.right) (hl : Line.Moved v l l') :
    (s.commit r l).Moved v doc base base' (t.commit r' l') :=
  ⟨h.cursor, h.log.commit hr hl⟩

end Progress.Moved

theorem Record.opens?_relocate {f : Nat → Nat} (r : Record) : (r.relocate f).opens? = r.opens? := by
  cases r <;> rfl

/-- The same record at places that look the same. -/
def Record.Moved (v : Views) (r r' : Record) : Prop := r.relocate v.left = r'.relocate v.right

theorem Record.Moved.opens? {v : Views} {r r' : Record} (h : r.Moved v r') :
    r.opens? = r'.opens? := by
  rw [← opens?_relocate r (f := v.left), h, opens?_relocate]

namespace Parse

theorem run_of_nil {setting : Setting} {scope : Scope} {s : Progress} (h : s.cursor.rest = []) :
    run setting scope s = .ok () s := by
  rw [run, dif_pos h]

theorem run_of_ok {setting : Setting} {scope next : Scope} {s t : Progress}
    (hs : s.cursor.rest ≠ []) (h : step setting scope s = .ok next t) :
    run setting scope s = run setting next t := by
  rw [run, dif_neg hs]
  split <;> simp_all

theorem run_of_error {setting : Setting} {scope : Scope} {s t : Progress} {fault : Fault}
    (hs : s.cursor.rest ≠ []) (h : step setting scope s = .error fault t) :
    run setting scope s = .error fault t := by
  rw [run, dif_neg hs]
  split <;> simp_all

/-- Two steps of reading that do the same from states that look the same. -/
abbrev Moves (v : Views) (doc : Document) (base base' : List Event) (R : α → β → Prop)
    (x : Parse α) (y : Parse β) : Prop :=
  Parallel (Progress.Moved v doc base base') (Fault.Moved v) R x y

namespace Moves

variable {v : Views} {doc : Document} {base base' : List Event}

theorem read {R : α → β → Prop} {x : Read α} {y : Read β} (h : Read.Moves v R x y) :
    Moves v doc base base' R (Parse.read x) (Parse.read y) := by
  intro s t hs
  have hr := h s.cursor t.cursor hs.cursor
  unfold Parse.read
  cases hx : x s.cursor <;> cases hy : y t.cursor <;> rw [hx, hy] at hr <;> cases hr
  · rename_i value cursor
    exact .ok value (hs.moveTo cursor)
  · rename_i fault cursor
    exact .error fault (hs.moveTo cursor)

theorem commit {r r' : Record} (hr : r.Moved v r') {l l' : Line} (hl : Line.Moved v l l') :
    Moves v doc base base' (fun _ _ => True) (Parse.commit r l) (Parse.commit r' l') :=
  fun _ _ hs => .ok trivial (hs.commit hr hl)

theorem commitAll {rs rs' : List Record}
    (h : rs.map (Record.relocate v.left) = rs'.map (Record.relocate v.right)) :
    Moves v doc base base' (fun _ _ => True) (Parse.commitAll rs) (Parse.commitAll rs') := by
  induction rs generalizing rs' with
  | nil =>
    cases rs' with
    | nil => exact .pure trivial
    | cons => simp at h
  | cons r rs ih =>
    cases rs' with
    | nil => simp at h
    | cons r' rs' =>
      simp only [List.map_cons, List.cons.injEq] at h
      exact (commit h.1 (.nil v)).bind fun _ => ih h.2

variable (setting : Setting)

theorem statement (scope : Scope) (subject : String) {reader : Nat → Entry Record}
    (hr : ∀ f ref, Entry.Natural f (Record.relocate f) (reader ref) (reader (f ref))) :
    Moves v doc base base' Eq (Parse.statement setting scope subject reader)
      (Parse.statement setting scope subject reader) := by
  refine (read (.entry setting subject hr)).bind fun {p q} hpq => ?_
  refine (commit hpq.1 hpq.2).bind fun _ => .pure ?_
  rw [Record.Moved.opens? hpq.1]

theorem definition :
    Moves v doc base base' Eq (Parse.definition setting) (Parse.definition setting) := by
  refine (read (.definition setting)).bind fun {a b} hab => ?_
  have hr : Record.Moved v (.definition a) (.definition b) := congrArg Record.definition hab
  exact (commit hr (.nil v)).bind fun _ => read (.lineEnd _)

theorem directive (modifier : String) : Moves v doc base base' (fun _ _ => True)
    (Parse.directive setting modifier) (Parse.directive setting modifier) := by
  refine (read (.directive setting)).bind fun {p q} hpq => ?_
  have hr : Record.Moved v (.directive modifier p.1) (.directive modifier q.1) :=
    congrArg (Record.directive modifier) hpq.1
  exact commit hr hpq.2

theorem reactions (id : String) : Moves v doc base base' (fun _ _ => True)
    (Parse.reactions setting id) (Parse.reactions setting id) := by
  refine (read (.entry setting "boring" fun f ref => .reactions id ref)).bind
    fun {p q} hpq => ?_
  obtain ⟨⟨rs, ref⟩, line⟩ := p
  obtain ⟨⟨rs', ref'⟩, line'⟩ := q
  obtain ⟨hrecords, hline⟩ := hpq
  simp only [Prod.mk.injEq] at hrecords
  refine (commitAll hrecords.1).bind fun _ => ?_
  cases line with
  | nil =>
    cases line' with
    | nil => exact .pure trivial
    | cons => simp [Line.Moved, Line.relocate] at hline
  | cons t line =>
    cases line' with
    | nil => simp [Line.Moved, Line.relocate] at hline
    | cons t' line' =>
      simp only [Line.Moved, Line.relocate, List.map_cons, List.cons.injEq] at hline
      have ht := congrArg Token.content hline.1
      simp only [Token.relocate] at ht
      simp only [ht]
      exact .throw (.refused hrecords.2 _)

theorem start (scope : Scope) :
    Moves v doc base base' Eq (Parse.start setting scope) (Parse.start setting scope) := by
  intro s t hs
  have hd : s.document.start.isSome = t.document.start.isSome := by
    rw [← s.document.start_relocate (f := fun _ => 0), hs.log.document, Document.start_relocate]
  have hx : ∀ p : Progress, Parse.start setting scope p =
      (if p.document.start.isSome then Parse.read (Read.failHere .startDefined)
        else Parse.statement setting scope "start" Entry.start) p := fun _ => rfl
  rw [hx, hx, hd]
  cases t.document.start.isSome with
  | true => exact read (.failHere _) s t hs
  | false => exact statement setting scope "start" (fun f ref => .start ref) s t hs

theorem behavior (scope : Scope) (category : Category) (count : Option Nat) :
    Moves v doc base base' Eq (Parse.behavior setting scope category count)
      (Parse.behavior setting scope category count) :=
  statement setting scope _ fun _ ref => .behavior category scope.item? count ref

theorem follow (scope : Scope) (lead : Lead) :
    Moves v doc base base' Eq (Parse.follow setting scope lead) (Parse.follow setting scope lead) := by
  cases lead with
  | gap => exact .pure rfl
  | close => exact .pure rfl
  | comment => exact (read (.skipThrough _)).bind fun _ => .pure rfl
  | block => exact (read .blockComment).bind fun _ => .pure rfl
  | heading h => exact (read (.heading _)).bind fun _ => .pure rfl
  | item => exact statement setting scope _ fun _ ref => .item ref
  | modifier => exact statement setting scope _ fun _ ref => .modifier ref
  | start => exact start setting scope
  | node => exact statement setting scope _ fun _ ref => .node ref
  | property => exact statement setting scope _ fun _ ref => .property ref
  | path => exact statement setting scope _ fun _ ref => .path ref
  | action => exact statement setting scope _ fun _ ref => .action ref
  | first =>
    refine (read .first).bind fun {p q} hpq => ?_
    subst hpq
    exact behavior setting scope p.2 (some p.1)
  | behavior category => exact behavior setting scope category none
  | location => exact statement setting scope _ fun _ ref => .location scope.item? ref
  | resources => exact statement setting scope _ fun _ ref => .resources scope.item? ref
  | boring id => exact (reactions setting id).bind fun _ => .pure rfl
  | sigil => exact (definition setting).bind fun _ => .pure rfl
  | var => exact (definition setting).bind fun _ => .pure rfl

theorem plainLine (scope : Scope) :
    Moves v doc base base' Eq (Parse.plainLine setting scope) (Parse.plainLine setting scope) := by
  cases scope with
  | top => exact read (.failHere _)
  | item => exact read (.failHere _)
  | modifier name => exact (directive setting name).bind fun _ => .pure rfl
  | lines h =>
    cases h with
    | nodes => exact statement setting _ _ fun _ ref => .node ref
    | vars => exact (definition setting).bind fun _ => .pure rfl
    | properties => exact statement setting _ _ fun _ ref => .property ref
    | actions => exact statement setting _ _ fun _ ref => .action ref
    | map => exact statement setting _ _ fun _ ref => .path ref
    | boring => exact statement setting _ _ fun _ ref => .boring ref

/-- One step of reading. -/
theorem step (scope : Scope) :
    Moves v doc base base' Eq (Parse.step setting scope) (Parse.step setting scope) := by
  refine (read (.lead scope)).bind fun {l l'} hl => ?_
  subst hl
  cases l with
  | none => exact plainLine setting scope
  | some lead => exact follow setting scope lead

/-- The whole loop. -/
theorem run (scope : Scope) :
    Moves v doc base base' Eq (Parse.run setting scope) (Parse.run setting scope) := by
  intro s t hs
  fun_induction Parse.run setting scope s generalizing t with
  | case1 scope s hnil =>
    rw [run_of_nil (hs.cursor.rest ▸ hnil)]
    exact .ok rfl hs
  | case2 scope s hne next s' hstep ih =>
    have hm : Agrees (Progress.Moved v doc base base') (Fault.Moved v) Eq _ _ :=
      step setting scope s t hs
    rw [hstep] at hm
    generalize ht : Parse.step setting scope t = r at hm
    cases hm with
    | ok hnext hs' =>
      subst hnext
      rw [run_of_ok (hs.cursor.rest ▸ hne) ht]
      exact ih _ hs'
  | case3 scope s hne fault s' hstep =>
    have hm : Agrees (Progress.Moved v doc base base') (Fault.Moved v) Eq _ _ :=
      step setting scope s t hs
    rw [hstep] at hm
    generalize ht : Parse.step setting scope t = r at hm
    cases hm with
    | error hf hs' =>
      rw [run_of_error (hs.cursor.rest ▸ hne) ht]
      exact .error hf hs'

end Moves
end Parse

end Gamebook
