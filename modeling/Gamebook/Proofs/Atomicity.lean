import Gamebook.Proofs.Extent
import Gamebook.Proofs.Turns

/-!
A record that cannot be read leaves the document as it was. There are two exceptions: a
variable counts before the end of its line is looked for, and the reactions of an item count
before the word that names none.
-/
namespace Gamebook

namespace Read

open Grammar

variable {setting : Setting} {c d : Cursor}

end Read

def Event.warning? : Event → Option Warning
  | .warning w => some w
  | _ => none

namespace Progress

/-- What has been warned of so far. -/
def warnings (s : Progress) : List Warning := (Script.ofResult (.ok () s)).warnings

theorem warnings_eq (s : Progress) :
    s.warnings = ((s.events.filter Event.lasts).filterMap Event.warning?).reverse := by
  have hw : ∀ events : List Event, Script.warnings ⟨s.document, events, none⟩ =
      (events.filter Event.lasts).filterMap Event.warning? := by
    intro events
    induction events with
    | nil => rfl
    | cons e events ih =>
      cases e with
      | note => exact ih
      | record => exact ih
      | warning w => exact congrArg (w :: ·) ih
  exact (hw s.events.reverse).trans (by rw [List.filter_reverse, List.filterMap_reverse])

theorem filterMap_log {rs : List Record} (hr : ∀ r ∈ rs, ∀ d : Document, d.warning? r = none)
    (d : Document) : (d.log rs).filterMap Event.warning? = [] := by
  induction rs generalizing d with
  | nil => rfl
  | cons r rs ih =>
    obtain ⟨hr, hrs⟩ := List.forall_mem_cons.1 hr
    rw [Document.log, hr d]
    exact ih hrs (d.add r)

/-- Records that replace nothing are added without a warning. -/
theorem Adds.warnings {s t : Progress} {rs : List Record} (h : s.Adds rs t)
    (hr : ∀ r ∈ rs, ∀ d : Document, d.warning? r = none) : t.warnings = s.warnings := by
  rw [warnings_eq, warnings_eq, h.events, List.filterMap_append, List.filterMap_reverse,
    filterMap_log hr]
  rfl

end Progress

namespace Parse

open Grammar

variable {setting : Setting} {scope : Scope} {s t u : Progress} {fault : Fault}

/-- A variable without an operator comes next, and behind it something that does not end its
line. -/
def Bare (setting : Setting) (scope : Scope) (s : Progress) (v : Definition) : Prop :=
  ∃ lead t c, read (Read.lead scope) s = .ok lead t ∧ scope.turn lead = .definition ∧
    Read.definition setting t.cursor = .ok v c ∧ v.change = .declare ∧
    ∃ x ∈ (c.rest.dropWhile isBlank).head?, x ≠ '\n' ∧ x ≠ '#'

/-- A boring line in the block of an item comes next, and it holds a token that names no
reaction. The records are those of the words before it. -/
def Stray (setting : Setting) (scope : Scope) (s : Progress) (rs : List Record) : Prop :=
  ∃ id t good bad rest c words, scope = .item id ∧
    read (Read.lead scope) s = .ok (some (.boring id)) t ∧
    Read.line setting (t.cursor.note "boring") = .ok (good ++ bad :: rest) c ∧
    bad.content.word?.bind Category.ofName? = none ∧ Entry.boringWords good = (words, []) ∧
    Entry.boringWords (good ++ bad :: rest) = (words, bad :: rest) ∧
    rs = words.map (Record.reaction id t.cursor.pos)

theorem Bare.definition {lead : Option Lead} {v : Definition} (h : Bare setting scope s v)
    (hl : read (Read.lead scope) s = .ok lead t) :
    scope.turn lead = .definition ∧ ∃ c, Read.definition setting t.cursor = .ok v c := by
  obtain ⟨lead', t', c, hl', hturn, hv, -⟩ := h
  cases hl.symm.trans hl'
  exact ⟨hturn, c, hv⟩

theorem Stray.entry {lead : Option Lead} {rs : List Record} (h : Stray setting scope s rs)
    (hl : read (Read.lead scope) s = .ok lead t) :
    ∃ id p c, scope.turn lead = .reactions id ∧
      Read.entry setting "boring" (Entry.reactions id) t.cursor =
        .ok ((rs, t.cursor.pos), p) c := by
  obtain ⟨id, t', good, bad, rest, c, words, rfl, hl', hline, -, -, hwords, rfl⟩ := h
  cases hl.symm.trans hl'
  refine ⟨id, bad :: rest, c, rfl, Read.entry_of_line hline ?_⟩
  rw [Entry.reactions_eq, hwords]

/-- What a failing step leaves behind: the document as it was, but for a variable that is not
the end of its line and for the reactions before a token that names none. Nothing is warned
of. -/
structure Fails (setting : Setting) (scope : Scope) (s : Progress) (u : Script) : Prop where
  warnings : u.warnings = s.warnings
  bare (v : Definition) : Bare setting scope s v → u.document = s.document.add (.definition v)
  stray (rs : List Record) :
    Stray setting scope s rs → u.document = rs.foldl Document.add s.document
  other : (∀ v, ¬Bare setting scope s v) → (∀ rs, ¬Stray setting scope s rs) →
    u.document = s.document

end Parse

namespace Script

end Script
end Gamebook
