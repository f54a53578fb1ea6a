import Gamebook.Script.Statement

/-!
The state of reading a script: the cursor, the document so far and what happened on
the way. All three outlive a fault. Records change the document and never the
cursor; reading moves the cursor and never changes the document.
-/
namespace Gamebook

inductive Event where
  | note (note : Note)
  | record (record : Record)
  | warning (warning : Warning)
  deriving Repr

structure Progress where
  cursor : Cursor
  document : Document := {}
  /-- Latest first. -/
  events : List Event := []

namespace Progress

def ofText (source : List Char) : Progress := { cursor := .ofText source }

/-- Go on from a cursor, whose notes become events. -/
def moveTo (s : Progress) (c : Cursor) : Progress :=
  { s with cursor := { c with notes := [] }, events := c.notes.map .note ++ s.events }

/-- Put the record into the document. Warnings are about what it replaces and then
about the tokens it does not use. -/
def commit (s : Progress) (r : Record) (unused : Line) : Progress :=
  { s with
    document := s.document.add r
    events := (r.trailing? unused).toList.map .warning ++ .record r ::
      (s.document.warning? r).toList.map .warning ++ s.events }

@[simp] theorem rest_moveTo (s : Progress) (c : Cursor) : (s.moveTo c).cursor.rest = c.rest := rfl
@[simp] theorem pos_moveTo (s : Progress) (c : Cursor) : (s.moveTo c).cursor.pos = c.pos := rfl
@[simp] theorem cursor_commit (s : Progress) (r : Record) (unused : Line) :
    (s.commit r unused).cursor = s.cursor := rfl

end Progress

/-- A step of reading a script. -/
abbrev Parse := EStateM Fault Progress

namespace Parse

def read (x : Read α) : Parse α := fun s =>
  match x s.cursor with
  | .ok a c => .ok a (s.moveTo c)
  | .error fault c => .error fault (s.moveTo c)

def commit (r : Record) (unused : Line) : Parse Unit := modify (·.commit r unused)

def commitAll : List Record → Parse Unit
  | [] => pure ()
  | r :: rs => do commit r []; commitAll rs

def fail (complaint : Complaint) (pos : Nat) : Parse α := throw (.refused complaint pos)

/-- The state a result leaves behind. -/
def reached : EStateM.Result Fault Progress α → Progress
  | .ok _ s => s
  | .error _ s => s

/-- A step that only takes text. -/
def Advances (x : Parse α) : Prop := ∀ s : Progress, s.cursor.Reaches (reached (x s)).cursor

namespace Advances

theorem pure (a : α) : Advances (Pure.pure a : Parse α) := fun s => .refl s.cursor

theorem fail (complaint : Complaint) (pos : Nat) : Advances (Parse.fail complaint pos : Parse α) :=
  fun s => .refl s.cursor

theorem commit (r : Record) (unused : Line) : Advances (Parse.commit r unused) :=
  fun s => .refl s.cursor

theorem bind {x : Parse α} {f : α → Parse β} (hx : Advances x) (hf : ∀ a, Advances (f a)) :
    Advances (x >>= f) := by
  intro s
  have h := hx s
  change s.cursor.Reaches (reached (EStateM.bind x f s)).cursor
  unfold EStateM.bind
  split
  · rename_i a t heq
    rw [heq] at h
    exact h.trans (hf a t)
  · rename_i e t heq
    rw [heq] at h
    exact h

theorem commitAll (rs : List Record) : Advances (Parse.commitAll rs) := by
  induction rs with
  | nil => exact pure ()
  | cons r rs ih => exact bind (commit r []) fun _ => ih

theorem read {x : Read α} (hx : x.Advances) : Advances (Parse.read x) := by
  intro s
  have h := hx s.cursor
  unfold Parse.read
  split <;> (rename_i heq; rw [heq] at h; exact h)

end Advances

/-- A step that takes some text where there is any. -/
structure Takes (x : Parse α) : Prop where
  advances : Advances x
  lt {s : Progress} {a : α} {t : Progress} :
    x s = .ok a t → s.cursor.rest ≠ [] → t.cursor.rest.length < s.cursor.rest.length

namespace Takes

theorem read {x : Read α} (hx : x.Takes) : Takes (Parse.read x) := by
  refine ⟨.read hx.advances, fun {s a t} h hs => ?_⟩
  unfold Parse.read at h
  split at h
  · rename_i b c hc
    simp only [EStateM.Result.ok.injEq] at h
    rw [← h.2, Progress.rest_moveTo]
    exact hx.lt hc hs
  · simp at h

theorem bind_left {x : Parse α} {f : α → Parse β} (hx : Takes x) (hf : ∀ a, Advances (f a)) :
    Takes (x >>= f) := by
  refine ⟨.bind hx.advances hf, fun {s b u} h hs => ?_⟩
  change EStateM.bind x f s = .ok b u at h
  unfold EStateM.bind at h
  split at h
  · rename_i a t ht
    have hr := (hf a t).length_le
    rw [h] at hr
    exact Nat.lt_of_le_of_lt hr (hx.lt ht hs)
  · simp at h

end Takes
end Parse
end Gamebook
