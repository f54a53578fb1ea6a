import Gamebook.Source.Fault
import Gamebook.Source.Grammar

/-!
Reading a source. The cursor has the text ahead, the offset reached, the text it
holds, and the notes taken on the way; a reading step leaves all of these behind
whether it gives a value or stops at a fault. No step looks back, so what is read
depends on the text ahead alone, and the offset only on how much was taken.
-/
namespace Gamebook

/-- A trace entry: what was begun, and where. -/
structure Note where
  subject : String
  pos : Nat
  deriving DecidableEq, Repr

structure Cursor where
  pos : Nat
  rest : List Char
  held : List Char
  /-- Latest first. -/
  notes : List Note
  deriving DecidableEq, Repr

namespace Cursor

def ofText (source : List Char) : Cursor := ⟨0, source, [], []⟩

/-- Take the text ahead up to `rest`. -/
def advance (c : Cursor) (rest : List Char) : Cursor :=
  { c with pos := c.pos + (c.rest.length - rest.length), rest := rest }

def past (c : Cursor) (m : Match) : Cursor :=
  { c with pos := c.pos + m.text.length, rest := m.rest }

def hold (c : Cursor) (text : List Char) : Cursor := { c with held := text }

/-- Hold nothing. -/
def release (c : Cursor) : Cursor := { c with held := [] }

def note (c : Cursor) (subject : String) : Cursor :=
  { c with notes := ⟨subject, c.pos⟩ :: c.notes }

/-- Past the pattern where it matches, unmoved where it does not. -/
def skip (c : Cursor) (p : Pattern) : Cursor :=
  match p.run c.rest with
  | some m => c.past m
  | none => c

/-- Past the first match of the pattern, or at the end. -/
def skipThrough (c : Cursor) (p : Pattern) : Cursor :=
  match p.search c.rest with
  | some (_, m) => c.advance m.rest
  | none => c.advance []

@[simp] theorem rest_advance (c : Cursor) (rest : List Char) : (c.advance rest).rest = rest := rfl
@[simp] theorem rest_past (c : Cursor) (m : Match) : (c.past m).rest = m.rest := rfl
@[simp] theorem rest_hold (c : Cursor) (text : List Char) : (c.hold text).rest = c.rest := rfl
@[simp] theorem rest_release (c : Cursor) : c.release.rest = c.rest := rfl
@[simp] theorem rest_note (c : Cursor) (subject : String) : (c.note subject).rest = c.rest := rfl

/-- `d` stands where `c` gets by taking some text. -/
def Reaches (c d : Cursor) : Prop :=
  ∃ taken, c.rest = taken ++ d.rest ∧ d.pos = c.pos + taken.length

namespace Reaches

theorem refl (c : Cursor) : c.Reaches c := ⟨[], rfl, rfl⟩

theorem trans {c d e : Cursor} (h : c.Reaches d) (h' : d.Reaches e) : c.Reaches e := by
  obtain ⟨s, hs, hp⟩ := h
  obtain ⟨t, ht, hq⟩ := h'
  exact ⟨s ++ t, by simp [hs, ht], by simp [hp, hq]; omega⟩

theorem length_le {c d : Cursor} (h : c.Reaches d) : d.rest.length ≤ c.rest.length := by
  obtain ⟨s, hs, -⟩ := h
  simp [hs]

/-- The place is told by what was taken. -/
theorem pos_eq {c d : Cursor} (h : c.Reaches d) {taken : List Char}
    (hc : c.rest = taken ++ d.rest) : d.pos = c.pos + taken.length := by
  obtain ⟨taken', htaken, hpos⟩ := h
  rw [List.append_cancel_right (hc.symm.trans htaken), hpos]

theorem hold {c d : Cursor} (h : c.Reaches d) (text : List Char) : c.Reaches (d.hold text) := h

theorem release {c d : Cursor} (h : c.Reaches d) : c.Reaches d.release := h

theorem note {c d : Cursor} (h : c.Reaches d) (subject : String) : c.Reaches (d.note subject) := h

end Reaches

theorem reaches_past {c : Cursor} {p : Pattern} {m : Match} (h : p.run c.rest = some m) :
    c.Reaches (c.past m) :=
  ⟨m.text, (Pattern.run_split h).symm, rfl⟩

theorem reaches_advance {c : Cursor} {taken rest : List Char} (h : c.rest = taken ++ rest) :
    c.Reaches (c.advance rest) :=
  ⟨taken, h, by simp [advance, h]⟩

theorem reaches_skip (c : Cursor) (p : Pattern) : c.Reaches (c.skip p) := by
  unfold skip
  split
  · rename_i m h
    exact reaches_past h
  · exact .refl c

theorem reaches_skipThrough (c : Cursor) (p : Pattern) : c.Reaches (c.skipThrough p) := by
  unfold skipThrough
  split
  · rename_i skipped m h
    exact reaches_advance (Pattern.search_split h).symm
  · exact reaches_advance (List.append_nil _).symm

end Cursor

/-- A reading step. -/
abbrev Read := EStateM Fault Cursor

namespace Read

def fail (complaint : Complaint) (pos : Nat) : Read α := throw (.refused complaint pos)

/-- Fail at the cursor. -/
def failHere (complaint : Complaint) : Read α := fun c => .error (.refused complaint c.pos) c

/-- Note what begins here; the result is the place. -/
def begin (subject : String) : Read Nat := fun c => .ok c.pos (c.note subject)

/-- Move past the pattern if it comes next. -/
def match? (p : Pattern) : Read (Option Match) := fun c =>
  match p.run c.rest with
  | some m => .ok (some m) (c.past m)
  | none => .ok none c

def accept (p : Pattern) : Read Bool := return (← match? p).isSome

/-- Move past the first of several patterns that comes next, and tell which one. -/
def firstOf (table : List (α × Pattern)) : Read (Option α) := fun c =>
  match Pattern.firstOf table c.rest with
  | some (a, m) => .ok (some a) (c.past m)
  | none => .ok none c

/-- Move past the pattern, which must come next. -/
def require (p : Pattern) (complaint : Complaint) : Read Match := fun c =>
  match p.run c.rest with
  | some m => .ok m (c.past m)
  | none => .error (.refused complaint c.pos) c

/-- Does the pattern come next? -/
def peek (p : Pattern) : Read Bool := return (p.run (← get).rest).isSome

def skip (p : Pattern) : Read Unit := modify (·.skip p)

def skipThrough (p : Pattern) : Read Unit := modify (·.skipThrough p)

/-- The value of a numeral that was read. -/
def numeral (value : Except Nat α) : Read α :=
  match value with
  | .ok a => pure a
  | .error digits => throw (.longNumeral digits)

end Read

/-- The content of a string up to its closing quote, and the text after that quote
if there is one. A backslash makes the next character literal. -/
def stringBody : List Char → List Char × Option (List Char)
  | [] => ([], none)
  | '"' :: s => ([], some s)
  | ['\\'] => ([], none)
  | '\\' :: c :: s => let r := stringBody s; (c :: r.1, r.2)
  | c :: s => let r := stringBody s; (c :: r.1, r.2)

/-- What follows the closing quote is a proper end of the text. -/
theorem stringBody_suffix {s rest : List Char} (h : (stringBody s).2 = some rest) :
    ∃ taken, taken ≠ [] ∧ s = taken ++ rest := by
  fun_induction stringBody s with
  | case1 => simp at h
  | case2 s => exact ⟨['"'], by simp, by simp_all⟩
  | case3 => simp at h
  | case4 c s r ih =>
    obtain ⟨taken, -, hs⟩ := ih h
    exact ⟨'\\' :: c :: taken, by simp, by simp [← hs]⟩
  | case5 c s _ _ _ r ih =>
    obtain ⟨taken, -, hs⟩ := ih h
    exact ⟨c :: taken, by simp, by simp [← hs]⟩

/-- Read string content after an opening quote, through the closing one. -/
def Read.string : Read String := fun c =>
  match stringBody c.rest with
  | (content, some rest) => .ok (String.ofList content) (c.advance rest).release
  | (content, none) =>
    let last := (c.advance []).hold content
    .error (.refused (.expecting .stringEnd) last.pos) last

namespace Read

/-- The cursor a result leaves behind. -/
def reached : EStateM.Result Fault Cursor α → Cursor
  | .ok _ c => c
  | .error _ c => c

/-- Reading that only takes text. -/
def Advances (x : Read α) : Prop := ∀ c : Cursor, c.Reaches (reached (x c))

namespace Advances

theorem pure (a : α) : Advances (Pure.pure a : Read α) := fun c => .refl c

theorem bind {x : Read α} {f : α → Read β} (hx : Advances x) (hf : ∀ a, Advances (f a)) :
    Advances (x >>= f) := by
  intro c
  have h := hx c
  change c.Reaches (reached (EStateM.bind x f c))
  unfold EStateM.bind
  split
  · rename_i a d heq
    rw [heq] at h
    exact h.trans (hf a d)
  · rename_i e d heq
    rw [heq] at h
    exact h

theorem fail (complaint : Complaint) (pos : Nat) : Advances (Read.fail complaint pos : Read α) :=
  fun c => .refl c

theorem failHere (complaint : Complaint) : Advances (Read.failHere complaint : Read α) :=
  fun c => .refl c

theorem begin (subject : String) : Advances (Read.begin subject) := fun c => .refl c

theorem match? (p : Pattern) : Advances (Read.match? p) := by
  intro c
  unfold Read.match?
  split
  · rename_i m h
    exact Cursor.reaches_past h
  · exact .refl c

theorem accept (p : Pattern) : Advances (Read.accept p) := bind (match? p) fun _ => pure _

theorem firstOf (table : List (α × Pattern)) : Advances (Read.firstOf table) := by
  intro c
  unfold Read.firstOf
  split
  · rename_i a m h
    obtain ⟨p, -, hp⟩ := Pattern.run_of_firstOf h
    exact Cursor.reaches_past hp
  · exact .refl c

theorem require (p : Pattern) (complaint : Complaint) : Advances (Read.require p complaint) := by
  intro c
  unfold Read.require
  split
  · rename_i m h
    exact Cursor.reaches_past h
  · exact .refl c

theorem ite {b : Bool} {x y : Read α} (hx : Advances x) (hy : Advances y) :
    Advances (if b then x else y) := by
  cases b
  · exact hy
  · exact hx

theorem peek (p : Pattern) : Advances (Read.peek p) := fun c => .refl c

theorem skip (p : Pattern) : Advances (Read.skip p) := fun c => Cursor.reaches_skip c p

theorem skipThrough (p : Pattern) : Advances (Read.skipThrough p) :=
  fun c => Cursor.reaches_skipThrough c p

theorem numeral (value : Except Nat α) : Advances (Read.numeral value) := by
  intro c
  unfold Read.numeral
  split <;> exact .refl c

theorem string : Advances Read.string := by
  intro c
  unfold Read.string
  split
  · rename_i content rest h
    obtain ⟨taken, -, ht⟩ := stringBody_suffix (congrArg Prod.snd h)
    exact (Cursor.reaches_advance ht).release
  · exact (Cursor.reaches_advance (List.append_nil _).symm).hold _

end Advances

/-- Reading that takes some text where there is any. -/
structure Takes (x : Read α) : Prop where
  advances : Advances x
  lt {c : Cursor} {a : α} {d : Cursor} :
    x c = .ok a d → c.rest ≠ [] → d.rest.length < c.rest.length

namespace Takes

theorem failHere (complaint : Complaint) : Takes (Read.failHere complaint : Read α) :=
  ⟨.failHere complaint, fun h => nomatch h⟩

theorem require {p : Pattern} (hp : p.consumes = true) (complaint : Complaint) :
    Takes (Read.require p complaint) := by
  refine ⟨.require p complaint, fun {c a d} h _ => ?_⟩
  unfold Read.require at h
  split at h
  · rename_i m hm
    simp only [EStateM.Result.ok.injEq] at h
    rw [← h.2]
    exact Pattern.run_length_lt hp hm
  · simp at h

theorem bind_left {x : Read α} {f : α → Read β} (hx : Takes x) (hf : ∀ a, Advances (f a)) :
    Takes (x >>= f) := by
  refine ⟨.bind hx.advances hf, fun {c b e} h hc => ?_⟩
  change EStateM.bind x f c = .ok b e at h
  unfold EStateM.bind at h
  split at h
  · rename_i a d hd
    have hr := (hf a d).length_le
    rw [h] at hr
    exact Nat.lt_of_le_of_lt hr (hx.lt hd hc)
  · simp at h

theorem bind_right {x : Read α} {f : α → Read β} (hx : Advances x) (hf : ∀ a, Takes (f a)) :
    Takes (x >>= f) := by
  refine ⟨.bind hx fun a => (hf a).advances, fun {c b e} h hc => ?_⟩
  change EStateM.bind x f c = .ok b e at h
  unfold EStateM.bind at h
  split at h
  · rename_i a d hd
    have hcd := (hx c).length_le
    have hde := ((hf a).advances d).length_le
    rw [hd] at hcd
    rw [h] at hde
    simp only [reached] at hcd hde
    by_cases hd' : d.rest = []
    · have := List.length_pos_iff.2 hc
      simp only [hd', List.length_nil, Nat.le_zero] at hde
      omega
    · have := (hf a).lt h hd'
      omega
  · simp at h

theorem ite {b : Bool} {x y : Read α} (hx : Takes x) (hy : Takes y) :
    Takes (if b then x else y) := by
  cases b
  · exact hy
  · exact hx

end Takes
end Read
end Gamebook
