import Gamebook.Source.Cursor

/-!
A probe is a cursor moved by hand over a named source. It may stand beyond the
end, where patterns see no text, or before the start, where they see all of it;
offsets before the start count from the end when single characters are taken.
The latest match is kept, so its groups can be asked for.
-/
namespace Gamebook

structure Probe where
  source : List Char
  filename : String
  pos : Int := 0
  held : List Char := []
  last : Option Match := none

/-- Why the probe has no answer. -/
inductive ProbeError where
  | noMatch
  | noGroup
  | offRange
  | complaint (diagnostic : Diagnostic)
  | longNumeral (digits : Nat)

namespace Probe

def size (p : Probe) : Nat := p.source.length

/-- The offset at which patterns are tried. -/
def start (p : Probe) : Nat := Source.clamp p.size p.pos

def rest (p : Probe) : List Char := p.source.drop p.start

/-- The index an offset stands for, counted from the end when negative. -/
def index (p : Probe) (offset : Int) : Nat :=
  Source.clamp p.size (if offset < 0 then offset + p.size else offset)

def slice (p : Probe) (first last : Int) : List Char :=
  (p.source.take (p.index last)).drop (p.index first)

def reset (p : Probe) : Probe := { p with pos := 0, held := [], last := none }

/-- Keep a match that ends at `stop`, holding `text` and moving there if asked. -/
def keep (p : Probe) (m : Match) (text : List Char) (stop : Nat) (hold move : Bool) : Probe :=
  { p with
    last := some m
    held := if hold then p.held ++ text else p.held
    pos := if move then stop else p.pos }

/-- Match the pattern at the probe. -/
def attempt (p : Probe) (pattern : Pattern) (hold move : Bool) : Bool × Probe :=
  match pattern.run p.rest with
  | none => (false, p)
  | some m => (true, p.keep m m.text (p.size - m.rest.length) hold move)

/-- Match the pattern anywhere ahead, up to and including it. -/
def attemptAhead (p : Probe) (pattern : Pattern) (hold move : Bool) : Bool × Probe :=
  match pattern.search p.rest with
  | none => (false, p)
  | some (_, m) =>
    let stop := p.size - m.rest.length
    (true, p.keep m (p.slice p.pos stop) stop hold move)

/-- Hold the character here and step past it, or past the end. -/
def advance (p : Probe) : Probe :=
  { p with held := p.held ++ p.slice p.pos (p.pos + 1), pos := p.pos + 1 }

def skip (p : Probe) (count : Int) : Probe :=
  { p with pos := min (p.pos + count) p.size }

def atEnd (p : Probe) : Bool := p.size ≤ p.pos

def current (p : Probe) : Except ProbeError (Option Char) :=
  if p.atEnd then .ok none
  else match p.source[(if p.pos < 0 then p.pos + p.size else p.pos).toNat]? with
    | some c => if p.pos + p.size < 0 then .error .offRange else .ok (some c)
    | none => .error .offRange

/-- A group of the latest match; group zero is all of it. -/
def group (p : Probe) (i : Int) : Except ProbeError String :=
  match p.last with
  | none => .error .noMatch
  | some m =>
    match (if i < 0 then none else (m.text :: m.groups)[i.toNat]?) with
    | some text => .ok (String.ofList text)
    | none => .error .noGroup

def release (p : Probe) : Probe := { p with held := [] }

/-- Skip through the first match of the pattern, or to the end. -/
def skipThrough (p : Probe) (pattern : Pattern) : Probe :=
  match p.attemptAhead pattern false true with
  | (true, q) => q
  | (false, q) => { q with pos := q.size }

def complain (p : Probe) (message : String) (offset : Int) : ProbeError :=
  .complaint ⟨message, p.source, offset, p.filename⟩

/-- What a string takes before the start: the characters counted from the end, but
for the last one. At a quote or a backslash the string begins with the source. -/
def lead (p : Probe) : List Char :=
  match p.source with
  | '"' :: _ | '\\' :: _ => []
  | _ => if p.pos < 0 then p.slice p.pos (-1) else []

/-- Read string content after an opening quote, through the closing one. -/
def string (p : Probe) : Except ProbeError String × Probe :=
  match stringBody p.rest with
  | (content, some rest) =>
    (.ok (String.ofList (p.lead ++ content)),
      { p with pos := (p.size - rest.length : Nat), held := [], last := some ⟨['"'], [], rest⟩ })
  | (content, none) =>
    let q := { p with
      pos := max p.pos p.size
      held := p.lead ++ content
      last := if p.rest.contains '\\' then some ⟨['\\'], [], []⟩ else p.last }
    (.error (q.complain (Complaint.expecting .stringEnd).message q.pos), q)

@[simp] theorem lead_of_nonneg {p : Probe} (h : 0 ≤ p.pos) : p.lead = [] := by
  unfold lead
  split
  · rfl
  · rfl
  · rw [if_neg (by omega)]

end Probe
end Gamebook
