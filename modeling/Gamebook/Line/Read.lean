import Gamebook.Expr.Machine
import Gamebook.Line.Token

/-!
Reading a line of a record. At each place a string, a range, a variable, a number,
an expression in parentheses and a word are tried in this order; blanks and commas
stand between tokens. The line ends with a line break, with a comment, or with the
source, and its end is taken too.
-/
namespace Gamebook.Line

/-- What comes next on a line. -/
inductive Part where
  | gap (cursor : Cursor)
  | token (token : Token) (cursor : Cursor)
  | finish (cursor : Cursor)
  | stop (fault : Fault) (cursor : Cursor)

def Part.cursor : Part → Cursor
  | gap c | token _ c | finish c | stop _ c => c

/-- The part that a reading result stands for. -/
def Part.ofResult (make : α → Content) (offset : Nat) :
    EStateM.Result Fault Cursor α → Part
  | .ok a c => token ⟨make a, offset⟩ c
  | .error fault c => stop fault c

/-- Both bounds of a range. -/
def rangeOf (m : Match) : Except Nat Range := do
  let low ← Numeral.number? (m.groups.getD 0 [])
  let high ← Numeral.number? (m.groups.getD 1 [])
  return ⟨low, high⟩

/-- The kinds of token, and what separates them, in the order they are tried. -/
inductive Lead where
  | gap | quote | range | variableName | number | paren | word | lineEnd | comment
  deriving DecidableEq

def leads : List (Lead × Pattern) :=
  [(.gap, Grammar.blanks), (.gap, Grammar.comma), (.quote, Grammar.quote),
    (.range, Grammar.range), (.variableName, Grammar.variableName), (.number, Grammar.numeral),
    (.paren, Grammar.parenOpen), (.word, Grammar.word), (.lineEnd, Grammar.lineEnd),
    (.comment, Grammar.comment)]

def lead? (s : List Char) : Option (Lead × Match) := Pattern.firstOf leads s

/-- The part that begins with a match; the cursor stands after it. -/
def follow (setting : Setting) (offset : Nat) (m : Match) (c : Cursor) : Lead → Part
  | .gap => .gap c
  | .quote => .ofResult .string offset (Read.string c)
  | .range => .ofResult .range offset (Read.numeral (rangeOf m) c)
  | .variableName => .token ⟨.variableName (String.ofList (m.groups.getD 0 [])), offset⟩ c
  | .number => .ofResult .number offset (Read.numeral (Numeral.number? m.text) c)
  | .paren => .ofResult .expression offset (Read.expr setting .parens c)
  | .word => .token ⟨.word (String.ofList m.text), offset⟩ c
  | .lineEnd => .finish c
  | .comment => .finish (c.skipThrough Grammar.lineEnd)

def next (setting : Setting) (c : Cursor) : Part :=
  match lead? c.rest with
  | some (lead, m) => follow setting c.pos m (c.past m) lead
  | none => if c.rest.isEmpty then .finish c else .stop (.refused .unexpectedToken c.pos) c

theorem leads_consume : leads.all (·.2.consumes) = true := by decide

theorem lead?_run {s : List Char} {lead : Lead} {m : Match} (h : lead? s = some (lead, m)) :
    ∃ p : Pattern, p.consumes = true ∧ p.run s = some m := by
  obtain ⟨p, hl, hm⟩ := Pattern.run_of_firstOf h
  exact ⟨p, List.all_eq_true.1 leads_consume _ hl, hm⟩

theorem cursor_ofResult (make : α → Content) (offset : Nat)
    (r : EStateM.Result Fault Cursor α) : (Part.ofResult make offset r).cursor = Read.reached r := by
  cases r <;> rfl

theorem follow_reaches (setting : Setting) (offset : Nat) (m : Match) (c : Cursor) (lead : Lead) :
    c.Reaches (follow setting offset m c lead).cursor := by
  cases lead with
  | quote => exact cursor_ofResult .string .. ▸ Read.Advances.string c
  | range => exact cursor_ofResult .range .. ▸ Read.Advances.numeral _ c
  | number => exact cursor_ofResult .number .. ▸ Read.Advances.numeral _ c
  | paren => exact cursor_ofResult .expression .. ▸ Read.Advances.expr setting .parens c
  | comment => exact Cursor.reaches_skipThrough ..
  | _ => exact .refl c

theorem next_reaches (setting : Setting) (c : Cursor) : c.Reaches (next setting c).cursor := by
  unfold next
  split
  · rename_i lead m h
    obtain ⟨p, -, hp⟩ := lead?_run h
    exact (Cursor.reaches_past hp).trans (follow_reaches ..)
  · split <;> exact .refl c

theorem reaches_of_next {setting : Setting} {c : Cursor} {part : Part}
    (h : next setting c = part) : c.Reaches part.cursor :=
  h ▸ next_reaches setting c

/-- Does the line go on after the part? -/
def Part.goesOn : Part → Bool
  | gap _ | token .. => true
  | finish _ | stop .. => false

/-- A part after which the line goes on takes at least one character. -/
theorem next_lt {setting : Setting} {c : Cursor} {part : Part} (h : next setting c = part)
    (hg : part.goesOn = true) : part.cursor.rest.length < c.rest.length := by
  subst h
  unfold next at hg ⊢
  split
  · rename_i lead m hm
    obtain ⟨p, hc, hp⟩ := lead?_run hm
    exact Nat.lt_of_le_of_lt (follow_reaches ..).length_le (Pattern.run_length_lt hc hp)
  · simp_all only
    split at hg <;> simp [Part.goesOn] at hg

/-- Read to the end of the line, with the tokens so far, latest first. -/
def readFrom (setting : Setting) (c : Cursor) (tokens : List Token) :
    EStateM.Result Fault Cursor Line :=
  match _h : next setting c with
  | .gap c' => readFrom setting c' tokens
  | .token t c' => readFrom setting c' (t :: tokens)
  | .finish c' => .ok tokens.reverse c'
  | .stop fault c' => .error fault c'
termination_by c.rest.length
decreasing_by all_goals exact next_lt _h rfl

theorem readFrom_reaches (setting : Setting) (c : Cursor) (tokens : List Token) :
    c.Reaches (Read.reached (readFrom setting c tokens)) := by
  fun_induction readFrom setting c tokens with
  | case1 c tokens c' h ih => exact (reaches_of_next h).trans ih
  | case2 c tokens t c' h ih => exact (reaches_of_next h).trans ih
  | case3 c tokens c' h => exact reaches_of_next h
  | case4 c tokens fault c' h => exact reaches_of_next h

/-- Where text is left, reading a line takes some of it. -/
theorem readFrom_lt {setting : Setting} {c d : Cursor} {tokens line : List Token}
    (hc : c.rest ≠ []) (h : readFrom setting c tokens = .ok line d) :
    d.rest.length < c.rest.length := by
  rw [readFrom] at h
  split at h
  · rename_i c' hn
    have hr := (readFrom_reaches setting c' tokens).length_le
    rw [h] at hr
    exact Nat.lt_of_le_of_lt hr (next_lt hn rfl)
  · rename_i t c' hn
    have hr := (readFrom_reaches setting c' (t :: tokens)).length_le
    rw [h] at hr
    exact Nat.lt_of_le_of_lt hr (next_lt hn rfl)
  · rename_i c' hn
    simp only [EStateM.Result.ok.injEq] at h
    rw [← h.2]
    unfold next at hn
    split at hn
    · rename_i lead m hm
      obtain ⟨p, hp, hm⟩ := lead?_run hm
      have hr := (follow_reaches setting c.pos m (c.past m) lead).length_le
      rw [hn] at hr
      exact Nat.lt_of_le_of_lt hr (Pattern.run_length_lt hp hm)
    · split at hn
      · simp_all
      · simp at hn
  · simp at h

end Gamebook.Line

namespace Gamebook

/-- Read the tokens up to the end of the line. -/
def Read.line (setting : Setting) : Read Line := fun c => Line.readFrom setting c []

theorem Read.Advances.line (setting : Setting) : Advances (Read.line setting) :=
  fun c => Line.readFrom_reaches setting c []

theorem Read.Takes.line (setting : Setting) : Takes (Read.line setting) :=
  ⟨.line setting, fun h hc => Line.readFrom_lt hc h⟩

end Gamebook
