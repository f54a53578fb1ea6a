import Mathlib.Logic.Relation
import Gamebook.Proofs.Passages

/-!
The loops of reading and why they end. Whatever the source, an iteration after which a loop
goes on leaves the cursor further on in it, so a loop has no more iterations than characters
are left: the passages of a script, the lines of a section or a block, the tokens of a line,
the lexemes of an expression with all that they open, the arguments of a call and the
characters of a string.
-/
namespace Gamebook

namespace Cursor

/-- The cursor stands in the source: ahead of it is the text from its offset on. -/
structure Within (source : List Char) (c : Cursor) : Prop where
  pos_le : c.pos ≤ source.length
  rest : c.rest = source.drop c.pos

theorem within_ofText (source : List Char) : (Cursor.ofText source).Within source :=
  ⟨Nat.zero_le _, rfl⟩

namespace Reaches

variable {c d : Cursor}

theorem pos_le (h : c.Reaches d) : c.pos ≤ d.pos := by
  obtain ⟨taken, -, hp⟩ := h
  omega

theorem pos_add (h : c.Reaches d) : c.pos + c.rest.length = d.pos + d.rest.length := by
  obtain ⟨taken, hs, hp⟩ := h
  simp only [hs, hp, List.length_append]
  omega

/-- What is reached from a cursor in the source stands in it. -/
theorem within (h : c.Reaches d) {source : List Char} (hc : c.Within source) :
    d.Within source := by
  obtain ⟨taken, hs, hp⟩ := h
  have hsplit : source.drop c.pos = taken ++ d.rest := by rw [← hc.rest, hs]
  have hlength := congrArg List.length hsplit
  simp only [List.length_drop, List.length_append] at hlength
  have hle := hc.pos_le
  refine ⟨by omega, ?_⟩
  rw [hp, ← List.drop_drop, hsplit, List.drop_left]

end Reaches
end Cursor

/-- A loop by its states, the cursor in each, and what one iteration does that does not
end it. -/
structure Loop where
  State : Type
  cursor : State → Cursor
  next : State → State → Prop

namespace Loop

/-- Every iteration takes text. -/
def Progresses (l : Loop) : Prop :=
  ∀ s t, l.next s t →
    (l.cursor s).Reaches (l.cursor t) ∧ (l.cursor s).pos < (l.cursor t).pos

/-- So many iterations lead from the one state to the other. -/
inductive Turns (l : Loop) : Nat → l.State → l.State → Prop
  | none (s : l.State) : Turns l 0 s s
  | more {n : Nat} {s t u : l.State} (h : l.next s t) (rest : Turns l n t u) : Turns l (n + 1) s u

variable {l : Loop}

theorem Progresses.length_lt (h : l.Progresses) {s t : l.State} (hn : l.next s t) :
    (l.cursor t).rest.length < (l.cursor s).rest.length := by
  obtain ⟨hr, hlt⟩ := h s t hn
  have hadd := hr.pos_add
  omega

/-- There are no more iterations than characters left. -/
theorem Progresses.turns_le (h : l.Progresses) {n : Nat} {s t : l.State} (hn : l.Turns n s t) :
    n + (l.cursor t).rest.length ≤ (l.cursor s).rest.length := by
  induction hn with
  | none s => omega
  | more hnext _ ih =>
    have hlt := h.length_lt hnext
    omega

theorem Progresses.wellFounded (h : l.Progresses) : WellFounded fun t s => l.next s t :=
  Subrelation.wf (fun hn => h.length_lt hn)
    (measure fun s => (l.cursor s).rest.length).wf

/-- A loop whose iterations only take text, and shorten what is ahead. -/
theorem progresses_of_lt (h : ∀ s t, l.next s t → (l.cursor s).Reaches (l.cursor t) ∧
    (l.cursor t).rest.length < (l.cursor s).rest.length) : l.Progresses := by
  intro s t hn
  obtain ⟨hr, hlt⟩ := h s t hn
  have hadd := hr.pos_add
  exact ⟨hr, by omega⟩

/-- The statements of a script. -/
def script (setting : Setting) : Loop where
  State := Progress
  cursor := Progress.cursor
  next s t := s.cursor.rest ≠ [] ∧ Parse.passage setting s = .ok () t

/-- The lines of a section or a block. -/
def lines (setting : Setting) : Loop where
  State := Scope × Progress
  cursor s := s.2.cursor
  next s t := s.1 ≠ .top ∧ t.1 ≠ .top ∧ s.2.cursor.rest ≠ [] ∧
    Parse.step setting s.1 s.2 = .ok t.1 t.2

/-- The tokens of a line and the gaps between them. -/
def tokens (setting : Setting) : Loop where
  State := Cursor
  cursor c := c
  next c d := (Line.next setting c).goesOn = true ∧ d = (Line.next setting c).cursor

/-- The steps of the expression machine, through all levels. -/
def steps (setting : Setting) (goal : Goal) : Loop where
  State := Machine × Cursor
  cursor := Prod.snd
  next s t := s.1.step setting goal s.2 = .more t.1 t.2

end Loop

namespace Machine

variable {setting : Setting} {goal : Goal}

/-- The machine steps on up to the first state where it stops. -/
inductive Until (setting : Setting) (goal : Goal) (stop : Machine → Prop) :
    Machine → Cursor → Machine → Cursor → Prop
  | last {m m' : Machine} {c c' : Cursor} (h : m.step setting goal c = .more m' c')
    (hs : stop m') : Until setting goal stop m c m' c'
  | more {m m' m'' : Machine} {c c' c'' : Cursor} (h : m.step setting goal c = .more m' c')
    (hs : ¬ stop m') (rest : Until setting goal stop m' c' m'' c'') :
    Until setting goal stop m c m'' c''

theorem more_reaches {m m' : Machine} {c c' : Cursor} (h : m.step setting goal c = .more m' c') :
    c.Reaches c' ∧ c'.rest.length < c.rest.length := by
  have hr := step_reaches setting goal m c
  rw [h] at hr
  exact ⟨hr, step_lt h⟩

theorem Until.reaches {stop : Machine → Prop} {m m' : Machine} {c c' : Cursor}
    (h : Until setting goal stop m c m' c') :
    c.Reaches c' ∧ c'.rest.length < c.rest.length := by
  induction h with
  | last h => exact more_reaches h
  | more h _ _ ih =>
    obtain ⟨hr, hlt⟩ := more_reaches h
    exact ⟨hr.trans ih.1, by omega⟩

end Machine

namespace Loop

/-- The lexemes of one expression. A parenthesis or a call is one iteration with all that it
encloses: the machine is back when the levels below are as they were. -/
def lexemes (setting : Setting) (goal : Goal) : Loop where
  State := Machine × Cursor
  cursor := Prod.snd
  next s t := t.1.stack = s.1.stack ∧
    Machine.Until setting goal (·.stack.length ≤ s.1.stack.length) s.1 s.2 t.1 t.2

/-- The arguments of a call. An iteration reads one argument, and ends where the next one
begins or with the call. -/
def arguments (setting : Setting) (goal : Goal) : Loop where
  State := Machine × Cursor
  cursor := Prod.snd
  next s t := ∃ name place args outer stack, s.1.stack = (.call name place args, outer) :: stack ∧
    Machine.Until setting goal
      (fun m => m.stack.length ≤ stack.length ∨
        ∃ e, m.stack = (.call name place (e :: args), outer) :: stack) s.1 s.2 t.1 t.2

end Loop

/-- One character of a string, alone or behind a backslash. -/
inductive StringTurn : List Char → Char → List Char → Prop
  | literal (c : Char) (s : List Char) : StringTurn ('\\' :: c :: s) c s
  | plain {c : Char} (s : List Char) (hq : c ≠ '"') (hb : c ≠ '\\') : StringTurn (c :: s) c s

/-- The content of a string is read turn by turn: it is empty where none follows. -/
theorem stringBody_turn (s : List Char) :
    (∃ c t, StringTurn s c t ∧ stringBody s = (c :: (stringBody t).1, (stringBody t).2)) ∨
      (∀ c t, ¬ StringTurn s c t) ∧ (stringBody s).1 = [] := by
  fun_cases stringBody s with
  | case1 => exact .inr ⟨nofun, rfl⟩
  | case2 => exact .inr ⟨by rintro c t (_ | ⟨_, hq, -⟩); exact hq rfl, rfl⟩
  | case3 => exact .inr ⟨by rintro c t (_ | ⟨_, -, hb⟩); exact hb rfl, rfl⟩
  | case4 c s => exact .inl ⟨c, s, .literal c s, rfl⟩
  | case5 c s hq hend hb =>
    have hne : c ≠ '\\' := by
      rintro rfl
      cases s with
      | nil => exact hend rfl rfl
      | cons x s => exact hb x s rfl rfl
    exact .inl ⟨c, s, .plain s hq hne, rfl⟩

theorem StringTurn.reaches {c : Cursor} {x : Char} {s : List Char} (h : StringTurn c.rest x s) :
    c.Reaches (c.advance s) ∧ (c.advance s).rest.length < c.rest.length := by
  have hsplit : ∃ taken, taken ≠ [] ∧ c.rest = taken ++ s := by
    generalize c.rest = rest at h
    cases h with
    | literal => exact ⟨['\\', x], by simp, rfl⟩
    | plain => exact ⟨[x], by simp, rfl⟩
  obtain ⟨taken, hne, hs⟩ := hsplit
  have hpos := List.length_pos_iff.2 hne
  refine ⟨Cursor.reaches_advance hs, ?_⟩
  rw [Cursor.rest_advance, hs, List.length_append]
  omega

namespace Loop

/-- The characters of a string. -/
def characters : Loop where
  State := Cursor
  cursor c := c
  next c d := ∃ x s, StringTurn c.rest x s ∧ d = c.advance s

/-- The loops of reading. -/
inductive OfReading (setting : Setting) : Loop → Prop
  | script : OfReading setting (script setting)
  | lines : OfReading setting (lines setting)
  | tokens : OfReading setting (tokens setting)
  | lexemes (goal : Goal) : OfReading setting (lexemes setting goal)
  | arguments (goal : Goal) : OfReading setting (arguments setting goal)
  | steps (goal : Goal) : OfReading setting (steps setting goal)
  | characters : OfReading setting characters

theorem OfReading.progresses {setting : Setting} {l : Loop} (h : l.OfReading setting) :
    l.Progresses := by
  apply progresses_of_lt
  cases h with
  | script =>
    rintro s t ⟨hs, h⟩
    have ht := Parse.Takes.passage setting
    exact ⟨ht.advances.of_ok h, ht.lt h hs⟩
  | lines =>
    rintro ⟨scope, s⟩ ⟨next, t⟩ ⟨-, -, hs, h⟩
    have ht := Parse.Takes.step setting scope
    exact ⟨ht.advances.of_ok h, ht.lt h hs⟩
  | tokens =>
    rintro c d ⟨hgoes, rfl⟩
    exact ⟨Line.next_reaches setting c, Line.next_lt rfl hgoes⟩
  | lexemes goal =>
    rintro s t ⟨-, h⟩
    exact h.reaches
  | arguments goal =>
    rintro s t ⟨name, place, args, outer, stack, -, h⟩
    exact h.reaches
  | steps goal =>
    intro s t h
    exact Machine.more_reaches h
  | characters =>
    rintro c d ⟨x, s, h, rfl⟩
    exact h.reaches

end Loop

/-- What reading does to the cursor, part by part and whether it gives a value or fails. -/
inductive Reading (setting : Setting) : Cursor → Cursor → Prop
  /-- What is held and noted does not matter. -/
  | mark {c d : Cursor} (hp : d.pos = c.pos) (hr : d.rest = c.rest) : Reading setting c d
  | past {c : Cursor} {p : Pattern} {m : Match} (h : p.run c.rest = some m) :
    Reading setting c (c.past m)
  | through (p : Pattern) (c : Cursor) : Reading setting c (c.skipThrough p)
  | string (c : Cursor) : Reading setting c (Read.reached (Read.string c))
  | lexeme (goal : Goal) (m : Machine) (c : Cursor) :
    Reading setting c (m.step setting goal c).cursor
  | expr (goal : Goal) (c : Cursor) : Reading setting c (Read.reached (Read.expr setting goal c))
  | token (c : Cursor) : Reading setting c (Line.next setting c).cursor
  | line (c : Cursor) : Reading setting c (Read.reached (Read.line setting c))
  | step (scope : Scope) (s : Progress) :
    Reading setting s.cursor (Parse.reached (Parse.step setting scope s)).cursor
  | passage (s : Progress) :
    Reading setting s.cursor (Parse.reached (Parse.passage setting s)).cursor

theorem Reading.reaches {setting : Setting} {c d : Cursor} (h : Reading setting c d) :
    c.Reaches d := by
  cases h with
  | mark hp hr => exact ⟨[], hr.symm, hp⟩
  | past h => exact Cursor.reaches_past h
  | through => exact Cursor.reaches_skipThrough ..
  | string => exact Read.Advances.string c
  | lexeme goal m => exact Machine.step_reaches setting goal m c
  | expr goal => exact Read.Advances.expr setting goal c
  | token => exact Line.next_reaches setting c
  | line => exact Read.Advances.line setting c
  | step scope s => exact Parse.Advances.step setting scope s
  | passage s => exact (Parse.Takes.passage setting).advances s

/-- The cursor gets to a place in any number of moves. -/
abbrev Visits (setting : Setting) : Cursor → Cursor → Prop :=
  Relation.ReflTransGen (Reading setting)

theorem Visits.reaches {setting : Setting} {c d : Cursor} (h : Visits setting c d) :
    c.Reaches d := by
  induction h with
  | refl => exact .refl c
  | tail _ hlast ih => exact ih.trans hlast.reaches

namespace Parse

variable {setting : Setting}

theorem Leads.visits {scope final : Scope} {s t : Progress} (h : Leads setting scope s final t) :
    Visits setting s.cursor t.cursor := by
  induction h with
  | refl => exact .refl
  | @step scope _ _ s _ _ _ hstep _ ih =>
    have hr : Reading setting s.cursor _ := .step scope s
    rw [hstep] at hr
    exact .head hr ih

theorem Passages.visits {s t : Progress} (h : Passages setting s t) :
    Visits setting s.cursor t.cursor := by
  induction h with
  | refl => exact .refl
  | @next s _ _ _ h _ ih =>
    have hr : Reading setting s.cursor _ := .passage s
    rw [h] at hr
    exact .head hr ih

theorem Outcome.visits {s : Progress} {r : EStateM.Result Fault Progress Unit}
    (h : Outcome setting s r) : Visits setting s.cursor (reached r).cursor := by
  cases h with
  | finished h => exact h.visits
  | @failed t _ _ h _ hu =>
    have hr : Reading setting t.cursor _ := .passage t
    rw [hu] at hr
    exact .tail h.visits hr

/-- Reading ends whatever the source is. Every loop of it takes text in each iteration after
which it goes on, so it has no more iterations than characters are left and cannot go on for
ever. Wherever reading gets to, it stays in the source and does not go back, to the last place
that it leaves behind; and it comes to an end with the source or in a passage that fails. -/
theorem run_ends (setting : Setting) (source : List Char) :
    (∀ l : Loop, l.OfReading setting → l.Progresses ∧ (WellFounded fun t s => l.next s t) ∧
      ∀ n s t, l.Turns n s t → n + (l.cursor t).rest.length ≤ (l.cursor s).rest.length) ∧
    (∀ s, (∃ c t, StringTurn s c t ∧ stringBody s = (c :: (stringBody t).1, (stringBody t).2)) ∨
      (∀ c t, ¬ StringTurn s c t) ∧ (stringBody s).1 = []) ∧
    (∀ c d : Cursor, Visits setting (.ofText source) c → Reading setting c d →
      c.Within source ∧ d.Within source ∧ c.pos ≤ d.pos) ∧
    (∀ scope s, Leads setting .top (.ofText source) scope s →
      Visits setting (.ofText source) s.cursor) ∧
    Outcome setting (.ofText source) (run setting .top (.ofText source)) ∧
    Visits setting (.ofText source) (reached (run setting .top (.ofText source))).cursor := by
  refine ⟨fun l hl => ?_, stringBody_turn, fun c d hc hd => ?_, fun scope s h => h.visits,
    run_outcome .., ?_⟩
  · have hp := hl.progresses
    exact ⟨hp, hp.wellFounded, fun n s t hn => hp.turns_le hn⟩
  · have hwithin := hc.reaches.within (Cursor.within_ofText source)
    exact ⟨hwithin, hd.reaches.within hwithin, hd.reaches.pos_le⟩
  · exact (run_outcome setting (.ofText source)).visits

/-- A string that is not closed. -/
theorem run_ends_unclosed :
    let source := "start \"a\\".toList
    let c : Cursor := ⟨7, "a\\".toList, [], []⟩
    Loop.characters.next c (c.advance ['\\']) ∧ c.pos < (c.advance ['\\']).pos ∧
      ∀ d, Visits {} (.ofText source) d → d.pos ≤ source.length := by
  intro source c
  have hturn : Loop.characters.next c (c.advance ['\\']) :=
    ⟨'a', ['\\'], .plain _ (by decide) (by decide), rfl⟩
  obtain ⟨hloops, -, hvisits, -⟩ := run_ends {} source
  refine ⟨hturn, ((hloops _ .characters).1 _ _ hturn).2, fun d hd => ?_⟩
  exact (hvisits d d hd (.mark rfl rfl)).1.pos_le

end Parse
end Gamebook
