import Gamebook.Proofs.Locality

/-!
An inner level is an expression of its own. The machine that reads an expression in
parentheses, or an argument, takes the same steps as one that reads it by itself at
the same depth; the outer levels wait below and are not looked at until it ends.
-/
namespace Gamebook

/-- How the innermost level would be read on its own. -/
def Frame.goal (depth : Int) : Frame → Goal
  | .group => { Goal.parens with depth }
  | .call .. => .argument depth

@[simp] theorem Frame.depth_goal (depth : Int) (frame : Frame) :
    (frame.goal depth).depth = depth := by
  cases frame <;> rfl

namespace Machine

/-- The machine with an outer one waiting below. -/
def above (m : Machine) (frame : Frame) (outer : Machine) : Machine :=
  { m with stack := m.stack ++ (frame, outer.level) :: outer.stack }

/-- The innermost level has ended with an expression, and the outer machine goes on.
The cursor stands where it would stand had the level been read on its own. -/
def resume (setting : Setting) (goal : Goal) (frame : Frame) (outer : Machine) (e : Expr)
    (c : Cursor) : Step :=
  match frame with
  | .group => .more (outer.fill e false) c
  | .call name place args =>
    match Grammar.argumentEnd.run c.rest with
    | some t =>
      if t.text = [')'] then outer.finishCall setting name place (e :: args) (c.past t)
      else outer.descend setting goal (.call name place (e :: args)) (c.past t)
    | none => .stop (.refused .unexpectedEnd c.pos) c

end Machine

/-- The step as the outer machine takes it. -/
def Step.above (setting : Setting) (goal : Goal) (frame : Frame) (outer : Machine) : Step → Step
  | .more m c => .more (m.above frame outer) c
  | .done e c => outer.resume setting goal frame e c
  | .stop fault c => .stop fault c

namespace Machine

variable {setting : Setting} {goal inner : Goal} {frame : Frame} {outer : Machine}

theorem fillNumeral_above (m : Machine) (value : Except Nat Expr) (c : Cursor) :
    (m.above frame outer).fillNumeral value c =
      (m.fillNumeral value c).above setting goal frame outer := by
  unfold fillNumeral
  cases value <;> rfl

theorem fillWord_above (m : Machine) (make : String → Expr) (chainable : Bool) (wanted : Wanted)
    (c : Cursor) : (m.above frame outer).fillWord make chainable wanted c =
      (m.fillWord make chainable wanted c).above setting goal frame outer := by
  unfold fillWord
  cases Grammar.word.run c.rest <;> rfl

theorem fillSubject_above (m : Machine) (make : String → Bool → Expr) (wanted : Wanted)
    (c : Cursor) : (m.above frame outer).fillSubject make wanted c =
      (m.fillSubject make wanted c).above setting goal frame outer := by
  unfold fillSubject
  cases (Grammar.keyword "no").run c.rest <;> exact fillWord_above ..

theorem finishCall_above (m : Machine) (name : String) (place : Nat) (args : List Expr)
    (c : Cursor) : (m.above frame outer).finishCall setting name place args c =
      (m.finishCall setting name place args c).above setting goal frame outer := by
  unfold finishCall
  cases setting.complaint? name args.length <;> rfl

/-- The levels below count as depth. -/
theorem descend_above (hd : inner.depth = goal.depth + (outer.stack.length + 1 : Nat))
    (m : Machine) (next : Frame) (c : Cursor) : (m.above frame outer).descend setting goal next c =
      (m.descend setting inner next c).above setting goal frame outer := by
  have hl : goal.depth + ((m.above frame outer).stack.length + 1 : Nat) =
      inner.depth + (m.stack.length + 1 : Nat) := by
    simp only [above, List.length_append, List.length_cons, hd]
    omega
  unfold descend
  rw [hl]
  by_cases h : setting.limit < inner.depth + (m.stack.length + 1 : Nat)
  · simp only [h, if_true]; rfl
  · simp only [h, if_false]; rfl

theorem operandStep_above (hd : inner.depth = goal.depth + (outer.stack.length + 1 : Nat))
    (m : Machine) (here : Nat) (c : Cursor) (l : Lexeme) :
    (m.above frame outer).operandStep setting goal here c l =
      (m.operandStep setting inner here c l).above setting goal frame outer := by
  cases l with
  | arithmetic op => simp only [operandStep]; split <;> rfl
  | comma =>
    simp only [operandStep]
    by_cases h : (m.level.condition.isEmpty && m.level.behind.isEmpty) = true
    · rw [if_pos h, above, if_pos h]; rfl
    · rw [if_neg h, above, if_neg h]; rfl
  | range | percent | number => exact fillNumeral_above ..
  | callOpen name =>
    simp only [operandStep]
    cases Grammar.parenClose.run (c.skip Grammar.blanks).rest with
    | none => exact descend_above hd ..
    | some t => exact finishCall_above ..
  | parenOpen => exact descend_above hd ..
  | hasItem | atNode => exact fillSubject_above ..
  | quote =>
    simp only [operandStep]
    cases stringBody c.rest with
    | mk content rest => cases rest <;> rfl
  | varName => exact fillWord_above ..
  | _ => rfl

theorem operatorStep_above (m : Machine) (o : Operand) (here : Nat) (c : Cursor) (l : Lexeme) :
    (m.above frame outer).operatorStep o here c l =
      (m.operatorStep o here c l).above setting goal frame outer := by
  cases l with
  | property name => simp only [operatorStep]; split <;> rfl
  | _ => rfl

theorem lexemeStep_above (hd : inner.depth = goal.depth + (outer.stack.length + 1 : Nat))
    (m : Machine) (c : Cursor) : (m.above frame outer).lexemeStep setting goal c =
      (m.lexemeStep setting inner c).above setting goal frame outer := by
  simp only [lexemeStep, above]
  cases m.level.condition.operand with
  | none =>
    cases Lexeme.next? true c.rest with
    | none => rfl
    | some x => exact operandStep_above hd ..
  | some o =>
    cases Lexeme.next? false c.rest with
    | none => rfl
    | some x => exact operatorStep_above ..

/-- A level above the innermost one of the outer machine is closed as it is without it. -/
theorem step_above_inner (hd : inner.depth = goal.depth + (outer.stack.length + 1 : Nat))
    (level : Level) (top : Frame × Level) (stack : List (Frame × Level)) (c : Cursor) :
    (above ⟨level, top :: stack⟩ frame outer).step setting goal c =
      (step setting inner ⟨level, top :: stack⟩ c).above setting goal frame outer := by
  have hl := @lexemeStep_above setting goal inner frame outer hd ⟨level, top :: stack⟩ c
  obtain ⟨next, below⟩ := top
  cases next with
  | group =>
    simp only [step, above, List.cons_append] at hl ⊢
    cases Grammar.parenClose.run c.rest with
    | none => exact hl
    | some t => cases level.finish c.pos <;> rfl
  | call name place args =>
    simp only [step, above, List.cons_append] at hl ⊢
    cases Grammar.argumentEnd.run c.rest with
    | none => exact hl
    | some t =>
      cases level.finish c.pos with
      | error fault => rfl
      | ok e =>
        simp only
        split
        · exact finishCall_above ⟨below, stack⟩ ..
        · exact descend_above hd ⟨below, stack⟩ ..

/-- The innermost level ends where it would end on its own. -/
theorem step_above_outer (level : Level) (c : Cursor)
    (hi : inner = frame.goal (goal.depth + (outer.stack.length + 1 : Nat))) :
    (above ⟨level, []⟩ frame outer).step setting goal c =
      (step setting inner ⟨level, []⟩ c).above setting goal frame outer := by
  have hl := @lexemeStep_above setting goal inner frame outer (by rw [hi, Frame.depth_goal])
    ⟨level, []⟩ c
  cases frame with
  | group =>
    simp only [hi, step, above, List.nil_append, Frame.goal, Goal.parens] at hl ⊢
    cases Grammar.parenClose.run c.rest with
    | none => exact hl
    | some t =>
      simp only [conclude]
      cases level.finish c.pos <;> rfl
  | call name place args =>
    simp only [hi, step, above, List.nil_append, Frame.goal, Goal.argument] at hl ⊢
    cases ht : Grammar.argumentEnd.run c.rest with
    | none => exact hl
    | some t =>
      simp only [conclude]
      cases level.finish c.pos with
      | error fault => rfl
      | ok e => simp [Step.above, resume, ht]

theorem step_above (m : Machine) (c : Cursor)
    (hi : inner = frame.goal (goal.depth + (outer.stack.length + 1 : Nat))) :
    (m.above frame outer).step setting goal c =
      (m.step setting inner c).above setting goal frame outer := by
  obtain ⟨level, stack⟩ := m
  cases stack with
  | nil => exact step_above_outer level c hi
  | cons top stack => exact step_above_inner (by rw [hi, Frame.depth_goal]) level top stack c

/-- The machine gets from one state to another by steps that go on. -/
inductive Leads (setting : Setting) (goal : Goal) :
    Machine → Cursor → Machine → Cursor → Prop
  | refl (m : Machine) (c : Cursor) : Leads setting goal m c m c
  | step {m m' m'' : Machine} {c c' c'' : Cursor} (h : m.step setting goal c = .more m' c')
    (rest : Leads setting goal m' c' m'' c'') : Leads setting goal m c m'' c''

theorem Leads.trans {m m' m'' : Machine} {c c' c'' : Cursor} (h : Leads setting goal m c m' c')
    (h' : Leads setting goal m' c' m'' c'') : Leads setting goal m c m'' c'' := by
  induction h with
  | refl => exact h'
  | step h _ ih => exact .step h (ih h')

theorem Leads.run_eq {m m' : Machine} {c c' : Cursor} (h : Leads setting goal m c m' c') :
    m.run setting goal c = m'.run setting goal c' := by
  induction h with
  | refl => rfl
  | step h _ ih => rw [run_of_more h, ih]

/-- An expression that is read on its own is read above an outer machine, which then goes
on with it. -/
theorem run_above {m : Machine} {c d : Cursor} {e : Expr}
    (hi : inner = frame.goal (goal.depth + (outer.stack.length + 1 : Nat)))
    (h : m.run setting inner c = .ok e d) :
    ∃ m' c', Leads setting goal (m.above frame outer) c m' c' ∧
      m'.step setting goal c' = outer.resume setting goal frame e d := by
  fun_induction Machine.run setting inner m c with
  | case1 m c m' c' hs ih =>
    obtain ⟨m'', c'', hl, hr⟩ := ih h
    refine ⟨m'', c'', .step ?_ hl, hr⟩
    rw [step_above m c hi, hs, Step.above]
  | case2 m c e' c' hs =>
    cases h
    refine ⟨_, _, .refl _ _, ?_⟩
    rw [step_above m c hi, hs, Step.above]
  | case3 => simp at h

end Machine

/-- The characters that close the level. -/
def Frame.Closes (x : Char) : Frame → Prop
  | .group => x = ')'
  | .call .. => x = ')' ∨ x = ','

/-- What is left where the level ends: a group takes its parenthesis. -/
def Frame.after (s : List Char) : Frame → List Char
  | .group => s.tail
  | .call .. => s

/-- Read up to a closing parenthesis, the text gives the expression. -/
def Frame.Holds (setting : Setting) (depth : Int) (frame : Frame) (w : List Char) (e : Expr) :
    Prop :=
  ∃ c d, c.rest = w ++ [')'] ∧ Read.expr setting (frame.goal depth) c = .ok e d ∧
    d.rest = frame.after [')']

namespace Frame

variable {setting : Setting} {depth : Int} {frame : Frame} {w u : List Char} {e : Expr} {x : Char}

theorem horizon (h : frame.Closes x) (depth : Int) (u : List Char) :
    Horizon (frame.goal depth) [')'] (x :: u) := by
  cases frame with
  | group =>
    cases (h : x = ')')
    exact .parens depth u
  | call => exact .argument h depth u

theorem after_of_meets {crosses : Prop} {d d' : Cursor}
    (h : Cursor.Meets crosses [')'] (x :: u) d d')
    (hd : d.rest = frame.after [')']) : d'.rest = frame.after (x :: u) := by
  cases frame <;> cases h <;> simp_all [after, Cursor.beyond]

/-- What a level holds it holds wherever it stands. -/
theorem Holds.expr (h : frame.Holds setting depth w e) (hx : frame.Closes x) {c : Cursor}
    (hc : c.rest = w ++ x :: u) :
    ∃ d, Read.expr setting (frame.goal depth) c = .ok e d ∧ d.rest = frame.after (x :: u) := by
  obtain ⟨a, b, ha, hab, hb⟩ := h
  -- first to the place of the cursor, then on to the text that follows there
  have hmoved := Read.Moves.expr (v := .blind) setting (frame.goal depth) a
    { c with rest := w ++ [')'] } (.blind ha)
  rw [hab] at hmoved
  generalize hr : Read.expr setting (frame.goal depth) { c with rest := w ++ [')'] } = r at hmoved
  cases hmoved with
  | ok he hd =>
    rename_i e' d
    subst he
    obtain ⟨d', hd', hm⟩ := Read.expr_extends (c := { c with rest := w }) (horizon hx depth u) hr
    have hcw : Cursor.before { c with rest := w } (x :: u) = c := by rw [Cursor.before, ← hc]
    rw [hcw] at hd'
    exact ⟨d', hd', after_of_meets hm (hd.rest.symm.trans hb)⟩

theorem Holds.depth_le (h : frame.Holds setting depth w e) : ¬ setting.limit < depth := by
  obtain ⟨a, b, -, hab, -⟩ := h
  intro hlt
  simp [Read.expr, hlt] at hab

end Frame

/-- The level that a frame holds is read, and the machine below goes on. -/
theorem Machine.descend_leads {setting : Setting} {goal : Goal} {frame : Frame} {outer : Machine}
    {w u : List Char} {e : Expr} {x : Char}
    (h : frame.Holds setting (goal.depth + (outer.stack.length + 1 : Nat)) w e)
    (hx : frame.Closes x) {c : Cursor} (hc : c.rest = w ++ x :: u) :
    ∃ m c' m' c'' d, outer.descend setting goal frame c = .more m c' ∧
      Leads setting goal m c' m' c'' ∧
      m'.step setting goal c'' = outer.resume setting goal frame e d ∧
      d.rest = frame.after (x :: u) := by
  obtain ⟨d, hr, hd⟩ := h.expr hx hc
  simp only [Read.expr, Frame.depth_goal, if_neg h.depth_le] at hr
  obtain ⟨m', c'', hl, hs⟩ := run_above rfl hr
  refine ⟨_, _, m', c'', d, ?_, hl, hs, hd⟩
  rw [descend, if_neg h.depth_le]
  rfl

end Gamebook
