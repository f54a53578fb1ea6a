import Gamebook.Proofs.Nesting
import Gamebook.Proofs.Spelling

/-!
The operands of an expression, by the texts that write them. A form that holds
expressions of its own, a group or a call, takes them as they are read there. Each
form is read as its operand wherever an operand is expected, and the text behind it
is left as it stands.
-/
namespace Gamebook

open Grammar

/-- The characters that end an expression or a part of one. -/
def isEnd (x : Char) : Bool := x == '\n' || x == '#' || x == ')' || x == ','

/-- The goal is met at such a character only. -/
def Goal.Plain (goal : Goal) : Prop :=
  ∀ x s, isEnd x = false → goal.terminator.run (x :: s) = none

theorem Goal.plain_line : Goal.line.Plain := by
  intro x s hx
  simp_all [isEnd, Goal.line, expressionEnd, Pattern.run]

theorem Frame.plain_goal (frame : Frame) (depth : Int) : (frame.goal depth).Plain := by
  intro x s hx
  cases frame <;>
    simp_all [isEnd, Frame.goal, Goal.parens, Goal.argument, parenClose, argumentEnd,
      Pattern.char, Pattern.run]

theorem Cursor.rest_skip_blanks (c : Cursor) :
    (c.skip blanks).rest = c.rest.dropWhile isBlank := by
  unfold Cursor.skip
  cases hc : c.rest with
  | nil => simp [blanks, Pattern.span, Pattern.run, hc]
  | cons x rest =>
    by_cases hx : isBlank x = true <;> simp [blanks, Pattern.span, Pattern.run, hc, hx]

namespace Machine

variable {setting : Setting} {goal : Goal} {m m' m'' : Machine} {s s' s'' : List Char}

theorem step_lexeme (hg : goal.Plain) (m : Machine) {c : Cursor} {x : Char} (hx : isEnd x = false)
    (hc : c.rest = x :: s) : m.step setting goal c = m.lexemeStep setting goal c := by
  have ht := hg x s hx
  have hp : parenClose.run (x :: s) = none := (Frame.group).plain_goal 0 x s hx
  have ha : argumentEnd.run (x :: s) = none := (Frame.call "" 0 []).plain_goal 0 x s hx
  unfold step
  rw [hc, ht, hp, ha]
  split
  · simp
  · rfl
  · rfl

/-- From any cursor before the first text the machine gets to the second state, before
the second text. -/
def Reads (setting : Setting) (goal : Goal) (m : Machine) (s : List Char) (m' : Machine)
    (s' : List Char) : Prop :=
  ∀ c : Cursor, c.rest = s → ∃ c' : Cursor, c'.rest = s' ∧ Leads setting goal m c m' c'

theorem Reads.refl (m : Machine) (s : List Char) : Reads setting goal m s m s :=
  fun c hc => ⟨c, hc, .refl m c⟩

theorem Reads.trans (h : Reads setting goal m s m' s') (h' : Reads setting goal m' s' m'' s'') :
    Reads setting goal m s m'' s'' := by
  intro c hc
  obtain ⟨c', hc', hl⟩ := h c hc
  obtain ⟨c'', hc'', hl'⟩ := h' c' hc'
  exact ⟨c'', hc'', hl.trans hl'⟩

/-- One lexeme where an operand is expected. -/
theorem Reads.operand (hg : goal.Plain) (hm : m.level.condition.operand = none) {l : Lexeme}
    {t : Match} (hn : Lexeme.next? true s = some (l, t)) (hx : Free isEnd s)
    (hs : ∀ here c, c.rest = t.rest →
      ∃ c', c'.rest = s' ∧ m.operandStep setting goal here c l = .more m' c') :
    Reads setting goal m s m' s' := by
  intro c hc
  obtain ⟨c', hc', hstep⟩ := hs c.pos ((c.past t).hold t.text) rfl
  refine ⟨c', hc', .step ?_ (.refl m' c')⟩
  cases s with
  | nil => simp [Lexeme.next?_nil] at hn
  | cons x s =>
    rw [step_lexeme hg m (hx x rfl) hc, lexemeStep, hm]
    simp only [hc, hn, hstep]

/-- One lexeme where an operator is expected. -/
theorem Reads.operator (hg : goal.Plain) {o : Operand} (hm : m.level.condition.operand = some o)
    {l : Lexeme} {t : Match} (hn : Lexeme.next? false s = some (l, t)) (hx : Free isEnd s)
    (hs : ∀ here c, c.rest = t.rest →
      ∃ c', c'.rest = s' ∧ m.operatorStep o here c l = .more m' c') :
    Reads setting goal m s m' s' := by
  intro c hc
  obtain ⟨c', hc', hstep⟩ := hs c.pos ((c.past t).hold t.text) rfl
  refine ⟨c', hc', .step ?_ (.refl m' c')⟩
  cases s with
  | nil => simp [Lexeme.next?_nil] at hn
  | cons x s =>
    rw [step_lexeme hg m (hx x rfl) hc, lexemeStep, hm]
    simp only [hc, hn, hstep]

theorem isEnd_of_isBlank {x : Char} (h : isBlank x = true) : isEnd x = false := by
  simp only [isBlank, Bool.or_eq_true, beq_iff_eq] at h
  rcases h with rfl | rfl <;> decide

/-- Blanks are passed over. -/
theorem Reads.blanks (hg : goal.Plain) (m : Machine) {w u : List Char}
    (hw : ∀ c ∈ w, isBlank c = true) (hu : Free isBlank u) :
    Reads setting goal m (w ++ u) m u := by
  cases w with
  | nil => exact .refl m u
  | cons x w =>
    have hmade : Made isBlank (x :: w) := ⟨by simp, hw⟩
    have hx : Free isEnd (x :: w ++ u) := hmade.free_append (fun _ => isEnd_of_isBlank) u
    cases hm : m.level.condition.operand with
    | none =>
      exact .operand hg hm (Lexeme.next?_blanks hmade hu true) hx fun here c hc => ⟨c, hc, rfl⟩
    | some o =>
      exact .operator hg hm (Lexeme.next?_blanks hmade hu false) hx fun here c hc => ⟨c, hc, rfl⟩

end Machine

/-- The subject of a test: a name, or `no` and a name. -/
inductive Subject : List Char → String → Bool → Prop
  | plain {w : List Char} (hw : Made isWordChar w) (hn : w ≠ "no".toList) :
    Subject w (String.ofList w) false
  | negated {s w : List Char} (hs : Made isBlank s) (hw : Made isWordChar w) :
    Subject ("no".toList ++ (s ++ w)) (String.ofList w) true

theorem Subject.free_isBlank {w : List Char} {name : String} {negated : Bool}
    (h : Subject w name negated) (u : List Char) : Free isBlank (w ++ u) := by
  cases h with
  | plain hw => exact hw.free_append (fun _ => isBlank_of_isWordChar) u
  | negated => simp [Free, isBlank]

/-- A word that can name a call: no operator, and not the beginning of a range. -/
structure CallName (w : List Char) : Prop where
  word : Made isWordChar w
  negation : Grammar.negation.run w = none
  logical : Grammar.logical.run w = none
  range : drawRange.run w = none

/-- The arguments of a call, with commas between them. -/
inductive Arguments (setting : Setting) (depth : Int) : List Char → List Expr → Prop
  | last {w : List Char} {e : Expr}
    (h : ∀ name place args, (Frame.call name place args).Holds setting depth w e) :
    Arguments setting depth w [e]
  | more {w s : List Char} {e : Expr} {es : List Expr}
    (h : ∀ name place args, (Frame.call name place args).Holds setting depth w e)
    (rest : Arguments setting depth s es) : Arguments setting depth (w ++ ',' :: s) (e :: es)

/-- The text is one operand, without signs. What it encloses is read at the depth. -/
inductive Operand.Written (setting : Setting) (depth : Int) : List Char → Operand → Prop
  | number {t : List Char} {n : Number} (ht : IsNumeral t) (hn : Numeral.number? t = .ok n) :
    Written setting depth t ⟨.number n, false⟩
  | percent {t : List Char} {n : Number} (ht : IsNumeral t) (hn : Numeral.number? t = .ok n) :
    Written setting depth (t ++ ['%']) ⟨.percent n, false⟩
  | range {a b s s' : List Char} {low high : Nat} (ha : Made Char.isDigit a)
    (hb : Made Char.isDigit b) (hs : ∀ c ∈ s, isBlank c = true) (hs' : ∀ c ∈ s', isBlank c = true)
    (hlow : Numeral.integer? a = .ok low) (hhigh : Numeral.integer? b = .ok high) :
    Written setting depth (a ++ (s ++ ('t' :: 'o' :: (s' ++ b)))) ⟨.range low high, false⟩
  | string {body content : List Char} (h : stringBody body = (content, some [])) :
    Written setting depth ('"' :: body) ⟨.string (String.ofList content), false⟩
  | constant {word : String} {w : List Char} (hk : word ∈ ["true", "false", "null"])
    (hw : Spells word w) : Written setting depth w ⟨.constant (Lexeme.lowered w), false⟩
  | localName {w : List Char} (hw : Made isWordChar w) :
    Written setting depth ('$' :: w) ⟨.localVar (String.ofList w), true⟩
  | varName {s w : List Char} (hs : Made isBlank s) (hw : Made isWordChar w) :
    Written setting depth ("var".toList ++ (s ++ w)) ⟨.localVar (String.ofList w), true⟩
  | called : Written setting depth "called".toList ⟨.localVar "_called", true⟩
  | globalName {w : List Char} (hw : Made isWordChar w) :
    Written setting depth ('@' :: w) ⟨.globalVar (String.ofList w), true⟩
  | hasItem {s w : List Char} {name : String} {negated : Bool} (hs : Made isBlank s)
    (hw : Subject w name negated) :
    Written setting depth ("hasitem".toList ++ (s ++ w)) ⟨.hasItem name negated, false⟩
  | atNode {s w : List Char} {name : String} {negated : Bool} (hs : Made isBlank s)
    (hw : Subject w name negated) :
    Written setting depth ("atnode".toList ++ (s ++ w)) ⟨.atNode name negated, false⟩
  | group {w : List Char} {e : Expr} (h : Frame.group.Holds setting depth w e) :
    Written setting depth ('(' :: (w ++ [')'])) ⟨e, false⟩
  | emptyCall {w s : List Char} (hw : CallName w) (hs : ∀ c ∈ s, isBlank c = true)
    (hc : setting.complaint? (Lexeme.lowered w) 0 = none) :
    Written setting depth (w ++ '(' :: (s ++ [')'])) ⟨.call (Lexeme.lowered w) [], true⟩
  | call {w s text : List Char} {args : List Expr} (hw : CallName w)
    (hs : ∀ c ∈ s, isBlank c = true) (ha : Arguments setting depth text args)
    (ht : Free isBlank text) (hc : setting.complaint? (Lexeme.lowered w) args.length = none) :
    Written setting depth (w ++ '(' :: (s ++ (text ++ [')'])))
      ⟨.call (Lexeme.lowered w) args, true⟩
  | property {t s w : List Char} {e : Expr} (h : Written setting depth t ⟨e, true⟩)
    (hs : ∀ c ∈ s, isBlank c = true) (hw : Made isWordChar w) :
    Written setting depth (t ++ (s ++ '.' :: w)) ⟨.property e (String.ofList w), true⟩

namespace Machine

variable {setting : Setting} {goal : Goal} {u : List Char}

theorem fillWord_word (m : Machine) (make : String → Expr) (chainable : Bool) (wanted : Wanted)
    {w : List Char} (hw : Made isWordChar w) (hu : Free isWordChar u) {c : Cursor}
    (hc : c.rest = w ++ u) :
    ∃ c', c'.rest = u ∧ m.fillWord make chainable wanted c =
      .more (m.fill (make (String.ofList w)) chainable) c' := by
  refine ⟨(c.past ⟨w, [], u⟩).release, rfl, ?_⟩
  rw [fillWord, hc, run_word hw hu]

theorem skip_blanks {c : Cursor} {s : List Char} (hs : ∀ x ∈ s, isBlank x = true)
    (hu : Free isBlank u) (hc : c.rest = s ++ u) : (c.skip Grammar.blanks).rest = u := by
  rw [Cursor.rest_skip_blanks, hc, Pattern.dropWhile_of_free hs hu]

theorem fillSubject_subject (m : Machine) (make : String → Bool → Expr) (wanted : Wanted)
    {w : List Char} {name : String} {negated : Bool} (hw : Subject w name negated)
    (hu : Free isWordChar u) {c : Cursor} (hc : c.rest = w ++ u) :
    ∃ c', c'.rest = u ∧ m.fillSubject make wanted c = .more (m.fill (make name negated) false) c' := by
  cases hw with
  | plain hw hn =>
    obtain ⟨c', hc', h⟩ := m.fillWord_word (make · false) false wanted hw hu hc
    refine ⟨c', hc', ?_⟩
    rw [fillSubject, hc, run_keyword_none (by simp [isWordChar]) hw.2 hn hu]
    exact h
  | @negated s w hs hw =>
    have hr : c.rest = "no".toList ++ (s ++ (w ++ u)) := by rw [hc]; simp
    have hk := run_keyword "no" (Lexeme.apart_blanks hs (w ++ u)).free
    have hb : Free isBlank (w ++ u) := hw.free_append (fun _ => isBlank_of_isWordChar) u
    have hskip := skip_blanks (c := c.past ⟨"no".toList, [], s ++ (w ++ u)⟩) hs.2 hb rfl
    obtain ⟨c', hc', h⟩ := m.fillWord_word (make · true) false wanted hw hu hskip
    refine ⟨c', hc', ?_⟩
    rw [fillSubject, hr, hk]
    exact h

/-- An expression does not end where it begins. -/
theorem terminator_run_none {c d : Cursor} {e : Expr} (h : Read.expr setting goal c = .ok e d) :
    goal.terminator.run c.rest = none := by
  cases ht : goal.terminator.run c.rest with
  | none => rfl
  | some t =>
    exfalso
    unfold Read.expr at h
    split at h
    · simp at h
    · have hs : step setting goal { level := { start := c.pos } } (c.note "expression") =
          .stop (.refused .emptyExpression c.pos)
            (if goal.consume then (c.note "expression").past t else c.note "expression") := by
        simp [step, ht, conclude, Level.finish, Condition.isEmpty]
      rw [run_of_stop hs] at h
      simp at h

/-- An argument does not begin with the closing parenthesis. -/
theorem argument_head {name : String} {place : Nat} {args : List Expr} {depth : Int}
    {w : List Char} {e : Expr} (h : (Frame.call name place args).Holds setting depth w e)
    (u : List Char) : parenClose.run (w ++ u) = none := by
  obtain ⟨c, d, hc, hr, -⟩ := h
  have ht : argumentEnd.run (w ++ [')']) = none := hc ▸ terminator_run_none hr
  cases w with
  | nil => simp [argumentEnd, Pattern.run] at ht
  | cons x w =>
    have hx : x ≠ ')' := by
      rintro rfl
      simp [argumentEnd, Pattern.run] at ht
    simp [parenClose, Pattern.char, Pattern.run, hx]

/-- The arguments of a call are read one after another. -/
theorem descend_arguments (m : Machine) (goal : Goal) (name : String) (place : Nat)
    (acc : List Expr) {text : List Char} {es : List Expr}
    (h : Arguments setting (goal.depth + (m.stack.length + 1 : Nat)) text es)
    (hn : setting.complaint? name (acc.length + es.length) = none) {c : Cursor}
    (hc : c.rest = text ++ ')' :: u) :
    ∃ m' c' c'', m.descend setting goal (.call name place acc) c = .more m' c' ∧
      Leads setting goal m' c' (m.fill (.call name (acc.reverse ++ es)) true) c'' ∧
      c''.rest = u := by
  induction h generalizing acc c with
  | @last w e h =>
    obtain ⟨m₁, c₁, m₂, c₂, d, hd, hl, hs, hrest⟩ :=
      descend_leads (h name place acc) (.inl rfl) hc
    refine ⟨m₁, c₁, d.past ⟨[')'], [], u⟩, hd, hl.trans (.step ?_ (.refl _ _)), rfl⟩
    have hrest : d.rest = ')' :: u := hrest
    have hr : argumentEnd.run (')' :: u) = some ⟨[')'], [], u⟩ := rfl
    simp only [hs, resume, hrest, hr, finishCall]
    simp only [List.length_cons, List.length_nil, Nat.zero_add] at hn
    simp [hn]
  | @more w s e es h hrest ih =>
    obtain ⟨m₁, c₁, m₂, c₂, d, hd, hl, hs, hdrest⟩ :=
      descend_leads (h name place acc) (.inr rfl) (u := s ++ ')' :: u) (by simpa using hc)
    have hdrest : d.rest = ',' :: (s ++ ')' :: u) := hdrest
    have hr : argumentEnd.run (',' :: (s ++ ')' :: u)) = some ⟨[','], [], s ++ ')' :: u⟩ := rfl
    obtain ⟨m₃, c₃, c₄, hd₃, hl₃, hc₄⟩ :=
      ih (e :: acc) (c := d.past ⟨[','], [], s ++ ')' :: u⟩)
        (by simpa [Nat.add_assoc, Nat.add_comm 1] using hn) rfl
    have hstep : m₂.step setting goal c₂ = .more m₃ c₃ := by
      simp only [hs, resume, hdrest, hr]
      simpa using hd₃
    refine ⟨m₁, c₁, c₄, hd, hl.trans (.step hstep ?_), hc₄⟩
    simpa using hl₃

end Machine

theorem isEnd_of_isWordChar {x : Char} (h : isWordChar x = true) : isEnd x = false := by
  cases hb : isEnd x with
  | false => rfl
  | true =>
    simp only [isEnd, Bool.or_eq_true, beq_iff_eq] at hb
    rcases hb with ((rfl | rfl) | rfl) | rfl <;> simp [isWordChar] at h

/-- The characters that neither end an expression nor stand between its parts. -/
def isFirst (x : Char) : Bool := !isEnd x && !isBlank x && x != '='

theorem isFirst_of_isWordChar {x : Char} (h : isWordChar x = true) : isFirst x = true := by
  have he : x ≠ '=' := by
    rintro rfl
    simp [isWordChar] at h
  simp [isFirst, isEnd_of_isWordChar h, isBlank_of_isWordChar h, he]

/-- What may stand behind an operand, which depends on whether properties may follow. -/
def Operand.Bounded (o : Operand) (u : List Char) : Prop := if o.chainable then Apart u else Ends u

theorem Operand.bounded (o : Operand) {u : List Char} (h : Ends u) : o.Bounded u := by
  unfold Bounded
  split
  · exact h.apart
  · exact h

namespace Operand.Written

open Machine

variable {setting : Setting} {depth : Int} {goal : Goal} {m : Machine} {t u : List Char}
  {o : Operand}

/-- An operand begins with a character that can begin one. -/
theorem exists_first (h : o.Written setting depth t) : ∃ x s, t = x :: s ∧ isFirst x = true := by
  have hword : ∀ {w s : List Char}, Made isWordChar w →
      ∃ x s', w ++ s = x :: s' ∧ isFirst x = true := by
    intro w s hw
    obtain ⟨x, w, rfl, hx, -⟩ := hw.exists_cons
    exact ⟨x, w ++ s, rfl, isFirst_of_isWordChar hx⟩
  have hdigit : ∀ {w s : List Char}, Made Char.isDigit w →
      ∃ x s', w ++ s = x :: s' ∧ isFirst x = true :=
    fun hw => hword (hw.mono fun _ => isWordChar_of_isDigit)
  induction h with
  | number ht =>
    rcases ht with ht | ⟨a, b, rfl, ha, -⟩
    · simpa using hdigit (s := []) ht
    · exact hdigit ha
  | percent ht =>
    rcases ht with ht | ⟨a, b, rfl, ha, -⟩
    · exact hdigit ht
    · simpa using hdigit ha
  | range ha => exact hdigit ha
  | constant hk hw =>
    simp only [List.mem_cons, List.not_mem_nil, or_false] at hk
    rcases hk with rfl | rfl | rfl <;>
    · obtain ⟨d, w, hd, -, rfl⟩ := List.forall₂_cons_left_iff.1 hw
      refine ⟨d, w, rfl, ?_⟩
      rcases Lexeme.foldsTo_letter (by decide) hd with rfl | rfl <;> decide
  | emptyCall hw | call hw => exact hword hw.word
  | property _ _ _ ih =>
    obtain ⟨x, s, rfl, hx⟩ := ih
    exact ⟨x, _, rfl, hx⟩
  | _ => exact ⟨_, _, rfl, by decide⟩

theorem free_isEnd (h : o.Written setting depth t) (u : List Char) : Free isEnd (t ++ u) := by
  obtain ⟨x, s, rfl, hx⟩ := h.exists_first
  simp only [isFirst, Bool.and_eq_true, Bool.not_eq_true'] at hx
  simpa [Free] using hx.1.1

/-- A group is read as what it encloses. -/
theorem reads_group (hg : goal.Plain) (hm : m.level.condition.operand = none) {w : List Char}
    {e : Expr} (h : Frame.group.Holds setting (goal.depth + (m.stack.length + 1 : Nat)) w e) :
    Reads setting goal m ('(' :: (w ++ ')' :: u)) (m.fill e false) u := by
  intro c hc
  have hn : Lexeme.next? true ('(' :: (w ++ ')' :: u)) =
      some (.parenOpen, ⟨['('], [], w ++ ')' :: u⟩) := rfl
  obtain ⟨m₁, c₁, m₂, c₂, d, hd, hl, hs, hrest⟩ := descend_leads h rfl
    (c := (c.past ⟨['('], [], w ++ ')' :: u⟩).hold ['(']) (u := u) rfl
  refine ⟨d, hrest, .step ?_ (hl.trans (.step hs (.refl _ _)))⟩
  rw [step_lexeme hg m rfl hc, lexemeStep, hm]
  simp only [hc, hn]
  exact hd

/-- A call without arguments. -/
theorem reads_emptyCall (hg : goal.Plain) (hm : m.level.condition.operand = none)
    {w s : List Char} (hw : CallName w) (hs : ∀ c ∈ s, isBlank c = true)
    (hc : setting.complaint? (Lexeme.lowered w) 0 = none) :
    Reads setting goal m (w ++ '(' :: (s ++ ')' :: u))
      (m.fill (.call (Lexeme.lowered w) []) true) u := by
  have hn := Lexeme.next?_callOpen hw.word hw.negation hw.logical hw.range (s ++ ')' :: u)
  refine .operand hg hm hn (hw.word.free_append (fun _ => isEnd_of_isWordChar) _) ?_
  intro here c hrest
  have hskip : (c.skip Grammar.blanks).rest = ')' :: u :=
    skip_blanks hs (by simp [Free, isBlank]) hrest
  have hp : parenClose.run (')' :: u) = some ⟨[')'], [], u⟩ := rfl
  refine ⟨(c.skip Grammar.blanks).past ⟨[')'], [], u⟩, rfl, ?_⟩
  simp only [operandStep, hskip, hp, finishCall, List.length_nil, hc, List.reverse_nil]

/-- A call is read with its arguments. -/
theorem reads_call (hg : goal.Plain) (hm : m.level.condition.operand = none)
    {w s text : List Char} {args : List Expr} (hw : CallName w) (hs : ∀ c ∈ s, isBlank c = true)
    (ha : Arguments setting (goal.depth + (m.stack.length + 1 : Nat)) text args)
    (ht : Free isBlank (text ++ ')' :: u))
    (hc : setting.complaint? (Lexeme.lowered w) args.length = none) :
    Reads setting goal m (w ++ '(' :: (s ++ (text ++ ')' :: u)))
      (m.fill (.call (Lexeme.lowered w) args) true) u := by
  intro c hrest
  have hn := Lexeme.next?_callOpen hw.word hw.negation hw.logical hw.range
    (s ++ (text ++ ')' :: u))
  generalize htm : (⟨w ++ ['('], [w], s ++ (text ++ ')' :: u)⟩ : Match) = t at hn
  have hskip : (((c.past t).hold t.text).skip Grammar.blanks).rest = text ++ ')' :: u :=
    skip_blanks hs ht (by rw [← htm]; rfl)
  have hp : parenClose.run (text ++ ')' :: u) = none := by
    cases ha with
    | last h => exact argument_head (h "" 0 []) _
    | more h => rw [List.append_assoc]; exact argument_head (h "" 0 []) _
  obtain ⟨m₁, c₁, c₂, hd, hl, hc₂⟩ := m.descend_arguments goal _ c.pos [] ha
    (by simpa using hc) hskip
  obtain ⟨x, w', rfl, hx, -⟩ := hw.word.exists_cons
  refine ⟨c₂, hc₂, .step ?_ (by simpa using hl)⟩
  rw [List.cons_append] at hrest hn
  rw [step_lexeme hg m (isEnd_of_isWordChar hx) hrest, lexemeStep, hm]
  simp only [hrest, hn, operandStep, hskip, hp]
  exact hd

/-- A numeral that is read is an operand. -/
theorem fillNumeral_ok {value : Except Nat Expr} {e : Expr} (h : value = .ok e) {c : Cursor}
    (hc : c.rest = u) : ∃ c', c'.rest = u ∧ m.fillNumeral value c = .more (m.fill e false) c' :=
  ⟨c, hc, by rw [h]; rfl⟩

/-- An operand is read as what it writes. -/
theorem reads (hg : goal.Plain) (hm : m.level.condition.operand = none)
    (h : o.Written setting (goal.depth + (m.stack.length + 1 : Nat)) t)
    (hu : o.Bounded u) : Reads setting goal m (t ++ u) (m.fill o.expr o.chainable) u := by
  have hf := h.free_isEnd u
  induction h generalizing u with
  | number ht hn =>
    refine .operand hg hm (Lexeme.next?_number ht hu) hf fun here c hc => ?_
    exact fillNumeral_ok (by rw [hn]; rfl) hc
  | percent ht hn =>
    rw [List.append_assoc, List.singleton_append] at hf ⊢
    refine .operand hg hm (Lexeme.next?_percent ht u) hf fun here c hc => ?_
    exact fillNumeral_ok (by rw [hn]; rfl) hc
  | range ha hb hs hs' hlow hhigh =>
    have hu : Ends u := hu
    have hd : Free Char.isDigit u := hu.apart.free.mono fun _ => isWordChar_of_isDigit
    simp only [List.append_assoc, List.cons_append] at hf ⊢
    refine .operand hg hm (Lexeme.next?_range ha hb hs hs' hd) hf fun here c hc => ?_
    exact fillNumeral_ok (by rw [hlow, hhigh]; rfl) hc
  | @string body content hb =>
    have hr : stringBody (body ++ u) = (content, some u) := by
      have hclosed : (stringBody body).2 = some [] := by rw [hb]
      rw [stringBody_append hclosed u, hb]
      rfl
    refine .operand hg hm (l := .quote) (t := ⟨['"'], [], body ++ u⟩) rfl hf fun here c hc => ?_
    refine ⟨(c.advance u).release, rfl, ?_⟩
    have hc : c.rest = body ++ u := hc
    simp only [operandStep, hc, hr]
  | constant hk hw =>
    have hu : Ends u := hu
    exact .operand hg hm (Lexeme.next?_constant hk hw hu.apart) hf
      fun here c hc => ⟨c.release, hc, rfl⟩
  | localName hw =>
    have hu : Apart u := hu
    exact .operand hg hm (Lexeme.next?_localName hw hu.free) hf fun here c hc => ⟨c, hc, rfl⟩
  | varName hs hw =>
    have hu : Apart u := hu
    simp only [List.append_assoc] at hf ⊢
    refine .operand hg hm (Lexeme.next?_varName hs
      (hw.free_append (fun _ => isBlank_of_isWordChar) u)) hf fun here c hc => ?_
    exact m.fillWord_word .localVar true .variableName hw hu.free hc
  | called =>
    have hu : Apart u := hu
    exact .operand hg hm (Lexeme.next?_called hu) hf fun here c hc => ⟨c, hc, rfl⟩
  | globalName hw =>
    have hu : Apart u := hu
    exact .operand hg hm (Lexeme.next?_globalName hw hu.free) hf fun here c hc => ⟨c, hc, rfl⟩
  | hasItem hs hw =>
    have hu : Ends u := hu
    simp only [List.append_assoc] at hf ⊢
    refine .operand hg hm (Lexeme.next?_hasItem hs (hw.free_isBlank u)) hf fun here c hc => ?_
    exact m.fillSubject_subject .hasItem .itemName hw hu.apart.free hc
  | atNode hs hw =>
    have hu : Ends u := hu
    simp only [List.append_assoc] at hf ⊢
    refine .operand hg hm (Lexeme.next?_atNode hs (hw.free_isBlank u)) hf fun here c hc => ?_
    exact m.fillSubject_subject .atNode .nodeName hw hu.apart.free hc
  | group h =>
    simp only [List.cons_append, List.append_assoc]
    exact reads_group hg hm h
  | emptyCall hw hs hc =>
    simp only [List.cons_append, List.append_assoc]
    exact reads_emptyCall hg hm hw hs hc
  | @call w s text args hw hs ha ht hc =>
    simp only [List.cons_append, List.append_assoc]
    refine reads_call hg hm hw hs ha ?_ hc
    cases text with
    | nil => simp [Free, isBlank]
    | cons x text => simpa [Free] using ht x rfl
  | @property t s w e h hs hw ih =>
    have hu : Apart u := hu
    have ha : Apart (s ++ '.' :: (w ++ u)) := by
      cases s with
      | nil => simp [Apart, Free]; decide
      | cons x s => exact Lexeme.apart_blanks ⟨by simp, hs⟩ _
    have hp : Reads setting goal (m.fill e true) ('.' :: (w ++ u))
        (m.fill (.property e (String.ofList w)) true) u :=
      .operator hg (o := ⟨e, true⟩) rfl (Lexeme.next?_property hw hu.free) (by simp [Free, isEnd])
        fun here c hc => ⟨c, hc, rfl⟩
    simp only [List.append_assoc, List.cons_append]
    exact ((ih ha (h.free_isEnd _)).trans
      (.blanks hg _ hs (by simp [Free, isBlank]))).trans hp

end Operand.Written

end Gamebook
