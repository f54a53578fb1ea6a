import Mathlib.Data.List.TakeWhile
import Gamebook.Proofs.Extent
import Gamebook.Proofs.Precedence

/-!
A comma means `&&`, and parentheses mean nothing. A text that is an expression on its own is
read the same way behind other conditions and in parentheses: the machine takes the same steps,
whatever stands behind its outermost level and behind the text. So a list of such texts with
commas between them, and the same texts in parentheses with `&&` between them, are both read as
the conjunction of their expressions.
-/
namespace Gamebook

open Grammar

/-- A string that is not closed is closed only behind the end of the text. -/
theorem stringBody_beyond {s u rest : List Char} (hs : (stringBody s).2 = none)
    (h : (stringBody (s ++ u)).2 = some rest) : rest.length < u.length := by
  have shorter : ∀ {v : List Char}, (stringBody v).2 = some rest → rest.length < v.length := by
    intro v hv
    obtain ⟨taken, hne, rfl⟩ := stringBody_suffix hv
    simpa using List.length_pos_of_ne_nil hne
  fun_induction stringBody s with
  | case1 => exact shorter h
  | case2 s => cases hs
  | case3 =>
    cases u with
    | nil => simp [stringBody] at h
    | cons c u => exact Nat.lt_succ_of_lt (shorter h)
  | case4 c s r ih => exact ih hs h
  | case5 c s hq hlast hmore r ih =>
    have hb : c ≠ '\\' := by
      rintro rfl
      cases s with
      | nil => exact hlast rfl rfl
      | cons d s => exact hmore d s rfl rfl
    rw [List.cons_append, stringBody.eq_5 _ _ hq (fun h => absurd h hb)
      (fun _ _ h => absurd h hb)] at h
    exact ih hs h

namespace Found

/-- The same, where the text goes on. -/
def before (u : List Char) : Found → Found
  | operand e chainable c => operand e chainable (c.before u)
  | sign op c => sign op (c.before u)
  | level frame c => level frame (c.before u)
  | emptyCall name place c => emptyCall name place (c.before u)
  | comma c => comma (c.before u)
  | nothing c => nothing (c.before u)
  | fault f c => fault f (c.before u)

/-- Nothing is found before the text `u` at the end: there is a fault, or some of `u` is taken. -/
def Astray (u : List Char) : Found → Prop
  | operand _ _ c | sign _ c | level _ c | emptyCall _ _ c | comma c | nothing c =>
    c.rest.length < u.length
  | fault .. => True

/-- What is found stays the same where the text goes on. A fault need not, nor a level that
was opened at the very end, since its parenthesis may come next; but then what is found in their
place is not found before the end of the text. -/
inductive Stays (u : List Char) : Found → Found → Prop
  | same (found : Found) : Stays u found (found.before u)
  | fault {f : Fault} {c : Cursor} {found : Found} (h : found.Astray u) : Stays u (.fault f c) found
  | lost {frame : Frame} {c : Cursor} {found : Found} (hc : c.rest = []) (h : found.Astray u) :
    Stays u (.level frame c) found

variable {u : List Char} (hu : ∀ x ∈ u.head?, Lexeme.isStop x = true)
include hu

theorem word_stays (make : String → Expr) (chainable : Bool) (wanted : Wanted) (c : Cursor) :
    Stays u (word make chainable wanted c) (word make chainable wanted (c.before u)) := by
  have hrun := Pattern.run_append (fun x hx => (Machine.word_ignores (hu x hx)).1) c.rest
  simp only [word, Cursor.rest_before, hrun]
  cases Grammar.word.run c.rest with
  | none => exact .fault trivial
  | some w => exact .same _

theorem subject_stays (make : String → Bool → Expr) (wanted : Wanted) (c : Cursor) :
    Stays u (subject make wanted c) (subject make wanted (c.before u)) := by
  have hrun := Pattern.run_append (fun x hx => (Machine.word_ignores (hu x hx)).2) c.rest
  simp only [subject, Cursor.rest_before, hrun]
  cases (keyword "no").run c.rest with
  | none => exact word_stays hu ..
  | some n =>
    simp only [Option.map_some, Cursor.past_before, Machine.skip_blanks_before hu]
    exact word_stays hu ..

theorem callOpen_stays (here : Nat) (c : Cursor) (name : String) :
    Stays u (ofLexeme here c (.callOpen name)) (ofLexeme here (c.before u) (.callOpen name)) := by
  simp only [ofLexeme, Machine.skip_blanks_before hu, Cursor.rest_before]
  generalize c.skip blanks = c
  cases hc : c.rest with
  | nil =>
    cases ht : parenClose.run ([] ++ u) with
    | none =>
      have hnone : parenClose.run [] = none := rfl
      simp only [hnone]
      exact .same (.level (.call name here []) c)
    | some t => exact .lost hc (Pattern.run_length_lt rfl ht)
  | cons x r =>
    simp only [parenClose, Pattern.char, List.cons_append, Pattern.run]
    by_cases hx : x == ')'
    · simp only [hx, if_true]
      exact .same (.emptyCall name here (c.past ⟨[x], [], r⟩))
    · simp only [hx]
      exact .same (.level (.call name here []) c)

omit hu in
theorem numeral_stays (value : Except Nat Expr) (c : Cursor) :
    Stays u (numeral value c) (numeral value (c.before u)) := by
  cases value with
  | ok e => exact .same _
  | error digits => exact .fault trivial

theorem ofLexeme_stays (here : Nat) (c : Cursor) (l : Lexeme) :
    Stays u (ofLexeme here c l) (ofLexeme here (c.before u) l) := by
  cases l with
  | arithmetic op =>
    simp only [ofLexeme]
    split
    · exact .same (.sign .minus c.release)
    · exact .fault trivial
  | callOpen name => exact callOpen_stays hu here c name
  | quote =>
    simp only [ofLexeme, Cursor.rest_before]
    rcases hb : stringBody c.rest with ⟨content, rest⟩
    cases rest with
    | none =>
      refine .fault ?_
      split
      · rename_i content' rest' hb'
        exact stringBody_beyond (congrArg Prod.snd hb) (congrArg Prod.snd hb')
      · trivial
    | some rest =>
      have happend := stringBody_append (congrArg Prod.snd hb) u
      simp only [happend, hb, Cursor.advance_before]
      exact .same (.operand (.string (String.ofList content)) false (c.advance rest).release)
  | range | percent => exact numeral_stays _ c
  | number => exact numeral_stays _ c.release
  | hasItem | atNode => exact subject_stays hu ..
  | varName => exact word_stays hu ..
  | negation => exact .same (.sign .not c)
  | parenOpen => exact .same (.level .group c)
  | constant name => exact .same (.operand (.constant name) false c.release)
  | called => exact .same (.operand (.localVar "_called") true c)
  | localName name => exact .same (.operand (.localVar name) true c)
  | globalName name => exact .same (.operand (.globalVar name) true c)
  | comma => exact .same (.comma c)
  | blanks => exact .same (.nothing c)
  | comparison | logical | property => exact .fault trivial

end Found

/-- Under so many open parentheses the text goes on without a comma outside of strings and
parentheses. -/
def CommaFree (n : Nat) (text : List Char) : Prop :=
  ∀ p q, text = p ++ ',' :: q → (Scan.under n).after p ≠ .under 0

/-- The second machine has conditions behind its outermost level, where the first has none. -/
inductive Machine.Behind (bs : List Expr) : Machine → Machine → Prop
  | outermost {l : Level} (h : l.behind = []) :
    Machine.Behind bs ⟨l, []⟩ ⟨{ l with behind := bs }, []⟩
  | inner {m n : Machine} (h : Machine.Behind bs m n) (frame : Frame) (level : Level) :
    Machine.Behind bs ⟨level, (frame, m.level) :: m.stack⟩ ⟨level, (frame, n.level) :: n.stack⟩

/-- The second reading knows the same functions, and has room for as many levels. -/
structure Setting.Fits (setting : Setting) (goal : Goal) (setting' : Setting) (goal' : Goal) :
    Prop where
  registry : setting'.registry = setting.registry
  room : setting.limit - goal.depth ≤ setting'.limit - goal'.depth

/-- A step that goes on is taken behind the conditions too, in a text that goes on. Only where
the text is over and a level still waits it need not be. -/
def Step.Follows (bs : List Expr) (u : List Char) : Step → Step → Prop
  | .more m c, s => (∃ n, m.Behind bs n ∧ s = .more n (c.before u)) ∨ c.rest = [] ∧ m.stack ≠ []
  | _, _ => True

instance (n : Nat) (text : List Char) : Decidable (CommaFree n text) :=
  decidable_of_iff (∀ i < text.length, text[i]? = some ',' →
      (Scan.under n).after (text.take i) ≠ .under 0) <| by
    constructor
    · rintro h p q rfl
      have hlen : p.length < (p ++ ',' :: q).length := by simp
      simpa using h p.length hlen (by simp)
    · intro h i hi hx
      have hx : text[i] = ',' := by simpa [hi] using hx
      refine h (text.take i) (text.drop (i + 1)) ?_
      rw [← hx, List.getElem_cons_drop, List.take_append_drop]

/-- A step passes over no comma outside of strings and parentheses where there is none. -/
theorem CommaFree.step {setting : Setting} {m m' : Machine} {c c' : Cursor}
    (h : CommaFree m.stack.length c.rest) (hs : m.step setting .line c = .more m' c') :
    CommaFree m'.stack.length c'.rest := by
  obtain ⟨ends, hg, hends⟩ : ∃ ends, Goal.line.terminator = .one ends ∧ _ :=
    Goal.exists_ends (by simp [Goal.line])
  have hwalks := Machine.step_admits hends hg setting m c
  rw [hs] at hwalks
  obtain ⟨w, hw, hwalk⟩ := hwalks
  intro p q hp
  have hfree := h (w ++ p) q (by simp [hw, hp])
  rwa [Scan.after_append, hwalk.after_eq] at hfree

namespace Machine

variable {setting setting' : Setting} {goal goal' : Goal} {bs : List Expr} {u : List Char}
  {m n : Machine} {c : Cursor}

namespace Behind

theorem condition_eq (h : m.Behind bs n) : n.level.condition = m.level.condition := by
  cases h <;> rfl

theorem length_eq (h : m.Behind bs n) : n.stack.length = m.stack.length := by
  induction h with
  | outermost => rfl
  | inner _ _ _ ih => simp [ih]

theorem withCondition (h : m.Behind bs n) (k : Condition) :
    (m.withCondition k).Behind bs (n.withCondition k) := by
  cases h with
  | @outermost l h => exact .outermost (l := { l with condition := k }) h
  | inner h frame level => exact .inner h frame { level with condition := k }

theorem fill (h : m.Behind bs n) (e : Expr) (chainable : Bool) :
    (m.fill e chainable).Behind bs (n.fill e chainable) := by
  have hf := h.withCondition (m.level.condition.fill e chainable)
  nth_rewrite 2 [← h.condition_eq] at hf
  exact hf

end Behind

theorem descend_follows (hfit : setting.Fits goal setting' goal') (h : m.Behind bs n)
    (frame : Frame) (c : Cursor) :
    Step.Follows bs u (m.descend setting goal frame c)
      (n.descend setting' goal' frame (c.before u)) := by
  have hlen := h.length_eq
  have hroom := hfit.room
  unfold descend
  split
  · trivial
  · rename_i hlimit
    have hlimit' : ¬ setting'.limit < goal'.depth + (n.stack.length + 1 : Nat) := by omega
    rw [if_neg hlimit']
    exact .inl ⟨_, .inner h frame _, rfl⟩

theorem finishCall_follows (hfit : setting.Fits goal setting' goal') (h : m.Behind bs n)
    (name : String) (place : Nat) (args : List Expr) (c : Cursor) :
    Step.Follows bs u (m.finishCall setting name place args c)
      (n.finishCall setting' name place args (c.before u)) := by
  have hreg : setting'.complaint? name args.length = setting.complaint? name args.length := by
    rw [Setting.complaint?, hfit.registry]
    rfl
  unfold finishCall
  rw [hreg]
  split
  · trivial
  · exact .inl ⟨_, h.fill _ _, rfl⟩

theorem accept_follows (hfit : setting.Fits goal setting' goal') (h : m.Behind bs n)
    (here : Nat) {found found' : Found} (hf : found.Stays u found') :
    Step.Follows bs u (m.accept setting goal here found) (n.accept setting' goal' here found') := by
  cases hf with
  | fault => trivial
  | lost hrest =>
    simp only [accept, descend]
    split
    · trivial
    · exact .inr ⟨hrest, by simp⟩
  | same =>
    cases found with
    | operand e chainable c => exact .inl ⟨_, h.fill e chainable, rfl⟩
    | sign op c =>
      refine .inl ⟨_, h.withCondition _, ?_⟩
      simp only [Found.before, accept, h.condition_eq]
    | level frame c => exact descend_follows hfit h frame c
    | emptyCall name place c => exact finishCall_follows hfit h name place [] c
    | comma c =>
      simp only [accept]
      split <;> trivial
    | nothing c => exact .inl ⟨n, h, rfl⟩
    | fault => trivial

/-- A comma at the outermost level would leave a condition behind. -/
theorem operatorStep_follows (h : m.Behind bs n) (o : Operand) (here : Nat) (c : Cursor)
    {l : Lexeme} (hl : m.stack = [] → l ≠ .comma) :
    Step.Follows bs u (m.operatorStep o here c l) (n.operatorStep o here (c.before u) l) := by
  cases l with
  | arithmetic op | comparison op | logical op =>
    refine .inl ⟨_, h.withCondition _, ?_⟩
    simp only [operatorStep, h.condition_eq]
    rfl
  | comma =>
    cases h with
    | outermost => exact absurd rfl (hl rfl)
    | inner h frame level => exact .inl ⟨_, .inner h frame _, rfl⟩
  | property name =>
    simp only [operatorStep]
    split
    · exact .inl ⟨_, h.fill _ _, rfl⟩
    · trivial
  | blanks => exact .inl ⟨n, h, rfl⟩
  | _ => trivial

variable (hu : ∀ x ∈ u.head?, Lexeme.isStop x = true)
include hu

theorem lexemeStep_follows (hfit : setting.Fits goal setting' goal') (h : m.Behind bs n)
    (hne : c.rest ≠ []) (hc : m.stack = [] → ∀ x ∈ c.rest.head?, x ≠ ',') :
    Step.Follows bs u (m.lexemeStep setting goal c)
      (n.lexemeStep setting' goal' (c.before u)) := by
  unfold lexemeStep
  rw [h.condition_eq]
  cases m.level.condition.operand with
  | none =>
    simp only [Cursor.rest_before, Lexeme.next?_append hu true hne]
    rcases Lexeme.next? true c.rest with - | ⟨l, t⟩
    · trivial
    · simp only [Option.map_some, operandStep_eq]
      exact accept_follows hfit h _ (Found.ofLexeme_stays hu _ _ l)
  | some o =>
    simp only [Cursor.rest_before, Lexeme.next?_append hu false hne]
    rcases hn : Lexeme.next? false c.rest with - | ⟨l, t⟩
    · trivial
    · simp only [Option.map_some]
      refine operatorStep_follows h o _ ((c.past t).hold t.text) ?_
      rintro hs rfl
      obtain ⟨p, hp⟩ := Lexeme.next?_run hn
      have ht : t.text = [','] := Lexeme.next?_marked hn
      exact hc hs ',' (by simp [← Pattern.run_split hp, ht]) rfl

/-- Every step of an expression on its own is taken behind the conditions. -/
theorem step_follows {ends : Char → Bool} (hg : goal'.terminator = .one ends)
    (hends : ∀ x, ends x = true → x = '\n' ∨ x = '#' ∨ x = ')')
    (hfit : setting.Fits .line setting' goal') (h : m.Behind bs n) (hne : c.rest ≠ [])
    (hc : m.stack = [] → ∀ x ∈ c.rest.head?, x ≠ ',') :
    Step.Follows bs u (m.step setting .line c) (n.step setting' goal' (c.before u)) := by
  have hlexeme := lexemeStep_follows hu hfit h hne hc
  have hone : ∀ p, (Pattern.one p).run (c.rest ++ u) =
      ((Pattern.one p).run c.rest).map (·.before u) := by
    intro p
    exact Pattern.run_append_of_ne_nil (fun _ _ => rfl) hne
  cases h with
  | @outermost l hl =>
    obtain ⟨x, r, hrest⟩ := List.exists_cons_of_ne_nil hne
    by_cases hend : x = '\n' ∨ x = '#'
    · have hline : Goal.line.terminator.run c.rest = some ⟨[x], [], r⟩ := by
        rw [hrest]
        simp [Goal.line, expressionEnd, Pattern.run, hend]
      simp only [step, hline, conclude]
      split <;> trivial
    · have hline : Goal.line.terminator.run c.rest = none := by
        rw [hrest]
        simp [Goal.line, expressionEnd, Pattern.run, hend]
      have hempty : c.rest.isEmpty = false := by rw [hrest]; rfl
      by_cases hparen : x = ')'
      · -- no lexeme begins with the parenthesis, so there is no step that goes on
        have hnone : ∀ b, Lexeme.next? b c.rest = none := by
          intro b
          rw [hrest, hparen]
          exact Lexeme.next?_eq_none (.inr rfl) b r
        simp only [step, hline, hempty, lexemeStep, hnone]
        simp only [Bool.and_false, Bool.false_eq_true, if_false]
        split <;> trivial
      · have hgoal : goal'.terminator.run (c.rest ++ u) = none := by
          have hx : ends x = false := by
            by_contra he
            have := hends x (by simpa using he)
            tauto
          simp [hg, hrest, Pattern.run, hx]
        have hempty' : (c.rest ++ u).isEmpty = false := by rw [hrest]; rfl
        simp only [step, hline, hempty, hgoal, hempty', Cursor.rest_before, Bool.and_false,
          Bool.false_eq_true, if_false]
        exact hlexeme
  | @inner m n h frame level =>
    cases frame with
    | group =>
      have hclose : parenClose.run (c.rest ++ u) = (parenClose.run c.rest).map (·.before u) :=
        hone _
      simp only [step, Cursor.rest_before, hclose, Cursor.pos_before]
      cases parenClose.run c.rest with
      | none => exact hlexeme
      | some t =>
        simp only [Option.map_some]
        cases level.finish c.pos with
        | error fault => trivial
        | ok e => exact .inl ⟨_, h.fill e false, rfl⟩
    | call name place args =>
      have hclose : argumentEnd.run (c.rest ++ u) = (argumentEnd.run c.rest).map (·.before u) :=
        hone _
      simp only [step, Cursor.rest_before, hclose, Cursor.pos_before]
      cases argumentEnd.run c.rest with
      | none => exact hlexeme
      | some t =>
        simp only [Option.map_some]
        cases level.finish c.pos with
        | error fault => trivial
        | ok e =>
          have htext : (t.before u).text = t.text := rfl
          by_cases ht : t.text = [')']
          · simp only [if_pos ht, if_pos (htext.trans ht)]
            exact finishCall_follows hfit h name place (e :: args) (c.past t)
          · have ht' : (t.before u).text ≠ [')'] := ht
            simp only [if_neg ht, if_neg ht']
            exact descend_follows hfit h _ (c.past t)

omit hu in
/-- Where the text is over, a level that waits is not closed. -/
theorem run_waiting (hc : c.rest = []) (hs : m.stack ≠ []) (e : Expr) (d : Cursor) :
    m.run setting goal c ≠ .ok e d := by
  obtain ⟨fault, d', hl⟩ := lexemeStep_at_end setting goal (.inl rfl) hc m
  have hstep : m.step setting goal c = .stop fault d' := by
    unfold step
    split
    · rename_i hnil
      exact absurd hnil hs
    · simp [hc, parenClose, Pattern.char, Pattern.run, hl]
    · simp [hc, argumentEnd, Pattern.run, hl]
  rw [run_of_stop hstep]
  simp

/-- A text that is read as an expression on its own is read behind the conditions. -/
theorem run_follows {ends : Char → Bool} (hg : goal'.terminator = .one ends)
    (hends : ∀ x, ends x = true → x = '\n' ∨ x = '#' ∨ x = ')')
    (hfit : setting.Fits .line setting' goal') (h : m.Behind bs n)
    (hc : CommaFree m.stack.length c.rest) {e : Expr} {d : Cursor}
    (hr : m.run setting .line c = .ok e d) (hd : d.rest = []) :
    ∃ (m' n' : Machine) (b : Cursor), m'.stack = [] ∧ m'.level.finish b.pos = .ok e ∧
      m'.Behind bs n' ∧ b.rest = [] ∧ Leads setting' goal' n (c.before u) n' (b.before u) := by
  fun_induction run setting .line m c generalizing n with
  | case1 m c m' c' hs ih =>
    have hne : c.rest ≠ [] := by
      intro hnil
      have := step_lt hs
      simp [hnil] at this
    have hcomma : m.stack = [] → ∀ x ∈ c.rest.head?, x ≠ ',' := by
      rintro hstack x hx rfl
      obtain ⟨r, hrest⟩ := List.head?_eq_some_iff.1 hx
      exact hc [] r hrest (by rw [hstack]; rfl)
    have hfollow := step_follows hu hg hends hfit h hne hcomma
    rw [hs] at hfollow
    rcases hfollow with ⟨n', hb, hn⟩ | ⟨hrest, hstack⟩
    · obtain ⟨m₁, n₁, b, hstack, hf, hb₁, hrest, hl⟩ := ih hb (hc.step hs) hr
      exact ⟨m₁, n₁, b, hstack, hf, hb₁, hrest, .step hn hl⟩
    · exact absurd hr (run_waiting hrest hstack e d)
  | case2 m c e' c' hs =>
    cases hr
    obtain ⟨hstack, hf, hmet⟩ := step_done hs
    have hrest : c.rest = [] := by
      rcases hmet with ⟨t, -, rfl⟩ | ⟨-, -, hrest, -⟩
      · exact hd
      · exact hrest
    exact ⟨m, n, c, hstack, hf, h, hrest, .refl n _⟩
  | case3 m c fault c' hs => cases hr

end Machine

/-- Where the machine stands in the source does not matter. -/
theorem Machine.run_elsewhere {setting : Setting} {goal : Goal} {m n : Machine}
    {c c' d : Cursor} {e : Expr} (hm : m.Moved .blind n) (hc : c.rest = d.rest)
    (h : m.run setting goal c = .ok e c') :
    ∃ d', n.run setting goal d = .ok e d' ∧ d'.rest = c'.rest := by
  have hagree : Agrees (Cursor.Moved .blind) (Fault.Moved .blind) Eq (m.run setting goal c)
      (n.run setting goal d) := hm.run (.blind hc)
  rw [h] at hagree
  generalize n.run setting goal d = r at hagree ⊢
  cases hagree with
  | ok hv hs => exact ⟨_, hv ▸ rfl, hs.rest.symm⟩

/-- An expression on its own is what the machine makes of it, if the limit admits any level. -/
theorem Expr.ofText_eq_run {setting : Setting} (h : 0 ≤ setting.limit) (t : List Char) :
    Expr.ofText setting t = Machine.run setting .line ⟨{ start := 0 }, []⟩
      ((Cursor.ofText t).note "expression") := by
  have hdeep : ¬ setting.limit < Goal.line.depth := by
    change ¬ setting.limit < 0
    omega
  rw [Expr.ofText, Read.expr, if_neg hdeep]
  rfl

/-- The text is an expression on its own, without a comma outside of strings and parentheses. -/
structure Conjunct (setting : Setting) (text : List Char) (e : Expr) : Prop where
  read : ∃ c, Expr.ofText setting text = .ok e c ∧ c.rest = []
  commaFree : CommaFree 0 text

namespace Conjunct

variable {setting setting' : Setting} {goal' : Goal} {t u : List Char} {e : Expr}

theorem limit_nonneg (h : Conjunct setting t e) : 0 ≤ setting.limit := by
  obtain ⟨d, hr, -⟩ := h.read
  by_contra hlimit
  have hdeep : setting.limit < Goal.line.depth := by
    change setting.limit < 0
    omega
  rw [Expr.ofText, Read.expr, if_pos hdeep] at hr
  cases hr

/-- A text with an expression has one from every cursor. -/
theorem run (h : Conjunct setting t e) (start : Nat) {c : Cursor} (hc : c.rest = t) :
    ∃ d, Machine.run setting .line ⟨{ start }, []⟩ c = .ok e d ∧ d.rest = [] := by
  obtain ⟨d, hr, hd⟩ := h.read
  rw [Expr.ofText_eq_run h.limit_nonneg] at hr
  have hm : Machine.Moved .blind ⟨{ start := 0 }, []⟩ ⟨{ start }, []⟩ := ⟨⟨rfl, rfl, rfl⟩, .nil⟩
  obtain ⟨d', hr', hd'⟩ := Machine.run_elsewhere hm hc.symm hr
  exact ⟨d', hr', hd'.trans hd⟩

theorem of_run (hlimit : 0 ≤ setting.limit) (hc : CommaFree 0 t)
    (h : ∀ c : Cursor, c.rest = t →
      ∃ d, Machine.run setting .line ⟨{ start := 0 }, []⟩ c = .ok e d ∧ d.rest = []) :
    Conjunct setting t e := by
  refine ⟨?_, hc⟩
  rw [Expr.ofText_eq_run hlimit]
  exact h _ rfl

/-- A blank before it does not matter. -/
theorem blank (h : Conjunct setting t e) : Conjunct setting (' ' :: t) e := by
  have hw : ∀ x ∈ t.takeWhile isBlank, isBlank x = true := fun x => List.mem_takeWhile_imp
  have hu : Free isBlank (t.dropWhile isBlank) := free_dropWhile isBlank t
  refine of_run h.limit_nonneg ?_ fun c hc => ?_
  · intro p q hp
    cases p with
    | nil => simp at hp
    | cons x p =>
      obtain ⟨rfl, ht⟩ := List.cons.inj hp
      exact h.commaFree p q ht
  · -- both texts lead past their blanks
    obtain ⟨d, hr, hd⟩ := h.run 0 (c := { c with rest := t }) rfl
    obtain ⟨c₁, hc₁, hl₁⟩ := Machine.Reads.blanks Goal.plain_line ⟨{ start := 0 }, []⟩ hw hu
      { c with rest := t } (by simp)
    obtain ⟨c₂, hc₂, hl₂⟩ := Machine.Reads.blanks Goal.plain_line ⟨{ start := 0 }, []⟩
      (w := ' ' :: t.takeWhile isBlank) (by simpa [isBlank] using hw) hu c (by simp [hc])
    rw [hl₁.run_eq] at hr
    obtain ⟨d', hr', hd'⟩ :=
      Machine.run_elsewhere (d := c₂) ⟨⟨rfl, rfl, rfl⟩, .nil⟩ (hc₁.trans hc₂.symm) hr
    exact ⟨d', hl₂.run_eq.trans hr', hd'.trans hd⟩

/-- It is read behind other conditions, up to what comes behind it. -/
theorem leads (h : Conjunct setting t e) (hu : ∀ x ∈ u.head?, Lexeme.isStop x = true)
    {ends : Char → Bool} (hg : goal'.terminator = .one ends)
    (hends : ∀ x, ends x = true → x = '\n' ∨ x = '#' ∨ x = ')')
    (hfit : setting.Fits .line setting' goal') (start : Nat) (bs : List Expr) {c : Cursor}
    (hc : c.rest = t ++ u) :
    ∃ (start' : Nat) (k : Condition) (o : Operand) (c' : Cursor), k.operand = some o ∧
      k.close o.expr = e ∧ c'.rest = u ∧
      Machine.Leads setting' goal' ⟨{ start, behind := bs }, []⟩ c
        ⟨{ start := start', behind := bs, condition := k }, []⟩ c' := by
  obtain ⟨d, hr, hd⟩ := h.run start (c := { c with rest := t }) rfl
  have hbehind : Machine.Behind bs ⟨{ start }, []⟩ ⟨{ start, behind := bs }, []⟩ := .outermost rfl
  obtain ⟨m, n, b, hstack, hf, hb, hrest, hl⟩ :=
    Machine.run_follows hu hg hends hfit hbehind h.commaFree hr hd
  have hcursor : ({ c with rest := t } : Cursor).before u = c := by
    simp [Cursor.before, ← hc]
  rw [hcursor] at hl
  cases hb with
  | inner => cases hstack
  | @outermost l hl' =>
    obtain ⟨start', behind, k⟩ := l
    obtain rfl : behind = [] := hl'
    unfold Level.finish at hf
    split at hf
    · simp at hf
    · split at hf
      · cases hf
      · rename_i o ho
        cases hf
        exact ⟨start', k, o, b.before u, ho, rfl, by simp [hrest], hl⟩

end Conjunct

/-- All expressions joined by `&&`, grouped to the left. -/
def Expr.conjunction (e : Expr) (es : List Expr) : Expr := es.foldl (.binary .and) e

/-- With a comma the condition goes behind, and the next one begins. -/
theorem Machine.step_comma (setting : Setting) {l : Level} {o : Operand} {c : Cursor}
    {s : List Char} (ho : l.condition.operand = some o) (hc : c.rest = ',' :: s) :
    ∃ c', c'.rest = s ∧ step setting .line ⟨l, []⟩ c =
      .more ⟨{ l with behind := l.condition.close o.expr :: l.behind, condition := {} }, []⟩ c' := by
  have hend : Goal.line.terminator.run (',' :: s) = none := rfl
  have hn : Lexeme.next? false (',' :: s) = some (.comma, ⟨[','], [], s⟩) := rfl
  refine ⟨(c.past ⟨[','], [], s⟩).hold [','], rfl, ?_⟩
  simp only [step, hc, hend, lexemeStep, ho, hn]
  rfl

theorem Level.finish_of_operand {l : Level} {o : Operand} (ho : l.condition.operand = some o)
    (here : Nat) : l.finish here = .ok (conjoin (l.condition.close o.expr) l.behind) := by
  simp [Level.finish, Condition.isEmpty, ho]

theorem intercalate_cons_cons (x : α) (sep t : List α) (ts : List (List α)) :
    sep.intercalate ((x :: t) :: ts) = x :: sep.intercalate (t :: ts) := by
  cases ts <;> simp [List.intercalate]

namespace Conjunct

variable {setting : Setting}

theorem leads_commas {t : List Char} {e : Expr} {ts : List (List Char × Expr)}
    (h : ∀ p ∈ (t, e) :: ts, Conjunct { setting with limit := setting.limit - 1 } p.1 p.2)
    (start : Nat) (bs : List Expr) {c : Cursor}
    (hc : c.rest = ", ".toList.intercalate (t :: ts.map Prod.fst)) :
    ∃ (m : Machine) (c' : Cursor), m.stack = [] ∧ c'.rest = [] ∧
      m.level.finish c'.pos = .ok ((conjoin e bs).conjunction (ts.map Prod.snd)) ∧
      Machine.Leads setting .line ⟨{ start, behind := bs }, []⟩ c m c' := by
  have hfit : Setting.Fits { setting with limit := setting.limit - 1 } .line setting .line := by
    refine ⟨rfl, ?_⟩
    simp only [Goal.line]
    omega
  have hends : ∀ x, (x == '\n' || x == '#') = true → x = '\n' ∨ x = '#' ∨ x = ')' := by
    intro x hx
    simp only [Bool.or_eq_true, beq_iff_eq] at hx
    tauto
  induction ts generalizing t e start bs c with
  | nil =>
    obtain ⟨start', k, o, c', ho, hk, hc', hl⟩ :=
      (h (t, e) (by simp)).leads (u := []) (by simp) rfl hends hfit start bs (by simpa using hc)
    refine ⟨_, c', rfl, hc', ?_, hl⟩
    rw [Level.finish_of_operand ho, hk]
    rfl
  | cons p ts ih =>
    obtain ⟨t₂, e₂⟩ := p
    have hsplit : c.rest =
        t ++ ',' :: ' ' :: ", ".toList.intercalate (t₂ :: ts.map Prod.fst) := by
      rw [hc]
      simp [List.intercalate]
    obtain ⟨start', k, o, c₁, ho, hk, hc₁, hl₁⟩ :=
      (h (t, e) (by simp)).leads (by simp [Lexeme.isStop]) rfl hends hfit start bs hsplit
    obtain ⟨c₂, hc₂, hs⟩ := Machine.step_comma setting (l := ⟨start', bs, k⟩) ho hc₁
    have hrest : ∀ p ∈ (' ' :: t₂, e₂) :: ts,
        Conjunct { setting with limit := setting.limit - 1 } p.1 p.2 := by
      intro p hp
      rcases List.mem_cons.1 hp with rfl | hp
      · exact (h (t₂, e₂) (by simp)).blank
      · exact h p (by simp [hp])
    obtain ⟨m, c', hm, hc', hf, hl⟩ := ih hrest start' (e :: bs) (c := c₂)
      (hc₂.trans (intercalate_cons_cons ..).symm)
    refine ⟨m, c', hm, hc', hf, hl₁.trans (.step ?_ hl)⟩
    rw [hs, hk]

/-- In parentheses it is what it is without them. -/
theorem holds {t : List Char} {e : Expr}
    (h : Conjunct { setting with limit := setting.limit - 1 } t e) :
    Frame.group.Holds setting 1 t e := by
  have hlimit : 0 ≤ setting.limit - 1 := h.limit_nonneg
  have hfit : Setting.Fits { setting with limit := setting.limit - 1 } .line setting
      (Frame.group.goal 1) := ⟨rfl, by simp [Goal.line]⟩
  have hends : ∀ x, (x == ')') = true → x = '\n' ∨ x = '#' ∨ x = ')' := by
    intro x hx
    exact .inr (.inr (beq_iff_eq.1 hx))
  obtain ⟨start, k, o, c, ho, hk, hc, hl⟩ := h.leads (u := [')']) (by simp [Lexeme.isStop]) rfl
    hends hfit 0 [] (c := (Cursor.ofText (t ++ [')'])).note "expression") rfl
  have hstep : Machine.step setting (Frame.group.goal 1) ⟨⟨start, [], k⟩, []⟩ c =
      .done e (c.past ⟨[')'], [], []⟩) := by
    have hend : (Frame.group.goal 1).terminator.run [')'] = some ⟨[')'], [], []⟩ := rfl
    simp only [Machine.step, hc, hend, Machine.conclude]
    rw [Level.finish_of_operand ho, hk]
    rfl
  refine ⟨.ofText (t ++ [')']), c.past ⟨[')'], [], []⟩, rfl, ?_, rfl⟩
  rw [Read.expr, Frame.depth_goal, if_neg (by omega)]
  exact hl.run_eq.trans (Machine.run_of_done hstep)

/-- The conjunct in parentheses, behind `&&`. -/
def link (p : List Char × Expr) : Link := ⟨"&&".toList, .and, '(' :: (p.1 ++ [')']), p.2⟩

theorem build_and (a e : Expr) (ts : List (List Char × Expr)) :
    Infix.build [(a, .and)] (Link.chain e (ts.map link)).1 (Link.chain e (ts.map link)).2 =
      (Expr.binary .and a e).conjunction (ts.map Prod.snd) := by
  induction ts generalizing a e with
  | nil => simp [Link.chain, Infix.build, Infix.collapse, Expr.conjunction]
  | cons p ts ih =>
    have hcollapse : Infix.collapse BinaryOp.and.precedence [(a, .and)] e =
        ([], .binary .and a e) := by simp [Infix.collapse]
    simp only [List.map_cons, Link.chain, Infix.build, link, hcollapse]
    exact ih (.binary .and a e) p.2

/-- Operands with `&&` between them group to the left. -/
theorem tree_and (e : Expr) (ts : List (List Char × Expr)) :
    Link.tree e (ts.map link) = e.conjunction (ts.map Prod.snd) := by
  cases ts with
  | nil => rfl
  | cons p ts => exact build_and e p.2 ts

theorem texts_and (t : List Char) (ts : List (List Char × Expr)) :
    " && ".toList.intercalate (('(' :: (t ++ [')'])) :: ts.map fun p => '(' :: (p.1 ++ [')'])) =
      '(' :: (t ++ [')']) ++ Link.texts (ts.map link) := by
  induction ts generalizing t with
  | nil => simp [List.intercalate, Link.texts]
  | cons p ts ih =>
    simpa [List.intercalate, Link.texts, link] using ih p.1

end Conjunct

/-- A list of conjuncts, with commas between them or in parentheses with `&&` between them, is
the conjunction of their expressions; one alone may stand in parentheses. -/
theorem Expr.ofText_conjunction {setting : Setting} {t : List Char} {e : Expr}
    {ts : List (List Char × Expr)}
    (h : ∀ p ∈ (t, e) :: ts, Conjunct { setting with limit := setting.limit - 1 } p.1 p.2) :
    (∃ c, Expr.ofText setting (", ".toList.intercalate (t :: ts.map Prod.fst)) =
        .ok (e.conjunction (ts.map Prod.snd)) c ∧ c.rest = []) ∧
      ∃ c, Expr.ofText setting (" && ".toList.intercalate
          (('(' :: (t ++ [')'])) :: ts.map fun p => '(' :: (p.1 ++ [')']))) =
        .ok (e.conjunction (ts.map Prod.snd)) c ∧ c.rest = [] := by
  have hfirst := h (t, e) (by simp)
  have hlimit : 0 ≤ setting.limit - 1 := hfirst.limit_nonneg
  constructor
  · obtain ⟨m, c, hm, hc, hf, hl⟩ := Conjunct.leads_commas h 0 []
      (c := (Cursor.ofText (", ".toList.intercalate (t :: ts.map Prod.fst))).note "expression") rfl
    have hstep : m.step setting .line c = .done (e.conjunction (ts.map Prod.snd)) c := by
      have hend : Goal.line.terminator.run [] = none := rfl
      simp only [Machine.step, hm, hc, hend, Machine.conclude, hf]
      rfl
    refine ⟨c, ?_, hc⟩
    rw [Expr.ofText_eq_run (by omega)]
    exact hl.run_eq.trans (Machine.run_of_done hstep)
  · have hsigned : Signed setting 1 ('(' :: (t ++ [')'])) e := .plain (.group hfirst.holds)
    have hlinks : ∀ l ∈ ts.map Conjunct.link, l.Written setting 1 := by
      intro l hl
      obtain ⟨p, hp, rfl⟩ := List.mem_map.1 hl
      exact ⟨.symbol (by decide : BinaryOp.and ∈ BinaryOp.all),
        .plain (.group (h p (by simp [hp])).holds)⟩
    obtain ⟨c, hr, hc⟩ := Expr.ofText_chain (w := []) (by omega) (by simp) hsigned hlinks
    rw [Conjunct.texts_and]
    rw [Conjunct.tree_and] at hr
    exact ⟨c, hr, hc⟩

/-- Commas stand in a string and between arguments, and do not count. -/
theorem Expr.ofText_conjunction_inner_commas :
    let first : Expr := .binary .eq (.localVar "x") (.string "a, b")
    let second : Expr := .call "f" [.number (.int 1), .number (.int 2)]
    (∀ p ∈ [("$x = \"a, b\"".toList, first), ("f(1,2)".toList, second)],
        Conjunct { limit := 63 } p.1 p.2) ∧
      (∃ c, Expr.ofText {} "$x = \"a, b\", f(1,2)".toList = .ok (.binary .and first second) c ∧
        c.rest = []) ∧
      ∃ c, Expr.ofText {} "($x = \"a, b\") && (f(1,2))".toList =
        .ok (.binary .and first second) c ∧ c.rest = [] := by
  intro first second
  let setting : Setting := { limit := 63 }
  have hx : Made isWordChar "x".toList := ⟨by simp, by simp [isWordChar]⟩
  have hstring : Signed setting 1 "\"a, b\"".toList (.string "a, b") := .plain (.string rfl)
  have hequal : ∀ l ∈ [Link.mk ['='] .eq "\"a, b\"".toList (.string "a, b")],
      l.Written setting 1 := by
    simp only [List.mem_singleton, forall_eq]
    exact ⟨.equal, hstring⟩
  have hfirst : ∃ c, Expr.ofText setting "$x = \"a, b\"".toList = .ok first c ∧ c.rest = [] :=
    Expr.ofText_chain (w := []) (by decide) (by simp) (.plain (.localName hx)) hequal
  have hnumber : ∀ (w : List Char) (n : Nat), IsNumeral w → Numeral.number? w = .ok (.int n) →
      ∀ name place args, (Frame.call name place args).Holds setting 1 w (.number (.int n)) := by
    intro w n hw hn name place args
    have hnone : ∀ l ∈ ([] : List Link), l.Written setting 2 := by simp
    have hholds := Frame.holds_chain (by decide : (1 : Int) ≤ setting.limit)
      (.plain (.number hw hn)) hnone (.call name place args)
    rwa [Link.texts, List.append_nil] at hholds
  have hcall : Operand.Written setting 1 "f(1,2)".toList ⟨second, true⟩ :=
    .call (w := ['f']) (s := []) ⟨⟨by simp, by simp [isWordChar]⟩, rfl, rfl, rfl⟩ (by simp)
      (.more (hnumber ['1'] 1 (.inl ⟨by simp, by simp⟩) rfl)
        (.last (hnumber ['2'] 2 (.inl ⟨by simp, by simp⟩) rfl))) (by simp [Free, isBlank]) rfl
  have hnone : ∀ l ∈ ([] : List Link), l.Written setting 1 := by simp
  have hsecond : ∃ c, Expr.ofText setting "f(1,2)".toList = .ok second c ∧ c.rest = [] :=
    Expr.ofText_chain (w := []) (by decide) (by simp) (.plain hcall) hnone
  have h : ∀ p ∈ [("$x = \"a, b\"".toList, first), ("f(1,2)".toList, second)],
      Conjunct { limit := 63 } p.1 p.2 := by
    simp only [List.mem_cons, List.not_mem_nil, or_false]
    rintro p (rfl | rfl)
    · exact ⟨hfirst, by decide⟩
    · exact ⟨hsecond, by decide⟩
  exact ⟨h, @Expr.ofText_conjunction {} _ _ _ h⟩

end Gamebook
