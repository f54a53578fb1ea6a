import Gamebook.Proofs.Conjunction

/-!
What stands in parentheses is an expression on its own. The steps that read it up to its closing
parenthesis are taken in the text between the parentheses too, where the source ends instead: no
lexeme looks past a parenthesis, and no step that goes on has taken the closing one.
-/
namespace Gamebook

open Grammar

/-- The step in a text that goes on. -/
def Step.before (u : List Char) : Step → Step
  | more m c => more m (c.before u)
  | done e c => done e (c.before u)
  | stop fault c => stop fault (c.before u)

theorem Cursor.before_injective {c d : Cursor} {u : List Char} (h : c.before u = d.before u) :
    c = d := by
  obtain ⟨pos, rest, held, notes⟩ := c
  obtain ⟨pos', rest', held', notes'⟩ := d
  simpa [Cursor.before] using h

theorem Step.eq_more_of_before {s : Step} {m : Machine} {c : Cursor} {u : List Char}
    (h : s.before u = .more m (c.before u)) : s = .more m c := by
  cases s with
  | more m' c' =>
    obtain ⟨rfl, hc⟩ : m' = m ∧ c'.before u = c.before u := by simpa [Step.before] using h
    rw [Cursor.before_injective hc]
  | done => cases h
  | stop => cases h

namespace Machine

variable {setting : Setting} {goal goal' : Goal} {m m' : Machine} {c c' : Cursor} {u : List Char}

theorem descend_before (hd : goal'.depth = goal.depth) (frame : Frame) (c : Cursor) :
    m.descend setting goal frame (c.before u) = (m.descend setting goal' frame c).before u := by
  unfold descend
  rw [hd]
  split <;> rfl

theorem finishCall_before (name : String) (place : Nat) (args : List Expr) (c : Cursor) :
    m.finishCall setting name place args (c.before u) =
      (m.finishCall setting name place args c).before u := by
  unfold finishCall
  split <;> rfl

theorem accept_before (hd : goal'.depth = goal.depth) (here : Nat) (found : Found) :
    m.accept setting goal here (found.before u) = (m.accept setting goal' here found).before u := by
  cases found with
  | level frame c => exact descend_before hd frame c
  | emptyCall name place c => exact finishCall_before ..
  | comma c =>
    simp only [Found.before, accept]
    split <;> rfl
  | _ => rfl

theorem operatorStep_before (o : Operand) (here : Nat) (c : Cursor) (l : Lexeme) :
    m.operatorStep o here (c.before u) l = (m.operatorStep o here c l).before u := by
  cases l with
  | property name =>
    simp only [operatorStep]
    split <;> rfl
  | _ => rfl

/-- What is not found before the end of the text leads to no step that ends there. -/
theorem accept_astray {found : Found} (h : found.Astray u) (here : Nat) :
    m.accept setting goal here found ≠ .more m' (c'.before u) := by
  have long : ∀ {d : Cursor}, d.rest.length < u.length → d ≠ c'.before u := by
    rintro d hd rfl
    have hlength : (c'.before u).rest.length = c'.rest.length + u.length := by simp
    omega
  intro hmore
  cases found with
  | operand | sign | nothing =>
    obtain ⟨-, hc⟩ := Step.more.inj hmore
    exact long h hc
  | level frame d =>
    simp only [accept, descend] at hmore
    split at hmore
    · cases hmore
    · obtain ⟨-, hc⟩ := Step.more.inj hmore
      exact long (d := d.note "expression") h hc
  | emptyCall name place d =>
    simp only [accept, finishCall] at hmore
    split at hmore
    · cases hmore
    · obtain ⟨-, hc⟩ := Step.more.inj hmore
      exact long h hc
  | comma d =>
    simp only [accept] at hmore
    split at hmore <;> cases hmore
  | fault => cases hmore

theorem accept_narrows (hd : goal'.depth = goal.depth) (here : Nat) {found found' : Found}
    (hf : found.Stays u found') (h : m.accept setting goal here found' = .more m' (c'.before u)) :
    m.accept setting goal' here found = .more m' c' := by
  cases hf with
  | same => exact Step.eq_more_of_before ((accept_before hd here found).symm.trans h)
  | fault ha => exact absurd h (accept_astray ha here)
  | lost _ ha => exact absurd h (accept_astray ha here)

variable (hu : ∀ x ∈ u.head?, Lexeme.isStop x = true)
include hu

/-- A lexeme that ends in the text is read where the text does not go on. -/
theorem lexemeStep_narrows (hd : goal'.depth = goal.depth) (hne : c.rest ≠ [])
    (h : m.lexemeStep setting goal (c.before u) = .more m' (c'.before u)) :
    m.lexemeStep setting goal' c = .more m' c' := by
  revert h
  unfold lexemeStep
  cases m.level.condition.operand with
  | none =>
    simp only [Cursor.rest_before, Lexeme.next?_append hu true hne]
    rcases Lexeme.next? true c.rest with - | ⟨l, t⟩
    · rintro ⟨⟩
    · simp only [Option.map_some, operandStep_eq]
      exact accept_narrows hd c.pos (Found.ofLexeme_stays hu c.pos ((c.past t).hold t.text) l)
  | some o =>
    simp only [Cursor.rest_before, Lexeme.next?_append hu false hne]
    rcases Lexeme.next? false c.rest with - | ⟨l, t⟩
    · rintro ⟨⟩
    · intro h
      exact Step.eq_more_of_before ((operatorStep_before o c.pos _ l).symm.trans h)

omit hu in
/-- A step that goes on takes neither a line break nor the sign of a comment. -/
theorem expressionEnd_of_more (h : m.step setting .parens c = .more m' c') :
    expressionEnd.run c.rest = none := by
  have hwalks : (m.step setting .parens c).Walks (Scan.Admits (· == ')')) c m.stack.length :=
    step_admits (by simp [isEnd]) rfl setting m c
  rw [h] at hwalks
  obtain ⟨w, hw, hwalk⟩ := hwalks
  cases w with
  | nil => exact absurd (step_lt h) (by simp [hw])
  | cons x w =>
    obtain ⟨hline, hcomment, -⟩ := hwalk.ok_of_eq (p := []) rfl rfl
    simp [hw, expressionEnd, Pattern.run, hline, hcomment]

/-- A step in parentheses is taken in the text between them. -/
theorem step_narrows (hne : c.rest ≠ [])
    (h : m.step setting .parens (c.before u) = .more m' (c'.before u)) :
    m.step setting .line c = .more m' c' := by
  have hend := expressionEnd_of_more h
  have hone : ∀ p, (Pattern.one p).run (c.rest ++ u) =
      ((Pattern.one p).run c.rest).map (·.before u) := by
    intro p
    exact Pattern.run_append_of_ne_nil (fun _ _ => rfl) hne
  have hlexeme : m.lexemeStep setting .parens (c.before u) = .more m' (c'.before u) →
      m.lexemeStep setting .line c = .more m' c' := lexemeStep_narrows hu rfl hne
  revert h
  unfold step
  split
  · have hempty : c.rest.isEmpty = false := by simpa using hne
    have hnear : Goal.line.terminator.run c.rest = none := by
      change expressionEnd.run c.rest = none
      simpa [expressionEnd, hone] using hend
    simp only [hnear, hempty, Bool.and_false, Bool.false_eq_true, if_false]
    split
    · exact fun h => absurd h conclude_ne_more
    · exact hlexeme
  · simp only [Cursor.rest_before, parenClose, Pattern.char, hone]
    cases (Pattern.one (· == ')')).run c.rest with
    | none => exact hlexeme
    | some t =>
      simp only [Option.map_some, Cursor.pos_before]
      cases m.level.finish c.pos with
      | error fault => rintro ⟨⟩
      | ok e => exact fun h => Step.eq_more_of_before (s := .more _ (c.past t)) h
  · simp only [Cursor.rest_before, argumentEnd, hone]
    cases (Pattern.one fun x => x == ')' || x == ',').run c.rest with
    | none => exact hlexeme
    | some t =>
      simp only [Option.map_some, Cursor.pos_before, Cursor.past_before]
      cases m.level.finish c.pos with
      | error fault => rintro ⟨⟩
      | ok e =>
        have htext : (t.before u).text = t.text := rfl
        by_cases ht : t.text = [')']
        · simp only [if_pos ht, if_pos (htext.trans ht)]
          exact fun h => Step.eq_more_of_before ((finishCall_before ..).symm.trans h)
        · have ht' : (t.before u).text ≠ [')'] := ht
          simp only [if_neg ht, if_neg ht']
          exact fun h => Step.eq_more_of_before ((descend_before rfl ..).symm.trans h)

omit hu in
/-- What is read up to a closing parenthesis is read in the text before it. -/
theorem run_narrows {c d : Cursor} {e : Expr} (h : m.run setting .parens c = .ok e d) :
    ∃ inside, c.rest = inside ++ ')' :: d.rest ∧
      ∃ b, m.run setting .line { c with rest := inside } = .ok e b ∧ b.rest = [] := by
  fun_induction run setting .parens m c with
  | case1 m c m' c' hs ih =>
    obtain ⟨inside, hinside, b, hr, hb⟩ := ih h
    have hreach := step_reaches setting .parens m c
    rw [hs] at hreach
    obtain ⟨taken, htaken, -⟩ := hreach
    change c.rest = taken ++ c'.rest at htaken
    have hrest : c.rest = (taken ++ inside) ++ ')' :: d.rest := by simp [htaken, hinside]
    have hne : taken ++ inside ≠ [] := by
      have hlt := step_lt hs
      intro hnil
      simp [htaken, (List.append_eq_nil_iff.1 hnil).1] at hlt
    refine ⟨taken ++ inside, hrest, b, ?_, hb⟩
    have hnear : m.step setting .line { c with rest := taken ++ inside } =
        .more m' { c' with rest := inside } := by
      refine step_narrows (u := ')' :: d.rest) (by simp [Lexeme.isStop]) hne ?_
      simp only [Cursor.before, ← hrest, ← hinside]
      exact hs
    exact (run_of_more hnear).trans hr
  | case2 m c e' c' hs =>
    cases h
    obtain ⟨hstack, hf, hmet⟩ := step_done hs
    obtain ⟨t, ht, rfl⟩ | ⟨-, hend, -⟩ := hmet
    · refine ⟨[], rest_of_parenClose ht, { c with rest := [] }, run_of_done ?_, rfl⟩
      have hnone : Goal.line.terminator.run [] = none := rfl
      have hallow : Goal.line.allowEnd = true := rfl
      simp [step, hstack, hnone, hallow, conclude, hf]
    · cases hend
  | case3 m c fault c' hs => cases h

end Machine

/-- An expression in parentheses is the expression that stands between them. -/
theorem Read.expr_inside {setting : Setting} {c d : Cursor} {e : Expr}
    (h : Read.expr setting .parens c = .ok e d) :
    ∃ inside, c.rest = inside ++ ')' :: d.rest ∧
      ∃ b, Expr.ofText setting inside = .ok e b ∧ b.rest = [] := by
  unfold Read.expr at h
  split at h
  · cases h
  · rename_i hlimit
    obtain ⟨inside, hinside, b, hr, hb⟩ := Machine.run_narrows h
    have hlimit : 0 ≤ setting.limit := by
      change ¬ setting.limit < 0 at hlimit
      omega
    refine ⟨inside, hinside, ?_⟩
    rw [Expr.ofText_eq_run hlimit]
    have hm : Machine.Moved .blind ⟨{ start := c.pos }, []⟩ ⟨{ start := 0 }, []⟩ :=
      ⟨⟨rfl, rfl, rfl⟩, .nil⟩
    obtain ⟨d', hr', hd'⟩ := Machine.run_elsewhere
      (c := { c.note "expression" with rest := inside })
      (d := (Cursor.ofText inside).note "expression") hm rfl hr
    exact ⟨d', hr', hd'.trans hb⟩

end Gamebook
