import Gamebook.Proofs.Lookahead
import Gamebook.Proofs.Relocation

/-!
An expression is read without a look at what follows it. A text that ends at a
horizon, which is the end of the source or one character, is compared with the same
text where the source goes on behind the horizon. If the expression is read in the
near text then it is read in the far one too, with the same result.
-/
namespace Gamebook

/-- An argument of a call ends before the comma or the parenthesis. -/
def Goal.argument (depth : Int) : Goal :=
  { terminator := Grammar.argumentEnd, consume := false, depth }

/-- For an expression read to a goal, the near text ends with the first list, and the
far one goes on with the second. -/
inductive Horizon : Goal → List Char → List Char → Prop
  | line {near : List Char} (h : near = [] ∨ near = ['\n']) (v : List Char) :
    Horizon .line near ('\n' :: v)
  | inside {near : List Char} (h : near = [] ∨ near = ['\n']) (depth : Int) (v : List Char) :
    Horizon { Goal.parens with depth } near ('\n' :: v)
  | parens (depth : Int) (v : List Char) : Horizon { Goal.parens with depth } [')'] (')' :: v)
  | argument {x : Char} (h : x = ')' ∨ x = ',') (depth : Int) (v : List Char) :
    Horizon (.argument depth) [')'] (x :: v)

namespace Horizon

variable {goal : Goal} {near far : List Char}

theorem near_eq (h : Horizon goal near far) : near = [] ∨ near = ['\n'] ∨ near = [')'] := by
  cases h with
  | line h | inside h => rcases h with rfl | rfl <;> simp
  | parens | argument => simp

theorem near_stops (h : Horizon goal near far) : ∀ c ∈ near.head?, Lexeme.isStop c = true := by
  rcases h.near_eq with rfl | rfl | rfl <;> simp [Lexeme.isStop]

theorem far_stops (h : Horizon goal near far) : ∀ c ∈ far.head?, Lexeme.isStop c = true := by
  cases h with
  | line | inside | parens => simp [Lexeme.isStop]
  | argument h => rcases h with rfl | rfl <;> simp [Lexeme.isStop]

/-- Beyond a parenthesis at the horizon the near text has no end for the goal. -/
theorem allowEnd_of_paren (h : Horizon goal near far) (hn : near = [')']) :
    goal.allowEnd = false := by
  cases h with
  | line h => rcases h with rfl | rfl <;> simp at hn
  | inside | parens | argument => rfl

theorem far_of_not_paren (h : Horizon goal near far) (hn : near ≠ [')']) :
    ∃ v, far = '\n' :: v := by
  cases h with
  | line _ v | inside _ _ v => exact ⟨v, rfl⟩
  | parens | argument => exact absurd rfl hn

theorem terminator_settles (h : Horizon goal near far) (c : Char) :
    goal.terminator.settles c = true := by
  cases h <;> rfl

end Horizon

namespace Cursor

/-- The cursor in a text that goes on. -/
def before (c : Cursor) (u : List Char) : Cursor := { c with rest := c.rest ++ u }

/-- The cursor at the end of its text, moved past the first character of what follows. -/
def beyond (c : Cursor) : List Char → Cursor
  | [] => c
  | _ :: v => { c with pos := c.pos + 1, rest := v }

variable (c : Cursor) (u : List Char)

@[simp] theorem rest_before : (c.before u).rest = c.rest ++ u := rfl
@[simp] theorem pos_before : (c.before u).pos = c.pos := rfl
@[simp] theorem note_before (subject : String) :
    (c.before u).note subject = (c.note subject).before u := rfl
@[simp] theorem hold_before (text : List Char) :
    (c.before u).hold text = (c.hold text).before u := rfl
@[simp] theorem release_before : (c.before u).release = c.release.before u := rfl
@[simp] theorem past_before (m : Match) :
    (c.before u).past (m.before u) = (c.past m).before u := rfl

@[simp] theorem advance_before (rest : List Char) :
    (c.before u).advance (rest ++ u) = (c.advance rest).before u := by
  simp only [advance, before, List.length_append, Nat.add_sub_add_right]

theorem skip_before {p : Pattern} (h : ∀ x ∈ u.head?, p.ignores x = true) :
    (c.before u).skip p = (c.skip p).before u := by
  simp only [skip, rest_before, Pattern.run_append h]
  cases p.run c.rest with
  | none => rfl
  | some m => rfl

end Cursor

/-- A string that is closed stays the same in a text that goes on. -/
theorem stringBody_append {s rest : List Char} (h : (stringBody s).2 = some rest)
    (u : List Char) : stringBody (s ++ u) = ((stringBody s).1, some (rest ++ u)) := by
  fun_induction stringBody s with
  | case1 => simp at h
  | case2 s =>
    cases h
    rfl
  | case3 => simp at h
  | case4 c s r ih => simp [stringBody, ih h, r]
  | case5 c s h₁ h₂ h₃ r ih =>
    have hb : c ≠ '\\' := by
      intro hb
      cases s with
      | nil => exact h₂ hb rfl
      | cons d s => exact h₃ d s hb rfl
    rw [List.cons_append, stringBody.eq_5 _ _ h₁ (fun h => absurd h hb) (fun _ _ h => absurd h hb)]
    simp [ih h, r]

/-- One character that is no quote does not close a string. -/
theorem stringBody_concat {s rest : List Char} {x : Char} (hx : x ≠ '"')
    (h : (stringBody (s ++ [x])).2 = some rest) :
    ∃ r, (stringBody s).2 = some r ∧ rest = r ++ [x] := by
  fun_induction stringBody s with
  | case1 =>
    exfalso
    unfold stringBody at h
    split at h <;> simp_all [stringBody]
  | case2 s =>
    cases h
    exact ⟨s, rfl, rfl⟩
  | case3 => simp [stringBody] at h
  | case4 c s r ih => exact ih h
  | case5 c s h₁ h₂ h₃ r ih =>
    have hb : c ≠ '\\' := by
      intro hb
      cases s with
      | nil => exact h₂ hb rfl
      | cons d s => exact h₃ d s hb rfl
    rw [List.cons_append, stringBody.eq_5 _ _ h₁ (fun h => absurd h hb)
      (fun _ _ h => absurd h hb)] at h
    exact ih h

/-- Cursors that stand at the same place before the horizon, or right behind it if that
can be. -/
inductive Cursor.Meets (crosses : Prop) (near far : List Char) : Cursor → Cursor → Prop
  | within (c : Cursor) : Cursor.Meets crosses near far (c.before near) (c.before far)
  | beyond (h : crosses) (c : Cursor) (hc : c.rest = []) :
    Cursor.Meets crosses near far (c.beyond near) (c.beyond far)

/-- What a step in the near text says about the same step in the far one. A near text
that is used up without reaching the goal is lost. -/
inductive Step.Extends (goal : Goal) (near far : List Char) : Step → Step → Prop
  | more (m : Machine) (c : Cursor) :
    Step.Extends goal near far (.more m (c.before near)) (.more m (c.before far))
  | done (e : Expr) {c d : Cursor} (h : Cursor.Meets (near = [')']) near far c d) :
    Step.Extends goal near far (.done e c) (.done e d)
  | lost {m : Machine} {c : Cursor} {s : Step} (h : c.rest = []) (hg : goal.allowEnd = false) :
    Step.Extends goal near far (.more m c) s
  | stop {fault : Fault} {c : Cursor} {s : Step} : Step.Extends goal near far (.stop fault c) s

namespace Machine

variable {setting : Setting} {goal : Goal} {near far : List Char} {m : Machine} {c : Cursor}

theorem skip_blanks_before (h : ∀ x ∈ near.head?, Lexeme.isStop x = true) :
    (c.before near).skip Grammar.blanks = (c.skip Grammar.blanks).before near := by
  refine c.skip_before near fun x hx => ?_
  have := h x hx
  simp only [Lexeme.isStop, Bool.or_eq_true, beq_iff_eq] at this
  rcases this with (rfl | rfl) | rfl <;> decide

theorem fillNumeral_extends (m : Machine) (value : Except Nat Expr) (c : Cursor) :
    Step.Extends goal near far (m.fillNumeral value (c.before near))
      (m.fillNumeral value (c.before far)) := by
  cases value with
  | ok e => exact .more _ c
  | error digits => exact .stop

theorem descend_extends (m : Machine) (frame : Frame) (c : Cursor) :
    Step.Extends goal near far (m.descend setting goal frame (c.before near))
      (m.descend setting goal frame (c.before far)) := by
  unfold descend
  split
  · exact .stop
  · exact .more _ (c.note "expression")

theorem finishCall_extends (m : Machine) (name : String) (place : Nat) (args : List Expr)
    (c : Cursor) :
    Step.Extends goal near far (m.finishCall setting name place args (c.before near))
      (m.finishCall setting name place args (c.before far)) := by
  unfold finishCall
  split
  · exact .stop
  · exact .more _ c

theorem word_ignores {x : Char} (h : Lexeme.isStop x = true) :
    Grammar.word.ignores x = true ∧ (Grammar.keyword "no").ignores x = true := by
  simp only [Lexeme.isStop, Bool.or_eq_true, beq_iff_eq] at h
  rcases h with (rfl | rfl) | rfl <;> decide

theorem fillWord_extends (h : Horizon goal near far) (m : Machine) (make : String → Expr)
    (chainable : Bool) (wanted : Wanted) (c : Cursor) :
    Step.Extends goal near far (m.fillWord make chainable wanted (c.before near))
      (m.fillWord make chainable wanted (c.before far)) := by
  have hn := Pattern.run_append (fun x hx => (word_ignores (h.near_stops x hx)).1) c.rest
  have hf := Pattern.run_append (fun x hx => (word_ignores (h.far_stops x hx)).1) c.rest
  simp only [fillWord, Cursor.rest_before, hn, hf]
  cases Grammar.word.run c.rest with
  | none => exact .stop
  | some w => exact .more _ (c.past w).release

theorem fillSubject_extends (h : Horizon goal near far) (m : Machine)
    (make : String → Bool → Expr) (wanted : Wanted) (c : Cursor) :
    Step.Extends goal near far (m.fillSubject make wanted (c.before near))
      (m.fillSubject make wanted (c.before far)) := by
  have hn := Pattern.run_append (fun x hx => (word_ignores (h.near_stops x hx)).2) c.rest
  have hf := Pattern.run_append (fun x hx => (word_ignores (h.far_stops x hx)).2) c.rest
  simp only [fillSubject, Cursor.rest_before, hn, hf]
  cases (Grammar.keyword "no").run c.rest with
  | none => exact fillWord_extends h ..
  | some n =>
    simp only [Option.map_some, Cursor.past_before, skip_blanks_before h.near_stops,
      skip_blanks_before h.far_stops]
    exact fillWord_extends h ..

/-- The content of a string at the horizon. -/
theorem stringBody_near (h : Horizon goal near far) {s rest : List Char}
    (hs : (stringBody (s ++ near)).2 = some rest) :
    ∃ r, rest = r ++ near ∧ stringBody (s ++ near) = ((stringBody s).1, some (r ++ near)) ∧
      stringBody (s ++ far) = ((stringBody s).1, some (r ++ far)) := by
  have hr : ∃ r, (stringBody s).2 = some r := by
    rcases h.near_eq with rfl | rfl | rfl
    · exact ⟨rest, by simpa using hs⟩
    · obtain ⟨r, hr, -⟩ := stringBody_concat (by decide) hs
      exact ⟨r, hr⟩
    · obtain ⟨r, hr, -⟩ := stringBody_concat (by decide) hs
      exact ⟨r, hr⟩
  obtain ⟨r, hr⟩ := hr
  have hn := stringBody_append hr near
  refine ⟨r, ?_, hn, stringBody_append hr far⟩
  rw [hn] at hs
  exact (Option.some.inj hs).symm

theorem callOpen_extends (h : Horizon goal near far) (m : Machine) (name : String) (place : Nat)
    (c : Cursor) :
    Step.Extends goal near far (m.operandStep setting goal place (c.before near) (.callOpen name))
      (m.operandStep setting goal place (c.before far) (.callOpen name)) := by
  simp only [operandStep, skip_blanks_before h.near_stops, skip_blanks_before h.far_stops,
    Cursor.rest_before]
  generalize c.skip Grammar.blanks = c
  cases hc : c.rest with
  | cons x r =>
    simp only [Grammar.parenClose, Pattern.char, List.cons_append, Pattern.run]
    by_cases hx : x == ')'
    · simp only [hx, if_true]
      exact finishCall_extends m name place [] (c.past ⟨[x], [], r⟩)
    · simp only [hx]
      exact descend_extends m _ c
  | nil =>
    -- the parenthesis at the horizon closes the call, and no text is left for the goal
    by_cases hn : near = [')']
    · subst hn
      simp only [Grammar.parenClose, Pattern.char, List.nil_append, Pattern.run, finishCall]
      simp only [beq_self_eq_true, if_true]
      split
      · exact .stop
      · exact .lost rfl (h.allowEnd_of_paren rfl)
    · obtain ⟨v, rfl⟩ := h.far_of_not_paren hn
      have hr : Grammar.parenClose.run ([] ++ near) = none := by
        rcases h.near_eq with rfl | rfl | rfl
        · rfl
        · rfl
        · exact absurd rfl hn
      have hf : Grammar.parenClose.run ([] ++ '\n' :: v) = none := rfl
      rw [hr, hf]
      exact descend_extends m _ c

theorem operandStep_extends (h : Horizon goal near far) (m : Machine) (place : Nat) (c : Cursor)
    (l : Lexeme) :
    Step.Extends goal near far (m.operandStep setting goal place (c.before near) l)
      (m.operandStep setting goal place (c.before far) l) := by
  cases l with
  | arithmetic op =>
    simp only [operandStep]
    split
    · exact .more _ c.release
    · exact .stop
  | comma =>
    simp only [operandStep]
    split <;> exact .stop
  | callOpen name => exact callOpen_extends h m name place c
  | quote =>
    simp only [operandStep, Cursor.rest_before]
    split
    · rename_i content rest hs
      obtain ⟨r, rfl, hn, hf⟩ := stringBody_near h (congrArg Prod.snd hs)
      rw [hn] at hs
      cases hs
      rw [hf]
      simp only [Cursor.advance_before]
      exact .more _ (c.advance r).release
    · exact .stop
  | comparison | logical | property => exact .stop
  | range | percent => exact fillNumeral_extends m _ c
  | number => exact fillNumeral_extends m _ c.release
  | parenOpen => exact descend_extends m _ c
  | hasItem | atNode => exact fillSubject_extends h ..
  | varName => exact fillWord_extends h ..
  | constant => exact .more _ c.release
  | negation | called | localName | globalName | blanks => exact .more _ c

theorem operatorStep_extends (m : Machine) (o : Operand) (place : Nat) (c : Cursor)
    (l : Lexeme) :
    Step.Extends goal near far (m.operatorStep o place (c.before near) l)
      (m.operatorStep o place (c.before far) l) := by
  cases l with
  | arithmetic | comparison | logical => exact .more _ c.release
  | comma | blanks => exact .more _ c
  | property =>
    simp only [operatorStep]
    split
    · exact .more _ c
    · exact .stop
  | _ => exact .stop

variable (setting)

/-- Reading a lexeme before the horizon. -/
theorem lexemeStep_extends (h : Horizon goal near far) (m : Machine) (hc : c.rest ≠ []) :
    Step.Extends goal near far (m.lexemeStep setting goal (c.before near))
      (m.lexemeStep setting goal (c.before far)) := by
  unfold lexemeStep
  cases m.level.condition.operand with
  | none =>
    simp only [Cursor.rest_before, Lexeme.next?_append h.near_stops true hc,
      Lexeme.next?_append h.far_stops true hc]
    cases Lexeme.next? true c.rest with
    | none => exact .stop
    | some x => exact operandStep_extends h m c.pos ((c.past x.2).hold x.2.text) x.1
  | some o =>
    simp only [Cursor.rest_before, Lexeme.next?_append h.near_stops false hc,
      Lexeme.next?_append h.far_stops false hc]
    cases Lexeme.next? false c.rest with
    | none => exact .stop
    | some x => exact operatorStep_extends m o c.pos ((c.past x.2).hold x.2.text) x.1

theorem conclude_extends {d d' : Cursor} (h : Cursor.Meets (near = [')']) near far d d')
    (m : Machine) (here : Nat) :
    Step.Extends goal near far (m.conclude here d) (m.conclude here d') := by
  unfold conclude
  split
  · exact .done _ h
  · exact .stop

/-- A step before the horizon. -/
theorem step_extends (h : Horizon goal near far) (m : Machine) (hc : c.rest ≠ []) :
    Step.Extends goal near far (m.step setting goal (c.before near))
      (m.step setting goal (c.before far)) := by
  have he : ∀ u, (c.rest ++ u).isEmpty = false := by
    intro u
    obtain ⟨x, r, hr⟩ := List.exists_cons_of_ne_nil hc
    simp [hr]
  have hl := lexemeStep_extends setting h m hc
  unfold step
  match m.stack with
  | [] =>
    have hn := Pattern.run_append_of_ne_nil (u := near) (fun x _ => h.terminator_settles x) hc
    have hf := Pattern.run_append_of_ne_nil (u := far) (fun x _ => h.terminator_settles x) hc
    simp only [Cursor.rest_before, hn, hf, he, Bool.and_false]
    cases goal.terminator.run c.rest with
    | none => exact hl
    | some t =>
      simp only [Option.map_some, Cursor.past_before, Cursor.pos_before]
      split
      · exact conclude_extends (.within _) m c.pos
      · exact conclude_extends (.within _) m c.pos
  | (.group, outer) :: stack =>
    have hn := Pattern.run_append_of_ne_nil (p := Grammar.parenClose) (u := near)
      (fun _ _ => rfl) hc
    have hf := Pattern.run_append_of_ne_nil (p := Grammar.parenClose) (u := far)
      (fun _ _ => rfl) hc
    simp only [Cursor.rest_before, hn, hf]
    cases Grammar.parenClose.run c.rest with
    | none => exact hl
    | some t =>
      simp only [Option.map_some, Cursor.past_before, Cursor.pos_before]
      split
      · exact .more _ _
      · exact .stop
  | (.call name place args, outer) :: stack =>
    have hn := Pattern.run_append_of_ne_nil (p := Grammar.argumentEnd) (u := near)
      (fun _ _ => rfl) hc
    have hf := Pattern.run_append_of_ne_nil (p := Grammar.argumentEnd) (u := far)
      (fun _ _ => rfl) hc
    simp only [Cursor.rest_before, hn, hf]
    cases Grammar.argumentEnd.run c.rest with
    | none => exact hl
    | some t =>
      simp only [Option.map_some, Cursor.past_before, Cursor.pos_before, Match.text_before]
      split
      · by_cases ht : t.text = [')']
        · simp only [ht, if_true]
          exact finishCall_extends ..
        · simp only [ht, if_false]
          exact descend_extends ..
      · exact .stop

/-- At the end of the source and at a line break there is nothing to read. -/
theorem lexemeStep_at_end (goal : Goal) (h : near = [] ∨ near = ['\n'] ∨ near = [')']) (hc : c.rest = near)
    (m : Machine) : ∃ fault d, m.lexemeStep setting goal c = .stop fault d := by
  have hb : ∀ b, Lexeme.next? b c.rest = none := by
    intro b
    rw [hc]
    rcases h with rfl | rfl | rfl
    · exact Lexeme.next?_nil b
    · exact Lexeme.next?_eq_none (.inl rfl) b []
    · exact Lexeme.next?_eq_none (.inr rfl) b []
  unfold lexemeStep
  split
  · rw [hb]
    exact ⟨_, _, rfl⟩
  · rw [hb]
    exact ⟨_, _, rfl⟩

theorem lexemeStep_extends_at_end (h : Horizon goal near far) (hc : c.rest = []) (m : Machine)
    (s : Step) : Step.Extends goal near far (m.lexemeStep setting goal (c.before near)) s := by
  have hr : (c.before near).rest = near := by simp [hc]
  obtain ⟨fault, d, hs⟩ := lexemeStep_at_end setting goal h.near_eq hr m
  rw [hs]
  exact .stop

/-- A step at the horizon inside an inner level. -/
theorem step_extends_inner (h : Horizon goal near far) {frame : Frame × Level}
    {stack : List (Frame × Level)} (hm : m.stack = frame :: stack) (hc : c.rest = [])
    (s : Step) : Step.Extends goal near far (m.step setting goal (c.before near)) s := by
  have hl := lexemeStep_extends_at_end setting h hc m s
  have hr : (c.before near).rest = near := by simp [hc]
  unfold step
  rw [hm, hr]
  by_cases hp : near = [')']
  · subst hp
    have ha := h.allowEnd_of_paren rfl
    match frame with
    | (.group, outer) =>
      have ht : Grammar.parenClose.run [')'] = some ⟨[')'], [], []⟩ := rfl
      simp only [ht]
      split
      · exact .lost rfl ha
      · exact .stop
    | (.call name place args, outer) =>
      have ht : Grammar.argumentEnd.run [')'] = some ⟨[')'], [], []⟩ := rfl
      simp only [ht, if_true]
      split
      · unfold finishCall
        split
        · exact .stop
        · exact .lost rfl ha
      · exact .stop
  · have hn : near = [] ∨ near = ['\n'] := by
      rcases h.near_eq with hn | hn | hn
      · exact .inl hn
      · exact .inr hn
      · exact absurd hn hp
    match frame with
    | (.group, outer) =>
      have ht : Grammar.parenClose.run near = none := by rcases hn with rfl | rfl <;> rfl
      simp only [ht]
      exact hl
    | (.call name place args, outer) =>
      have ht : Grammar.argumentEnd.run near = none := by rcases hn with rfl | rfl <;> rfl
      simp only [ht]
      exact hl

/-- A step at the horizon on the outermost level: here the goal is reached, or never. -/
theorem step_extends_outer (h : Horizon goal near far) (hm : m.stack = []) (hc : c.rest = []) :
    Step.Extends goal near far (m.step setting goal (c.before near))
      (m.step setting goal (c.before far)) := by
  have hl := lexemeStep_extends_at_end setting h hc m
  have hn : (c.before near).rest = near := by simp [hc]
  have hf : (c.before far).rest = far := by simp [hc]
  unfold step
  rw [hm, hn, hf]
  cases h with
  | line h v =>
    have hfar : Goal.line.terminator.run ('\n' :: v) = some ⟨['\n'], [], v⟩ := rfl
    rcases h with rfl | rfl
    · have hnear : Goal.line.terminator.run [] = none := rfl
      simp only [hnear, hfar]
      exact conclude_extends (.within c) m c.pos
    · have hnear : Goal.line.terminator.run ['\n'] = some ⟨['\n'], [], []⟩ := rfl
      simp only [hnear, hfar]
      exact conclude_extends (.within c) m c.pos
  | inside h depth v =>
    have hnear : Grammar.parenClose.run near = none := by rcases h with rfl | rfl <;> rfl
    simp only [Goal.parens, hnear, Bool.false_and]
    exact hl _
  | parens depth v =>
    have hnear : Grammar.parenClose.run [')'] = some ⟨[')'], [], []⟩ := rfl
    have hfar : Grammar.parenClose.run (')' :: v) = some ⟨[')'], [], v⟩ := rfl
    simp only [Goal.parens, hnear, hfar, if_true]
    exact conclude_extends (.beyond rfl c hc) m c.pos
  | argument h depth v =>
    have hnear : Grammar.argumentEnd.run [')'] = some ⟨[')'], [], []⟩ := rfl
    rcases h with rfl | rfl
    · have hfar : Grammar.argumentEnd.run (')' :: v) = some ⟨[')'], [], v⟩ := rfl
      simp only [Goal.argument, hnear, hfar]
      exact conclude_extends (.within c) m c.pos
    · have hfar : Grammar.argumentEnd.run (',' :: v) = some ⟨[','], [], v⟩ := rfl
      simp only [Goal.argument, hnear, hfar]
      exact conclude_extends (.within c) m c.pos

/-- Any step in the near text. -/
theorem step_extends_any (h : Horizon goal near far) (m : Machine) (c : Cursor) :
    Step.Extends goal near far (m.step setting goal (c.before near))
      (m.step setting goal (c.before far)) := by
  by_cases hc : c.rest = []
  · cases hm : m.stack with
    | nil => exact step_extends_outer setting h hm hc
    | cons frame stack => exact step_extends_inner setting h hm hc _
  · exact step_extends setting h m hc

/-- Where no text is left and the goal does not allow it, there is no result. -/
theorem run_lost (h : Horizon goal near far) (hg : goal.allowEnd = false) (hc : c.rest = [])
    (m : Machine) (e : Expr) (d : Cursor) : m.run setting goal c ≠ .ok e d := by
  have ht : goal.terminator.run [] = none := by cases h <;> rfl
  obtain ⟨fault, d', hl⟩ := lexemeStep_at_end setting goal (.inl rfl) hc m
  have hs : m.step setting goal c = .stop fault d' := by
    unfold step
    split
    · simp [hc, ht, hg, hl]
    · simp [hc, Grammar.parenClose, Pattern.char, Pattern.run, hl]
    · simp [hc, Grammar.argumentEnd, Pattern.run, hl]
  rw [run_of_stop hs]
  simp

variable {setting}

/-- An expression read in the near text is read in the far one. -/
theorem run_extends (h : Horizon goal near far) {m : Machine} {c d : Cursor} {e : Expr}
    (hr : m.run setting goal (c.before near) = .ok e d) :
    ∃ d', m.run setting goal (c.before far) = .ok e d' ∧
      Cursor.Meets (near = [')']) near far d d' := by
  generalize hx : c.before near = x at hr
  fun_induction Machine.run setting goal m x generalizing c with
  | case1 m x m' x' hstep ih =>
    subst hx
    have hs := step_extends_any setting h m c
    rw [hstep] at hs
    generalize hy : m.step setting goal (c.before far) = y at hs
    cases hs with
    | more m' c' =>
      rw [run_of_more hy]
      exact ih rfl hr
    | lost hc hg => exact absurd hr (run_lost setting h hg hc _ _ _)
  | case2 m x e' x' hstep =>
    subst hx
    cases hr
    have hs := step_extends_any setting h m c
    rw [hstep] at hs
    generalize hy : m.step setting goal (c.before far) = y at hs
    cases hs with
    | done _ hm => exact ⟨_, run_of_done hy, hm⟩
  | case3 m x fault x' hstep => simp at hr

end Machine

/-- Reading an expression does not depend on the text behind the horizon. -/
theorem Read.expr_extends {setting : Setting} {goal : Goal} {near far : List Char}
    (h : Horizon goal near far) {c d : Cursor} {e : Expr}
    (hr : Read.expr setting goal (c.before near) = .ok e d) :
    ∃ d', Read.expr setting goal (c.before far) = .ok e d' ∧
      Cursor.Meets (near = [')']) near far d d' := by
  unfold Read.expr at hr ⊢
  split at hr
  · simp at hr
  · rename_i hd
    simp only [Cursor.note_before, Cursor.pos_before] at hr ⊢
    rw [if_neg hd]
    exact Machine.run_extends h hr

end Gamebook
