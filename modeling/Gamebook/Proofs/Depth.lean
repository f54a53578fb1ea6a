import Mathlib.Data.List.TakeWhile
import Gamebook.Proofs.Extent

/-!
The nesting limit. A limit only refuses: what is read under one is read alike under a higher one,
and so is every fault but the one of depth. That fault stands behind the text that opens one
level too many, and up to there, as in every expression that is read, nothing stands deeper in
parentheses than the limit allows, but for the blanks in those of a call without arguments.
-/
namespace Gamebook

open Grammar

/-- The text that opens a level, before what the level begins with: a parenthesis, or the name
and the parenthesis of a call that has arguments, and the blanks behind it. -/
inductive Opening : List Char → List Char → Prop
  | group (rest : List Char) : Opening ['('] rest
  | call {name gap rest : List Char} (hname : Made isWordChar name)
      (hgap : ∀ x ∈ gap, isBlank x = true) (hrest : Free (fun x => isBlank x || x == ')') rest) :
      Opening (name ++ '(' :: gap) rest

theorem Opening.ne_nil {opening rest : List Char} (h : Opening opening rest) : opening ≠ [] := by
  cases h <;> simp

namespace Scan

/-- Only blanks and closing parentheses may stand deeper than that. -/
def Within (room : Int) (s : Scan) (x : Char) : Prop :=
  isBlank x = false → x ≠ ')' → s.level ≤ room

/-- Nothing but blanks stands under more open parentheses than that. -/
def Shallow (room : Int) (text : List Char) : Prop :=
  ∀ p x q, text = p ++ x :: q → ((under 0).after p).Within room x

theorem allows_within (room : Int) {n : Nat} (hn : n ≤ room) : Allows (Within room) n where
  bare _ _ _ _ := hn
  quoted _ _ _ _ _ := hn
  blank x hx hblank := by simp [hx] at hblank
  close _ hclose := absurd rfl hclose
  inner _ := ⟨fun _ _ => hn, fun _ hclose => absurd rfl hclose⟩

end Scan

def Fault.isDeep : Fault → Bool
  | refused .tooDeep _ => true
  | _ => false

theorem Fault.eq_tooDeep {fault : Fault} (h : fault.isDeep = true) :
    ∃ place, fault = .refused .tooDeep place := by
  unfold isDeep at h
  split at h
  · exact ⟨_, rfl⟩
  · cases h

/-- A step that opens no level, and does not complain of depth. -/
def Step.IsFlat (n : Nat) : Step → Prop
  | more m _ => m.stack.length ≤ n
  | done .. => True
  | stop fault _ => fault.isDeep = false

/-- What was found is no fault of depth, and a level is opened by a text that does so. -/
def Found.Opens (c : Cursor) : Found → Prop
  | level _ d => ∃ opening, c.rest = opening ++ d.rest ∧ Opening opening d.rest
  | fault f _ => f.isDeep = false
  | _ => True

namespace Found

theorem numeral_opens (value : Except Nat Expr) (c d : Cursor) : (numeral value d).Opens c := by
  cases value <;> trivial

theorem word_opens (make : String → Expr) (chainable : Bool) (wanted : Wanted) (c d : Cursor) :
    (word make chainable wanted d).Opens c := by
  unfold word
  split <;> trivial

theorem subject_opens (make : String → Bool → Expr) (wanted : Wanted) (c d : Cursor) :
    (subject make wanted d).Opens c := by
  unfold subject
  split <;> exact word_opens ..

theorem ofLexeme_opens {c : Cursor} {l : Lexeme} {t : Match}
    (h : Lexeme.next? true c.rest = some (l, t)) (here : Nat) :
    (ofLexeme here ((c.past t).hold t.text) l).Opens c := by
  obtain ⟨p, hp⟩ := Lexeme.next?_run h
  have hrest : t.text ++ t.rest = c.rest := Pattern.run_split hp
  cases l with
  | arithmetic op =>
    simp only [ofLexeme]
    split <;> trivial
  | callOpen name =>
    obtain ⟨w, -, hw, -, ht⟩ := Lexeme.next?_madeOf h
    simp only [ofLexeme]
    split
    · trivial
    · rename_i hnone
      have hskip : (((c.past t).hold t.text).skip blanks).rest = t.rest.dropWhile isBlank :=
        Cursor.rest_skip_blanks _
      rw [hskip] at hnone
      refine ⟨w ++ '(' :: t.rest.takeWhile isBlank, ?_, ?_⟩
      · rw [hskip]
        simp [← hrest, ht]
      · rw [hskip]
        refine .call hw (fun x => List.mem_takeWhile_imp) fun x hx => ?_
        have hblank : isBlank x = false := free_dropWhile isBlank _ x hx
        obtain ⟨rest, hcons⟩ := List.head?_eq_some_iff.1 hx
        have hclose : (x == ')') = false := by
          simpa [hcons, parenClose, Pattern.char, Pattern.run] using hnone
        simp [hblank, hclose]
  | parenOpen =>
    have ht : t.text = ['('] := Lexeme.next?_marked h
    exact ⟨['('], by simp [← hrest, ht], .group _⟩
  | quote =>
    simp only [ofLexeme]
    split <;> trivial
  | range | percent | number => exact numeral_opens ..
  | hasItem | atNode => exact subject_opens ..
  | varName => exact word_opens ..
  | _ => trivial

end Found

namespace Machine

variable {registry : Option Registry} {setting : Setting} {goal : Goal} {m m' : Machine}
  {c d : Cursor}

/-- An operand is expected at `c`, and a level is opened up to `d`. -/
def Opens (m : Machine) (c d : Cursor) : Prop :=
  m.level.condition.operand = none ∧ ∃ opening, c.rest = opening ++ d.rest ∧ Opening opening d.rest

/-- A limit is not looked at, or only as a level begins: that of the next argument, which takes
the place of one that has ended, or one that is opened. -/
inductive Limited (registry : Option Registry) (goal : Goal) (m : Machine) (c : Cursor) :
    (Int → Step) → Prop
  | free {s : Step} (h : s.IsFlat m.stack.length) : Limited registry goal m c fun _ => s
  | next {outer : Machine} {frame : Frame} {d : Cursor} (h : outer.stack.length < m.stack.length) :
      Limited registry goal m c fun limit => outer.descend { registry, limit } goal frame d
  | deeper {frame : Frame} {d : Cursor} (h : m.Opens c d) :
      Limited registry goal m c fun limit => m.descend { registry, limit } goal frame d

theorem finishCall_flat {n : Nat} (hm : m.stack.length ≤ n) (name : String) (place : Nat)
    (args : List Expr) : (m.finishCall setting name place args c).IsFlat n := by
  unfold finishCall
  split
  · rename_i complaint h
    obtain ⟨registry, -, h⟩ := Option.bind_eq_some_iff.1 h
    unfold Registry.complaint? at h
    split at h
    · cases h
      rfl
    · cases h
    · split at h
      · cases h
      · cases h
        rfl
  · exact hm

theorem isDeep_finish {l : Level} {here : Nat} {fault : Fault} (h : l.finish here = .error fault) :
    fault.isDeep = false := by
  unfold Level.finish at h
  split at h
  · split at h <;> cases h <;> rfl
  · split at h <;> cases h
    rfl

theorem conclude_flat (here n : Nat) : (m.conclude here c).IsFlat n := by
  unfold conclude
  split
  · trivial
  · rename_i h
    exact isDeep_finish h

theorem operatorStep_flat (o : Operand) (here : Nat) (l : Lexeme) :
    (m.operatorStep o here c l).IsFlat m.stack.length := by
  cases l with
  | property name =>
    simp only [operatorStep]
    split
    · exact Nat.le_refl _
    · rfl
  | arithmetic | comparison | logical | comma | blanks => exact Nat.le_refl _
  | _ => rfl

theorem finishCall_limited (outer : Machine) (hle : outer.stack.length ≤ m.stack.length)
    (name : String) (place : Nat) (args : List Expr) (d : Cursor) : Limited registry goal m c
      fun limit => outer.finishCall { registry, limit } name place args d := by
  -- the limit is no part of what a call is checked against
  change Limited registry goal m c fun _ => outer.finishCall { registry } name place args d
  exact .free (finishCall_flat hle name place args)

theorem accept_limited (ho : m.level.condition.operand = none) {found : Found}
    (h : found.Opens c) (here : Nat) :
    Limited registry goal m c fun limit => m.accept { registry, limit } goal here found := by
  cases found with
  | operand | sign | nothing => exact .free (Nat.le_refl _)
  | level frame d => exact .deeper ⟨ho, h⟩
  | emptyCall name place d => exact finishCall_limited m (Nat.le_refl _) name place [] d
  | comma d =>
    simp only [accept]
    refine .free ?_
    split <;> rfl
  | fault => exact .free h

theorem lexemeStep_limited (m : Machine) (c : Cursor) :
    Limited registry goal m c fun limit => m.lexemeStep { registry, limit } goal c := by
  have hnone : (refuse (if c.rest.isEmpty then .unexpectedEnd else .unexpectedToken) c.pos
      c.release).IsFlat m.stack.length := by
    split <;> rfl
  cases ho : m.level.condition.operand with
  | none =>
    cases hn : Lexeme.next? true c.rest with
    | none =>
      simp only [lexemeStep, ho, hn]
      exact .free hnone
    | some found =>
      obtain ⟨l, t⟩ := found
      simp only [lexemeStep, ho, hn, operandStep_eq]
      exact accept_limited ho (Found.ofLexeme_opens hn _) _
  | some o =>
    cases hn : Lexeme.next? false c.rest with
    | none =>
      simp only [lexemeStep, ho, hn]
      exact .free hnone
    | some found =>
      obtain ⟨l, t⟩ := found
      simp only [lexemeStep, ho, hn]
      exact .free (operatorStep_flat ..)

/-- A step looks at the limit in no other way. -/
theorem step_limited (registry : Option Registry) (goal : Goal) (m : Machine) (c : Cursor) :
    Limited registry goal m c fun limit => m.step { registry, limit } goal c := by
  cases hs : m.stack with
  | nil =>
    cases ht : goal.terminator.run c.rest with
    | some t =>
      simp only [step, hs, ht]
      exact .free (conclude_flat ..)
    | none =>
      cases hend : goal.allowEnd && c.rest.isEmpty with
      | true =>
        simp only [step, hs, ht, hend, if_true]
        exact .free (conclude_flat ..)
      | false =>
        simp only [step, hs, ht, hend]
        exact lexemeStep_limited m c
  | cons top stack =>
    obtain ⟨frame, outer⟩ := top
    have hlt : stack.length < m.stack.length := by simp [hs]
    cases frame with
    | group =>
      cases ht : parenClose.run c.rest with
      | none =>
        simp only [step, hs, ht]
        exact lexemeStep_limited m c
      | some t =>
        cases hf : m.level.finish c.pos with
        | ok e =>
          simp only [step, hs, ht, hf]
          exact .free (Nat.le_of_lt hlt)
        | error fault =>
          simp only [step, hs, ht, hf]
          exact .free (isDeep_finish hf)
    | call name place args =>
      cases ht : argumentEnd.run c.rest with
      | none =>
        simp only [step, hs, ht]
        exact lexemeStep_limited m c
      | some t =>
        cases hf : m.level.finish c.pos with
        | ok e =>
          simp only [step, hs, ht, hf]
          by_cases htext : t.text = [')']
          · simp only [htext, if_true]
            exact finishCall_limited ⟨outer, stack⟩ (Nat.le_of_lt hlt) ..
          · simp only [htext, if_false]
            exact .next hlt
        | error fault =>
          simp only [step, hs, ht, hf]
          exact .free (isDeep_finish hf)

variable {limit limit' : Int} {f : Int → Step} {fault : Fault} {frame : Frame}

theorem descend_more (h : m.descend setting goal frame c = .more m' d) :
    goal.depth + m'.stack.length ≤ setting.limit := by
  unfold descend at h
  split at h
  · cases h
  · cases h
    simp only [List.length_cons]
    omega

theorem descend_stop (h : m.descend setting goal frame c = .stop fault d) :
    setting.limit < goal.depth + (m.stack.length + 1 : Nat) ∧ fault = .refused .tooDeep c.pos ∧
      d = c.note "expression" := by
  unfold descend at h
  split at h
  · rename_i hlimit
    cases h
    exact ⟨hlimit, rfl, rfl⟩
  · cases h

theorem descend_mono (hl : limit ≤ limit')
    (hdeep : ∀ fault d', m.descend { registry, limit } goal frame d = .stop fault d' →
      fault.isDeep = false) :
    m.descend { registry, limit := limit' } goal frame d =
      m.descend { registry, limit } goal frame d := by
  by_cases hlimit : limit < goal.depth + (m.stack.length + 1 : Nat)
  · cases hdeep (.refused .tooDeep d.pos) (d.note "expression") (if_pos hlimit)
  · have hlimit' : ¬ limit' < goal.depth + (m.stack.length + 1 : Nat) := by omega
    rw [descend, descend, if_neg hlimit, if_neg hlimit']

namespace Limited

variable (h : Limited registry goal m c f)
include h

/-- A higher limit makes no difference where depth is not complained of. -/
theorem mono (hl : limit ≤ limit') (hdeep : ∀ fault d, f limit = .stop fault d →
    fault.isDeep = false) : f limit' = f limit := by
  cases h with
  | free => rfl
  | next | deeper => exact descend_mono hl hdeep

/-- Levels stay within the limit. -/
theorem room (hm : goal.depth + m.stack.length ≤ limit) (hs : f limit = .more m' d) :
    goal.depth + m'.stack.length ≤ limit := by
  cases h with
  | free h =>
    cases hs
    have hle : m'.stack.length ≤ m.stack.length := h
    omega
  | next | deeper => exact descend_more hs

/-- Depth is complained of where one more level than the limit allows is opened. -/
theorem deep (hm : goal.depth + m.stack.length ≤ limit) (hs : f limit = .stop fault d)
    (hdeep : fault.isDeep = true) : goal.depth + m.stack.length = limit ∧
      fault = .refused .tooDeep d.pos ∧ m.Opens c d := by
  cases h with
  | free h =>
    cases hs
    simp [Step.IsFlat, hdeep] at h
  | next hlt =>
    -- the level that has ended stood as deep, so the limit allows it
    obtain ⟨hlimit, -, -⟩ := descend_stop hs
    simp only at hlimit
    omega
  | deeper hopens =>
    obtain ⟨hlimit, rfl, rfl⟩ := descend_stop hs
    simp only at hlimit
    exact ⟨by omega, rfl, hopens⟩

end Limited

/-- A run is a way to a state that ends it. -/
theorem run_leads (setting : Setting) (goal : Goal) (m : Machine) (c : Cursor) :
    ∃ m' c', Leads setting goal m c m' c' ∧
      ((∃ e d, m'.step setting goal c' = .done e d ∧ m.run setting goal c = .ok e d) ∨
        ∃ fault d, m'.step setting goal c' = .stop fault d ∧
          m.run setting goal c = .error fault d) := by
  fun_induction run setting goal m c with
  | case1 m c m' c' hs ih =>
    obtain ⟨m'', c'', hl, hend⟩ := ih
    exact ⟨m'', c'', .step hs hl, hend⟩
  | case2 m c e d hs => exact ⟨m, c, .refl m c, .inl ⟨e, d, hs, rfl⟩⟩
  | case3 m c fault d hs => exact ⟨m, c, .refl m c, .inr ⟨fault, d, hs, rfl⟩⟩

theorem run_mono (hl : limit ≤ limit') (m : Machine) (c : Cursor)
    (hdeep : ∀ fault d, m.run { registry, limit } goal c = .error fault d →
      fault.isDeep = false) :
    m.run { registry, limit := limit' } goal c = m.run { registry, limit } goal c := by
  fun_induction run { registry, limit } goal m c with
  | case1 m c m' c' hs ih =>
    have hs' := (step_limited registry goal m c).mono hl (by simp [hs])
    rw [run_of_more (hs'.trans hs), ih hdeep]
  | case2 m c e d hs =>
    have hs' := (step_limited registry goal m c).mono hl (by simp [hs])
    rw [run_of_done (hs'.trans hs)]
  | case3 m c fault d hs =>
    have hs' := (step_limited registry goal m c).mono hl
      (by simp [hs, hdeep fault d rfl])
    rw [run_of_stop (hs'.trans hs)]

/-- On its way the machine stays within the limit, and so does the text that it takes. -/
theorem Leads.within {c' : Cursor} (h : Leads { registry, limit } goal m c m' c')
    (hm : goal.depth + m.stack.length ≤ limit) :
    goal.depth + m'.stack.length ≤ limit ∧ c.Reaches c' ∧
      c.Walks (Scan.Within (limit - goal.depth)) m.stack.length c' m'.stack.length := by
  induction h with
  | refl m c => exact ⟨hm, .refl c, .refl c _⟩
  | @step m _ _ c _ _ hs _ ih =>
    obtain ⟨hroom, hreach, hwalk⟩ := ih ((step_limited registry goal m c).room hm hs)
    have hfirst := step_reaches { registry, limit } goal m c
    have hallows : Scan.Allows (Scan.Within (limit - goal.depth)) m.stack.length :=
      Scan.allows_within _ (by omega)
    have hcomma : (Scan.under 0).Within (limit - goal.depth) ',' := fun _ _ => by
      have hlevel : (Scan.under 0).level = 0 := rfl
      omega
    have hwalks : (m.step { registry, limit } goal c).Walks _ c m.stack.length :=
      step_walks hallows (fun _ _ _ => hcomma) _ c
    rw [hs] at hfirst hwalks
    exact ⟨hroom, hfirst.trans hreach, Cursor.Walks.trans hwalks hwalk⟩

/-- From a fresh start the machine takes a shallow text, with a level for each parenthesis that is
open. -/
theorem Leads.shallow {l : Level} (h : Leads { registry, limit } goal ⟨l, []⟩ c m d)
    (hroom : goal.depth ≤ limit) :
    goal.depth + m.stack.length ≤ limit ∧
      ∃ text, c.rest = text ++ d.rest ∧ d.pos = c.pos + text.length ∧
        (Scan.under 0).after text = .under m.stack.length ∧
        Scan.Shallow (limit - goal.depth) text := by
  obtain ⟨hm, hreach, text, htext, hwalk⟩ := h.within (by simpa using hroom)
  exact ⟨hm, text, htext, hreach.pos_eq htext, hwalk.after_eq, fun p x q => hwalk.ok_of_eq⟩

end Machine

namespace Read

variable {registry : Option Registry} {limit limit' : Int} {setting : Setting} {goal : Goal}
  {c d : Cursor}

/-- Reading comes to expect an operand before the text. -/
def Awaits (setting : Setting) (goal : Goal) (c : Cursor) (text : List Char) : Prop :=
  ∃ m d, Machine.Leads setting goal { level := { start := c.pos } } (c.note "expression") m d ∧
    m.level.condition.operand = none ∧ d.rest = text

/-- Behind the text `before` one level more is opened than the limit allows, for the first time. -/
structure Exceeds (setting : Setting) (goal : Goal) (c : Cursor)
    (before opening rest : List Char) : Prop where
  text : c.rest = before ++ (opening ++ rest)
  awaits : Awaits setting goal c (opening ++ rest)
  opens : Opening opening rest
  /-- As many parentheses are open as the limit allows. -/
  full : (Scan.under 0).after before = ⟨.plain, setting.limit - goal.depth⟩
  shallow : Scan.Shallow (setting.limit - goal.depth) before

theorem expr_mono (hl : limit ≤ limit') (c : Cursor)
    (hdeep : ∀ fault d, Read.expr { registry, limit } goal c = .error fault d →
      fault.isDeep = false) :
    Read.expr { registry, limit := limit' } goal c = Read.expr { registry, limit } goal c := by
  by_cases hlimit : limit < goal.depth
  · cases hdeep (.refused .tooDeep c.pos) (c.note "expression") (if_pos hlimit)
  · have hlimit' : ¬ limit' < goal.depth := by omega
    simp only [Read.expr, hlimit, hlimit', if_false] at hdeep ⊢
    exact Machine.run_mono hl _ _ hdeep

theorem expr_deep {fault : Fault} (h : Read.expr { registry, limit } goal c = .error fault d)
    (hdeep : fault.isDeep = true) :
    limit < goal.depth ∧ fault = .refused .tooDeep c.pos ∨
      goal.depth ≤ limit ∧
        ∃ before opening rest, Exceeds { registry, limit } goal c before opening rest ∧
          fault = .refused .tooDeep (c.pos + (before ++ opening).length) := by
  unfold Read.expr at h
  split at h
  · rename_i hlimit
    cases h
    exact .inl ⟨hlimit, rfl⟩
  · rename_i hlimit
    have hroom : goal.depth ≤ limit := by simpa using hlimit
    obtain ⟨m, b, hl, ⟨e, d', -, hrun⟩ | ⟨fault', d', hs, hrun⟩⟩ :=
      Machine.run_leads { registry, limit } goal { level := { start := c.pos } }
        (c.note "expression")
    · rw [hrun] at h
      cases h
    · rw [hrun] at h
      cases h
      obtain ⟨hm, before, hbefore, hpos, hafter, hshallow⟩ := hl.shallow hroom
      obtain ⟨hfull, rfl, ho, opening, hopening, hopens⟩ :=
        (Machine.step_limited registry goal m b).deep hm hs hdeep
      have hreach : b.Reaches d := by
        have hstep := Machine.step_reaches { registry, limit } goal m b
        rwa [hs] at hstep
      refine .inr ⟨hroom, before, opening, d.rest,
        ⟨hopening ▸ hbefore, ⟨m, b, hl, ho, hopening⟩, hopens, ?_, hshallow⟩, ?_⟩
      · rw [hafter]
        simp only [Scan.under, Scan.mk.injEq, true_and]
        omega
      · have hplace := hreach.pos_eq hopening
        have hpos : b.pos = c.pos + before.length := hpos
        simp only [List.length_append, Fault.refused.injEq, true_and]
        omega

/-- An expression that is read stands within the limit. -/
theorem expr_shallow {e : Expr} (h : Read.expr { registry, limit } goal c = .ok e d) :
    goal.depth ≤ limit ∧ ∃ text b, c.rest = text ++ b.rest ∧ b.pos = c.pos + text.length ∧
      goal.Met b d ∧ Scan.Shallow (limit - goal.depth) text := by
  unfold Read.expr at h
  split at h
  · cases h
  · rename_i hlimit
    have hroom : goal.depth ≤ limit := by simpa using hlimit
    obtain ⟨m, b, hl, ⟨e', d', hs, hrun⟩ | ⟨fault', d', -, hrun⟩⟩ :=
      Machine.run_leads { registry, limit } goal { level := { start := c.pos } }
        (c.note "expression")
    · rw [hrun] at h
      cases h
      obtain ⟨-, text, htext, hpos, -, hshallow⟩ := hl.shallow hroom
      exact ⟨hroom, text, b, htext, hpos, (Machine.step_done hs).2.2, hshallow⟩
    · rw [hrun] at h
      cases h

end Read

/-- No other complaint has this text. -/
theorem Complaint.eq_tooDeep {complaint : Complaint}
    (h : complaint.message = "Expression nested too deeply") : complaint = .tooDeep := by
  have hlist := congrArg String.toList h
  unfold message at hlist
  cases complaint with
  | tooDeep => rfl
  | expecting | unknownFunction | wrongArity | unexpectedAction =>
    simp only [toString, String.toList_append] at hlist
    simp at hlist
  | _ => exact absurd hlist (by decide)

namespace Probe

variable {registry : Option Registry} {limit : Int} {setting : Setting} {goal : Goal} {p : Probe}

theorem isBeforeNothing_of_rest (h : p.rest ≠ []) : p.isBeforeNothing = false := by
  have hsource : p.source ≠ [] := by
    intro hnil
    simp [Probe.rest, hnil] at h
  simp [isBeforeNothing, hsource]

/-- A complaint is handed on, but that before nothing there is no end. -/
theorem expr_of_refused {complaint : Complaint} {place : Nat} {c : Cursor}
    (h : Read.expr setting { goal with allowEnd := goal.allowEnd && !p.isBeforeNothing }
      ⟨p.start, p.rest, p.held, []⟩ = .error (.refused complaint place) c) :
    ∃ told, (told = complaint ∨ told = .unexpectedToken ∧ complaint = .unexpectedEnd) ∧
      (p.expr setting goal).1 =
        .error (.complaint ⟨told.message, p.source, p.offset place, p.filename⟩) := by
  simp only [Probe.expr, h]
  split
  · rename_i hr
    cases hr
  · rename_i hr
    cases hr
  · rename_i hr
    cases hr
    exact ⟨_, .inl rfl, rfl⟩
  · rename_i complaint' place' c' hne hr
    cases hr
    refine ⟨_, ?_, rfl⟩
    split
    · rename_i hend
      simp only [Bool.and_eq_true, decide_eq_true_eq] at hend
      exact .inr ⟨rfl, hend.1⟩
    · exact .inl rfl

theorem expr_eq_tooDeep {d : Diagnostic} (h : (p.expr setting goal).1 = .error (.complaint d))
    (hd : d.message = "Expression nested too deeply") :
    ∃ place c, Read.expr setting { goal with allowEnd := goal.allowEnd && !p.isBeforeNothing }
      ⟨p.start, p.rest, p.held, []⟩ = .error (.refused .tooDeep place) c ∧
      d.position = p.offset place := by
  cases hr : Read.expr setting { goal with allowEnd := goal.allowEnd && !p.isBeforeNothing }
      ⟨p.start, p.rest, p.held, []⟩ with
  | ok e c => simp [Probe.expr, hr] at h
  | error fault c =>
    cases fault with
    | longNumeral digits => simp [Probe.expr, hr] at h
    | refused complaint place =>
      obtain ⟨told, htold, hexpr⟩ := expr_of_refused hr
      obtain rfl := ProbeError.complaint.inj (Except.error.inj (hexpr.symm.trans h))
      obtain rfl := Complaint.eq_tooDeep hd
      rcases htold with rfl | ⟨htold, -⟩
      · exact ⟨place, c, rfl, rfl⟩
      · cases htold

/-- A limit only refuses, and exactly where it is exceeded. A higher one changes nothing but a
complaint of depth. That complaint stands behind the first text that opens a level too many, and
an expression that is read has no such text. -/
theorem expr_nesting_limit (p : Probe) (goal : Goal) (registry : Option Registry) (limit : Int) :
    ((∀ d, (p.expr { registry, limit } goal).1 = .error (.complaint d) →
        d.message ≠ "Expression nested too deeply") →
      ∀ limit', limit ≤ limit' →
        p.expr { registry, limit := limit' } goal = p.expr { registry, limit } goal) ∧
    (∀ d, (p.expr { registry, limit } goal).1 = .error (.complaint d) →
      d.message = "Expression nested too deeply" →
      limit < goal.depth ∧ d.position = p.pos ∨
      goal.depth ≤ limit ∧ ∃ before opening rest,
        Read.Exceeds { registry, limit } goal ⟨p.start, p.rest, p.held, []⟩ before opening rest ∧
          d.position = p.start + (before ++ opening).length) ∧
    ∀ e pos held, p.expr { registry, limit } goal = (.ok e, pos, held) →
      goal.depth ≤ limit ∧ ∃ text b c, p.rest = text ++ b.rest ∧ b.pos = p.start + text.length ∧
        goal.Met b c ∧ pos = p.offset c.pos ∧ Scan.Shallow (limit - goal.depth) text := by
  refine ⟨fun hnot limit' hl => ?_, fun d hd hdeep => ?_, fun e pos held h => ?_⟩
  · have hdeep : ∀ fault c, Read.expr { registry, limit }
        { goal with allowEnd := goal.allowEnd && !p.isBeforeNothing }
        ⟨p.start, p.rest, p.held, []⟩ = .error fault c → fault.isDeep = false := by
      intro fault c hr
      rw [← Bool.not_eq_true]
      intro hfault
      obtain ⟨place, rfl⟩ := Fault.eq_tooDeep hfault
      obtain ⟨told, rfl | ⟨-, htold⟩, hexpr⟩ := expr_of_refused hr
      · exact hnot _ hexpr rfl
      · cases htold
    simp only [Probe.expr, Read.expr_mono hl _ hdeep]
  · obtain ⟨place, c, hr, hposition⟩ := expr_eq_tooDeep hd hdeep
    rcases Read.expr_deep hr rfl with
      ⟨hlimit, hplace⟩ | ⟨hroom, before, opening, rest, hex, hplace⟩
    · cases hplace
      exact .inl ⟨hlimit, by simp [hposition, offset]⟩
    · -- there is text ahead, so the end is looked for as it was asked for
      have hlen : 0 < opening.length := List.length_pos_of_ne_nil hex.opens.ne_nil
      have hrest : p.rest ≠ [] := by
        rw [show p.rest = before ++ (opening ++ rest) from hex.text]
        simp [hex.opens.ne_nil]
      simp only [isBeforeNothing_of_rest hrest, Bool.not_false, Bool.and_true] at hex
      refine .inr ⟨hroom, before, opening, rest, hex, ?_⟩
      cases hplace
      rw [hposition, offset, if_neg (by simp only [List.length_append]; omega)]
      simp
  · obtain ⟨c, hr, rfl, -⟩ := expr_eq_ok.1 h
    obtain ⟨hroom, text, b, htext, hpos, hmet, hshallow⟩ := Read.expr_shallow hr
    refine ⟨hroom, text, b, c, htext, hpos, hmet.imp_right ?_, rfl, hshallow⟩
    rintro ⟨hnone, hend, hrest⟩
    simp only [Bool.and_eq_true] at hend
    exact ⟨hnone, hend.1, hrest⟩

/-- The parentheses of the first call are empty, those of the second one, with the blank in them,
are too many for no level at all, and two levels are enough. -/
theorem expr_nesting_limit_arguments :
    let p : Probe := { source := "f( ) + g( (1), 2)".toList, filename := "" }
    (∃ d before opening rest, (p.expr { limit := 0 } .line).1 = .error (.complaint d) ∧
      d.message = "Expression nested too deeply" ∧ d.position = 10 ∧
      Read.Exceeds { limit := 0 } .line ⟨p.start, p.rest, p.held, []⟩ before opening rest ∧
      d.position = p.start + (before ++ opening).length) ∧
    (p.expr { limit := 2 } .line).1.isOk = true ∧
    ∀ limit, 2 ≤ limit → p.expr { limit } .line = p.expr { limit := 2 } .line := by
  intro p
  have hdeep : (match (p.expr { limit := 0 } .line).1 with
      | .error (.complaint d) => d.message == "Expression nested too deeply" && d.position == 10
      | _ => false) = true := by decide +kernel
  have hok : (p.expr { limit := 2 } .line).1.isOk = true := by decide +kernel
  refine ⟨?_, hok, (expr_nesting_limit p .line none 2).1 fun d hd => ?_⟩
  · split at hdeep
    · rename_i d hd
      simp only [Bool.and_eq_true, beq_iff_eq] at hdeep
      obtain ⟨hmessage, hposition⟩ := hdeep
      rcases (expr_nesting_limit p .line none 0).2.1 d hd hmessage with
        ⟨hlimit, -⟩ | ⟨-, before, opening, rest, hex, hplace⟩
      · exact absurd hlimit (by decide)
      · exact ⟨d, before, opening, rest, hd, hmessage, hposition, hex, hplace⟩
    · cases hdeep
  · rw [hd] at hok
    cases hok

end Probe
end Gamebook
