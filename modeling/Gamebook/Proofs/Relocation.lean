import Mathlib.Data.List.Forall2
import Gamebook.Line.Read

/-!
Reading does not look at offsets: it only counts them up. Two cursors with the same
text ahead are therefore read alike, wherever they stand, whatever they hold, and
whatever was noted before. Places of the one are compared with places of the other
through a pair of views, so that one statement serves for places moved by a fixed
distance and for places that are left out of account.
-/
namespace Gamebook

/-- Two ways to look at places, one for each of two readings. Places that look the same
still do so after as many characters more. Notes may be compared too, or not. -/
structure Views where
  left : Nat → Nat
  right : Nat → Nat
  add {a b : Nat} (n : Nat) : left a = right b → left (a + n) = right (b + n)
  notes : Prop

namespace Views

/-- The second reading stands `k` characters further on. -/
def shift (k : Nat) : Views where
  left a := a + k
  right b := b
  add n h := by omega
  notes := True

/-- Places are not looked at. -/
def blind : Views where
  left _ := 0
  right _ := 0
  add _ _ := rfl
  notes := False

abbrev Same (v : Views) (a b : Nat) : Prop := v.left a = v.right b

end Views

/-- Two results of the same kind, with related values or faults and related states. -/
inductive Agrees (S : σ → σ → Prop) (E : ε → ε → Prop) (R : α → β → Prop) :
    EStateM.Result ε σ α → EStateM.Result ε σ β → Prop
  | ok {a b s t} (value : R a b) (state : S s t) : Agrees S E R (.ok a s) (.ok b t)
  | error {e f s t} (fault : E e f) (state : S s t) : Agrees S E R (.error e s) (.error f t)

/-- Two computations that agree from related states on. -/
def Parallel (S : σ → σ → Prop) (E : ε → ε → Prop) (R : α → β → Prop)
    (x : EStateM ε σ α) (y : EStateM ε σ β) : Prop :=
  ∀ s t, S s t → Agrees S E R (x s) (y t)

namespace Parallel

variable {S : σ → σ → Prop} {E : ε → ε → Prop} {R : α → β → Prop} {Q : γ → δ → Prop}

theorem pure {a : α} {b : β} (h : R a b) :
    Parallel S E R (Pure.pure a : EStateM ε σ α) (Pure.pure b) :=
  fun _ _ hs => .ok h hs

theorem throw {e f : ε} (h : E e f) :
    Parallel S E R (throw e : EStateM ε σ α) (throw f : EStateM ε σ β) :=
  fun _ _ hs => .error h hs

theorem bind {x : EStateM ε σ α} {y : EStateM ε σ β} {f : α → EStateM ε σ γ}
    {g : β → EStateM ε σ δ} (hx : Parallel S E R x y)
    (hf : ∀ {a b}, R a b → Parallel S E Q (f a) (g b)) : Parallel S E Q (x >>= f) (y >>= g) := by
  intro s t hs
  have h := hx s t hs
  change Agrees S E Q (EStateM.bind x f s) (EStateM.bind y g t)
  unfold EStateM.bind
  cases hxs : x s <;> cases hyt : y t <;> rw [hxs, hyt] at h <;> cases h
  · rename_i hv hs'
    exact hf hv _ _ hs'
  · rename_i he hs'
    exact .error he hs'

end Parallel

def Note.relocate (f : Nat → Nat) (n : Note) : Note := { n with pos := f n.pos }

def Fault.relocate (f : Nat → Nat) : Fault → Fault
  | refused complaint pos => refused complaint (f pos)
  | longNumeral digits => longNumeral digits

/-- The same fault at places that look the same. -/
def Fault.Moved (v : Views) (e f : Fault) : Prop := e.relocate v.left = f.relocate v.right

theorem Fault.Moved.refused {v : Views} {a b : Nat} (h : v.Same a b) (complaint : Complaint) :
    Fault.Moved v (.refused complaint a) (.refused complaint b) :=
  congrArg (Fault.refused complaint) h

/-- Two cursors before the same text. What they hold does not count. -/
structure Cursor.Moved (v : Views) (c d : Cursor) : Prop where
  rest : c.rest = d.rest
  pos : v.Same c.pos d.pos
  notes : v.notes → c.notes.map (Note.relocate v.left) = d.notes.map (Note.relocate v.right)

namespace Cursor.Moved

variable {v : Views} {c d : Cursor}

/-- Before the same text all cursors are alike to the blind. -/
theorem blind (h : c.rest = d.rest) : c.Moved .blind d := ⟨h, rfl, False.elim⟩

theorem past (h : c.Moved v d) (m : Match) : (c.past m).Moved v (d.past m) :=
  ⟨rfl, v.add _ h.pos, h.notes⟩

theorem advance (h : c.Moved v d) (rest : List Char) : (c.advance rest).Moved v (d.advance rest) :=
  ⟨rfl, by simpa only [Cursor.advance, h.rest] using v.add _ h.pos, h.notes⟩

theorem hold (h : c.Moved v d) (s t : List Char) : (c.hold s).Moved v (d.hold t) :=
  ⟨h.rest, h.pos, h.notes⟩

theorem release (h : c.Moved v d) : c.release.Moved v d.release := ⟨h.rest, h.pos, h.notes⟩

theorem note (h : c.Moved v d) (subject : String) : (c.note subject).Moved v (d.note subject) := by
  refine ⟨h.rest, h.pos, fun hn => ?_⟩
  have hp : v.left c.pos = v.right d.pos := h.pos
  simp [Cursor.note, Note.relocate, h.notes hn, hp]

theorem skip (h : c.Moved v d) (p : Pattern) : (c.skip p).Moved v (d.skip p) := by
  unfold Cursor.skip
  rw [h.rest]
  split
  · exact h.past _
  · exact h

theorem skipThrough (h : c.Moved v d) (p : Pattern) :
    (c.skipThrough p).Moved v (d.skipThrough p) := by
  unfold Cursor.skipThrough
  rw [h.rest]
  split <;> exact h.advance _

end Cursor.Moved

/-- Reading steps that agree before the same text. -/
abbrev Read.Moves (v : Views) (R : α → β → Prop) (x : Read α) (y : Read β) : Prop :=
  Parallel (Cursor.Moved v) (Fault.Moved v) R x y

namespace Read.Moves

variable {v : Views}

theorem fail {a b : Nat} (h : v.Same a b) (complaint : Complaint) {R : α → β → Prop} :
    Moves v R (Read.fail complaint a) (Read.fail complaint b) :=
  Parallel.throw (.refused h complaint)

theorem failHere (complaint : Complaint) {R : α → β → Prop} :
    Moves v R (Read.failHere complaint) (Read.failHere complaint) :=
  fun _ _ hc => .error (.refused hc.pos complaint) hc

theorem begin (subject : String) : Moves v v.Same (Read.begin subject) (Read.begin subject) :=
  fun _ _ hc => .ok hc.pos (hc.note subject)

theorem match? (p : Pattern) : Moves v Eq (Read.match? p) (Read.match? p) := by
  intro c d hc
  unfold Read.match?
  rw [hc.rest]
  split
  · exact .ok rfl (hc.past _)
  · exact .ok rfl hc

theorem accept (p : Pattern) : Moves v Eq (Read.accept p) (Read.accept p) :=
  (match? p).bind fun h => .pure (by rw [h])

theorem firstOf (table : List (α × Pattern)) :
    Moves v Eq (Read.firstOf table) (Read.firstOf table) := by
  intro c d hc
  unfold Read.firstOf
  rw [hc.rest]
  split
  · exact .ok rfl (hc.past _)
  · exact .ok rfl hc

theorem require (p : Pattern) (complaint : Complaint) :
    Moves v Eq (Read.require p complaint) (Read.require p complaint) := by
  intro c d hc
  unfold Read.require
  rw [hc.rest]
  split
  · exact .ok rfl (hc.past _)
  · exact .error (.refused hc.pos complaint) hc

theorem peek (p : Pattern) : Moves v Eq (Read.peek p) (Read.peek p) :=
  fun _ _ hc => .ok (by rw [hc.rest]) hc

theorem skip (p : Pattern) : Moves v Eq (Read.skip p) (Read.skip p) :=
  fun _ _ hc => .ok rfl (hc.skip p)

theorem skipThrough (p : Pattern) : Moves v Eq (Read.skipThrough p) (Read.skipThrough p) :=
  fun _ _ hc => .ok rfl (hc.skipThrough p)

theorem numeral (value : Except Nat α) : Moves v Eq (Read.numeral value) (Read.numeral value) := by
  intro c d hc
  cases value with
  | ok a => exact .ok rfl hc
  | error digits => exact .error rfl hc

theorem string : Moves v Eq Read.string Read.string := by
  intro c d hc
  unfold Read.string
  rw [hc.rest]
  split
  · exact .ok rfl (hc.advance _).release
  · rename_i content _
    have hlast := (hc.advance []).hold content content
    exact .error (.refused hlast.pos _) hlast

end Read.Moves

namespace Machine

variable {setting : Setting} {goal : Goal} {m m' : Machine} {c c' : Cursor}

theorem run_of_more (h : m.step setting goal c = .more m' c') :
    m.run setting goal c = m'.run setting goal c' := by
  rw [run]
  split <;> simp_all

theorem run_of_done {e : Expr} (h : m.step setting goal c = .done e c') :
    m.run setting goal c = .ok e c' := by
  rw [run]
  split <;> simp_all

theorem run_of_stop {fault : Fault} (h : m.step setting goal c = .stop fault c') :
    m.run setting goal c = .error fault c' := by
  rw [run]
  split <;> simp_all

end Machine

structure Level.Moved (v : Views) (l k : Level) : Prop where
  start : v.Same l.start k.start
  behind : l.behind = k.behind
  condition : l.condition = k.condition

inductive Frame.Moved (v : Views) : Frame → Frame → Prop
  | group : Frame.Moved v .group .group
  | call {name a b args} (place : v.Same a b) :
    Frame.Moved v (.call name a args) (.call name b args)

structure Machine.Moved (v : Views) (m n : Machine) : Prop where
  level : m.level.Moved v n.level
  stack : m.stack.Forall₂ (fun x y => x.1.Moved v y.1 ∧ x.2.Moved v y.2) n.stack

inductive Step.Moved (v : Views) : Step → Step → Prop
  | more {m n c d} (machine : m.Moved v n) (cursor : c.Moved v d) :
    Step.Moved v (.more m c) (.more n d)
  | done {e c d} (cursor : c.Moved v d) : Step.Moved v (.done e c) (.done e d)
  | stop {e f c d} (fault : e.Moved v f) (cursor : c.Moved v d) :
    Step.Moved v (.stop e c) (.stop f d)

theorem Level.Moved.fill {v : Views} {l k : Level} (h : l.Moved v k) (e : Expr)
    (chainable : Bool) : (l.fill e chainable).Moved v (k.fill e chainable) :=
  ⟨h.start, h.behind, congrArg (Condition.fill · e chainable) h.condition⟩

/-- Both levels end with the same expression, or neither may end here. -/
theorem Level.Moved.finish {v : Views} {l k : Level} (h : l.Moved v k) {a b : Nat}
    (hp : v.Same a b) :
    (∃ e, l.finish a = .ok e ∧ k.finish b = .ok e) ∨
      ∃ e f, l.finish a = .error e ∧ k.finish b = .error f ∧ e.Moved v f := by
  unfold Level.finish
  rw [h.behind, h.condition]
  split
  · split
    · exact .inr ⟨_, _, rfl, rfl, .refused h.start _⟩
    · exact .inr ⟨_, _, rfl, rfl, .refused hp _⟩
  · split
    · exact .inr ⟨_, _, rfl, rfl, .refused hp _⟩
    · exact .inl ⟨_, rfl, rfl⟩

namespace Machine.Moved

variable {v : Views} {m n : Machine} {c d : Cursor}

theorem fill (h : m.Moved v n) (e : Expr) (chainable : Bool) :
    (m.fill e chainable).Moved v (n.fill e chainable) :=
  ⟨h.level.fill e chainable, h.stack⟩

theorem withCondition (h : m.Moved v n) (k : Condition) :
    (m.withCondition k).Moved v (n.withCondition k) :=
  ⟨⟨h.level.start, h.level.behind, rfl⟩, h.stack⟩

theorem refuse {a b : Nat} (h : v.Same a b) (complaint : Complaint) (hc : c.Moved v d) :
    Step.Moved v (Machine.refuse complaint a c) (Machine.refuse complaint b d) :=
  .stop (.refused h complaint) hc

theorem fillNumeral (h : m.Moved v n) (hc : c.Moved v d) (value : Except Nat Expr) :
    Step.Moved v (m.fillNumeral value c) (n.fillNumeral value d) := by
  cases value with
  | ok e => exact .more (h.fill e false) hc
  | error digits => exact .stop rfl hc

theorem fillWord (h : m.Moved v n) (hc : c.Moved v d) (make : String → Expr) (chainable : Bool)
    (wanted : Wanted) :
    Step.Moved v (m.fillWord make chainable wanted c) (n.fillWord make chainable wanted d) := by
  unfold Machine.fillWord
  rw [hc.rest]
  split
  · exact .more (h.fill _ _) (hc.past _).release
  · exact refuse hc.pos _ hc.release

theorem fillSubject (h : m.Moved v n) (hc : c.Moved v d) (make : String → Bool → Expr)
    (wanted : Wanted) :
    Step.Moved v (m.fillSubject make wanted c) (n.fillSubject make wanted d) := by
  unfold Machine.fillSubject
  rw [hc.rest]
  split
  · exact h.fillWord ((hc.past _).skip _) _ _ _
  · exact h.fillWord hc _ _ _

variable {setting : Setting} {goal : Goal} {a b : Nat}

theorem descend (h : m.Moved v n) (hc : c.Moved v d) {frame frame' : Frame}
    (hf : frame.Moved v frame') :
    Step.Moved v (m.descend setting goal frame c) (n.descend setting goal frame' d) := by
  unfold Machine.descend
  rw [h.stack.length_eq]
  split
  · exact refuse hc.pos _ (hc.note _)
  · exact .more ⟨⟨hc.pos, rfl, rfl⟩, .cons ⟨hf, h.level⟩ h.stack⟩ (hc.note _)

theorem finishCall (h : m.Moved v n) (hc : c.Moved v d) (hp : v.Same a b) (name : String)
    (args : List Expr) :
    Step.Moved v (m.finishCall setting name a args c) (n.finishCall setting name b args d) := by
  unfold Machine.finishCall
  split
  · exact refuse hp _ hc
  · exact .more (h.fill _ _) hc

theorem operandStep (h : m.Moved v n) (hc : c.Moved v d) (hp : v.Same a b) (l : Lexeme) :
    Step.Moved v (m.operandStep setting goal a c l) (n.operandStep setting goal b d l) := by
  have hk := h.level.condition
  cases l with
  | arithmetic op =>
    simp only [Machine.operandStep, hk]
    split
    · exact .more (h.withCondition _) hc.release
    · exact refuse hp _ hc.release
  | negation =>
    simp only [Machine.operandStep, hk]
    exact .more (h.withCondition _) hc
  | comparison | logical => exact refuse hp _ hc
  | comma =>
    simp only [Machine.operandStep, hk, h.level.behind]
    split <;> exact refuse hp _ hc
  | callOpen name =>
    have hs := hc.skip Grammar.blanks
    simp only [Machine.operandStep, hs.rest]
    split
    · exact h.finishCall (hs.past _) hp name []
    · exact h.descend hs (.call hp)
  | quote =>
    simp only [Machine.operandStep, hc.rest]
    split
    · exact .more (h.fill _ _) (hc.advance _).release
    · rename_i content _
      have hlast := (hc.advance []).hold content content
      exact refuse hlast.pos _ hlast
  | range | percent => exact h.fillNumeral hc _
  | number => exact h.fillNumeral hc.release _
  | parenOpen => exact h.descend hc .group
  | hasItem | atNode => exact h.fillSubject hc _ _
  | varName => exact h.fillWord hc _ _ _
  | property => exact refuse hp _ hc
  | constant => exact .more (h.fill _ _) hc.release
  | called | localName | globalName => exact .more (h.fill _ _) hc
  | blanks => exact .more h hc

theorem operatorStep (h : m.Moved v n) (hc : c.Moved v d) (hp : v.Same a b) (o : Operand)
    (l : Lexeme) : Step.Moved v (m.operatorStep o a c l) (n.operatorStep o b d l) := by
  have hk := h.level.condition
  cases l with
  | arithmetic | comparison | logical =>
    simp only [Machine.operatorStep, hk]
    exact .more (h.withCondition _) hc.release
  | comma =>
    simp only [Machine.operatorStep, hk, h.level.behind]
    exact .more ⟨⟨h.level.start, rfl, rfl⟩, h.stack⟩ hc
  | property name =>
    simp only [Machine.operatorStep]
    split
    · exact .more (h.fill _ _) hc
    · exact refuse hp _ hc
  | blanks => exact .more h hc
  | _ => exact refuse hp _ hc

theorem lexemeStep (h : m.Moved v n) (hc : c.Moved v d) :
    Step.Moved v (m.lexemeStep setting goal c) (n.lexemeStep setting goal d) := by
  unfold Machine.lexemeStep
  rw [h.level.condition, hc.rest]
  split
  · split
    · rename_i l t _
      exact h.operandStep ((hc.past t).hold _ _) hc.pos l
    · exact refuse hc.pos _ hc.release
  · rename_i o _
    split
    · rename_i l t _
      exact h.operatorStep ((hc.past t).hold _ _) hc.pos o l
    · exact refuse hc.pos _ hc.release

theorem conclude (h : m.Moved v n) (hc : c.Moved v d) (hp : v.Same a b) :
    Step.Moved v (m.conclude a c) (n.conclude b d) := by
  unfold Machine.conclude
  rcases h.level.finish hp with ⟨e, hl, hk⟩ | ⟨e, f, hl, hk, hf⟩
  · rw [hl, hk]
    exact .done hc
  · rw [hl, hk]
    exact .stop hf hc

theorem step (h : m.Moved v n) (hc : c.Moved v d) :
    Step.Moved v (m.step setting goal c) (n.step setting goal d) := by
  obtain ⟨level, stack⟩ := m
  obtain ⟨level', stack'⟩ := n
  have hs : List.Forall₂ _ stack stack' := h.stack
  unfold Machine.step
  cases hs with
  | nil =>
    simp only [hc.rest]
    split
    · refine h.conclude ?_ hc.pos
      split
      · exact hc.past _
      · exact hc
    · split
      · exact h.conclude hc hc.pos
      · exact h.lexemeStep hc
  | @cons x y stack stack' hxy hrest =>
    obtain ⟨frame, outer⟩ := x
    obtain ⟨frame', outer'⟩ := y
    obtain ⟨hframe, houter⟩ := hxy
    cases hframe with
    | group =>
      simp only [hc.rest]
      split
      · rename_i t _
        rcases h.level.finish hc.pos with ⟨e, hl, hk⟩ | ⟨e, f, hl, hk, hf⟩
        · simp only at hl hk
          simp only [hl, hk]
          exact .more ⟨houter.fill e false, hrest⟩ (hc.past t)
        · simp only at hl hk
          simp only [hl, hk]
          exact .stop hf (hc.past t)
      · exact h.lexemeStep hc
    | call hplace =>
      simp only [hc.rest]
      split
      · rename_i t _
        have hsus : Machine.Moved v ⟨outer, stack⟩ ⟨outer', stack'⟩ := ⟨houter, hrest⟩
        rcases h.level.finish hc.pos with ⟨e, hl, hk⟩ | ⟨e, f, hl, hk, hf⟩
        · simp only at hl hk
          simp only [hl, hk]
          split
          · exact hsus.finishCall (hc.past t) hplace _ _
          · exact hsus.descend (hc.past t) (.call hplace)
        · simp only at hl hk
          simp only [hl, hk]
          exact .stop hf hc
      · exact h.lexemeStep hc

/-- Whole runs of the machine agree. -/
theorem run (h : m.Moved v n) (hc : c.Moved v d) :
    Agrees (Cursor.Moved v) (Fault.Moved v) Eq (m.run setting goal c) (n.run setting goal d) := by
  fun_induction Machine.run setting goal m c generalizing n d with
  | case1 m c m' c' hstep ih =>
    have hs : Step.Moved v (m.step setting goal c) (n.step setting goal d) := h.step hc
    generalize hn : n.step setting goal d = s at hs
    rw [hstep] at hs
    cases hs with
    | more hm' hc' => exact Machine.run_of_more hn ▸ ih hm' hc'
  | case2 m c e c' hstep =>
    have hs : Step.Moved v (m.step setting goal c) (n.step setting goal d) := h.step hc
    generalize hn : n.step setting goal d = s at hs
    rw [hstep] at hs
    cases hs with
    | done hc' => exact Machine.run_of_done hn ▸ .ok rfl hc'
  | case3 m c fault c' hstep =>
    have hs : Step.Moved v (m.step setting goal c) (n.step setting goal d) := h.step hc
    generalize hn : n.step setting goal d = s at hs
    rw [hstep] at hs
    cases hs with
    | stop hf hc' => exact Machine.run_of_stop hn ▸ .error hf hc'

end Machine.Moved

theorem Read.Moves.expr {v : Views} (setting : Setting) (goal : Goal) :
    Read.Moves v Eq (Read.expr setting goal) (Read.expr setting goal) := by
  intro c d hc
  unfold Read.expr
  split
  · exact .error (.refused hc.pos _) (hc.note _)
  · exact Machine.Moved.run ⟨⟨hc.pos, rfl, rfl⟩, .nil⟩ (hc.note _)

end Gamebook
