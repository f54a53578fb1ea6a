import Mathlib.Data.List.TakeWhile
import Gamebook.Proofs.Definedness
import Gamebook.Proofs.Loops

/-!
Where reading an expression fails. Every fault is pinned to the text that was taken since a
base: a refusal to a place between the base and the cursor that is left behind, and a number
that is too long to its digits in the text between them. The machine remembers only places
behind its cursor, so what it complains about is pinned to where it began.
-/
namespace Gamebook

open Grammar

namespace Numeral

/-- So many digits, more than may be read. -/
structure Long (n : Nat) (w : List Char) : Prop where
  length : w.length = n
  limit : digitLimit < n
  digits : Made Char.isDigit w

theorem long_of_integer? {w : List Char} {n : Nat} (hw : Made Char.isDigit w)
    (h : integer? w = .error n) : Long n w := by
  unfold integer? at h
  split at h
  · simp at h
  · cases h
    exact ⟨rfl, by omega, hw⟩

/-- Only digits without a point can be too long. -/
theorem long_of_number? {w : List Char} {n : Nat} (hw : IsNumeral w)
    (h : number? w = .error n) : Long n w := by
  unfold number? at h
  split at h
  · simp at h
  · rename_i hpoint
    rcases hw with hw | ⟨a, b, rfl, ha, -⟩
    · cases hi : integer? w with
      | ok k => simp [hi, Except.map] at h
      | error digits =>
        rw [hi] at h
        cases h
        exact long_of_integer? hw hi
    · have hmem : '.' ∈ a ++ '.' :: b := by simp
      have hall := List.dropWhile_eq_nil_iff.1 hpoint '.' hmem
      simp at hall

end Numeral

namespace Cursor

/-- The place lies between the two cursors. -/
def Spans (b d : Cursor) (pos : Nat) : Prop := b.pos ≤ pos ∧ pos ≤ d.pos

theorem Spans.trans {b d e : Cursor} {pos : Nat} (h : b.Spans d pos) (hd : d.Reaches e) :
    b.Spans e pos :=
  ⟨h.1, Nat.le_trans h.2 hd.pos_le⟩

theorem Spans.of_reaches {a b d : Cursor} {pos : Nat} (h : b.Spans d pos) (ha : a.Reaches b) :
    a.Spans d pos :=
  ⟨Nat.le_trans ha.pos_le h.1, h.2⟩

theorem spans_here {b d : Cursor} (h : b.Reaches d) : b.Spans d d.pos := ⟨h.pos_le, Nat.le_refl _⟩

theorem spans_base {b d : Cursor} (h : b.Reaches d) : b.Spans d b.pos := ⟨Nat.le_refl _, h.pos_le⟩

/-- The text was taken on the way from the one cursor to the other. -/
def Took (b d : Cursor) (w : List Char) : Prop := ∃ u v, b.rest = u ++ (w ++ (v ++ d.rest))

/-- A part of what a match takes is taken. -/
theorem took_of_run {b c d : Cursor} (hb : b.Reaches c) {p : Pattern} {m : Match}
    (hm : p.run c.rest = some m) {w : List Char} (hw : w <:+: m.text) (hd : d.rest = m.rest) :
    b.Took d w := by
  obtain ⟨taken, hs, -⟩ := hb
  obtain ⟨u, v, huv⟩ := hw
  refine ⟨taken ++ u, v, ?_⟩
  rw [hs, ← Pattern.run_split hm, ← huv, hd]
  simp

end Cursor

namespace Fault

/-- The fault belongs to what was read from `b` to `d`. -/
def Pinned (b d : Cursor) : Fault → Prop
  | refused _ pos => b.Spans d pos
  | longNumeral n => ∃ w, Numeral.Long n w ∧ b.Took d w

variable {a b d : Cursor} {fault : Fault}

/-- What is pinned to a part is pinned to the whole. -/
theorem Pinned.of_reaches (h : fault.Pinned b d) (ha : a.Reaches b) : fault.Pinned a d := by
  cases fault with
  | refused complaint pos => exact Cursor.Spans.of_reaches h ha
  | longNumeral n =>
    obtain ⟨w, hw, u, v, hs⟩ := h
    obtain ⟨taken, ht, -⟩ := ha
    exact ⟨w, hw, taken ++ u, v, by rw [ht, hs, List.append_assoc]⟩

end Fault

/-- What a match captures is part of what it takes. -/
theorem Pattern.infix_of_shape {p : Pattern} {t : List Char} {g : List (List Char)}
    (h : p.Shape t g) : ∀ w ∈ g, w <:+: t := by
  induction p generalizing t g with
  | empty | absent | finish => simp [h.2]
  | one | many => simp [h.2]
  | seq a b iha ihb =>
    obtain ⟨t₁, g₁, t₂, g₂, ha, hb, rfl, rfl⟩ := h
    intro w hw
    rcases List.mem_append.1 hw with hw | hw
    · exact (iha ha w hw).trans (List.prefix_append ..).isInfix
    · exact (ihb hb w hw).trans (List.suffix_append ..).isInfix
  | choice a b iha ihb =>
    rcases h with h | h
    · exact iha h
    · exact ihb h
  | capture a iha =>
    obtain ⟨g', ha, rfl⟩ := h
    exact List.forall_mem_cons.2 ⟨List.infix_rfl, iha ha⟩

def Frame.Placed (b c : Cursor) : Frame → Prop
  | .group => True
  | .call _ place _ => b.Spans c place

/-- All places that the machine remembers lie behind the cursor. -/
structure Machine.Placed (b c : Cursor) (m : Machine) : Prop where
  start : b.Spans c m.level.start
  stack : ∀ f ∈ m.stack, f.1.Placed b c ∧ b.Spans c f.2.start

theorem Frame.Placed.trans {b c d : Cursor} {frame : Frame} (h : frame.Placed b c)
    (hd : c.Reaches d) : frame.Placed b d := by
  cases frame with
  | group => trivial
  | call name place args => exact Cursor.Spans.trans h hd

theorem Machine.Placed.trans {b c d : Cursor} {m : Machine} (h : m.Placed b c)
    (hd : c.Reaches d) : m.Placed b d :=
  ⟨h.start.trans hd, fun f hf => ⟨(h.stack f hf).1.trans hd, (h.stack f hf).2.trans hd⟩⟩

/-- A step keeps places behind the cursor and pins its fault. -/
def Step.Placed (b : Cursor) : Step → Prop
  | .more m c => b.Reaches c ∧ m.Placed b c
  | .done _ _ => True
  | .stop fault c => fault.Pinned b c

/-- What is found behind a cursor is placed there, and so is a fault. -/
def Found.Placed (b : Cursor) : Found → Prop
  | .operand _ _ c | .sign _ c | .comma c | .nothing c => b.Reaches c
  | .level frame c => b.Reaches c ∧ frame.Placed b c
  | .emptyCall _ place c => b.Reaches c ∧ b.Spans c place
  | .fault f c => f.Pinned b c

namespace Found

variable {b c : Cursor}

theorem numeral_placed (hb : b.Reaches c) {value : Except Nat Expr}
    (h : ∀ n, value = .error n → ∃ w, Numeral.Long n w ∧ b.Took c w) :
    (numeral value c).Placed b := by
  cases value with
  | ok e => exact hb
  | error n => exact h n rfl

theorem word_placed (hb : b.Reaches c) (make : String → Expr) (chainable : Bool)
    (wanted : Wanted) : (word make chainable wanted c).Placed b := by
  unfold word
  split
  · rename_i w hw
    exact hb.trans (Cursor.reaches_past hw)
  · exact Cursor.spans_here hb

theorem subject_placed (hb : b.Reaches c) (make : String → Bool → Expr) (wanted : Wanted) :
    (subject make wanted c).Placed b := by
  unfold subject
  split
  · rename_i n hn
    exact word_placed ((hb.trans (Cursor.reaches_past hn)).trans (Cursor.reaches_skip ..)) ..
  · exact word_placed hb ..

theorem long_of_range {low high : List Char} {n : Nat} (hlow : Made Char.isDigit low)
    (hhigh : Made Char.isDigit high)
    (h : (do
      let low ← Numeral.integer? low
      let high ← Numeral.integer? high
      return .range low high : Except Nat Expr) = .error n) :
    Numeral.Long n low ∨ Numeral.Long n high := by
  cases hl : Numeral.integer? low with
  | error k =>
    simp only [hl, bind, Except.bind, Except.error.injEq] at h
    exact .inl (Numeral.long_of_integer? hlow (h ▸ hl))
  | ok a =>
    cases hh : Numeral.integer? high with
    | ok b => simp [hl, hh, bind, Except.bind, pure, Except.pure] at h
    | error k =>
      simp only [hl, hh, bind, Except.bind, Except.error.injEq] at h
      exact .inr (Numeral.long_of_integer? hhigh (h ▸ hh))

theorem long_of_number (make : Number → Expr) {text : List Char} {n : Nat}
    (ht : IsNumeral text) (h : (Numeral.number? text).map make = .error n) :
    Numeral.Long n text := by
  cases hn : Numeral.number? text with
  | ok k => simp [hn, Except.map] at h
  | error k =>
    simp only [hn, Except.map, Except.error.injEq] at h
    exact Numeral.long_of_number? ht (h ▸ hn)

/-- What a lexeme comes to is placed behind its beginning. -/
theorem ofLexeme_placed {l : Lexeme} {t : Match} (hl : Lexeme.next? true c.rest = some (l, t)) :
    (ofLexeme c.pos ((c.past t).hold t.text) l).Placed c := by
  obtain ⟨p, hp⟩ := Lexeme.next?_run hl
  have hmade := Lexeme.next?_madeOf hl
  have hd : c.Reaches ((c.past t).hold t.text) := (Cursor.reaches_past hp).hold _
  have hwhole : c.Took ((c.past t).hold t.text) t.text :=
    Cursor.took_of_run (.refl c) hp List.infix_rfl rfl
  have hpart : ∀ w ∈ t.groups, c.Took ((c.past t).hold t.text) w := fun w hw =>
    Cursor.took_of_run (.refl c) hp (Pattern.infix_of_shape (Pattern.run_shape hp) w hw) rfl
  -- Of the cursor behind the lexeme no more is needed than these four facts.
  generalize (c.past t).hold t.text = d at *
  have hhere := Cursor.spans_base hd
  cases l with
  | arithmetic op =>
    simp only [ofLexeme]
    split
    · exact hd
    · exact hhere
  | comparison | logical | property => exact hhere
  | range low high =>
    obtain ⟨hgroups, hlow, hhigh⟩ := hmade
    refine numeral_placed hd fun n hn => ?_
    rcases long_of_range hlow hhigh hn with hlong | hlong
    · exact ⟨low, hlong, hpart low (by simp [hgroups])⟩
    · exact ⟨high, hlong, hpart high (by simp [hgroups])⟩
  | callOpen name =>
    have hskip := Cursor.reaches_skip d blanks
    simp only [ofLexeme]
    split
    · rename_i u hu
      have hu := hskip.trans (Cursor.reaches_past hu)
      exact ⟨hd.trans hu, hhere.trans hu⟩
    · exact ⟨hd.trans hskip, hhere.trans hskip⟩
  | parenOpen => exact ⟨hd, trivial⟩
  | hasItem | atNode => exact subject_placed hd ..
  | quote =>
    simp only [ofLexeme]
    split
    · rename_i content rest h
      obtain ⟨taken, -, ht⟩ := stringBody_suffix (congrArg Prod.snd h)
      exact hd.trans (Cursor.reaches_advance ht)
    · exact Cursor.spans_here (hd.trans (Cursor.reaches_advance (List.append_nil _).symm))
  | percent text =>
    refine numeral_placed hd fun n hn => ?_
    exact ⟨text, long_of_number .percent hmade.2 hn, hpart text (by simp [hmade.1])⟩
  | number text =>
    obtain ⟨rfl, htext⟩ := hmade
    refine numeral_placed (c := d.release) hd fun n hn => ?_
    exact ⟨t.text, long_of_number .number htext hn, hwhole⟩
  | varName => exact word_placed hd ..
  | _ => exact hd

end Found

namespace Machine

variable {setting : Setting} {goal : Goal} {m : Machine} {b c : Cursor}

theorem descend_placed (hb : b.Reaches c) (h : m.Placed b c) (frame : Frame)
    (hf : frame.Placed b c) : (m.descend setting goal frame c).Placed b := by
  unfold descend
  split
  · exact Cursor.spans_here hb
  · exact ⟨hb, Cursor.spans_here hb, List.forall_mem_cons.2 ⟨⟨hf, h.start⟩, h.stack⟩⟩

theorem finishCall_placed (hb : b.Reaches c) (h : m.Placed b c) (name : String) {place : Nat}
    (hp : b.Spans c place) (args : List Expr) :
    (m.finishCall setting name place args c).Placed b := by
  unfold finishCall
  split
  · exact hp
  · exact ⟨hb, h.start, h.stack⟩

theorem accept_placed (hb : b.Reaches c) (h : m.Placed b c) {found : Found}
    (hf : found.Placed c) : (m.accept setting goal c.pos found).Placed b := by
  cases found with
  | operand e chainable d => exact ⟨hb.trans hf, (h.trans hf).start, (h.trans hf).stack⟩
  | sign op d => exact ⟨hb.trans hf, (h.trans hf).start, (h.trans hf).stack⟩
  | level frame d =>
    refine descend_placed (hb.trans hf.1) (h.trans hf.1) frame ?_
    cases frame with
    | group => trivial
    | call name place args => exact Cursor.Spans.of_reaches hf.2 hb
  | emptyCall name place d =>
    exact finishCall_placed (hb.trans hf.1) (h.trans hf.1) name (hf.2.of_reaches hb) []
  | comma d =>
    have hhere : b.Spans d c.pos := (Cursor.spans_here hb).trans hf
    simp only [accept]
    split <;> exact hhere
  | nothing d => exact ⟨hb.trans hf, h.trans hf⟩
  | fault f d => exact Fault.Pinned.of_reaches hf hb

theorem operatorStep_placed (hb : b.Reaches c) (h : m.Placed b c) (o : Operand) {d : Cursor}
    (hd : c.Reaches d) (l : Lexeme) : (m.operatorStep o c.pos d l).Placed b := by
  have hhere : b.Spans d c.pos := (Cursor.spans_here hb).trans hd
  have hm := h.trans hd
  cases l with
  | arithmetic | comparison | logical | comma => exact ⟨hb.trans hd, hm.start, hm.stack⟩
  | property name =>
    simp only [operatorStep]
    split
    · exact ⟨hb.trans hd, hm.start, hm.stack⟩
    · exact hhere
  | blanks => exact ⟨hb.trans hd, hm⟩
  | _ => exact hhere

theorem lexemeStep_placed (hb : b.Reaches c) (h : m.Placed b c) :
    (m.lexemeStep setting goal c).Placed b := by
  unfold lexemeStep
  split
  · split
    · rename_i l t hl
      rw [operandStep_eq]
      exact accept_placed hb h (Found.ofLexeme_placed hl)
    · exact Cursor.spans_here hb
  · split
    · rename_i l t hl
      obtain ⟨p, hp⟩ := Lexeme.next?_run hl
      exact operatorStep_placed hb h _ ((Cursor.reaches_past hp).hold _) l
    · exact Cursor.spans_here hb

/-- A level that may not end is refused at its beginning or at its end. -/
theorem finish_placed {l : Level} {fault : Fault} {d : Cursor} (hb : b.Reaches c)
    (hstart : b.Spans c l.start) (hd : c.Reaches d) (h : l.finish c.pos = .error fault) :
    fault.Pinned b d := by
  unfold Level.finish at h
  split at h
  · split at h
    · cases h
      exact hstart.trans hd
    · cases h
      exact (Cursor.spans_here hb).trans hd
  · split at h
    · cases h
      exact (Cursor.spans_here hb).trans hd
    · simp at h

theorem conclude_placed (hb : b.Reaches c) (h : m.Placed b c) {d : Cursor} (hd : c.Reaches d) :
    (m.conclude c.pos d).Placed b := by
  unfold conclude
  split
  · trivial
  · rename_i fault hf
    exact finish_placed hb h.start hd hf

theorem step_placed (hb : b.Reaches c) (h : m.Placed b c) : (m.step setting goal c).Placed b := by
  have hlexeme : (m.lexemeStep setting goal c).Placed b := lexemeStep_placed hb h
  obtain ⟨level, stack⟩ := m
  unfold step
  split
  · split
    · rename_i t ht
      refine conclude_placed hb h ?_
      split
      · exact Cursor.reaches_past ht
      · exact .refl c
    · split
      · exact conclude_placed hb h (.refl c)
      · exact hlexeme
  · rename_i outer stack hstack
    cases hstack
    obtain ⟨⟨-, houter⟩, hstack⟩ := List.forall_mem_cons.1 h.stack
    have hsuspended : Machine.Placed b c ⟨outer, stack⟩ := ⟨houter, hstack⟩
    split
    · rename_i t ht
      have hd := Cursor.reaches_past ht
      split
      · exact ⟨hb.trans hd, (hsuspended.trans hd).start, (hsuspended.trans hd).stack⟩
      · rename_i fault hf
        exact finish_placed hb h.start hd hf
    · exact hlexeme
  · rename_i name place args outer stack hstack
    cases hstack
    obtain ⟨⟨hplace, houter⟩, hstack⟩ := List.forall_mem_cons.1 h.stack
    have hsuspended : Machine.Placed b c ⟨outer, stack⟩ := ⟨houter, hstack⟩
    split
    · rename_i t ht
      have hd := Cursor.reaches_past ht
      split
      · simp only
        split
        · exact finishCall_placed (hb.trans hd) (hsuspended.trans hd) name
            (Cursor.Spans.trans hplace hd) _
        · exact descend_placed (hb.trans hd) (hsuspended.trans hd) _
            (Cursor.Spans.trans hplace hd)
      · rename_i fault hf
        -- The end of an argument is looked at first and taken only if the argument is whole.
        exact finish_placed hb h.start (.refl c) hf
    · exact hlexeme

theorem run_pinned (hb : b.Reaches c) (h : m.Placed b c) {fault : Fault} {d : Cursor}
    (hr : m.run setting goal c = .error fault d) : fault.Pinned b d := by
  fun_induction Machine.run setting goal m c with
  | case1 m c m' c' hs ih =>
    have hstep : Step.Placed b (.more m' c') := hs ▸ step_placed hb h
    exact ih hstep.1 hstep.2 hr
  | case2 => simp at hr
  | case3 m c f c' hs =>
    cases hr
    have hstep : Step.Placed b (.stop fault d) := hs ▸ step_placed hb h
    exact hstep

end Machine

theorem Read.expr_pinned {setting : Setting} {goal : Goal} {c d : Cursor} {fault : Fault}
    (h : Read.expr setting goal c = .error fault d) : fault.Pinned c d := by
  have hc : c.Reaches (c.note "expression") := (Cursor.Reaches.refl c).note _
  unfold Read.expr at h
  split at h
  · cases h
    exact Cursor.spans_base hc
  · exact Machine.run_pinned hc ⟨Cursor.spans_base hc, by simp⟩ h

end Gamebook
