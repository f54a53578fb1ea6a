import Mathlib.Data.List.Forall2
import Gamebook.Proofs.Lookahead

/-!
How texts of a known shape are read: words, runs of digits or blanks, and keywords in
any letter case, each followed by something that does not go on with it.
-/
namespace Gamebook

/-- No character of the class comes next. -/
def Free (p : Char → Bool) (u : List Char) : Prop := ∀ x ∈ u.head?, p x = false

theorem Free.mono {p q : Char → Bool} {u : List Char} (h : Free q u)
    (hpq : ∀ x, p x = true → q x = true) : Free p u := by
  intro x hx
  cases hp : p x with
  | false => rfl
  | true => exact absurd (hpq x hp) (by simp [h x hx])

theorem free_dropWhile (p : Char → Bool) (s : List Char) : Free p (s.dropWhile p) := by
  intro x hx
  have hhead := List.head?_dropWhile_not p s
  rw [Option.mem_def.1 hx] at hhead
  exact hhead

/-- A text that is not empty, all of one class. -/
def Made (p : Char → Bool) (w : List Char) : Prop := w ≠ [] ∧ ∀ c ∈ w, p c = true

namespace Made

variable {p : Char → Bool} {w : List Char}

theorem exists_cons (h : Made p w) : ∃ c s, w = c :: s ∧ p c = true ∧ ∀ d ∈ s, p d = true := by
  obtain ⟨hne, hall⟩ := h
  obtain ⟨c, s, rfl⟩ := List.exists_cons_of_ne_nil hne
  exact ⟨c, s, rfl, hall c (by simp), fun d hd => hall d (by simp [hd])⟩

theorem mono {q : Char → Bool} (h : Made p w) (hpq : ∀ x, p x = true → q x = true) : Made q w :=
  ⟨h.1, fun c hc => hpq c (h.2 c hc)⟩

/-- A text of one class does not begin with a character of another. -/
theorem free_append {q : Char → Bool} (h : Made p w) (hpq : ∀ x, p x = true → q x = false)
    (u : List Char) : Free q (w ++ u) := by
  obtain ⟨c, s, rfl, hc, -⟩ := h.exists_cons
  simpa [Free] using hpq c hc

end Made

namespace Pattern

variable {p : Char → Bool} {w u : List Char}

theorem takeWhile_of_free (hw : ∀ c ∈ w, p c = true) (hu : Free p u) :
    (w ++ u).takeWhile p = w := by
  rw [List.takeWhile_append_of_pos hw]
  cases u with
  | nil => simp
  | cons x u => simp [hu x rfl]

theorem dropWhile_of_free (hw : ∀ c ∈ w, p c = true) (hu : Free p u) :
    (w ++ u).dropWhile p = u := by
  rw [List.dropWhile_append_of_pos hw]
  cases u with
  | nil => rfl
  | cons x u => simp [hu x rfl]

theorem run_span (hw : Made p w) (hu : Free p u) : (span p).run (w ++ u) = some ⟨w, [], u⟩ := by
  obtain ⟨c, s, rfl, hc, hs⟩ := hw.exists_cons
  simp [span, run, hc, takeWhile_of_free hs hu, dropWhile_of_free hs hu]

/-- What is taken goes on as far as it can. -/
theorem free_of_run_span {s : List Char} {m : Match} (h : (span p).run s = some m) :
    Free p m.rest := by
  simp only [span, run] at h
  split at h
  · simp at h
  · rename_i first _
    cases h
    exact free_dropWhile p first.rest

theorem run_choice_of_some {a b : Pattern} {s : List Char} {m : Match} (h : a.run s = some m) :
    (choice a b).run s = some m := by
  simp only [run, h]

theorem run_choice_of_none {a b : Pattern} {s : List Char} (h : a.run s = none) :
    (choice a b).run s = b.run s := by
  simp only [run, h]

theorem run_capture {a : Pattern} {s : List Char} {m : Match} (h : a.run s = some m) :
    (capture a).run s = some { m with groups := m.text :: m.groups } := by
  simp only [run, h]

theorem run_seq {a b : Pattern} {s : List Char} {m n : Match} (ha : a.run s = some m)
    (hb : b.run m.rest = some n) :
    (seq a b).run s = some ⟨m.text ++ n.text, m.groups ++ n.groups, n.rest⟩ := by
  simp only [run, ha, hb]

theorem run_absent (hu : Free p u) : (absent p).run u = some ⟨[], [], u⟩ := by
  cases u with
  | nil => rfl
  | cons x u => simp [run, hu x rfl]

theorem run_spell {accepts : Char → Char → Bool} {word text : List Char}
    (h : List.Forall₂ (fun c d => accepts c d = true) word text) (u : List Char) :
    (spell accepts word).run (text ++ u) = some ⟨text, [], u⟩ := by
  induction h with
  | nil => rfl
  | @cons c d word text hcd htail ih =>
    cases htail with
    | nil => simp [spell, run, hcd]
    | cons hcd' htail' =>
      simp only [List.cons_append] at ih
      simp [spell, run, hcd, ih]

theorem run_literal (word : String) (u : List Char) :
    (literal word).run (word.toList ++ u) = some ⟨word.toList, [], u⟩ :=
  run_spell (List.forall₂_same.2 fun _ _ => by simp) u

/-- What is spelled spells the word. -/
theorem spell_text {accepts : Char → Char → Bool} {word s : List Char} {m : Match}
    (h : (spell accepts word).run s = some m) :
    List.Forall₂ (fun c d => accepts c d = true) word m.text := by
  induction word generalizing s m with
  | nil =>
    cases h
    exact .nil
  | cons c word ih =>
    cases s with
    | nil => cases word <;> simp [spell, run] at h
    | cons d s =>
      cases word with
      | nil =>
        simp only [spell, run] at h
        split at h
        · rename_i hd
          cases h
          exact .cons hd .nil
        · simp at h
      | cons c' word =>
        simp only [spell, run] at h
        split at h
        · simp at h
        · rename_i m₁ h₁
          split at h₁
          · rename_i hd
            cases h₁
            split at h
            · simp at h
            · rename_i m₂ h₂
              cases h
              exact .cons hd (ih h₂)
          · simp at h₁

theorem text_of_literal {word : String} {s : List Char} {m : Match}
    (h : (literal word).run s = some m) : m.text = word.toList := by
  have hf := spell_text h
  generalize m.text = text at hf
  generalize word.toList = cs at hf
  induction hf with
  | nil => rfl
  | cons hcd _ ih => rw [ih, eq_of_beq hcd]

end Pattern

namespace Grammar

/-- The text spells the word, in any letter case. -/
abbrev Spells (word : String) (text : List Char) : Prop :=
  List.Forall₂ (fun c d => foldsTo c d = true) word.toList text

/-- Digits, with a fraction or without. -/
def IsNumeral (t : List Char) : Prop :=
  Made Char.isDigit t ∨ ∃ a b, t = a ++ '.' :: b ∧ Made Char.isDigit a ∧ Made Char.isDigit b

/-- Nothing that could make a word longer, or a name the name of a call. -/
def Apart (u : List Char) : Prop := Free (fun x => isFoldedWordChar x || x == '(') u

theorem Apart.free {u : List Char} (h : Apart u) : Free isWordChar u :=
  h.mono fun x hx => by simp [isFoldedWordChar, hx]

theorem isWordChar_of_isDigit {x : Char} (h : x.isDigit = true) : isWordChar x = true := by
  simp [isWordChar, Char.isAlphanum, h]

theorem isBlank_of_isWordChar {x : Char} (h : isWordChar x = true) : isBlank x = false := by
  cases hb : isBlank x with
  | false => rfl
  | true =>
    simp only [isBlank, Bool.or_eq_true, beq_iff_eq] at hb
    rcases hb with rfl | rfl <;> simp [isWordChar] at h

theorem isDigit_of_isBlank {x : Char} (h : isBlank x = true) : x.isDigit = false := by
  simp only [isBlank, Bool.or_eq_true, beq_iff_eq] at h
  rcases h with rfl | rfl <;> decide

/-- What may stand behind an operand: the end, a stop, or a blank and an operator. -/
inductive Ends : List Char → Prop
  | nil : Ends []
  | stop {x : Char} (h : Lexeme.isStop x = true) (u : List Char) : Ends (x :: u)
  | blank {x : Char} (hb : isBlank x = false) (ht : x ≠ 't') (u : List Char) : Ends (' ' :: x :: u)

/-- No `to` stands there, not even after blanks. -/
def NoRange (u : List Char) : Prop := ∀ x ∈ (u.dropWhile isBlank).head?, x ≠ 't'

namespace Ends

variable {u : List Char}

theorem head (h : Ends u) : ∀ x ∈ u.head?, x = ' ' ∨ x = '\n' ∨ x = ')' ∨ x = ',' := by
  cases h with
  | nil => simp
  | blank => simp
  | stop h =>
    simp only [Lexeme.isStop, Bool.or_eq_true, beq_iff_eq] at h
    simp [or_assoc.1 h]

theorem apart (h : Ends u) : Apart u := by
  intro x hx
  rcases h.head x hx with rfl | rfl | rfl | rfl <;> decide

theorem noRange (h : Ends u) : NoRange u := by
  cases h with
  | nil => simp [NoRange]
  | stop h =>
    simp only [Lexeme.isStop, Bool.or_eq_true, beq_iff_eq] at h
    rcases h with (rfl | rfl) | rfl <;> simp [NoRange, isBlank]
  | blank hb ht => simp_all [NoRange, isBlank]

end Ends

section Runs

variable {w u : List Char}

theorem run_word (hw : Made isWordChar w) (hu : Free isWordChar u) :
    word.run (w ++ u) = some ⟨w, [], u⟩ := Pattern.run_span hw hu

theorem run_keyword (k : String) (hu : Free isWordChar u) :
    (keyword k).run (k.toList ++ u) = some ⟨k.toList, [], u⟩ := by
  simp only [keyword, Pattern.run, Pattern.run_literal, Pattern.run_absent hu, List.append_nil]

/-- A word is not taken for a keyword it begins with. -/
theorem run_keyword_none {k : String} (hk : ∀ c ∈ k.toList, isWordChar c = true)
    (hw : ∀ c ∈ w, isWordChar c = true) (hn : w ≠ k.toList) (hu : Free isWordChar u) :
    (keyword k).run (w ++ u) = none := by
  simp only [keyword, Pattern.run]
  cases hl : (Pattern.literal k).run (w ++ u) with
  | none => rfl
  | some m =>
    have hsplit := Pattern.run_split hl
    rw [Pattern.text_of_literal hl] at hsplit
    cases hr : m.rest with
    | nil =>
      refine absurd ?_ hn
      rw [← Pattern.takeWhile_of_free hw hu, ← hsplit, hr,
        Pattern.takeWhile_of_free hk (by simp [Free])]
    | cons x r =>
      cases hx : isWordChar x with
      | true => simp [hr, Pattern.run, hx]
      | false =>
        refine absurd ?_ hn
        rw [← Pattern.takeWhile_of_free hw hu, ← hsplit, hr,
          Pattern.takeWhile_of_free hk (by simpa [Free] using hx)]

theorem run_callOpen (hw : Made isWordChar w) (u : List Char) :
    callOpen.run (w ++ '(' :: u) = some ⟨w ++ ['('], [w], u⟩ := by
  have h := run_word hw (u := '(' :: u) (by simp [Free, isWordChar])
  simp [callOpen, Pattern.run, Pattern.char, h]

theorem head_dropWhile_ne (hw : ∀ c ∈ w, c ≠ '(') (hu : Apart u) :
    ∀ x ∈ ((w ++ u).dropWhile isWordChar).head?, x ≠ '(' := by
  induction w with
  | nil =>
    cases u with
    | nil => simp
    | cons x u =>
      have hx := hu x rfl
      simp only [isFoldedWordChar, Bool.or_eq_false_iff, beq_eq_false_iff_ne] at hx
      simp [hx.1, hx.2]
  | cons c w ih =>
    simp only [List.cons_append, List.dropWhile_cons]
    split
    · exact ih fun d hd => hw d (by simp [hd])
    · simpa using hw c (by simp)

theorem run_callOpen_none (hw : ∀ c ∈ w, c ≠ '(') (hu : Apart u) :
    callOpen.run (w ++ u) = none := by
  have hd := head_dropWhile_ne hw hu
  generalize w ++ u = s at hd ⊢
  cases s with
  | nil => rfl
  | cons c s =>
    cases hc : isWordChar c with
    | false => simp [callOpen, word, Pattern.span, Pattern.run, hc]
    | true =>
      simp only [List.dropWhile_cons, hc, if_true] at hd
      cases hr : s.dropWhile isWordChar with
      | nil => simp [callOpen, word, Pattern.span, Pattern.char, Pattern.run, hc, hr]
      | cons x r =>
        have hx : x ≠ '(' := hd x (by simp [hr])
        simp [callOpen, word, Pattern.span, Pattern.char, Pattern.run, hc, hr, hx]

theorem run_numeral {t : List Char} (ht : IsNumeral t)
    (hu : Free (fun x => x.isDigit || x == '.') u) : numeral.run (t ++ u) = some ⟨t, [], u⟩ := by
  have hd : Free Char.isDigit u := hu.mono fun x hx => by simp [hx]
  rcases ht with ht | ⟨a, b, rfl, ha, hb⟩
  · have hn : (Pattern.char '.').run u = none := by
      cases u with
      | nil => rfl
      | cons x u =>
        have hx := hu x rfl
        simp only [Bool.or_eq_false_iff] at hx
        simp [Pattern.char, Pattern.run, hx.2]
    simp [numeral, digits, Pattern.optional, Pattern.run, Pattern.run_span ht hd, hn]
  · have h := Pattern.run_span ha (u := '.' :: (b ++ u)) (by simp [Free])
    simp [numeral, digits, Pattern.optional, Pattern.run, Pattern.char, h,
      Pattern.run_span hb hd]

theorem run_between {bound : Pattern} {a b s s' : List Char}
    (ha : bound.run (a ++ (s ++ ('t' :: 'o' :: (s' ++ (b ++ u))))) =
      some ⟨a, [], s ++ ('t' :: 'o' :: (s' ++ (b ++ u)))⟩)
    (hb : bound.run (b ++ u) = some ⟨b, [], u⟩) (hs : ∀ c ∈ s, isBlank c = true)
    (hs' : ∀ c ∈ s', isBlank c = true) (hblank : Free isBlank (b ++ u)) :
    (between bound).run (a ++ (s ++ ('t' :: 'o' :: (s' ++ (b ++ u))))) =
      some ⟨a ++ (s ++ ('t' :: 'o' :: (s' ++ b))), [a, b], u⟩ := by
  have hto : Free isBlank ('t' :: 'o' :: (s' ++ (b ++ u))) := by simp [Free, isBlank]
  have hl := Pattern.run_literal "to" (s' ++ (b ++ u))
  simp only [String.reduceToList, List.cons_append, List.nil_append] at hl
  simp [between, Pattern.run, ha, Pattern.takeWhile_of_free hs hto,
    Pattern.dropWhile_of_free hs hto, hl, Pattern.takeWhile_of_free hs' hblank,
    Pattern.dropWhile_of_free hs' hblank, hb]

theorem run_between_none {bound : Pattern} {a : List Char}
    (ha : bound.run (a ++ u) = some ⟨a, [], u⟩) (hn : NoRange u) :
    (between bound).run (a ++ u) = none := by
  have hl : (Pattern.literal "to").run (u.dropWhile isBlank) = none := by
    cases hd : u.dropWhile isBlank with
    | nil => rfl
    | cons x r =>
      have hx : x ≠ 't' := hn x (by simp [hd])
      simp [Pattern.literal, Pattern.spell, Pattern.run, hx]
  simp [between, Pattern.run, ha, hl]

theorem free_isBlank_of_digits (hw : Made Char.isDigit w) (u : List Char) : Free isBlank (w ++ u) :=
  hw.free_append (fun _ hx => isBlank_of_isWordChar (isWordChar_of_isDigit hx)) u

theorem run_drawRange {a b s s' : List Char} (ha : Made Char.isDigit a) (hb : Made Char.isDigit b)
    (hs : ∀ c ∈ s, isBlank c = true) (hs' : ∀ c ∈ s', isBlank c = true)
    (hu : Free Char.isDigit u) :
    drawRange.run (a ++ (s ++ ('t' :: 'o' :: (s' ++ (b ++ u))))) =
      some ⟨a ++ (s ++ ('t' :: 'o' :: (s' ++ b))), [a, b], u⟩ := by
  have hda : Free Char.isDigit (s ++ ('t' :: 'o' :: (s' ++ (b ++ u)))) := by
    cases s with
    | nil => simp [Free]
    | cons c s => simpa [Free] using isDigit_of_isBlank (hs c (by simp))
  exact run_between (Pattern.run_span ha hda) (Pattern.run_span hb hu) hs hs'
    (free_isBlank_of_digits hb u)

theorem run_drawRange_none {a : List Char} (ha : Made Char.isDigit a) (hu : Free Char.isDigit u)
    (hn : NoRange u) : drawRange.run (a ++ u) = none :=
  run_between_none (Pattern.run_span ha hu) hn

end Runs

end Grammar

namespace Lexeme

open Grammar

variable {w t u : List Char}

theorem digit_mem {x : Char} (h : x.isDigit = true) :
    x ∈ ['0', '1', '2', '3', '4', '5', '6', '7', '8', '9'] := by
  simp only [Char.isDigit, Bool.and_eq_true, decide_eq_true_eq] at h
  have h₁ : 48 ≤ x.toNat := h.1
  have h₂ : x.toNat ≤ 57 := h.2
  have hx := Char.ofNat_toNat x
  obtain h | h | h | h | h | h | h | h | h | h : x.toNat = 48 ∨ x.toNat = 49 ∨ x.toNat = 50 ∨
      x.toNat = 51 ∨ x.toNat = 52 ∨ x.toNat = 53 ∨ x.toNat = 54 ∨ x.toNat = 55 ∨
      x.toNat = 56 ∨ x.toNat = 57 := by omega
  all_goals
    rw [h] at hx
    rw [← hx]
    decide

/-- The rules that are tried at a digit. -/
def digitRules : List Rule :=
  [⟨drawRange, fun m => range (group m 0) (group m 1)⟩,
    ⟨Grammar.callOpen, fun m => callOpen (lowered (group m 0))⟩,
    ⟨Grammar.percent, fun m => percent (group m 0)⟩,
    ⟨numeral, fun m => number m.text⟩]

theorem rules_digit {x : Char} (h : x.isDigit = true) :
    (rules true).filter (·.pattern.starts x) = digitRules := by
  have hx := digit_mem h
  simp only [List.mem_cons, List.not_mem_nil, or_false] at hx
  rcases hx with rfl | rfl | rfl | rfl | rfl | rfl | rfl | rfl | rfl | rfl <;> rfl

theorem next?_digits {a : List Char} (ha : Made Char.isDigit a) (s : List Char) :
    next? true (a ++ s) = digitRules.findSome? fun r =>
      (r.pattern.run (a ++ s)).map fun m => (r.make m, m) := by
  obtain ⟨x, a, rfl, hx, -⟩ := ha.exists_cons
  rw [List.cons_append, next?_cons, rules_digit hx]

theorem next?_range {a b s s' : List Char} (ha : Made Char.isDigit a) (hb : Made Char.isDigit b)
    (hs : ∀ c ∈ s, isBlank c = true) (hs' : ∀ c ∈ s', isBlank c = true)
    (hu : Free Char.isDigit u) :
    next? true (a ++ (s ++ ('t' :: 'o' :: (s' ++ (b ++ u))))) =
      some (range a b, ⟨a ++ (s ++ ('t' :: 'o' :: (s' ++ b))), [a, b], u⟩) := by
  rw [next?_digits ha]
  simp [digitRules, run_drawRange ha hb hs hs' hu, group]

/-- A numeral is no range and no call. -/
theorem numeral_refused (ht : IsNumeral t) (hu : Apart u) (hn : NoRange u) :
    drawRange.run (t ++ u) = none ∧ Grammar.callOpen.run (t ++ u) = none := by
  have hd : Free Char.isDigit u := hu.free.mono fun x => isWordChar_of_isDigit
  have hne : ∀ {x : Char}, x.isDigit = true → x ≠ '(' := by
    rintro x hx rfl
    exact absurd hx (by decide)
  rcases ht with ht | ⟨a, b, rfl, ha, hb⟩
  · exact ⟨run_drawRange_none ht hd hn, run_callOpen_none (fun c hc => hne (ht.2 c hc)) hu⟩
  · refine ⟨?_, run_callOpen_none (fun c hc => ?_) hu⟩
    · rw [List.append_assoc]
      exact run_drawRange_none ha (by simp [Free]) (by simp [NoRange, isBlank])
    · simp only [List.mem_append, List.mem_cons] at hc
      rcases hc with hc | rfl | hc
      · exact hne (ha.2 c hc)
      · decide
      · exact hne (hb.2 c hc)

theorem next?_numeral (ht : IsNumeral t) (hu : Apart u) (hn : NoRange u) :
    next? true (t ++ u) = (digitRules.drop 2).findSome? fun r =>
      (r.pattern.run (t ++ u)).map fun m => (r.make m, m) := by
  obtain ⟨hr, hc⟩ := numeral_refused ht hu hn
  have hd : next? true (t ++ u) = digitRules.findSome? fun r =>
      (r.pattern.run (t ++ u)).map fun m => (r.make m, m) := by
    rcases ht with ht | ⟨a, b, rfl, ha, hb⟩
    · exact next?_digits ht u
    · rw [List.append_assoc, next?_digits ha]
  simp [hd, digitRules, hr, hc]

theorem next?_number (ht : IsNumeral t) (hu : Ends u) :
    next? true (t ++ u) = some (number t, ⟨t, [], u⟩) := by
  have hf : Free (fun x => x.isDigit || x == '.') u := by
    intro x hx
    rcases hu.head x hx with rfl | rfl | rfl | rfl <;> decide
  have hp : (Pattern.char '%').run u = none := by
    cases u with
    | nil => rfl
    | cons x u => rcases hu.head x rfl with rfl | rfl | rfl | rfl <;> rfl
  simp [next?_numeral ht hu.apart hu.noRange, digitRules, Grammar.percent, Pattern.run,
    run_numeral ht hf, hp]

theorem next?_percent (ht : IsNumeral t) (u : List Char) :
    next? true (t ++ '%' :: u) = some (percent t, ⟨t ++ ['%'], [t], u⟩) := by
  have hf : Free (fun x => x.isDigit || x == '.') ('%' :: u) := by simp [Free]
  have ha : Apart ('%' :: u) := by simp [Apart, Free]; decide
  simp [next?_numeral ht ha (by simp [NoRange, isBlank]), digitRules, Grammar.percent,
    Pattern.run, run_numeral ht hf, Pattern.char, group]

theorem next?_blanks (hw : Made isBlank w) (hu : Free isBlank u) (b : Bool) :
    next? b (w ++ u) = some (blanks, ⟨w, [], u⟩) := by
  have hr : Grammar.blanks.run (w ++ u) = some ⟨w, [], u⟩ := Pattern.run_span hw hu
  obtain ⟨x, w, rfl, hx, -⟩ := hw.exists_cons
  have hf : (rules b).filter (·.pattern.starts x) = [⟨Grammar.blanks, fun _ => blanks⟩] := by
    simp only [isBlank, Bool.or_eq_true, beq_iff_eq] at hx
    rcases hx with rfl | rfl <;> cases b <;> rfl
  rw [List.cons_append] at hr ⊢
  simp [next?_cons, hf, hr]

theorem next?_localName (hw : Made isWordChar w) (hu : Free isWordChar u) :
    next? true ('$' :: (w ++ u)) = some (localName (String.ofList w), ⟨'$' :: w, [w], u⟩) := by
  have hf : (rules true).filter (·.pattern.starts '$') =
      [⟨Grammar.localName, fun m => localName (name m)⟩] := rfl
  simp [next?_cons, hf, Grammar.localName, Pattern.char, Pattern.run, run_word hw hu, name, group]

theorem next?_globalName (hw : Made isWordChar w) (hu : Free isWordChar u) :
    next? true ('@' :: (w ++ u)) = some (globalName (String.ofList w), ⟨'@' :: w, [w], u⟩) := by
  have hf : (rules true).filter (·.pattern.starts '@') =
      [⟨Grammar.variableName, fun m => globalName (name m)⟩] := rfl
  simp [next?_cons, hf, Grammar.variableName, sigil, Pattern.char, Pattern.run, run_word hw hu,
    name, group]

theorem next?_property (hw : Made isWordChar w) (hu : Free isWordChar u) :
    next? false ('.' :: (w ++ u)) = some (property (String.ofList w), ⟨'.' :: w, [w], u⟩) := by
  have hf : (rules false).filter (·.pattern.starts '.') =
      [⟨Grammar.property, fun m => property (name m)⟩] := rfl
  simp [next?_cons, hf, Grammar.property, Pattern.char, Pattern.run, run_word hw hu, name, group]

theorem apart_blanks (hw : Made isBlank w) (u : List Char) : Apart (w ++ u) := by
  refine hw.free_append (fun x hx => ?_) u
  simp only [isBlank, Bool.or_eq_true, beq_iff_eq] at hx
  rcases hx with rfl | rfl <;> decide

theorem run_keyword_blanks (keyword : String) (hw : Made isBlank w) (hu : Free isBlank u) :
    (Pattern.seq (Pattern.literal keyword) Grammar.blanks).run (keyword.toList ++ (w ++ u)) =
      some ⟨keyword.toList ++ w, [], u⟩ := by
  have hr : Grammar.blanks.run (w ++ u) = some ⟨w, [], u⟩ := Pattern.run_span hw hu
  simp [Pattern.run, Pattern.run_literal, hr]

theorem next?_varName (hw : Made isBlank w) (hu : Free isBlank u) :
    next? true ("var".toList ++ (w ++ u)) = some (varName, ⟨"var".toList ++ w, [], u⟩) := by
  have hc := run_callOpen_none (w := "var".toList) (by simp) (apart_blanks hw u)
  have hr := run_keyword_blanks "var" hw hu
  have hf : (rules true).filter (·.pattern.starts 'v') =
      [⟨Grammar.callOpen, fun m => callOpen (lowered (group m 0))⟩,
        ⟨Grammar.varName, fun _ => varName⟩] := rfl
  simp only [String.reduceToList, List.cons_append, List.nil_append] at hc hr ⊢
  simp [next?_cons, hf, hc, Grammar.varName, hr]

theorem next?_hasItem (hw : Made isBlank w) (hu : Free isBlank u) :
    next? true ("hasitem".toList ++ (w ++ u)) = some (hasItem, ⟨"hasitem".toList ++ w, [], u⟩) := by
  have hc := run_callOpen_none (w := "hasitem".toList) (by simp) (apart_blanks hw u)
  have hr := run_keyword_blanks "hasitem" hw hu
  have hf : (rules true).filter (·.pattern.starts 'h') =
      [⟨Grammar.callOpen, fun m => callOpen (lowered (group m 0))⟩,
        ⟨Grammar.hasItem, fun _ => hasItem⟩] := rfl
  simp only [String.reduceToList, List.cons_append, List.nil_append] at hc hr ⊢
  simp [next?_cons, hf, hc, Grammar.hasItem, hr]

theorem next?_atNode (hw : Made isBlank w) (hu : Free isBlank u) :
    next? true ("atnode".toList ++ (w ++ u)) = some (atNode, ⟨"atnode".toList ++ w, [], u⟩) := by
  have hc := run_callOpen_none (w := "atnode".toList) (by simp) (apart_blanks hw u)
  have hr := run_keyword_blanks "atnode" hw hu
  have hf : (rules true).filter (·.pattern.starts 'a') =
      [⟨Grammar.logical, fun m => logical (logicalOf m.text)⟩,
        ⟨Grammar.callOpen, fun m => callOpen (lowered (group m 0))⟩,
        ⟨Grammar.atNode, fun _ => atNode⟩] := rfl
  simp only [String.reduceToList, List.cons_append, List.nil_append] at hc hr ⊢
  have hl : ∀ s, Grammar.logical.run ('a' :: 't' :: s) = none := fun _ => rfl
  simp [next?_cons, hf, hl, hc, Grammar.atNode, hr]

theorem next?_called (hu : Apart u) :
    next? true ("called".toList ++ u) = some (called, ⟨"called".toList, [], u⟩) := by
  have hc := run_callOpen_none (w := "called".toList) (by simp) hu
  have hr := run_keyword "called" hu.free
  have hf : (rules true).filter (·.pattern.starts 'c') =
      [⟨Grammar.callOpen, fun m => callOpen (lowered (group m 0))⟩,
        ⟨keyword "called", fun _ => called⟩] := rfl
  simp only [String.reduceToList, List.cons_append, List.nil_append] at hc hr ⊢
  simp [next?_cons, hf, hc, hr]

/-- A letter that nothing outside ASCII folds to is written in one of its two cases. -/
theorem foldsTo_letter {c d : Char} (hc : c ∉ ['s', 'k', 'i']) (h : foldsTo c d = true) :
    d = c ∨ d = Char.ofNat (c.toNat - 32) := by
  simp only [List.mem_cons, List.not_mem_nil, or_false, not_or] at hc
  have hd : d.toLower = c := by simpa [foldsTo, hc.1, hc.2.1, hc.2.2] using h
  unfold Char.toLower at hd
  split at hd
  · rename_i hcase
    right
    have hn : d.toNat + 32 = c.toNat := by
      rw [← hd]
      have h₁ : d.val.toNat ≤ 90 := hcase.2
      simp only [Char.toNat, UInt32.toNat_add]
      have : ('a'.val - 'A'.val).toNat = 32 := rfl
      omega
    have : c.toNat - 32 = d.toNat := by omega
    rw [this, Char.ofNat_toNat]
  · exact .inl hd

/-- The first letter of a word in any letter case. -/
theorem spells_head {word : String} (c : Char) (hw : Spells word w)
    (hc : word.toList.head? = some c) (hs : c ∉ ['s', 'k', 'i']) :
    ∃ d s, w = d :: s ∧ (d = c ∨ d = Char.ofNat (c.toNat - 32)) := by
  obtain ⟨cs, hcs⟩ := List.head?_eq_some_iff.1 hc
  rw [Spells, hcs] at hw
  obtain ⟨d, s, hd, -, rfl⟩ := List.forall₂_cons_left_iff.1 hw
  exact ⟨d, s, rfl, foldsTo_letter hs hd⟩

theorem ne_of_folds {cs : List Char} (hw : List.Forall₂ (fun c d => foldsTo c d = true) cs w)
    {x : Char} (hx : ∀ c ∈ cs, foldsTo c x = false) : ∀ d ∈ w, d ≠ x := by
  induction hw with
  | nil => simp
  | @cons c d cs w hcd _ ih =>
    intro y hy hyx
    rcases List.mem_cons.1 hy with rfl | hy
    · simp [hyx, hx c (by simp)] at hcd
    · exact ih (fun c hc => hx c (by simp [hc])) y hy hyx

/-- A word in any letter case is refused where another letter comes first. -/
theorem run_caseless_none {c d : Char} {word : String} (hd : foldsTo c d = true)
    (hc : c ∉ ['s', 'k', 'i']) (hw : (caseless word).consumes = true)
    (hs : (caseless word).starts c = false ∧
      (caseless word).starts (Char.ofNat (c.toNat - 32)) = false)
    (s : List Char) : (caseless word).run (d :: s) = none := by
  refine Pattern.run_of_starts hw ?_ s
  rcases foldsTo_letter hc hd with rfl | rfl
  · exact hs.1
  · exact hs.2

theorem run_unfinished (hu : Free isFoldedWordChar u) : unfinished.run u = some ⟨[], [], u⟩ :=
  Pattern.run_absent hu

theorem run_constant {word : String} (hk : word ∈ ["true", "false", "null"]) (hw : Spells word w)
    (hu : Apart u) : Grammar.constant.run (w ++ u) = some ⟨w, [w], u⟩ := by
  have hr : (caseless word).run (w ++ u) = some ⟨w, [], u⟩ := Pattern.run_spell hw u
  have ha := run_unfinished (hu.mono fun x hx => by simp [hx])
  simp only [List.mem_cons, List.not_mem_nil, or_false] at hk
  -- the first letter settles the choice
  have hc : (Pattern.choice (caseless "true")
      (Pattern.choice (caseless "false") (caseless "null"))).run (w ++ u) = some ⟨w, [], u⟩ := by
    rcases hk with rfl | rfl | rfl
    · exact Pattern.run_choice_of_some hr
    · obtain ⟨d, w, hd, -, rfl⟩ := List.forall₂_cons_left_iff.1 hw
      rw [List.cons_append, Pattern.run_choice_of_none
        (run_caseless_none hd (by decide) rfl ⟨rfl, rfl⟩ _)]
      exact Pattern.run_choice_of_some hr
    · obtain ⟨d, w, hd, -, rfl⟩ := List.forall₂_cons_left_iff.1 hw
      rw [List.cons_append, Pattern.run_choice_of_none
        (run_caseless_none hd (by decide) rfl ⟨rfl, rfl⟩ _), Pattern.run_choice_of_none
        (run_caseless_none hd (by decide) rfl ⟨rfl, rfl⟩ _)]
      exact hr
  rw [Grammar.constant, Pattern.run_seq (Pattern.run_capture hc) ha]
  simp

theorem next?_constant {word : String} (hk : word ∈ ["true", "false", "null"]) (hw : Spells word w)
    (hu : Apart u) : next? true (w ++ u) = some (constant (lowered w), ⟨w, [w], u⟩) := by
  have hr := run_constant hk hw hu
  have hc : Grammar.callOpen.run (w ++ u) = none := by
    refine run_callOpen_none (ne_of_folds hw ?_) hu
    simp only [List.mem_cons, List.not_mem_nil, or_false] at hk
    rcases hk with rfl | rfl | rfl <;> simp [foldsTo]
  have hf : ∀ x ∈ ['t', 'T', 'f', 'F'], (rules true).filter (·.pattern.starts x) =
      [⟨Grammar.callOpen, fun m => callOpen (lowered (group m 0))⟩,
        ⟨Grammar.constant, fun m => constant (lowered m.text)⟩] := by
    intro x hx
    simp only [List.mem_cons, List.not_mem_nil, or_false] at hx
    rcases hx with rfl | rfl | rfl | rfl <;> rfl
  have hn : ∀ x ∈ ['n', 'N'], (rules true).filter (·.pattern.starts x) =
      [⟨Grammar.negation, fun _ => negation⟩,
        ⟨Grammar.callOpen, fun m => callOpen (lowered (group m 0))⟩,
        ⟨Grammar.constant, fun m => constant (lowered m.text)⟩] := by
    intro x hx
    simp only [List.mem_cons, List.not_mem_nil, or_false] at hx
    rcases hx with rfl | rfl <;> rfl
  simp only [List.mem_cons, List.not_mem_nil, or_false] at hk
  rcases hk with rfl | rfl | rfl
  · obtain ⟨d, w, hd, -, rfl⟩ := List.forall₂_cons_left_iff.1 hw
    have hd : d ∈ ['t', 'T', 'f', 'F'] := by
      rcases foldsTo_letter (by decide) hd with rfl | rfl <;> decide
    rw [List.cons_append] at hr hc ⊢
    simp [next?_cons, hf d hd, hc, hr]
  · obtain ⟨d, w, hd, -, rfl⟩ := List.forall₂_cons_left_iff.1 hw
    have hd : d ∈ ['t', 'T', 'f', 'F'] := by
      rcases foldsTo_letter (by decide) hd with rfl | rfl <;> decide
    rw [List.cons_append] at hr hc ⊢
    simp [next?_cons, hf d hd, hc, hr]
  · obtain ⟨d, w, hd, htail, rfl⟩ := List.forall₂_cons_left_iff.1 hw
    obtain ⟨d', w, hd', -, rfl⟩ := List.forall₂_cons_left_iff.1 htail
    have hd : d ∈ ['n', 'N'] := by
      rcases foldsTo_letter (by decide) hd with rfl | rfl <;> decide
    have hneg : Grammar.negation.run (d :: (d' :: w ++ u)) = none := by
      simp only [List.mem_cons, List.not_mem_nil, or_false] at hd
      rcases hd with rfl | rfl <;>
        rcases foldsTo_letter (by decide) hd' with rfl | rfl <;> rfl
    simp only [List.cons_append] at hr hc hneg ⊢
    simp [next?_cons, hn d hd, hneg, hc, hr]

theorem run_not (hw : Spells "not" w) (hu : Free isFoldedWordChar u) :
    Grammar.negation.run (w ++ u) = some ⟨w, [], u⟩ := by
  have hs := Pattern.run_seq (a := caseless "not") (Pattern.run_spell hw u) (run_unfinished hu)
  obtain ⟨d, w, hd, -, rfl⟩ := List.forall₂_cons_left_iff.1 hw
  rw [List.cons_append] at hs ⊢
  rw [Grammar.negation, Pattern.run_choice_of_none, hs]
  · simp
  · rcases foldsTo_letter (by decide) hd with rfl | rfl <;> rfl

/-- `not` in any letter case, before something that is no word. -/
theorem next?_not (hw : Spells "not" w) (hu : Apart u) :
    next? true (w ++ u) = some (negation, ⟨w, [], u⟩) := by
  have hn := run_not hw (hu.mono fun x hx => by simp [hx])
  obtain ⟨d, w, hd, -, rfl⟩ := List.forall₂_cons_left_iff.1 hw
  rw [List.cons_append] at hn ⊢
  have hf : (rules true).filter (·.pattern.starts d) =
      [⟨Grammar.negation, fun _ => negation⟩,
        ⟨Grammar.callOpen, fun m => callOpen (lowered (group m 0))⟩,
        ⟨Grammar.constant, fun m => constant (lowered m.text)⟩] := by
    rcases foldsTo_letter (by decide) hd with rfl | rfl <;> rfl
  simp [next?_cons, hf, hn]

theorem next?_bang (hu : Free (· == '=') u) :
    next? true ('!' :: u) = some (negation, ⟨['!'], [], u⟩) := by
  have hf : (rules true).filter (·.pattern.starts '!') =
      [⟨Grammar.negation, fun _ => negation⟩,
        ⟨Grammar.comparator, fun m => comparison (comparisonOf m.text)⟩] := rfl
  have hn : Grammar.negation.run ('!' :: u) = some ⟨['!'], [], u⟩ := by
    simp [Grammar.negation, Pattern.char, Pattern.run, Pattern.run_absent hu]
  simp [next?_cons, hf, hn]

theorem next?_callOpen (hw : Made isWordChar w) (hn : Grammar.negation.run w = none)
    (hl : Grammar.logical.run w = none) (hr : drawRange.run w = none) (u : List Char) :
    next? true (w ++ '(' :: u) = some (callOpen (lowered w), ⟨w ++ ['('], [w], u⟩) := by
  have hn' := Pattern.run_before (p := Grammar.negation) (c := '(') rfl w u
  have hl' := Pattern.run_before (p := Grammar.logical) (c := '(') rfl w u
  have hr' := Pattern.run_before (p := drawRange) (c := '(') rfl w u
  have hc := run_callOpen hw u
  rw [hn] at hn'
  rw [hl] at hl'
  rw [hr] at hr'
  obtain ⟨x, w, rfl, hx, -⟩ := hw.exists_cons
  have hx : ∀ y : Char, isWordChar y = false → x ≠ y := by
    rintro y hy rfl
    simp [hy] at hx
  have ha : Grammar.arithmetic.starts x = false := by
    simp [Grammar.arithmetic, Pattern.starts, hx '+' rfl, hx '-' rfl, hx '*' rfl, hx '/' rfl]
  have hcmp : Grammar.comparator.starts x = false := by
    simp [Grammar.comparator, Pattern.starts, Pattern.literal, Pattern.spell, Pattern.char,
      hx '>' rfl, hx '<' rfl, hx '=' rfl, hx '!' rfl]
  have hcm : Grammar.comma.starts x = false := by
    simp [Grammar.comma, Pattern.starts, Pattern.char, hx ',' rfl]
  rw [List.cons_append] at hn' hl' hr' hc ⊢
  simp [next?, rules, Pattern.run_of_starts rfl ha, Pattern.run_of_starts rfl hcmp,
    Pattern.run_of_starts rfl hcm, hn', hl', hr', hc, group]

theorem map_toLower_of_folds {cs : List Char}
    (hw : List.Forall₂ (fun c d => foldsTo c d = true) cs w)
    (hc : ∀ c ∈ cs, c ∉ ['s', 'k', 'i']) : w.map Char.toLower = cs := by
  induction hw with
  | nil => rfl
  | @cons c d cs w hcd _ ih =>
    have hn := hc c (by simp)
    simp only [List.mem_cons, List.not_mem_nil, or_false, not_or] at hn
    have hd : d.toLower = c := by simpa [foldsTo, hn.1, hn.2.1, hn.2.2] using hcd
    simp [hd, ih fun c h => hc c (by simp [h])]

theorem spells_logical {word : String} (hk : word = "and" ∨ word = "or") (hw : Spells word w) :
    ∃ d v, w = d :: v ∧ d ∈ ['a', 'A', 'o', 'O'] := by
  rcases hk with rfl | rfl <;>
  · obtain ⟨d, v, hd, -, rfl⟩ := List.forall₂_cons_left_iff.1 hw
    refine ⟨d, v, rfl, ?_⟩
    rcases foldsTo_letter (by decide) hd with rfl | rfl <;> decide

theorem run_logical {word : String} (hk : word = "and" ∨ word = "or") (hw : Spells word w)
    (hu : Free isFoldedWordChar u) : Grammar.logical.run (w ++ u) = some ⟨w, [], u⟩ := by
  have hr : (caseless word).run (w ++ u) = some ⟨w, [], u⟩ := Pattern.run_spell hw u
  obtain ⟨d, v, rfl, hd⟩ := spells_logical hk hw
  rw [List.cons_append] at hr ⊢
  have hc : (Pattern.choice (caseless "or") (caseless "and")).run (d :: (v ++ u)) =
      some ⟨d :: v, [], u⟩ := by
    rcases hk with rfl | rfl
    · obtain ⟨d, v, hd, -, h⟩ := List.forall₂_cons_left_iff.1 hw
      cases h
      rw [Pattern.run_choice_of_none (run_caseless_none hd (by decide) rfl ⟨rfl, rfl⟩ _), hr]
    · exact Pattern.run_choice_of_some hr
  rw [Grammar.logical, Pattern.run_choice_of_none, Pattern.run_choice_of_none,
    Pattern.run_seq hc (run_unfinished hu), List.append_nil, List.append_nil]
  all_goals
    simp only [List.mem_cons, List.not_mem_nil, or_false] at hd
    rcases hd with rfl | rfl | rfl | rfl <;> rfl

/-- `and` and `or` in any letter case, before something that is no word. -/
theorem next?_logical {word : String} (hk : word = "and" ∨ word = "or") (hw : Spells word w)
    (hu : Apart u) : next? false (w ++ u) = some (logical (logicalOf w), ⟨w, [], u⟩) := by
  have hl := run_logical hk hw (hu.mono fun x hx => by simp [hx])
  obtain ⟨d, v, rfl, hd⟩ := spells_logical hk hw
  rw [List.cons_append] at hl ⊢
  have hf : ((rules false).filter (·.pattern.starts d)).head? =
      some ⟨Grammar.logical, fun m => logical (logicalOf m.text)⟩ := by
    simp only [List.mem_cons, List.not_mem_nil, or_false] at hd
    rcases hd with rfl | rfl | rfl | rfl <;> rfl
  obtain ⟨rs, hrs⟩ := List.head?_eq_some_iff.1 hf
  simp [next?_cons, hrs, hl]

end Lexeme

/-- The ways to write an operator. -/
inductive BinaryOp.Written : BinaryOp → List Char → Prop
  | symbol {op : BinaryOp} (h : op ∈ all) : Written op op.symbol.toList
  | equal : Written .eq ['=']
  | and {w : List Char} (h : Grammar.Spells "and" w) : Written .and w
  | or {w : List Char} (h : Grammar.Spells "or" w) : Written .or w

/-- The lexeme of an operator, whatever its kind. -/
def Lexeme.Links (op : BinaryOp) (l : Lexeme) : Prop :=
  l = .arithmetic op ∨ l = .comparison op ∨ l = .logical op

theorem BinaryOp.Written.next? {op : BinaryOp} {w : List Char} (h : op.Written w)
    (s : List Char) : ∃ l t, Lexeme.next? false (w ++ ' ' :: s) = some (l, t) ∧
      l.Links op ∧ t.rest = ' ' :: s := by
  have ha : Grammar.Apart (' ' :: s) := by simp [Grammar.Apart, Free]; decide
  cases h with
  | symbol h =>
    simp only [all, List.mem_cons, List.not_mem_nil, or_false] at h
    rcases h with rfl | rfl | rfl | rfl | rfl | rfl | rfl | rfl | rfl | rfl | rfl | rfl
    · exact ⟨_, _, rfl, .inr (.inr rfl), rfl⟩
    · exact ⟨_, _, rfl, .inr (.inr rfl), rfl⟩
    · exact ⟨_, _, rfl, .inr (.inl rfl), rfl⟩
    · exact ⟨_, _, rfl, .inr (.inl rfl), rfl⟩
    · exact ⟨_, _, rfl, .inr (.inl rfl), rfl⟩
    · exact ⟨_, _, rfl, .inr (.inl rfl), rfl⟩
    · exact ⟨_, _, rfl, .inr (.inl rfl), rfl⟩
    · exact ⟨_, _, rfl, .inr (.inl rfl), rfl⟩
    · exact ⟨_, _, rfl, .inl rfl, rfl⟩
    · exact ⟨_, _, rfl, .inl rfl, rfl⟩
    · exact ⟨_, _, rfl, .inl rfl, rfl⟩
    · exact ⟨_, _, rfl, .inl rfl, rfl⟩
  | equal => exact ⟨_, _, rfl, .inr (.inl rfl), rfl⟩
  | and h =>
    have hw : Lexeme.lowered w = "and" :=
      congrArg String.ofList (Lexeme.map_toLower_of_folds h (by simp))
    refine ⟨_, _, Lexeme.next?_logical (.inl rfl) h ha, .inr (.inr ?_), rfl⟩
    simp [Lexeme.logicalOf, hw]
  | or h =>
    have hw : Lexeme.lowered w = "or" :=
      congrArg String.ofList (Lexeme.map_toLower_of_folds h (by simp))
    refine ⟨_, _, Lexeme.next?_logical (.inr rfl) h ha, .inr (.inr ?_), rfl⟩
    simp [Lexeme.logicalOf, hw]

end Gamebook
