import Gamebook.Expr.Lexeme

/-!
How far a pattern looks. A character that no class of a pattern takes or looks for
is to the pattern what the end of the text is: whatever stands behind it does not
change the match. A pattern whose first class alone knows the character is not
changed by it either, as long as some text stands before.
-/
namespace Gamebook

/-- The match in a text that goes on. -/
def Match.before (m : Match) (u : List Char) : Match := { m with rest := m.rest ++ u }

@[simp] theorem Match.text_before (m : Match) (u : List Char) : (m.before u).text = m.text := rfl
@[simp] theorem Match.groups_before (m : Match) (u : List Char) :
    (m.before u).groups = m.groups := rfl
@[simp] theorem Match.rest_before (m : Match) (u : List Char) :
    (m.before u).rest = m.rest ++ u := rfl

namespace Pattern

/-- No class of the pattern knows the character, and the end is not asked for. -/
def ignores (c : Char) : Pattern → Bool
  | empty => true
  | one p | many p | absent p => !p c
  | seq a b | choice a b => a.ignores c && b.ignores c
  | capture a => a.ignores c
  | finish => false

theorem takeWhile_before {p : Char → Bool} {c : Char} (h : p c = false) (s u : List Char) :
    (s ++ c :: u).takeWhile p = s.takeWhile p := by
  induction s with
  | nil => simp [h]
  | cons d s ih => simp [List.takeWhile_cons, ih]

theorem dropWhile_before {p : Char → Bool} {c : Char} (h : p c = false) (s u : List Char) :
    (s ++ c :: u).dropWhile p = s.dropWhile p ++ c :: u := by
  induction s with
  | nil => simp [h]
  | cons d s ih =>
    simp only [List.cons_append, List.dropWhile_cons, ih]
    split <;> simp

/-- An ignored character hides all that comes after it. -/
theorem run_before {p : Pattern} {c : Char} (h : p.ignores c = true) (s u : List Char) :
    p.run (s ++ c :: u) = (p.run s).map (·.before (c :: u)) := by
  induction p generalizing s with
  | empty => rfl
  | one p =>
    have hc : p c = false := by simpa [ignores] using h
    cases s with
    | nil => simp [run, hc]
    | cons d s =>
      simp only [List.cons_append, run]
      split <;> rfl
  | many p =>
    have hc : p c = false := by simpa [ignores] using h
    simp [run, takeWhile_before hc, dropWhile_before hc, Match.before]
  | seq a b iha ihb =>
    simp only [ignores, Bool.and_eq_true] at h
    simp only [run, iha h.1]
    cases ha : a.run s with
    | none => rfl
    | some m =>
      simp only [Option.map_some, Match.rest_before, ihb h.2]
      cases b.run m.rest <;> rfl
  | choice a b iha ihb =>
    simp only [ignores, Bool.and_eq_true] at h
    simp only [run, iha h.1, ihb h.2]
    cases a.run s <;> rfl
  | capture a iha =>
    simp only [run, iha h]
    cases a.run s <;> rfl
  | absent p =>
    have hc : p c = false := by simpa [ignores] using h
    cases s with
    | nil => simp [run, hc, Match.before]
    | cons d s =>
      simp only [List.cons_append, run]
      split <;> rfl
  | finish => simp [ignores] at h

/-- Only what the pattern looks at first may know the character. -/
def settles (c : Char) : Pattern → Bool
  | empty | one _ | absent _ | finish => true
  | many p => !p c
  | seq a b => a.settles c && b.ignores c
  | choice a b => a.settles c && b.settles c
  | capture a => a.settles c

/-- Behind some text the character hides all that comes after it. -/
theorem run_before_of_ne_nil {p : Pattern} {c : Char} (h : p.settles c = true) {s : List Char}
    (hs : s ≠ []) (u : List Char) : p.run (s ++ c :: u) = (p.run s).map (·.before (c :: u)) := by
  induction p generalizing s with
  | empty => rfl
  | one p =>
    obtain ⟨d, s, rfl⟩ := List.exists_cons_of_ne_nil hs
    simp only [List.cons_append, run]
    split <;> rfl
  | many p => exact run_before (p := many p) h s u
  | seq a b iha ihb =>
    simp only [settles, Bool.and_eq_true] at h
    simp only [run, iha h.1 hs]
    cases ha : a.run s with
    | none => rfl
    | some m =>
      simp only [Option.map_some, Match.rest_before, run_before h.2]
      cases b.run m.rest <;> rfl
  | choice a b iha ihb =>
    simp only [settles, Bool.and_eq_true] at h
    simp only [run, iha h.1 hs, ihb h.2 hs]
    cases a.run s <;> rfl
  | capture a iha =>
    simp only [run, iha h hs]
    cases a.run s <;> rfl
  | absent p =>
    obtain ⟨d, s, rfl⟩ := List.exists_cons_of_ne_nil hs
    simp only [List.cons_append, run]
    split <;> rfl
  | finish =>
    obtain ⟨d, s, rfl⟩ := List.exists_cons_of_ne_nil hs
    rfl

/-- A pattern that takes something takes nothing where an ignored character stands. -/
theorem run_eq_none {p : Pattern} {c : Char} (hp : p.consumes = true) (h : p.ignores c = true)
    (u : List Char) : p.run (c :: u) = none := by
  have hr := run_before h [] u
  cases hn : p.run [] with
  | none => simpa [hn] using hr
  | some m => exact absurd (List.append_eq_nil_iff.1 (run_split hn)).1 (text_ne_nil hp hn)

/-- The same for a text that may also end here. -/
theorem run_append {p : Pattern} {u : List Char} (h : ∀ c ∈ u.head?, p.ignores c = true)
    (s : List Char) : p.run (s ++ u) = (p.run s).map (·.before u) := by
  cases u with
  | nil => simp [Match.before]
  | cons c u => exact run_before (h c rfl) s u

theorem run_append_of_ne_nil {p : Pattern} {u : List Char}
    (h : ∀ c ∈ u.head?, p.settles c = true) {s : List Char} (hs : s ≠ []) :
    p.run (s ++ u) = (p.run s).map (·.before u) := by
  cases u with
  | nil => simp [Match.before]
  | cons c u => exact run_before_of_ne_nil (h c rfl) hs u

/-- The first pattern leaves text before the character, so that the second one has some. -/
theorem run_seq_append {a b : Pattern} {u : List Char} (ha : ∀ c ∈ u.head?, a.ignores c = true)
    (hb : ∀ c ∈ u.head?, b.settles c = true) {s : List Char} {m : Match}
    (hm : a.run s = some m) (hr : m.rest ≠ []) :
    (seq a b).run (s ++ u) = ((seq a b).run s).map (·.before u) := by
  have hb := run_append_of_ne_nil hb hr
  simp only [run, run_append ha, hm, Option.map_some, Match.rest_before, hb]
  cases b.run m.rest <;> rfl

/-- A table changes its match as its patterns do. -/
theorem firstOf_map {table : List (α × Pattern)} {s t : List Char} {g : Match → Match}
    (h : ∀ e ∈ table, e.2.run t = (e.2.run s).map g) :
    firstOf table t = (firstOf table s).map fun (a, m) => (a, g m) := by
  induction table with
  | nil => rfl
  | cons e table ih =>
    have ih := ih fun e he => h e (List.mem_cons_of_mem _ he)
    simp only [firstOf, List.findSome?_cons, h e List.mem_cons_self] at ih ⊢
    cases e.2.run s with
    | none => exact ih
    | some m => rfl

theorem firstOf_append {table : List (α × Pattern)} {u : List Char}
    (h : ∀ c ∈ u.head?, table.all (·.2.settles c) = true) {s : List Char} (hs : s ≠ []) :
    firstOf table (s ++ u) = (firstOf table s).map fun (a, m) => (a, m.before u) :=
  firstOf_map fun e he =>
    run_append_of_ne_nil (fun c hc => List.all_eq_true.1 (h c hc) e he) hs

/-- Can a match that takes some text begin with the character? -/
def starts (c : Char) : Pattern → Bool
  | empty | absent _ | finish => false
  | one p | many p => p c
  | seq a b => a.starts c || !a.consumes && b.starts c
  | choice a b => a.starts c || b.starts c
  | capture a => a.starts c

theorem text_eq_nil_of_starts {p : Pattern} {c : Char} (h : p.starts c = false) {s : List Char}
    {m : Match} (hr : p.run (c :: s) = some m) : m.text = [] := by
  induction p generalizing m with
  | empty => cases hr; rfl
  | one p => simp_all [starts, run]
  | many p =>
    have hc : p c = false := h
    simp only [run, Option.some.injEq] at hr
    simp [← hr, hc]
  | seq a b iha ihb =>
    simp only [starts, Bool.or_eq_false_iff, Bool.and_eq_false_imp, Bool.not_eq_true'] at h
    simp only [run] at hr
    split at hr
    · simp at hr
    · rename_i m₁ h₁
      have ht := iha h.1 h₁
      have hrest : m₁.rest = c :: s := by simpa [ht] using run_split h₁
      have hn : a.consumes = false := by
        cases hn : a.consumes with
        | false => rfl
        | true => exact absurd ht (text_ne_nil hn h₁)
      rw [hrest] at hr
      split at hr
      · simp at hr
      · rename_i m₂ h₂
        simp only [Option.some.injEq] at hr
        simp [← hr, ht, ihb (h.2 hn) h₂]
  | choice a b iha ihb =>
    simp only [starts, Bool.or_eq_false_iff] at h
    simp only [run] at hr
    split at hr
    · exact ihb h.2 hr
    · rename_i m₁ h₁
      exact iha h.1 (hr ▸ h₁)
  | capture a iha =>
    simp only [run] at hr
    split at hr
    · simp at hr
    · rename_i m₁ h₁
      simp only [Option.some.injEq] at hr
      simp [← hr, iha h h₁]
  | absent p => simp_all [run]; simp [← hr]
  | finish => simp [run] at hr

/-- A pattern that takes something refuses a text that begins with no start of it. -/
theorem run_of_starts {p : Pattern} {c : Char} (hp : p.consumes = true)
    (h : p.starts c = false) (s : List Char) : p.run (c :: s) = none := by
  cases hr : p.run (c :: s) with
  | none => rfl
  | some m => exact absurd (text_eq_nil_of_starts h hr) (text_ne_nil hp hr)

/-- A character ends what the table finds if each pattern that can start here ignores it. -/
theorem firstOf_append_of_starts {table : List (α × Pattern)} {c d : Char}
    (h : table.all (fun e => e.2.ignores d || e.2.consumes && !e.2.starts c) = true)
    (s u : List Char) :
    firstOf table (c :: s ++ d :: u) =
      (firstOf table (c :: s)).map fun (a, m) => (a, m.before (d :: u)) := by
  refine firstOf_map (g := (·.before (d :: u))) fun e he => ?_
  have hp := List.all_eq_true.1 h e he
  simp only [Bool.or_eq_true, Bool.and_eq_true, Bool.not_eq_true'] at hp
  rcases hp with hp | ⟨hc, hs⟩
  · exact run_before hp (c :: s) u
  · rw [List.cons_append, run_of_starts hc hs, run_of_starts hc hs]
    rfl

/-- Only the patterns that the first character can start are tried. -/
theorem firstOf_cons {table : List (α × Pattern)} (ht : table.all (·.2.consumes) = true)
    (x : Char) (s : List Char) :
    firstOf table (x :: s) = firstOf (table.filter (·.2.starts x)) (x :: s) := by
  induction table with
  | nil => rfl
  | cons e table ih =>
    simp only [List.all_cons, Bool.and_eq_true] at ht
    have ih := ih ht.2
    simp only [firstOf] at ih ⊢
    cases hs : e.2.starts x with
    | true => simp only [List.findSome?_cons, List.filter_cons, hs, if_true, ih]
    | false => simp [run_of_starts ht.1 hs, hs, ih]

end Pattern

namespace Lexeme

/-- The characters that can stand right behind an expression. -/
def isStop (c : Char) : Bool := c == '\n' || c == ')' || c == ','

theorem rules_settle {c : Char} (h : isStop c = true) (b : Bool) :
    (rules b).all (·.pattern.settles c) = true := by
  simp only [isStop, Bool.or_eq_true, beq_iff_eq] at h
  rcases h with (rfl | rfl) | rfl <;> cases b <;> decide

/-- A lexeme is made of what was matched. -/
theorem make_before (b : Bool) :
    ∀ r ∈ rules b, ∀ (m : Match) (u : List Char), r.make (m.before u) = r.make m := by
  cases b <;> simp [rules, group, name]

/-- A lexeme does not depend on what stands behind the expression. -/
theorem next?_append {u : List Char} (h : ∀ c ∈ u.head?, isStop c = true) (b : Bool)
    {s : List Char} (hs : s ≠ []) :
    next? b (s ++ u) = (next? b s).map fun (l, m) => (l, m.before u) := by
  have hr : ∀ r ∈ rules b, ∀ c ∈ u.head?, r.pattern.settles c = true :=
    fun r hr c hc => List.all_eq_true.1 (rules_settle (h c hc) b) r hr
  have hm := make_before b
  unfold next?
  generalize rules b = rs at hr hm ⊢
  induction rs with
  | nil => rfl
  | cons r rs ih =>
    have hrun := Pattern.run_append_of_ne_nil (hr r (by simp)) hs
    simp only [List.findSome?_cons, hrun]
    cases r.pattern.run s with
    | none => exact ih (fun r h => hr r (by simp [h])) fun r h => hm r (by simp [h])
    | some m => simp [hm r (by simp)]

/-- No lexeme begins where the expression ends, but for a comma. -/
theorem next?_eq_none {c : Char} (h : c = '\n' ∨ c = ')') (b : Bool) (u : List Char) :
    next? b (c :: u) = none := by
  have hr : (rules b).all (fun r => r.pattern.consumes && r.pattern.ignores c) = true := by
    rcases h with rfl | rfl <;> cases b <;> decide
  simp only [next?, List.findSome?_eq_none_iff, Option.map_eq_none_iff]
  intro r hm
  have := List.all_eq_true.1 hr r hm
  simp only [Bool.and_eq_true] at this
  exact Pattern.run_eq_none this.1 this.2 u

/-- Only the rules that the first character can start are tried. -/
theorem next?_cons (b : Bool) (x : Char) (s : List Char) :
    next? b (x :: s) = ((rules b).filter (·.pattern.starts x)).findSome? fun r =>
      (r.pattern.run (x :: s)).map fun m => (r.make m, m) := by
  have hc := List.all_eq_true.1 (rules_consume b)
  unfold next?
  generalize rules b = rs at hc ⊢
  induction rs with
  | nil => rfl
  | cons r rs ih =>
    have ih := ih fun r h => hc r (by simp [h])
    cases hs : r.pattern.starts x with
    | true => simp only [List.findSome?_cons, List.filter_cons, hs, if_true, ih]
    | false =>
      have hr := Pattern.run_of_starts (hc r (by simp)) hs s
      simp [hr, hs, ih]

theorem next?_nil (b : Bool) : next? b [] = none := by cases b <;> rfl

end Lexeme
end Gamebook
