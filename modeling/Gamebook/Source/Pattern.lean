/-!
Text patterns. A pattern looks at the text ahead and either refuses it or cuts
it in two: the matched text, with the parts captured on the way, and the rest.
Repetition is greedy and a choice takes its first branch that matches; nothing
is ever tried again, so matching runs down the pattern once.
-/
namespace Gamebook

inductive Pattern where
  /-- The empty text. -/
  | empty
  /-- One character of a class. -/
  | one (accepts : Char → Bool)
  /-- As many characters of a class as there are. -/
  | many (accepts : Char → Bool)
  | seq (first second : Pattern)
  | choice (first second : Pattern)
  | capture (inner : Pattern)
  /-- The empty text where no character of the class comes next. -/
  | absent (refuses : Char → Bool)
  /-- The empty text at the end of the source. -/
  | finish

structure Match where
  text : List Char
  groups : List (List Char)
  rest : List Char
  deriving DecidableEq, Repr

namespace Pattern

def run : Pattern → List Char → Option Match
  | empty, s => some ⟨[], [], s⟩
  | one _, [] => none
  | one p, c :: s => if p c then some ⟨[c], [], s⟩ else none
  | many p, s => some ⟨s.takeWhile p, [], s.dropWhile p⟩
  | seq a b, s =>
    match a.run s with
    | none => none
    | some m =>
      match b.run m.rest with
      | none => none
      | some n => some ⟨m.text ++ n.text, m.groups ++ n.groups, n.rest⟩
  | choice a b, s =>
    match a.run s with
    | none => b.run s
    | some m => some m
  | capture a, s =>
    match a.run s with
    | none => none
    | some m => some { m with groups := m.text :: m.groups }
  | absent _, [] => some ⟨[], [], []⟩
  | absent p, c :: s => if p c then none else some ⟨[], [], c :: s⟩
  | finish, [] => some ⟨[], [], []⟩
  | finish, _ :: _ => none

/-- The first match ahead, with the text passed over to reach it. -/
def search (p : Pattern) : List Char → Option (List Char × Match)
  | [] => (p.run []).map ([], ·)
  | c :: s =>
    match p.run (c :: s) with
    | some m => some ([], m)
    | none => (p.search s).map fun (skipped, m) => (c :: skipped, m)

def char (c : Char) : Pattern := one (· == c)

/-- The characters of a text one after another, each through `accepts`. -/
def spell (accepts : Char → Char → Bool) : List Char → Pattern
  | [] => empty
  | [c] => one (accepts c)
  | c :: cs => seq (one (accepts c)) (spell accepts cs)

def literal (text : String) : Pattern :=
  spell (fun c d => d == c) text.toList

/-- One or more characters of a class. -/
def span (accepts : Char → Bool) : Pattern :=
  seq (one accepts) (many accepts)

def optional (p : Pattern) : Pattern := choice p empty

/-- A match splits the text ahead. -/
theorem run_split {p : Pattern} {s : List Char} {m : Match} (h : p.run s = some m) :
    m.text ++ m.rest = s := by
  induction p generalizing s m with
  | empty => simp_all [run]; subst h; rfl
  | one p =>
    cases s with
    | nil => simp [run] at h
    | cons c s =>
      simp only [run] at h
      split at h <;> simp_all
      subst h; rfl
  | many p =>
    simp only [run, Option.some.injEq] at h
    subst h
    simp
  | seq a b iha ihb =>
    simp only [run] at h
    split at h
    · simp at h
    · rename_i m₁ h₁
      split at h
      · simp at h
      · rename_i m₂ h₂
        simp only [Option.some.injEq] at h
        subst h
        simp [← iha h₁, ← ihb h₂]
  | choice a b iha ihb =>
    simp only [run] at h
    split at h
    · exact ihb h
    · rename_i m₁ h₁
      simp only [Option.some.injEq] at h
      exact iha (h ▸ h₁)
  | capture a iha =>
    simp only [run] at h
    split at h
    · simp at h
    · rename_i m₁ h₁
      simp only [Option.some.injEq] at h
      subst h
      simpa using iha h₁
  | absent p =>
    cases s with
    | nil => simp only [run, Option.some.injEq] at h; subst h; rfl
    | cons c s =>
      simp only [run] at h
      split at h <;> simp_all
      subst h; rfl
  | finish =>
    cases s with
    | nil => simp only [run, Option.some.injEq] at h; subst h; rfl
    | cons c s => simp [run] at h

theorem run_length {p : Pattern} {s : List Char} {m : Match} (h : p.run s = some m) :
    m.text.length + m.rest.length = s.length := by
  simp [← run_split h]

/-- Every match of such a pattern takes at least one character. -/
def consumes : Pattern → Bool
  | empty | many _ | absent _ | finish => false
  | one _ => true
  | seq a b => a.consumes || b.consumes
  | choice a b => a.consumes && b.consumes
  | capture a => a.consumes

theorem text_ne_nil {p : Pattern} {s : List Char} {m : Match} (hp : p.consumes = true)
    (h : p.run s = some m) : m.text ≠ [] := by
  induction p generalizing s m with
  | empty | many | absent | finish => simp [consumes] at hp
  | one p =>
    cases s with
    | nil => simp [run] at h
    | cons c s =>
      simp only [run] at h
      split at h <;> simp_all
      subst h; simp
  | seq a b iha ihb =>
    simp only [run] at h
    split at h
    · simp at h
    · rename_i m₁ h₁
      split at h
      · simp at h
      · rename_i m₂ h₂
        simp only [Option.some.injEq] at h
        subst h
        simp only [consumes, Bool.or_eq_true] at hp
        rcases hp with hp | hp
        · simp [iha hp h₁]
        · simp [ihb hp h₂]
  | choice a b iha ihb =>
    simp only [consumes, Bool.and_eq_true] at hp
    simp only [run] at h
    split at h
    · exact ihb hp.2 h
    · rename_i m₁ h₁
      simp only [Option.some.injEq] at h
      exact iha hp.1 (h ▸ h₁)
  | capture a iha =>
    simp only [run] at h
    split at h
    · simp at h
    · rename_i m₁ h₁
      simp only [Option.some.injEq] at h
      subst h
      simpa using iha hp h₁

theorem run_length_lt {p : Pattern} {s : List Char} {m : Match} (hp : p.consumes = true)
    (h : p.run s = some m) : m.rest.length < s.length := by
  have := run_length h
  have := List.length_pos_iff.2 (text_ne_nil hp h)
  omega

/-- Where text is left, every match of such a pattern takes some of it. -/
def progresses : Pattern → Bool
  | empty | many _ | absent _ => false
  | one _ | finish => true
  | seq a b => a.progresses || b.progresses
  | choice a b => a.progresses && b.progresses
  | capture a => a.progresses

theorem text_ne_nil_of_progresses {p : Pattern} {s : List Char} {m : Match}
    (hp : p.progresses = true) (hs : s ≠ []) (h : p.run s = some m) : m.text ≠ [] := by
  induction p generalizing s m with
  | empty | many | absent => simp [progresses] at hp
  | one p => exact text_ne_nil rfl h
  | finish =>
    cases s with
    | nil => exact absurd rfl hs
    | cons c s => simp [run] at h
  | seq a b iha ihb =>
    simp only [run] at h
    split at h
    · simp at h
    · rename_i m₁ h₁
      split at h
      · simp at h
      · rename_i m₂ h₂
        simp only [Option.some.injEq] at h
        subst h
        simp only [progresses, Bool.or_eq_true] at hp
        rcases hp with hp | hp
        · simp [iha hp hs h₁]
        · by_cases hm : m₁.rest = []
          · have := run_split h₁
            simp_all
          · simp [ihb hp hm h₂]
  | choice a b iha ihb =>
    simp only [progresses, Bool.and_eq_true] at hp
    simp only [run] at h
    split at h
    · exact ihb hp.2 hs h
    · rename_i m₁ h₁
      simp only [Option.some.injEq] at h
      exact iha hp.1 hs (h ▸ h₁)
  | capture a iha =>
    simp only [run] at h
    split at h
    · simp at h
    · rename_i m₁ h₁
      simp only [Option.some.injEq] at h
      subst h
      simpa using iha hp hs h₁

theorem run_length_lt_of_progresses {p : Pattern} {s : List Char} {m : Match}
    (hp : p.progresses = true) (hs : s ≠ []) (h : p.run s = some m) :
    m.rest.length < s.length := by
  have := run_length h
  have := List.length_pos_iff.2 (text_ne_nil_of_progresses hp hs h)
  omega

/-- The first of several patterns that comes next. -/
def firstOf (table : List (α × Pattern)) (s : List Char) : Option (α × Match) :=
  table.findSome? fun (a, p) => (p.run s).map fun m => (a, m)

theorem run_of_firstOf {table : List (α × Pattern)} {s : List Char} {a : α} {m : Match}
    (h : firstOf table s = some (a, m)) : ∃ p, (a, p) ∈ table ∧ p.run s = some m := by
  obtain ⟨⟨b, p⟩, hp, h⟩ := List.exists_of_findSome?_eq_some h
  simp only [Option.map_eq_some_iff, Prod.mk.injEq] at h
  obtain ⟨m', hm, rfl, rfl⟩ := h
  exact ⟨p, hp, hm⟩

theorem search_split {p : Pattern} {s skipped : List Char} {m : Match}
    (h : p.search s = some (skipped, m)) : skipped ++ m.text ++ m.rest = s := by
  induction s generalizing skipped m with
  | nil =>
    simp only [search, Option.map_eq_some_iff] at h
    obtain ⟨m', h, heq⟩ := h
    cases heq
    simpa using run_split h
  | cons c s ih =>
    simp only [search] at h
    split at h
    · rename_i m' h'
      cases h
      simpa using run_split h'
    · simp only [Option.map_eq_some_iff] at h
      obtain ⟨⟨k, m'⟩, h, heq⟩ := h
      cases heq
      simpa using ih h

end Pattern
end Gamebook
