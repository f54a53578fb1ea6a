import Mathlib.Algebra.Group.Nat.Even
import Mathlib.Data.List.DropRight
import Gamebook.Proofs.Printing
import Gamebook.Source.Probe

/-!
String literals. A literal is closed by the first quote that no backslash takes for its own.
Backslashes take each other in pairs, so whether a quote is taken is told by how many of them
stand right before it. What was escaped is read back, and a literal is refused, at the end of
the source, exactly if there is no quote to close it.
-/
namespace Gamebook

/-- How many backslashes the text ends with. -/
def backslashes (s : List Char) : Nat := (s.rtakeWhile (· == '\\')).length

/-- A quote stands at the place, and the backslashes right before it stand in pairs. -/
def IsBareQuote (s : List Char) (i : Nat) : Prop :=
  s[i]? = some '"' ∧ Even (backslashes (s.take i))

/-- The first quote that no backslash takes. -/
def ClosesAt (s : List Char) (i : Nat) : Prop :=
  IsBareQuote s i ∧ ∀ j < i, ¬ IsBareQuote s j

instance (s : List Char) (i : Nat) : Decidable (IsBareQuote s i) :=
  inferInstanceAs (Decidable (_ ∧ _))

instance (s : List Char) (i : Nat) : Decidable (ClosesAt s i) :=
  inferInstanceAs (Decidable (_ ∧ _))

/-- The text without the backslashes that make the next character literal. -/
def unescaped : List Char → List Char
  | '\\' :: c :: s => c :: unescaped s
  | c :: s => c :: unescaped s
  | [] => []

theorem even_backslashes_append {a : List Char} (ha : Even (backslashes a)) (s : List Char) :
    Even (backslashes (a ++ s)) ↔ Even (backslashes s) := by
  simp only [backslashes, List.rtakeWhile, List.length_reverse] at ha ⊢
  rw [List.reverse_append, List.takeWhile_append]
  split
  · rename_i hall
    rw [List.length_append, Nat.even_add, hall]
    simp [ha]
  · rfl

/-- What stands before with its backslashes in pairs does not matter. -/
theorem isBareQuote_append {a : List Char} (ha : Even (backslashes a)) (s : List Char) (i : Nat) :
    IsBareQuote (a ++ s) (a.length + i) ↔ IsBareQuote s i := by
  rw [IsBareQuote, IsBareQuote, List.getElem?_append_right (Nat.le_add_right ..),
    Nat.add_sub_cancel_left, List.take_length_add_append, even_backslashes_append ha]

theorem ClosesAt.append {a : List Char} (ha : Even (backslashes a)) {s : List Char} {i : Nat}
    (hno : ∀ j < a.length, ¬ IsBareQuote (a ++ s) j) (h : ClosesAt s i) :
    ClosesAt (a ++ s) (a.length + i) := by
  refine ⟨(isBareQuote_append ha s i).2 h.1, fun j hj => ?_⟩
  by_cases hlt : j < a.length
  · exact hno j hlt
  · obtain ⟨k, rfl⟩ := Nat.exists_eq_add_of_le (Nat.le_of_not_lt hlt)
    rw [isBareQuote_append ha]
    exact h.2 k (by omega)

theorem ClosesAt.unique {s : List Char} {i j : Nat} (hi : ClosesAt s i) (hj : ClosesAt s j) :
    i = j := by
  rcases Nat.lt_trichotomy i j with h | h | h
  · exact absurd hi.1 (hj.2 i h)
  · exact h
  · exact absurd hj.1 (hi.2 j h)

/-- The ways to write a character in a literal: by itself, or behind a backslash. -/
inductive LiteralChar : List Char → Char → Prop
  | plain {c : Char} (hq : c ≠ '"') (hb : c ≠ '\\') : LiteralChar [c] c
  | escaped (c : Char) : LiteralChar ['\\', c] c

namespace LiteralChar

variable {a : List Char} {c : Char}

theorem even_backslashes (h : LiteralChar a c) : Even (backslashes a) := by
  cases h with
  | plain _ hb => simp [backslashes, List.rtakeWhile, hb]
  | escaped =>
    by_cases hb : c = '\\'
    · subst hb
      decide
    · simp [backslashes, List.rtakeWhile, hb]

/-- No quote in it closes the literal. -/
theorem not_isBareQuote (h : LiteralChar a c) (s : List Char) :
    ∀ j < a.length, ¬ IsBareQuote (a ++ s) j := by
  rintro j hj ⟨hquote, heven⟩
  cases h with
  | plain hq _ =>
    obtain rfl : j = 0 := by simpa using hj
    exact hq (by simpa using hquote)
  | escaped =>
    have hj : j < 2 := hj
    match j with
    | 0 => simp at hquote
    | 1 =>
      -- the backslash right before it stands alone
      have hodd : ¬ Even (backslashes ['\\']) := by decide
      exact hodd heven

theorem unescaped_append (h : LiteralChar a c) (s : List Char) :
    unescaped (a ++ s) = c :: unescaped s := by
  cases h with
  | plain _ hb => exact unescaped.eq_2 _ _ fun _ _ h => absurd h hb
  | escaped => rfl

end LiteralChar

/-- The reader of a literal takes one character after another. -/
theorem stringBody_induction {motive : List Char → Prop} (nil : motive [])
    (trailing : motive ['\\']) (quote : ∀ s, motive ('"' :: s))
    (char : ∀ a c s, LiteralChar a c →
      stringBody (a ++ s) = (c :: (stringBody s).1, (stringBody s).2) → motive s → motive (a ++ s))
    (s : List Char) : motive s := by
  fun_induction stringBody s with
  | case1 => exact nil
  | case2 s => exact quote s
  | case3 => exact trailing
  | case4 c s _ ih => exact char _ c s (.escaped c) rfl ih
  | case5 c s hq hlast hmore _ ih =>
    have hb : c ≠ '\\' := by
      rintro rfl
      cases s with
      | nil => exact hlast rfl rfl
      | cons d s => exact hmore d s rfl rfl
    exact char [c] c s (.plain hq hb) (stringBody.eq_5 c s hq hlast hmore) ih

/-- A literal that is closed: where it ends, and what it stands for. -/
theorem stringBody_some {s rest content : List Char} (h : stringBody s = (content, some rest)) :
    ∃ i, ClosesAt s i ∧ content = unescaped (s.take i) ∧ rest = s.drop (i + 1) := by
  induction s using stringBody_induction generalizing content with
  | nil => simp [stringBody] at h
  | trailing => simp [stringBody] at h
  | quote s =>
    cases h
    exact ⟨0, ⟨by simp [IsBareQuote, backslashes], by simp⟩, rfl, rfl⟩
  | char a c s ha hs ih =>
    rw [hs] at h
    obtain ⟨content, rfl⟩ : ∃ t, content = c :: t := ⟨_, (congrArg Prod.fst h).symm⟩
    simp only [Prod.mk.injEq, List.cons.injEq, true_and] at h
    obtain ⟨i, hi, hcontent, hrest⟩ := ih (Prod.ext h.1 h.2)
    refine ⟨a.length + i, hi.append ha.even_backslashes (ha.not_isBareQuote s), ?_, ?_⟩
    · rw [List.take_length_add_append, ha.unescaped_append, hcontent]
    · rw [Nat.add_assoc, List.drop_length_add_append, hrest]

/-- A literal that is not closed has no quote that closes it. -/
theorem stringBody_none {s : List Char} (h : (stringBody s).2 = none) (i : Nat) :
    ¬ IsBareQuote s i := by
  induction s using stringBody_induction generalizing i with
  | nil => simp [IsBareQuote]
  | trailing =>
    rintro ⟨hquote, -⟩
    match i with
    | 0 => simp at hquote
    | i + 1 => simp at hquote
  | quote s => simp [stringBody] at h
  | char a c s ha hs ih =>
    rw [hs] at h
    by_cases hlt : i < a.length
    · exact ha.not_isBareQuote s i hlt
    · obtain ⟨k, rfl⟩ := Nat.exists_eq_add_of_le (Nat.le_of_not_lt hlt)
      rw [isBareQuote_append ha.even_backslashes]
      exact ih h k

/-- Where a quote closes the literal, it is read up to there. -/
theorem stringBody_of_closesAt {s : List Char} {i : Nat} (h : ClosesAt s i) :
    stringBody s = (unescaped (s.take i), some (s.drop (i + 1))) := by
  rcases hb : stringBody s with ⟨content, rest⟩
  cases rest with
  | none => exact absurd h.1 (stringBody_none (congrArg Prod.snd hb) i)
  | some rest =>
    obtain ⟨j, hj, rfl, rfl⟩ := stringBody_some hb
    rw [h.unique hj]

theorem Read.string_ok {c d : Cursor} {text : String} (h : Read.string c = .ok text d) :
    ∃ i, ClosesAt c.rest i ∧ text = String.ofList (unescaped (c.rest.take i)) ∧
      d.rest = c.rest.drop (i + 1) := by
  unfold Read.string at h
  split at h
  · rename_i content rest hb
    cases h
    obtain ⟨i, hi, rfl, rfl⟩ := stringBody_some hb
    exact ⟨i, hi, rfl, rfl⟩
  · cases h

namespace Probe

variable {p : Probe}

/-- Inside its source a probe has taken what is not ahead. -/
theorem size_sub_length (hstart : 0 ≤ p.pos) (hend : p.pos ≤ p.size) {taken rest : List Char}
    (h : p.rest = taken ++ rest) : ((p.size - rest.length : Nat) : Int) = p.pos + taken.length := by
  have hlen := congrArg List.length h
  simp only [Probe.rest, start, Source.clamp, List.length_drop, List.length_append] at hlen
  have hsize : p.size = p.source.length := rfl
  omega

/-- A literal that is closed: the probe stands behind what was taken, and holds nothing. -/
theorem string_of_some (hstart : 0 ≤ p.pos) (hend : p.pos ≤ p.size)
    {content taken rest : List Char} (hb : stringBody p.rest = (content, some rest))
    (hrest : p.rest = taken ++ rest) :
    p.string = (.ok (String.ofList content), { p with
      pos := p.pos + taken.length, held := [], last := some ⟨['"'], [], rest⟩ }) := by
  simp only [string, hb, lead_of_nonneg hstart, List.nil_append, size_sub_length hstart hend hrest]

/-- A literal that is not closed is refused where the source ends. -/
theorem string_of_none (hend : p.pos ≤ p.size) (h : (stringBody p.rest).2 = none) :
    ∃ q, p.string =
      (.error (.complaint ⟨"Expecting end of string", p.source, p.size, p.filename⟩), q) := by
  rcases hb : stringBody p.rest with ⟨content, rest⟩
  obtain rfl : rest = none := by simpa [hb] using h
  have hmax : max p.pos p.size = p.size := Int.max_eq_right hend
  have hmessage : (Complaint.expecting .stringEnd).message = "Expecting end of string" := by decide
  simp only [string, hb, complain, hmax, hmessage]
  exact ⟨_, rfl⟩

/-- What was escaped is read back. A literal is read exactly if there is a quote that no backslash
takes; it ends behind the first one, and else it is refused at the end of the source. -/
theorem string_literal (hstart : 0 ≤ p.pos) (hend : p.pos ≤ p.size) :
    (∀ (v : String) (u : List Char), p.rest = escaped v.toList ++ '"' :: u →
      p.string = (.ok v, { p with
        pos := p.pos + (escaped v.toList).length + 1, held := [], last := some ⟨['"'], [], u⟩ })) ∧
    ((∃ text q, p.string = (.ok text, q)) ↔ ∃ i, IsBareQuote p.rest i) ∧
    (∀ i, ClosesAt p.rest i →
      p.string = (.ok (String.ofList (unescaped (p.rest.take i))), { p with
        pos := p.pos + i + 1, held := [], last := some ⟨['"'], [], p.rest.drop (i + 1)⟩ })) ∧
    ((∀ i, ¬ IsBareQuote p.rest i) → ∃ q, p.string =
      (.error (.complaint ⟨"Expecting end of string", p.source, p.size, p.filename⟩), q)) := by
  refine ⟨fun v u hrest => ?_, ⟨?_, ?_⟩, fun i hi => ?_, fun hnone => ?_⟩
  · have hbody : stringBody p.rest = (v.toList, some u) := hrest ▸ stringBody_escaped v.toList u
    have htaken : p.rest = (escaped v.toList ++ ['"']) ++ u := by simp [hrest]
    have h := string_of_some hstart hend hbody htaken
    simpa [Int.add_assoc] using h
  · rintro ⟨text, q, hq⟩
    cases hb : (stringBody p.rest).2 with
    | none =>
      obtain ⟨q', hq'⟩ := string_of_none hend hb
      cases hq.symm.trans hq'
    | some rest =>
      obtain ⟨i, hi, -, -⟩ := stringBody_some (Prod.ext rfl hb)
      exact ⟨i, hi.1⟩
  · rintro ⟨i, hi⟩
    cases hb : (stringBody p.rest).2 with
    | none => exact absurd hi (stringBody_none hb i)
    | some rest =>
      obtain ⟨taken, -, hrest⟩ := stringBody_suffix hb
      exact ⟨_, _, string_of_some hstart hend (Prod.ext rfl hb) hrest⟩
  · have hlt : i < p.rest.length := (List.getElem?_eq_some_iff.1 hi.1.1).1
    have h := string_of_some hstart hend (stringBody_of_closesAt hi)
      (List.take_append_drop (i + 1) p.rest).symm
    rw [List.length_take_of_le hlt] at h
    simpa [Int.add_assoc] using h
  · cases hb : (stringBody p.rest).2 with
    | none => exact string_of_none hend hb
    | some rest =>
      obtain ⟨i, hi, -, -⟩ := stringBody_some (Prod.ext rfl hb)
      exact absurd hi.1 (hnone i)

/-- Three backslashes and a quote in a literal: two of them make one, and the third takes the
quote. What was held before is gone. -/
theorem string_literal_backslashes :
    let p : Probe :=
      { source := "say \"a\\\\\\\"b\" twice".toList, filename := "", pos := 5, held := ['x'] }
    0 ≤ p.pos ∧ p.pos ≤ p.size ∧ ClosesAt p.rest 6 ∧
      p.string = (.ok "a\\\"b",
        { p with pos := 12, held := [], last := some ⟨['"'], [], " twice".toList⟩ }) := by
  intro p
  have hstart : 0 ≤ p.pos := by decide
  have hend : p.pos ≤ p.size := by decide
  have hclose : ClosesAt p.rest 6 := by decide
  exact ⟨hstart, hend, hclose, (string_literal hstart hend).2.2.1 6 hclose⟩

end Probe

end Gamebook
