import Gamebook.Proofs.Printing
import Gamebook.Proofs.Shapes

/-!
What the tokens of a line are made of: the parts that their patterns capture are there, and a
word does not begin with a digit because a number would have been read in its place.
-/
namespace Gamebook.Line

open Grammar

/-- What the match of a lead holds. -/
def Lead.MadeOf (m : Match) : Lead → Prop
  | range => ∃ a b, m.groups = [a, b] ∧ IsNumeral a ∧ IsNumeral b
  | variableName => ∃ w, m.groups = [w] ∧ Made isWordChar w
  | number => IsNumeral m.text
  | word => IsName (String.ofList m.text)
  | gap | quote | paren | lineEnd | comment => True

/-- Where a digit comes next a number is read. -/
theorem free_of_numeral_run {s : List Char} (h : numeral.run s = none) : Free Char.isDigit s := by
  intro x hx
  cases s with
  | nil => simp at hx
  | cons y s =>
    cases hx
    cases hd : x.isDigit with
    | false => rfl
    | true =>
      have hdigits : digits.run (x :: s) =
          some ⟨x :: s.takeWhile Char.isDigit, [], s.dropWhile Char.isDigit⟩ := by
        simp [digits, Pattern.span, Pattern.run, hd]
      simp only [numeral, Pattern.optional, Pattern.run, hdigits] at h
      split at h
      · rename_i hnone
        split at hnone <;> simp at hnone
      · simp at h

theorem lead?_word {s : List Char} {m : Match} (h : lead? s = some (.word, m)) :
    numeral.run s = none := by
  cases hn : numeral.run s with
  | none => rfl
  | some n =>
    simp only [lead?, Pattern.firstOf, leads, List.findSome?_cons, hn, Option.map_some] at h
    -- Whichever of the earlier leads matches, the result is not a word.
    cases hb : blanks.run s with
    | some => simp [hb] at h
    | none =>
      cases hc : comma.run s with
      | some => simp [hb, hc] at h
      | none =>
        cases hq : quote.run s with
        | some => simp [hb, hc, hq] at h
        | none =>
          cases hr : Grammar.range.run s with
          | some => simp [hb, hc, hq, hr] at h
          | none =>
            cases hv : Grammar.variableName.run s <;> simp [hb, hc, hq, hr, hv] at h

theorem lead?_madeOf {s : List Char} {lead : Lead} {m : Match} (h : lead? s = some (lead, m)) :
    lead.MadeOf m := by
  obtain ⟨p, hp, hm⟩ := Pattern.run_of_firstOf h
  have hs := Pattern.run_shape hm
  simp only [leads, List.mem_cons, Prod.mk.injEq, List.not_mem_nil, or_false] at hp
  cases lead with
  | range =>
    obtain rfl : p = Grammar.range := by simpa using hp
    obtain ⟨a, b, hg, ha, hb, -⟩ := shape_between (fun _ _ => shape_numeral) hs
    exact ⟨a, b, hg, ha, hb⟩
  | variableName =>
    obtain rfl : p = Grammar.variableName := by simpa using hp
    obtain ⟨w, hg, hw, -⟩ := shape_marked (fun _ _ => shape_word) hs
    exact ⟨w, hg, hw⟩
  | number =>
    obtain rfl : p = Grammar.numeral := by simpa using hp
    exact (shape_numeral hs).1
  | word =>
    obtain rfl : p = Grammar.word := by simpa using hp
    have hw := (shape_word hs).1
    have hfree := free_of_numeral_run (lead?_word h)
    rw [← Pattern.run_split hm] at hfree
    obtain ⟨x, t, ht, -, -⟩ := hw.exists_cons
    rw [Lead.MadeOf, IsName, String.toList_ofList]
    refine ⟨hw, ?_⟩
    rw [ht] at hfree ⊢
    exact hfree
  | gap | quote | paren | lineEnd | comment => trivial

end Gamebook.Line
