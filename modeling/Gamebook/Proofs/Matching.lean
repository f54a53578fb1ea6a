import Mathlib.Data.List.TakeWhile
import Gamebook.Line.Slot

/-!
The ways of taking tokens from a line agree. A sequence of slots is compared with the front of
the line as a whole and cut off in one piece; a slot that is taken as often as it matches has a
loop of its own. Both come to the same as taking one token for one slot, again and again.
-/
namespace Gamebook

theorem pieces_eq_splitOn (mark : Char) (s : List Char) : pieces mark s = s.splitOn mark := by
  induction s with
  | nil => rfl
  | cons c s ih =>
    obtain ⟨first, others, hs⟩ := List.exists_cons_of_ne_nil (List.splitOn_ne_nil mark s)
    rw [List.splitOn_cons_eq_if_modifyHead, pieces, ih, hs]
    cases c == mark <;> rfl

/-- Slots that are written with single blanks between them are read one by one. None of them may
have a blank of its own, but one may be empty: it stands between two blanks. -/
theorem Slot.sequence_intercalate {patterns : List String} (hne : patterns ≠ [])
    (hblank : ∀ p ∈ patterns, ' ' ∉ p.toList) :
    sequence (" ".intercalate patterns) = patterns.map fun p => ofText p.toList := by
  have hpieces : pieces ' ' (" ".intercalate patterns).toList = patterns.map String.toList := by
    rw [pieces_eq_splitOn, String.toList_intercalate]
    refine List.splitOn_intercalate ' ' ?_ (by simpa using hne)
    intro l hl
    obtain ⟨p, hp, rfl⟩ := List.mem_map.1 hl
    exact hblank p hp
  rw [sequence, hpieces, List.map_map]
  rfl

namespace Line

/-- Take one token for each slot, one after the other. -/
def eatInTurn : List Slot → Line → Option (List Content × Line)
  | [], line => some ([], line)
  | slot :: slots, line => do
    let content ← (line.eatOne slot).1
    let (contents, rest) ← eatInTurn slots (line.eatOne slot).2
    return (content :: contents, rest)

/-- Do the slots match the front of the line, each the token at its place? -/
def startsWith (slots : List Slot) (line : Line) : Bool :=
  slots.length ≤ line.length && (line.zip slots).all fun p => p.2.accepts p.1.content

theorem eatOne_of_accepts {slot : Slot} {t : Token} (h : slot.accepts t.content = true)
    (line : Line) : eatOne slot (t :: line) = (some t.content, line) :=
  if_pos h

theorem eatOne_of_not_accepts {slot : Slot} {t : Token} (h : ¬ slot.accepts t.content = true)
    (line : Line) : eatOne slot (t :: line) = (none, t :: line) :=
  if_neg h

theorem startsWith_cons (slot : Slot) (slots : List Slot) (t : Token) (line : Line) :
    startsWith (slot :: slots) (t :: line) = (slot.accepts t.content && startsWith slots line) := by
  simp only [startsWith, List.length_cons, List.zip_cons_cons, List.all_cons,
    Nat.add_le_add_iff_right]
  exact Bool.and_left_comm ..

/-- Slots that are taken in turn take the tokens at their places. -/
theorem eatInTurn_eq (slots : List Slot) (line : Line) :
    line.eatInTurn slots =
      if startsWith slots line then
        some ((line.take slots.length).map Token.content, line.drop slots.length)
      else none := by
  induction slots generalizing line with
  | nil => simp [eatInTurn, startsWith]
  | cons slot slots ih =>
    cases line with
    | nil => simp [eatInTurn, eatOne, startsWith]
    | cons t line =>
      rw [startsWith_cons]
      by_cases ht : slot.accepts t.content = true
      · rw [eatInTurn, eatOne_of_accepts ht, ih, ht, Bool.true_and]
        by_cases hs : startsWith slots line = true
        · simp [hs]
        · simp [hs]
      · rw [eatInTurn, eatOne_of_not_accepts ht]
        simp [ht]

theorem eat_eq (slots : List Slot) (line : Line) :
    line.eat slots =
      if startsWith slots line then
        (some ((line.take slots.length).map Token.content), line.drop slots.length)
      else (none, line) := by
  unfold eat startsWith
  by_cases hlength : line.length < slots.length
  · simp [hlength, Nat.not_le.2 hlength]
  · have hle := Nat.le_of_not_lt hlength
    simp only [hlength, hle, if_false, decide_true, Bool.true_and]

/-- A sequence takes what its slots take in turn, or leaves the line as it is. -/
theorem eat_eq_eatInTurn (slots : List Slot) (line : Line) :
    line.eat slots = ((line.eatInTurn slots).map Prod.fst,
      ((line.eatInTurn slots).map Prod.snd).getD line) := by
  rw [eat_eq, eatInTurn_eq]
  split <;> rfl

theorem eatAll_eq (slot : Slot) (line : Line) :
    line.eatAll slot = ((line.takeWhile fun t => slot.accepts t.content).map Token.content,
      line.dropWhile fun t => slot.accepts t.content) := by
  induction line with
  | nil => rfl
  | cons t line ih =>
    rw [eatAll, List.takeWhile_cons, List.dropWhile_cons, ih]
    split <;> rfl

theorem eatOne_eatAll (slot : Slot) (line : Line) :
    (line.eatAll slot).2.eatOne slot = (none, (line.eatAll slot).2) := by
  induction line with
  | nil => rfl
  | cons t line ih =>
    rw [eatAll]
    split
    · exact ih
    · rename_i ht
      exact eatOne_of_not_accepts ht line

theorem exists_eatInTurn_replicate (slot : Slot) (line : Line) :
    ∃ n, line.eatInTurn (List.replicate n slot) = some (line.eatAll slot) := by
  induction line with
  | nil => exact ⟨0, rfl⟩
  | cons t line ih =>
    by_cases ht : slot.accepts t.content = true
    · obtain ⟨n, hn⟩ := ih
      refine ⟨n + 1, ?_⟩
      rw [List.replicate_succ, eatInTurn, eatOne_of_accepts ht, hn, eatAll, if_pos ht]
      rfl
    · refine ⟨0, ?_⟩
      rw [eatAll, if_neg ht]
      rfl

/-- The longest front of the line that consists of tokens which the slot accepts. -/
structure Longest (slot : Slot) (line used : Line) : Prop where
  front : used <+: line
  accepted : ∀ t ∈ used, slot.accepts t.content = true
  greatest : ∀ other : Line, other <+: line → (∀ t ∈ other, slot.accepts t.content = true) →
    other <+: used

theorem longest_takeWhile (slot : Slot) (line : Line) :
    Longest slot line (line.takeWhile fun t => slot.accepts t.content) where
  front := List.takeWhile_prefix _
  accepted t ht := List.mem_takeWhile_imp (p := fun t : Token => slot.accepts t.content) ht
  greatest := by
    rintro other ⟨rest, rfl⟩ hother
    rw [List.takeWhile_append_of_pos hother]
    exact List.prefix_append ..

theorem head?_eatAll (slot : Slot) (line : Line) :
    ∀ t ∈ (line.eatAll slot).2.head?, slot.accepts t.content = false := by
  intro t ht
  obtain ⟨rest, hrest⟩ := List.head?_eq_some_iff.1 ht
  have hnone := eatOne_eatAll slot line
  rw [hrest] at hnone
  by_contra hne
  rw [eatOne_of_accepts (by simpa using hne)] at hnone
  simp at hnone

/-- Taking a sequence that is written with single blanks comes to taking its slots in turn; where
one of them does not match, the line stays as it is. Taking all comes to taking one until none
matches: the contents are those of the longest front of the line that matches, and the rest of
the line does not begin with a token that does. -/
theorem eat_agrees (line : Line) (patterns : List String) (hne : patterns ≠ [])
    (hblank : ∀ p ∈ patterns, ' ' ∉ p.toList) (pattern : String) :
    let inTurn := line.eatInTurn (patterns.map fun p => Slot.ofText p.toList)
    let slot := Slot.ofText pattern.toList
    let all := line.eatAll slot
    line.eat (Slot.sequence (" ".intercalate patterns)) =
        (inTurn.map Prod.fst, (inTurn.map Prod.snd).getD line) ∧
      (∃ n, line.eatInTurn (List.replicate n slot) = some all ∧
        all.2.eatOne slot = (none, all.2)) ∧
      ∃ used, Longest slot line used ∧ line = used ++ all.2 ∧ all.1 = used.map Token.content ∧
        ∀ t ∈ all.2.head?, slot.accepts t.content = false := by
  intro inTurn slot all
  refine ⟨?_, ?_, line.takeWhile fun t => slot.accepts t.content, longest_takeWhile slot line, ?_,
    ?_, head?_eatAll slot line⟩
  · rw [Slot.sequence_intercalate hne hblank]
    exact eat_eq_eatInTurn ..
  · obtain ⟨n, hn⟩ := exists_eatInTurn_replicate slot line
    exact ⟨n, hn, eatOne_eatAll slot line⟩
  · rw [show all = _ from eatAll_eq slot line]
    exact List.takeWhile_append_dropWhile.symm
  · rw [show all = _ from eatAll_eq slot line]

/-- Two words and a string: a keyword and a name are taken together, and with a second blank
between them nothing is; both words are taken by a slot that matches words. -/
theorem eat_agrees_words_and_string :
    let line : Line := [⟨.word "final", 0⟩, ⟨.word "vault", 6⟩, ⟨.string "A vault", 12⟩]
    (∀ p ∈ ["final", "", "%i"], ' ' ∉ p.toList) ∧
      line.eat (Slot.sequence (" ".intercalate ["final", "%i"])) =
        (some [.word "final", .word "vault"], [⟨.string "A vault", 12⟩]) ∧
      line.eat (Slot.sequence (" ".intercalate ["final", "", "%i"])) = (none, line) ∧
      ∃ used, Longest (.kind .word) line used ∧
        [.word "final", .word "vault"] = used.map Token.content := by
  intro line
  have hblank : ∀ p ∈ ["final", "", "%i"], ' ' ∉ p.toList := by simp
  obtain ⟨hmatch, -, used, hused, -, hcontents, -⟩ :=
    eat_agrees line ["final", "%i"] (by simp) (by simp) "%i"
  have hrefused := (eat_agrees line ["final", "", "%i"] (by simp) hblank "%i").1
  exact ⟨hblank, hmatch.trans rfl, hrefused.trans rfl, used, hused, hcontents⟩

end Line
end Gamebook
