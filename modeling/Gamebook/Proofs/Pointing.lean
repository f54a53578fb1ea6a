import Mathlib.Algebra.Ring.Nat
import Mathlib.Data.List.TakeWhile
import Mathlib.Tactic.NthRewrite
import Gamebook.Source.Diagnostic

/-!
A diagnostic points at the right character. Line, column and excerpt are computed by three
searches from the offset; against the list of the lines of the source they agree: the line that
is found is the line of that number, and all that stands before it, with the line breaks, and the
column add up to the offset.
-/
namespace Gamebook.Source

theorem length_splitOn (s : List Char) : (s.splitOn '\n').length = s.count '\n' + 1 := by
  induction s with
  | nil => rfl
  | cons x s ih =>
    rw [List.splitOn_cons_eq_if_modifyHead, List.count_cons]
    split
    · rw [List.length_cons, ih]
    · rw [List.length_modifyHead, ih]

/-- The lines of a text, each with a line break, are one line break longer than it. -/
theorem sum_splitOn (s : List Char) :
    ((s.splitOn '\n').map (·.length + 1)).sum = s.length + 1 := by
  induction s with
  | nil => rfl
  | cons x s ih =>
    rw [List.splitOn_cons_eq_if_modifyHead]
    split
    · rw [List.map_cons, List.sum_cons, ih, List.length_cons, List.length_nil]
      omega
    · obtain ⟨line, lines, hlines⟩ := List.exists_cons_of_ne_nil (List.splitOn_ne_nil '\n' s)
      rw [hlines, List.map_cons, List.sum_cons] at ih
      rw [hlines, List.modifyHead_cons, List.map_cons, List.sum_cons, List.length_cons,
        List.length_cons]
      omega

theorem not_mem_firstLine (s : List Char) : '\n' ∉ firstLine s := by
  intro h
  simpa using List.mem_takeWhile_imp h

/-- The first line ends with the text, or at the first line break. -/
theorem eq_firstLine_append (s : List Char) :
    firstLine s = s ∨ ∃ t, s = firstLine s ++ '\n' :: t := by
  have hs : firstLine s ++ s.dropWhile (· != '\n') = s := List.takeWhile_append_dropWhile
  cases hrest : s.dropWhile (· != '\n') with
  | nil => exact .inl (by simpa [hrest] using hs)
  | cons x t =>
    obtain rfl : x = '\n' := by
      simpa [hrest] using List.head?_dropWhile_not (· != '\n') s
    exact .inr ⟨t, by rw [← hrest, hs]⟩

theorem splitOn_eq_firstLine (s : List Char) : ∃ lines, s.splitOn '\n' = firstLine s :: lines := by
  have hfirst := not_mem_firstLine s
  rcases eq_firstLine_append s with hs | ⟨t, hs⟩
  · rw [hs] at hfirst ⊢
    exact ⟨[], List.splitOn_eq_singleton hfirst⟩
  · refine ⟨t.splitOn '\n', ?_⟩
    nth_rewrite 1 [hs]
    exact List.splitOn_append_cons_self_of_not_mem hfirst t

theorem not_mem_lastLine (s : List Char) : '\n' ∉ lastLine s := by
  rw [lastLine, List.mem_reverse]
  exact not_mem_firstLine s.reverse

/-- The last line begins with the text, or behind the last line break. -/
theorem eq_append_lastLine (s : List Char) :
    lastLine s = s ∨ ∃ t, s = t ++ '\n' :: lastLine s := by
  rcases eq_firstLine_append s.reverse with hs | ⟨t, hs⟩
  · exact .inl (List.reverse_eq_iff.2 hs)
  · refine .inr ⟨t.reverse, ?_⟩
    have hrev := congrArg List.reverse hs
    rw [List.reverse_reverse] at hrev
    simpa [lastLine, firstLine] using hrev

/-- A line that ends in `s` and goes on in `u` is the one behind as many lines as `s` has line
breaks, and it begins behind them. -/
theorem splitOn_append (s u : List Char) :
    ∃ before after, (s ++ u).splitOn '\n' = before ++ (lastLine s ++ firstLine u) :: after ∧
      before.length = s.count '\n' ∧
      (before.map (·.length + 1)).sum + (lastLine s).length = s.length := by
  have hlast := not_mem_lastLine s
  have hline : firstLine (lastLine s ++ u) = lastLine s ++ firstLine u := by
    refine List.takeWhile_append_of_pos fun x hx => ?_
    simpa using ne_of_mem_of_not_mem hx hlast
  obtain ⟨after, hafter⟩ := splitOn_eq_firstLine (lastLine s ++ u)
  rw [hline] at hafter
  rcases eq_append_lastLine s with hs | ⟨t, hs⟩
  · rw [hs] at hafter hlast ⊢
    exact ⟨[], after, hafter, (List.count_eq_zero.2 hlast).symm, by simp⟩
  · refine ⟨t.splitOn '\n', after, ?_, ?_, ?_⟩
    · nth_rewrite 1 [hs]
      rw [List.append_assoc, List.cons_append, List.splitOn_append_cons_self, hafter]
    · have hcount := congrArg (List.count '\n') hs
      rw [List.count_append, List.count_cons_self, List.count_eq_zero.2 hlast] at hcount
      rw [length_splitOn, hcount]
    · have hlength := congrArg List.length hs
      rw [List.length_append, List.length_cons] at hlength
      rw [sum_splitOn]
      omega

/-- The offset of a place: all lines before it with their line breaks, and the column. -/
def offsetOf (source : List Char) (place : Location) : Nat :=
  (((source.splitOn '\n').take (place.line - 1)).map (·.length + 1)).sum + place.column

/-- The character at the offset, unless that is a line break. -/
def marked (source : List Char) (o : Nat) : List Char := (source[o]?.filter (· != '\n')).toList

variable (source : List Char) (offset : Int)

/-- The line of a place has its number, and it begins where all lines before it end. -/
theorem place_line :
    ∃ before after, source.splitOn '\n' = before ++ lineAt source offset :: after ∧
      (place source offset).line = before.length + 1 ∧
      (before.map (·.length + 1)).sum + (place source offset).column =
        clamp source.length offset := by
  obtain ⟨before, after, hlines, hlength, hsum⟩ :=
    splitOn_append (source.take (clamp source.length offset))
      (source.drop (clamp source.length offset))
  rw [List.take_append_drop] at hlines
  rw [List.length_take_of_le (clamp_le ..)] at hsum
  exact ⟨before, after, hlines, by rw [hlength]; rfl, hsum⟩

theorem getElem?_line :
    (source.splitOn '\n')[(place source offset).line - 1]? = some (lineAt source offset) := by
  obtain ⟨before, after, hlines, hline, -⟩ := place_line source offset
  simp [hlines, hline]

theorem offsetOf_place : offsetOf source (place source offset) = clamp source.length offset := by
  obtain ⟨before, after, hlines, hline, hsum⟩ := place_line source offset
  simpa [offsetOf, hlines, hline] using hsum

/-- Two offsets in the source have two places. -/
theorem place_injective {m n : Nat} (hm : m ≤ source.length) (hn : n ≤ source.length)
    (h : place source m = place source n) : m = n := by
  rw [← clamp_ofNat hm, ← clamp_ofNat hn, ← offsetOf_place, ← offsetOf_place, h]

/-- The column cuts the line at the offset. -/
theorem lineAt_cut :
    (lineAt source offset).take (place source offset).column =
        lastLine (source.take (clamp source.length offset)) ∧
      (lineAt source offset).drop (place source offset).column =
        firstLine (source.drop (clamp source.length offset)) := by
  simp [lineAt, place]

theorem column_le : (place source offset).column ≤ (lineAt source offset).length := by
  simp [lineAt, place]

/-- What the line has at the column is the character at the offset. -/
theorem take_one_drop_column :
    ((lineAt source offset).drop (place source offset).column).take 1 =
      marked source (clamp source.length offset) := by
  rw [(lineAt_cut source offset).2, marked, ← List.head?_drop]
  cases source.drop (clamp source.length offset) with
  | nil => rfl
  | cons x s => by_cases hx : x = '\n' <;> simp [firstLine, hx, Option.filter]

/-- The line goes on behind the character, if there is one. -/
theorem drop_column_succ :
    (lineAt source offset).drop ((place source offset).column + 1) =
      (lineAt source offset).drop ((place source offset).column +
        (marked source (clamp source.length offset)).length) := by
  rw [← take_one_drop_column, ← List.drop_drop, ← List.drop_drop]
  cases (lineAt source offset).drop (place source offset).column <;> rfl

/-- Without the markers the excerpt is the line. -/
theorem lineAt_eq :
    (lineAt source offset).take (place source offset).column ++
        marked source (clamp source.length offset) ++
      (lineAt source offset).drop ((place source offset).column +
        (marked source (clamp source.length offset)).length) = lineAt source offset := by
  rw [← drop_column_succ, ← take_one_drop_column, ← List.drop_drop, List.append_assoc,
    List.take_append_drop, List.take_append_drop]

end Gamebook.Source

namespace Gamebook.Diagnostic

/-- A diagnostic has the line, the column and the excerpt of the offset that is nearest to its
position, and no other offset has this line and column. -/
theorem pinpoints (d : Diagnostic) :
    let o := Source.clamp d.source.length d.position
    let lines := d.source.splitOn '\n'
    let marked := Source.marked d.source o
    (o : Int) = max 0 (min d.position d.source.length) ∧
    (∃ l c line, Source.place d.source d.position = ⟨l, c⟩ ∧
      1 ≤ l ∧ l ≤ lines.length ∧ lines[l - 1]? = some line ∧ c ≤ line.length ∧
      ((lines.take (l - 1)).map (·.length + 1)).sum + c = o ∧
      Source.lineAt d.source d.position = line ∧
      Source.excerpt d.source d.position =
        line.take c ++ ">>>".toList ++ marked ++ "<<<".toList ++ line.drop (c + marked.length) ∧
      line.take c ++ marked ++ line.drop (c + marked.length) = line ∧
      d.line = l ∧ d.column = c ∧ d.offset = c + 1 ∧ d.text = String.ofList line ∧
      d.context = String.ofList (Source.excerpt d.source d.position)) ∧
    ∀ m n : Nat, m ≤ d.source.length → n ≤ d.source.length →
      Source.place d.source m = Source.place d.source n → m = n := by
  intro o lines marked
  have ho : (o : Int) = max 0 (min d.position d.source.length) := by
    simp only [o, Source.clamp]
    omega
  have hline : lines[(Source.place d.source d.position).line - 1]? =
      some (Source.lineAt d.source d.position) := Source.getElem?_line ..
  have hle : (Source.place d.source d.position).line ≤ lines.length :=
    Nat.le_of_pred_lt (List.getElem?_eq_some_iff.1 hline).1
  have hexcerpt : Source.excerpt d.source d.position =
      (Source.lineAt d.source d.position).take (Source.place d.source d.position).column ++
        ">>>".toList ++ marked ++ "<<<".toList ++ (Source.lineAt d.source d.position).drop
          ((Source.place d.source d.position).column + marked.length) := by
    rw [Source.excerpt, Source.take_one_drop_column, Source.drop_column_succ]
  refine ⟨ho, ⟨_, _, _, rfl, Nat.succ_pos _, hle, hline, Source.column_le ..,
    Source.offsetOf_place .., rfl, hexcerpt, Source.lineAt_eq .., rfl, rfl, rfl, rfl, rfl⟩, ?_⟩
  intro m n hm hn h
  exact Source.place_injective _ hm hn h

/-- A line break and what stands behind it have two places. -/
theorem pinpoints_line_break :
    let d : Diagnostic := ⟨"Unexpected token", "one\ntwo\n".toList, 99, "game"⟩
    7 ≤ d.source.length ∧ 8 ≤ d.source.length ∧
      Source.place d.source 7 ≠ Source.place d.source 8 := by
  intro d
  have hbreak : 7 ≤ d.source.length := by decide
  have hbehind : 8 ≤ d.source.length := by decide
  refine ⟨hbreak, hbehind, fun h => ?_⟩
  exact absurd ((pinpoints d).2.2 7 8 hbreak hbehind h) (by decide)

/-- At the end of a line there is nothing to mark, and before it the last character is. -/
example : (Source.excerpt "one\ntwo\n".toList 7, Source.excerpt "one\ntwo\n".toList 6,
    Source.excerpt "one\ntwo\n".toList 99) =
      ("two>>><<<".toList, "tw>>>o<<<".toList, ">>><<<".toList) := by
  decide

end Gamebook.Diagnostic
