import Gamebook.Proofs.Comments
import Gamebook.Proofs.Enclosure
import Gamebook.Proofs.Literals
import Gamebook.Proofs.Tokens

/-!
Reading a line loses nothing. The text that is taken is cut into the texts of the tokens, with
gaps of blanks and commas between them, and the end of the line; every token stands where its text
begins, and its text spells its content. What one part of a line takes is shown first, and then
what all of them take together.
-/
namespace Gamebook

open Grammar

/-- The number that a numeral stands for: digits are an integer, if they are not too many, and a
decimal is the double nearest to it. -/
inductive Numeral.Denotes : List Char → Number → Prop
  | integer {digits : List Char} (h : Made Char.isDigit digits) (hl : digits.length ≤ digitLimit) :
    Denotes digits (.int (digitsValue digits))
  | decimal {whole fraction : List Char} (hw : Made Char.isDigit whole)
    (hf : Made Char.isDigit fraction) :
    Denotes (whole ++ '.' :: fraction) (.real (decimal whole fraction))

/-- The text spells the content where `rest` follows it. Words and numbers go on as far as
they can. -/
inductive Content.Spelled (setting : Setting) : List Char → List Char → Content → Prop
  | string {body rest : List Char} (h : ClosesAt (body ++ '"' :: rest) body.length) :
    Spelled setting ('"' :: (body ++ ['"'])) rest (.string (String.ofList (unescaped body)))
  | number {text rest : List Char} {n : Number} (h : Numeral.Denotes text n)
    (hr : Free Char.isDigit rest) : Spelled setting text rest (.number n)
  | range {text a b rest : List Char} {low high : Number} (ha : Numeral.Denotes a low)
    (hb : Numeral.Denotes b high) (h : Between a b text) (hr : Free Char.isDigit rest) :
    Spelled setting text rest (.range ⟨low, high⟩)
  | variableName {name rest : List Char} (h : Made isWordChar name) (hr : Free isWordChar rest) :
    Spelled setting ('@' :: name) rest (.variableName (String.ofList name))
  | expression {inside : List Char} {e : Expr}
    (h : ∃ d, Expr.ofText setting inside = .ok e d ∧ d.rest = []) (rest : List Char) :
    Spelled setting ('(' :: (inside ++ [')'])) rest (.expression e)
  | word {name : String} {rest : List Char} (h : IsName name) (hr : Free isWordChar rest) :
    Spelled setting name.toList rest (.word name)

theorem Content.Spelled.ne_nil {setting : Setting} {text rest : List Char} {content : Content}
    (h : content.Spelled setting text rest) : text ≠ [] := by
  have hmade : ∀ {t : List Char} {n : Number}, Numeral.Denotes t n → t ≠ [] := by
    intro t n hn
    cases hn with
    | integer h => exact h.1
    | decimal => simp
  cases h with
  | string | variableName | expression => simp
  | number h => exact hmade h
  | range _ _ h =>
    obtain ⟨s, s', -, -, rfl⟩ := h
    simp
  | word h => exact h.1.1

namespace Line

/-- Blanks and commas only. -/
def IsGap (s : List Char) : Prop := ∀ x ∈ s, isBlank x = true ∨ x = ','

/-- What ends a line where `rest` follows it: a line break, with a comment before it or not, or
the end of the source, again with a comment or not. -/
inductive Ending : List Char → List Char → Prop
  | lineEnd (rest : List Char) : Ending ['\n'] rest
  | comment {text : List Char} (h : '\n' ∉ text) (rest : List Char) :
    Ending ('#' :: (text ++ ['\n'])) rest
  | lastComment {text : List Char} (h : '\n' ∉ text) : Ending ('#' :: text) []
  | source : Ending [] []

/-- The text that begins at `pos`, and that `rest` follows, is cut into the tokens of the line. -/
inductive Cut (setting : Setting) : Nat → List Char → List Char → Line → Prop
  | ending {gap stop rest : List Char} (pos : Nat) (hg : IsGap gap) (h : Ending stop rest) :
    Cut setting pos (gap ++ stop) rest []
  | token {pos : Nat} {gap text behind rest : List Char} {content : Content} {line : Line}
    (hg : IsGap gap) (ht : content.Spelled setting text (behind ++ rest))
    (h : Cut setting (pos + gap.length + text.length) behind rest line) :
    Cut setting pos (gap ++ (text ++ behind)) rest (⟨content, pos + gap.length⟩ :: line)

end Line

namespace Numeral

theorem Denotes.of_integer? {text : List Char} {n : Nat} (ht : Made Char.isDigit text)
    (h : integer? text = .ok n) : Denotes text (.int n) := by
  unfold integer? at h
  split at h
  · rename_i hl
    cases h
    exact .integer ht hl
  · cases h

theorem takeWhile_ne_point {a : List Char} (h : Made Char.isDigit a) (s : List Char) :
    (a ++ '.' :: s).takeWhile (· != '.') = a ∧ (a ++ '.' :: s).dropWhile (· != '.') = '.' :: s := by
  have ha : ∀ x ∈ a, (x != '.') = true := by
    intro x hx
    have hd := h.2 x hx
    rw [bne_iff_ne]
    rintro rfl
    simp at hd
  have hs : Free (· != '.') ('.' :: s) := by simp [Free]
  exact ⟨Pattern.takeWhile_of_free ha hs, Pattern.dropWhile_of_free ha hs⟩

theorem Denotes.of_number? {text : List Char} {n : Number} (ht : IsNumeral text)
    (h : number? text = .ok n) : Denotes text n := by
  rcases ht with ht | ⟨a, b, rfl, ha, hb⟩
  · rw [number?_of_digits ht] at h
    cases hi : integer? text with
    | error k =>
      rw [hi] at h
      cases h
    | ok k =>
      rw [hi] at h
      cases h
      exact .of_integer? ht hi
  · obtain ⟨hwhole, hfraction⟩ := takeWhile_ne_point ha b
    rw [number?, hfraction, hwhole] at h
    cases h
    exact .decimal ha hb

end Numeral

namespace Pattern

/-- Behind a match no character of the class comes next. -/
def StopsAt (q : Char → Bool) (p : Pattern) : Prop :=
  ∀ s m, p.run s = some m → Free q m.rest

namespace StopsAt

variable {q : Char → Bool} {a b : Pattern}

theorem span : (Pattern.span q).StopsAt q := fun _ _ => free_of_run_span

theorem capture (h : a.StopsAt q) : (Pattern.capture a).StopsAt q := by
  intro s m hm
  simp only [run] at hm
  split at hm
  · cases hm
  · rename_i k hk
    cases hm
    exact h s k hk

theorem seq (a : Pattern) (h : b.StopsAt q) : (Pattern.seq a b).StopsAt q := by
  intro s m hm
  simp only [run] at hm
  split at hm
  · cases hm
  · rename_i k hk
    split at hm
    · cases hm
    · rename_i n hn
      cases hm
      exact h k.rest n hn

theorem seq_optional (ha : a.StopsAt q) (hb : b.StopsAt q) :
    (Pattern.seq a (optional b)).StopsAt q := by
  intro s m hm
  simp only [optional, run] at hm
  split at hm
  · cases hm
  · rename_i k hk
    cases hn : b.run k.rest with
    | none =>
      simp only [hn] at hm
      cases hm
      exact ha s k hk
    | some n =>
      simp only [hn] at hm
      cases hm
      exact hb k.rest n hn

theorem numeral : Grammar.numeral.StopsAt Char.isDigit := span.seq_optional (span.seq _)

theorem range : Grammar.range.StopsAt Char.isDigit :=
  (((numeral.capture.seq _).seq _).seq _).seq _

theorem variableName : Grammar.variableName.StopsAt isWordChar := span.capture.seq _

end StopsAt

end Pattern

namespace Line

/-- What a part has taken of the text at the cursor. -/
def Part.Takes (setting : Setting) (c : Cursor) : Part → Prop
  | gap d => ∃ gap, IsGap gap ∧ c.rest = gap ++ d.rest
  | token t d =>
    t.offset = c.pos ∧ ∃ text, c.rest = text ++ d.rest ∧ t.content.Spelled setting text d.rest
  | finish d => ∃ stop, c.rest = stop ++ d.rest ∧ Ending stop d.rest
  | stop .. => True

variable {setting : Setting} {c : Cursor} {m : Match}

theorem string_takes (hc : c.rest = '"' :: m.rest) :
    (follow setting c.pos m (c.past m) .quote).Takes setting c := by
  simp only [follow]
  cases hr : Read.string (c.past m) with
  | error fault d => trivial
  | ok text d =>
    obtain ⟨i, hi, rfl, hrest⟩ := Read.string_ok hr
    rw [Cursor.rest_past] at hi hrest ⊢
    obtain ⟨hlt, hquote⟩ := List.getElem?_eq_some_iff.1 hi.1.1
    have hlen : (m.rest.take i).length = i := List.length_take_of_le hlt.le
    have hsplit : m.rest = m.rest.take i ++ '"' :: d.rest := by
      rw [hrest, ← hquote]
      simp
    refine ⟨rfl, '"' :: (m.rest.take i ++ ['"']), ?_, .string ?_⟩
    · rw [hc, List.cons_append, List.append_assoc]
      exact congrArg _ hsplit
    · rw [← hsplit, hlen]
      exact hi

theorem number_takes (hm : numeral.run c.rest = some m) :
    (follow setting c.pos m (c.past m) .number).Takes setting c := by
  simp only [follow]
  cases hn : Numeral.number? m.text with
  | error k => trivial
  | ok n =>
    have hnumeral := (shape_numeral (Pattern.run_shape hm)).1
    exact ⟨rfl, m.text, (Pattern.run_split hm).symm,
      .number (.of_number? hnumeral hn) (Pattern.StopsAt.numeral _ _ hm)⟩

theorem range_takes (hm : range.run c.rest = some m) :
    (follow setting c.pos m (c.past m) .range).Takes setting c := by
  obtain ⟨a, b, hg, ha, hb, ht⟩ := shape_between (fun _ _ => shape_numeral) (Pattern.run_shape hm)
  simp only [follow, rangeOf, hg, List.getD_cons_zero, List.getD_cons_succ]
  cases hlow : Numeral.number? a with
  | error k => trivial
  | ok low =>
    cases hhigh : Numeral.number? b with
    | error k => trivial
    | ok high =>
      exact ⟨rfl, m.text, (Pattern.run_split hm).symm,
        .range (.of_number? ha hlow) (.of_number? hb hhigh) ht (Pattern.StopsAt.range _ _ hm)⟩

theorem expression_takes (hc : c.rest = '(' :: m.rest) :
    (follow setting c.pos m (c.past m) .paren).Takes setting c := by
  simp only [follow]
  cases hr : Read.expr setting .parens (c.past m) with
  | error fault d => trivial
  | ok e d =>
    obtain ⟨inside, hinside, hread⟩ := Read.expr_inside hr
    have hinside : m.rest = inside ++ ')' :: d.rest := hinside
    exact ⟨rfl, '(' :: (inside ++ [')']), by simp [hc, hinside], .expression hread d.rest⟩

theorem comment_takes (hc : c.rest = '#' :: m.rest) :
    (follow setting c.pos m (c.past m) .comment).Takes setting c := by
  simp only [follow]
  by_cases hmem : '\n' ∈ m.rest
  · obtain ⟨text, rest, hrest, htext⟩ := List.eq_append_cons_of_mem hmem
    have hsearch := Pattern.search_lineEnd_of_not_mem htext rest
    rw [← hrest] at hsearch
    rw [Cursor.skipThrough_of_search hsearch]
    exact ⟨'#' :: (text ++ ['\n']), by simp [hc, hrest], .comment htext rest⟩
  · have hsearch := Pattern.search_lineEnd_eq_none hmem
    have hskip : ((c.past m).skipThrough lineEnd).rest = [] := by
      simp [Cursor.skipThrough, hsearch]
    refine ⟨'#' :: m.rest, by simp [hc, hskip], ?_⟩
    rw [hskip]
    exact .lastComment hmem

/-- What comes next on a line takes the text that it stands for. -/
theorem next_takes (setting : Setting) (c : Cursor) : (next setting c).Takes setting c := by
  unfold next
  split
  · rename_i lead m hm
    have hmade := lead?_madeOf hm
    obtain ⟨p, hp, hrun⟩ := Pattern.run_of_firstOf hm
    have hshape := Pattern.run_shape hrun
    have hsplit := (Pattern.run_split hrun).symm
    simp only [leads, List.mem_cons, Prod.mk.injEq, List.not_mem_nil, or_false] at hp
    cases lead with
    | gap =>
      obtain rfl | rfl : p = blanks ∨ p = comma := by simpa using hp
      · exact ⟨m.text, fun x hx => .inl ((Pattern.shape_span.1 hshape).1.2 x hx), hsplit⟩
      · exact ⟨m.text, by simp [IsGap, (Pattern.shape_char.1 hshape).1], hsplit⟩
    | quote =>
      obtain rfl : p = quote := by simpa using hp
      exact string_takes (by rw [hsplit, (Pattern.shape_char.1 hshape).1]; rfl)
    | range =>
      obtain rfl : p = range := by simpa using hp
      exact range_takes hrun
    | variableName =>
      obtain rfl : p = variableName := by simpa using hp
      obtain ⟨w, hg, hw, ht⟩ := shape_marked (fun _ _ => shape_word) hshape
      simp only [follow, hg, List.getD_cons_zero]
      exact ⟨rfl, '@' :: w, ht ▸ hsplit, .variableName hw (Pattern.StopsAt.variableName _ _ hrun)⟩
    | number =>
      obtain rfl : p = numeral := by simpa using hp
      exact number_takes hrun
    | paren =>
      obtain rfl : p = parenOpen := by simpa using hp
      exact expression_takes (by rw [hsplit, (Pattern.shape_char.1 hshape).1]; rfl)
    | word =>
      obtain rfl : p = word := by simpa using hp
      refine ⟨rfl, m.text, hsplit, ?_⟩
      have hspelled : Content.Spelled setting (String.ofList m.text).toList m.rest _ :=
        .word hmade (Pattern.free_of_run_span hrun)
      rwa [String.toList_ofList] at hspelled
    | lineEnd =>
      obtain rfl : p = Grammar.lineEnd := by simpa using hp
      exact ⟨['\n'], (Pattern.shape_char.1 hshape).1 ▸ hsplit, .lineEnd m.rest⟩
    | comment =>
      obtain rfl : p = comment := by simpa using hp
      exact comment_takes (by rw [hsplit, (Pattern.shape_char.1 hshape).1]; rfl)
  · split
    · rename_i hend
      have hnil : c.rest = [] := by simpa using hend
      exact ⟨[], rfl, hnil ▸ .source⟩
    · trivial

namespace Cut

variable {pos : Nat} {taken rest : List Char} {line : Line}

/-- A gap before the line. -/
theorem after_gap {gap : List Char} (hg : IsGap gap)
    (h : Cut setting (pos + gap.length) taken rest line) :
    Cut setting pos (gap ++ taken) rest line := by
  have hjoin : ∀ {more : List Char}, IsGap more → IsGap (gap ++ more) := by
    intro more hm x hx
    rcases List.mem_append.1 hx with hx | hx
    · exact hg x hx
    · exact hm x hx
  cases h with
  | ending _ hg' he =>
    rw [← List.append_assoc]
    exact .ending pos (hjoin hg') he
  | @token _ more text behind _ content line hg' ht h =>
    have hlen : pos + (gap ++ more).length = pos + gap.length + more.length := by
      simp [Nat.add_assoc]
    rw [← hlen] at h ⊢
    rw [← List.append_assoc]
    exact .token (hjoin hg') ht h

/-- No token stands before the text. -/
theorem le_offset (h : Cut setting pos taken rest line) : ∀ t ∈ line, pos ≤ t.offset := by
  induction h with
  | ending => simp
  | token _ _ _ ih =>
    rintro t ht
    rcases List.mem_cons.1 ht with rfl | ht
    · simp
    · have := ih t ht
      omega

theorem pairwise (h : Cut setting pos taken rest line) :
    line.Pairwise (fun t t' => t.offset < t'.offset) := by
  induction h with
  | ending => exact .nil
  | token _ ht h ih =>
    refine .cons (fun t hmem => ?_) ih
    have hle := h.le_offset t hmem
    have hpos := List.length_pos_iff.2 ht.ne_nil
    simp only
    omega

theorem isName (h : Cut setting pos taken rest line) :
    ∀ t ∈ line, ∀ name, t.content = .word name → IsName name := by
  induction h with
  | ending => simp
  | token _ ht _ ih =>
    intro t hmem name hname
    rcases List.mem_cons.1 hmem with rfl | hmem
    · cases hname
      cases ht with
      | word h => exact h
    · exact ih t hmem name hname

end Cut

/-- The tokens that are read from a cursor, behind those read before. -/
theorem readFrom_cut {c d : Cursor} {tokens line : List Token}
    (h : readFrom setting c tokens = .ok line d) :
    ∃ taken more, line = tokens.reverse ++ more ∧ c.rest = taken ++ d.rest ∧
      Cut setting c.pos taken d.rest more := by
  fun_induction readFrom setting c tokens with
  | case1 c tokens c' hn ih =>
    obtain ⟨taken, more, hline, hrest, hcut⟩ := ih h
    have htakes := next_takes setting c
    rw [hn] at htakes
    obtain ⟨gap, hgap, hc⟩ := htakes
    have hpos : c'.pos = c.pos + gap.length := (reaches_of_next hn).pos_eq hc
    rw [hpos] at hcut
    exact ⟨gap ++ taken, more, hline, by rw [hc, hrest, List.append_assoc], hcut.after_gap hgap⟩
  | case2 c tokens t c' hn ih =>
    obtain ⟨taken, more, hline, hrest, hcut⟩ := ih h
    have htakes := next_takes setting c
    rw [hn] at htakes
    obtain ⟨content, offset⟩ := t
    obtain ⟨hoffset, text, hc, hspelled⟩ := htakes
    obtain rfl : offset = c.pos := hoffset
    have hpos : c'.pos = c.pos + text.length := (reaches_of_next hn).pos_eq hc
    have hnone : IsGap [] := by simp [IsGap]
    rw [hpos] at hcut
    rw [hrest] at hspelled
    exact ⟨text ++ taken, _ :: more, by simp [hline], by rw [hc, hrest, List.append_assoc],
      .token hnone hspelled hcut⟩
  | case3 c tokens c' hn =>
    cases h
    have htakes := next_takes setting c
    rw [hn] at htakes
    obtain ⟨stop, hc, hstop⟩ := htakes
    have hnone : IsGap [] := by simp [IsGap]
    exact ⟨stop, [], by simp, hc, .ending c.pos hnone hstop⟩
  | case4 => cases h

end Line

namespace Read

/-- The text that reading a line takes is cut into its tokens, and nothing of it is left out. The
tokens stand one after another, and no word begins with a digit. -/
theorem line_lossless {setting : Setting} {c d : Cursor} {line : Line}
    (h : Read.line setting c = .ok line d) :
    ∃ taken, c.rest = taken ++ d.rest ∧ d.pos = c.pos + taken.length ∧
      Line.Cut setting c.pos taken d.rest line ∧
      line.Pairwise (fun t t' => t.offset < t'.offset) ∧
      ∀ t ∈ line, ∀ name, t.content = .word name → Free Char.isDigit name.toList := by
  obtain ⟨taken, more, hline, hrest, hcut⟩ := Line.readFrom_cut h
  obtain rfl : line = more := hline
  have hreach := Advances.line setting c
  rw [h] at hreach
  exact ⟨taken, hrest, hreach.pos_eq hrest, hcut, hcut.pairwise,
    fun t ht name hname => (hcut.isName t ht name hname).2⟩

/-- Digits before a word are a token of their own, a variable is closed by a quote, and what was
held before the line is in none of them. -/
theorem line_lossless_neighbours :
    let c : Cursor := ⟨40, " ,12abc@9x\"a\\\"\"2to 5#\"".toList, ['s', 't', 'a', 'l', 'e'], []⟩
    let line : Line := [⟨.number (.int 12), 42⟩, ⟨.word "abc", 44⟩, ⟨.variableName "9x", 47⟩,
      ⟨.string "a\"", 50⟩, ⟨.range ⟨.int 2, .int 5⟩, 55⟩]
    let d : Cursor := ⟨62, [], [], []⟩
    Read.line {} c = .ok line d ∧
      ∃ taken, c.rest = taken ++ d.rest ∧ d.pos = c.pos + taken.length ∧
        Line.Cut {} c.pos taken d.rest line ∧
        line.Pairwise (fun t t' => t.offset < t'.offset) ∧
        ∀ t ∈ line, ∀ name, t.content = .word name → Free Char.isDigit name.toList := by
  intro c line d
  have hread : Read.line {} c = .ok line d := by
    rw [Read.line, Line.readFrom_of_gap rfl, Line.readFrom_of_gap rfl, Line.readFrom_of_token rfl,
      Line.readFrom_of_token rfl, Line.readFrom_of_token rfl, Line.readFrom_of_token rfl,
      Line.readFrom_of_token rfl, Line.readFrom_of_finish rfl]
    rfl
  exact ⟨hread, line_lossless hread⟩

end Read

end Gamebook
