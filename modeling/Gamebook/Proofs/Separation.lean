import Gamebook.Proofs.Lines

/-!
Contents with commas between them. A comma keeps any two tokens apart, with blanks around it or
not: no number goes on to a range, no word to a longer one. So a list of contents that is written
with commas is read back as it is, up to the end of its line.
-/
namespace Gamebook

open Grammar

namespace Line

/-- A content with the blanks around it. -/
structure Item where
  before : List Char
  content : Content
  behind : List Char

structure Item.Printable (setting : Setting) (i : Item) : Prop where
  before : ∀ x ∈ i.before, isBlank x = true
  content : i.content.Printable setting
  behind : ∀ x ∈ i.behind, isBlank x = true

def Item.text (i : Item) : List Char := i.before ++ (i.content.print ++ i.behind)

/-- The items with commas between them. -/
def separated : List Item → List Char
  | [] => []
  | [i] => i.text
  | i :: is => i.text ++ ',' :: separated is

variable {setting : Setting} {u : List Char} {c : Cursor}

theorem lead?_blanks {w : List Char} (hw : Made isBlank w) (hu : Free isBlank u) :
    lead? (w ++ u) = some (.gap, ⟨w, [], u⟩) := by
  have hrun : blanks.run (w ++ u) = some ⟨w, [], u⟩ := Pattern.run_span hw hu
  simp [lead?, leads, Pattern.firstOf, hrun]

/-- Blanks on a line are passed over. -/
theorem readFrom_blanks (setting : Setting) {w : List Char} (hw : ∀ x ∈ w, isBlank x = true)
    (hu : Free isBlank u) (hc : c.rest = w ++ u) :
    ∃ d, d.rest = u ∧ ∀ tokens, readFrom setting c tokens = readFrom setting d tokens := by
  by_cases hnil : w = []
  · exact ⟨c, by simp [hc, hnil], fun _ => rfl⟩
  · have hl := lead?_blanks ⟨hnil, hw⟩ hu
    rw [← hc] at hl
    exact ⟨c.past ⟨w, [], u⟩, rfl, readFrom_of_gap (next_of_lead hl)⟩

/-- An item is read with the blanks around it, up to the comma or the line break behind it. -/
theorem readFrom_item {i : Item} (hi : i.Printable setting) {x : Char} (hx : x = ',' ∨ x = '\n')
    (hc : c.rest = i.text ++ x :: u) :
    ∃ d offset, d.rest = x :: u ∧
      ∀ tokens, readFrom setting c tokens = readFrom setting d (⟨i.content, offset⟩ :: tokens) := by
  have hblank : Free isBlank (x :: u) := by rcases hx with rfl | rfl <;> simp [Free, isBlank]
  have hword : Free (fun y => isWordChar y || y == '.') (i.behind ++ x :: u) := by
    cases hb : i.behind with
    | nil => rcases hx with rfl | rfl <;> simp [Free, isWordChar]
    | cons b w =>
      have hblank := hi.behind b (by simp [hb])
      simp only [isBlank, Bool.or_eq_true, beq_iff_eq] at hblank
      rcases hblank with rfl | rfl <;> simp [Free, isWordChar]
  have hrange : NoRange (i.behind ++ x :: u) := by
    rw [NoRange, Pattern.dropWhile_of_free hi.behind hblank]
    rcases hx with rfl | rfl <;> simp
  obtain ⟨c₁, hc₁, hr₁⟩ := readFrom_blanks setting (c := c) hi.before
    (free_isBlank_print hi.content (i.behind ++ x :: u)) (by simpa [Item.text] using hc)
  obtain ⟨c₂, hn, hc₂⟩ := next_print hi.content hword (fun _ => hrange) hc₁
  obtain ⟨c₃, hc₃, hr₃⟩ := readFrom_blanks setting hi.behind hblank hc₂
  refine ⟨c₃, c₁.pos, hc₃, fun tokens => ?_⟩
  rw [hr₁, readFrom_of_token hn, hr₃]

/-- Items with commas between them are read as tokens with their contents. -/
theorem readFrom_separated {items : List Item} (h : ∀ i ∈ items, i.Printable setting)
    {c : Cursor} {v : List Char} (hc : c.rest = separated items ++ '\n' :: v)
    (tokens : List Token) :
    ∃ line d, readFrom setting c tokens = .ok (tokens.reverse ++ line) d ∧
      line.map Token.content = items.map Item.content ∧ d.rest = v := by
  have ends : ∀ {c : Cursor} (tokens : List Token), c.rest = '\n' :: v →
      ∃ d, readFrom setting c tokens = .ok tokens.reverse d ∧ d.rest = v := by
    intro c tokens hc
    have hl : lead? c.rest = some (.lineEnd, ⟨['\n'], [], v⟩) := by rw [hc]; rfl
    exact ⟨c.past ⟨['\n'], [], v⟩, readFrom_of_finish (next_of_lead hl) tokens, rfl⟩
  induction items generalizing c tokens with
  | nil =>
    obtain ⟨d, hd, hrest⟩ := ends tokens hc
    exact ⟨[], d, by simpa using hd, rfl, hrest⟩
  | cons i items ih =>
    obtain ⟨hi, hmore⟩ := List.forall_mem_cons.1 h
    cases items with
    | nil =>
      obtain ⟨c₁, offset, hc₁, hr⟩ := readFrom_item hi (.inr rfl) hc
      obtain ⟨d, hd, hrest⟩ := ends (⟨i.content, offset⟩ :: tokens) hc₁
      exact ⟨[⟨i.content, offset⟩], d, by simpa [hr] using hd, rfl, hrest⟩
    | cons i' items =>
      have hc : c.rest = i.text ++ ',' :: (separated (i' :: items) ++ '\n' :: v) := by
        simpa [separated] using hc
      obtain ⟨c₁, offset, hc₁, hr⟩ := readFrom_item hi (.inl rfl) hc
      have hl : lead? c₁.rest = some (.gap, ⟨[','], [], separated (i' :: items) ++ '\n' :: v⟩) := by
        rw [hc₁]
        rfl
      obtain ⟨line, d, hd, hline, hrest⟩ := ih hmore
        (c := c₁.past ⟨[','], [], separated (i' :: items) ++ '\n' :: v⟩) rfl
        (⟨i.content, offset⟩ :: tokens)
      refine ⟨⟨i.content, offset⟩ :: line, d, ?_, by simpa using hline, hrest⟩
      rw [hr, readFrom_of_gap (next_of_lead hl)]
      refine hd.trans ?_
      simp

end Line

namespace Read

/-- Contents that are written with commas between them, and with any blanks around, are read back
up to the end of their line, whatever follows it. -/
theorem line_separated {setting : Setting} {items : List Line.Item}
    (h : ∀ i ∈ items, i.Printable setting) {c : Cursor} {v : List Char}
    (hc : c.rest = Line.separated items ++ '\n' :: v) :
    ∃ line d, Read.line setting c = .ok line d ∧
      line.map Token.content = items.map Line.Item.content ∧
      d.rest = v ∧ d.pos = c.pos + (Line.separated items).length + 1 := by
  obtain ⟨line, d, hd, hline, hrest⟩ := Line.readFrom_separated h hc []
  have hd : Read.line setting c = .ok line d := hd
  have hreach := Advances.line setting c
  rw [hd] at hreach
  have htaken : c.rest = (Line.separated items ++ ['\n']) ++ d.rest := by simp [hc, hrest]
  have hpos : d.pos = _ := hreach.pos_eq htaken
  exact ⟨line, d, hd, hline, hrest, by simpa [Nat.add_assoc] using hpos⟩

/-- Words and digits that would run together without the commas, a string with a line break in it,
and a call that is named like a range. -/
theorem line_separated_neighbours :
    let setting : Setting := { registry := some [("3to4", some 1)] }
    let e : Expr := .binary .add (.call "3to4" [.localVar "x"]) (.number (.int 1))
    let text := " 3 \t, to,5,@9x ,\"a\\\"\n\",(3TO4($x) + 1)".toList
    ∃ line d, Read.line setting (.ofText (text ++ '\n' :: "next".toList)) = .ok line d ∧
      line.map Token.content = [.number (.int 3), .word "to", .number (.int 5),
        .variableName "9x", .string "a\"\n", .expression e] ∧
      d.rest = "next".toList ∧ d.pos = 38 := by
  intro setting e text
  let items : List Line.Item := [⟨[' '], .number (.int 3), [' ', '\t']⟩, ⟨[' '], .word "to", []⟩,
    ⟨[], .number (.int 5), []⟩, ⟨[], .variableName "9x", [' ']⟩, ⟨[], .string "a\"\n", []⟩,
    ⟨[], .expression e, []⟩]
  have hcall : IsCallName "3to4" := by decide
  have hx : IsWord "x" := by decide
  have hone : Numeral.Fits 1 := by decide
  have he : e.Printable setting := by
    refine ⟨?_, ?_, ?_, ?_⟩
    · simp [e, Expr.Proper, Expr.ProperAll, hcall, hx, BinaryOp.all, Number.nonneg_int]
    · simp [e, Expr.Plain, Expr.PlainAll, hone]
    · simp [e, Expr.calls, Expr.callsAll, setting, Setting.complaint?, Registry.complaint?]
    · simp [e, Expr.nesting, Expr.nestingAll, setting]
  have hthree : Numeral.Fits 3 := by decide
  have hfive : Numeral.Fits 5 := by decide
  have hto : IsName "to" := by decide
  have hvar : IsWord "9x" := by decide
  have hitems : ∀ i ∈ items, i.Printable setting := by
    simp only [items, List.forall_mem_cons]
    refine ⟨⟨by simp [isBlank], ⟨by decide, hthree⟩, by simp [isBlank]⟩,
      ⟨by simp [isBlank], hto, by simp⟩, ⟨by simp, ⟨by decide, hfive⟩, by simp⟩,
      ⟨by simp, hvar, by simp [isBlank]⟩, ⟨by simp, trivial, by simp⟩, ⟨by simp, he, by simp⟩,
      List.forall_mem_nil _⟩
  have htext : Line.separated items = text := by
    simp [items, Line.separated, Line.Item.text, Content.print, e, Expr.print, Expr.printAll,
      capitals, escaped, Numeral.digitsOf, Nat.toDigits]
    decide
  have hc : (Cursor.ofText (text ++ '\n' :: "next".toList)).rest =
      Line.separated items ++ '\n' :: "next".toList := by
    rw [htext]
    rfl
  obtain ⟨line, d, hread, hline, hrest, hpos⟩ := line_separated hitems hc
  rw [htext] at hpos
  exact ⟨line, d, hread, hline, hrest, hpos.trans (by simp [Cursor.ofText, text])⟩

/-- An integer of too many digits in parentheses is refused. -/
theorem expr_long {setting : Setting} (hlimit : 0 ≤ setting.limit) {n : Nat}
    (hn : ¬ Numeral.Fits n) {c : Cursor} {u : List Char}
    (hc : c.rest = Numeral.digitsOf n ++ ')' :: u) :
    ∃ d, Read.expr setting .parens c = .error (.longNumeral (Numeral.digitsOf n).length) d := by
  have hmade := Numeral.made_digitsOf n
  have hopen : parenClose.run c.rest = none := by
    obtain ⟨x, t, ht, hx, -⟩ := hmade.exists_cons
    have hx : x ≠ ')' := by
      rintro rfl
      exact absurd hx (by decide)
    simp [hc, ht, parenClose, Pattern.char, Pattern.run, hx]
  have hnext : Lexeme.next? true c.rest =
      some (.number (Numeral.digitsOf n), ⟨Numeral.digitsOf n, [], ')' :: u⟩) := by
    rw [hc]
    exact Lexeme.next?_number (.inl hmade) (.stop rfl u)
  have hvalue : Numeral.number? (Numeral.digitsOf n) = .error (Numeral.digitsOf n).length := by
    rw [Numeral.number?_of_digits hmade, Numeral.integer?_of_not_fits hn]
    rfl
  have hdeep : ¬ setting.limit < Goal.parens.depth := by
    change ¬ setting.limit < 0
    omega
  have hstep : ∃ d, Machine.step setting .parens ⟨{ start := c.pos }, []⟩ (c.note "expression") =
      .stop (.longNumeral (Numeral.digitsOf n).length) d := by
    simp only [Machine.step, Goal.parens, Cursor.rest_note, hopen, Bool.false_and,
      Machine.lexemeStep, hnext, Machine.operandStep, hvalue]
    exact ⟨_, rfl⟩
  obtain ⟨d, hd⟩ := hstep
  refine ⟨d, ?_⟩
  rw [Read.expr, if_neg hdeep]
  exact Machine.run_of_stop hd

theorem line_long {n : Nat} (hn : ¬ Numeral.Fits n) :
    let item : Line.Item := ⟨[], .expression (.number (.int n)), []⟩
    ∃ d, Read.line {} (.ofText (Line.separated [item] ++ ['\n'])) =
      .error (.longNumeral (Numeral.digitsOf n).length) d := by
  intro item
  have htext : Line.separated [item] ++ ['\n'] =
      '(' :: (Numeral.digitsOf n ++ ')' :: ['\n']) := by
    simp [item, Line.separated, Line.Item.text, Content.print, Expr.print]
  rw [htext]
  have hl : Line.lead? ('(' :: (Numeral.digitsOf n ++ ')' :: ['\n'])) =
      some (.paren, ⟨['('], [], Numeral.digitsOf n ++ ')' :: ['\n']⟩) := rfl
  have hlimit : 0 ≤ Setting.limit {} := by decide
  obtain ⟨d, hd⟩ := expr_long hlimit hn (c := (Cursor.ofText _).past
    ⟨['('], [], Numeral.digitsOf n ++ ')' :: ['\n']⟩) rfl
  refine ⟨d, Line.readFrom_of_stop ?_ []⟩
  rw [Line.next_of_lead hl, Line.follow, hd]
  rfl

/-- Without the bound on its digits an integer in an expression is not read back: one more digit
is too many. -/
theorem line_separated_long_integer :
    let e : Expr := .number (.int (pow10 Numeral.digitLimit))
    (e.Proper ∧ e.calls = [] ∧ e.nesting 0 = 0) ∧
      ∃ d, Read.line {} (.ofText (Line.separated [⟨[], .expression e, []⟩] ++ ['\n'])) =
        .error (.longNumeral (Numeral.digitLimit + 1)) d := by
  intro e
  have hlength := Numeral.length_digitsOf_pow10 Numeral.digitLimit
  have hn : ¬ Numeral.Fits (pow10 Numeral.digitLimit) := by
    rw [Numeral.Fits, hlength]
    exact Nat.not_succ_le_self _
  refine ⟨⟨Number.nonneg_int.2 (Int.natCast_nonneg _), rfl, rfl⟩, ?_⟩
  rw [← hlength]
  exact line_long hn

end Read

end Gamebook
