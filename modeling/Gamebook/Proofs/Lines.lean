import Gamebook.Proofs.Printing

/-!
Printing of lines. A content is printed as its token is written. The contents of a line are
printed one after another, each behind a blank; read again, the line has tokens with these
contents.
-/
namespace Gamebook

open Grammar

namespace Content

def print : Content → List Char
  | string s => '"' :: (escaped s.toList ++ ['"'])
  | number (.int n) => Numeral.digitsOf n.toNat
  | range ⟨.int low, .int high⟩ =>
    Numeral.digitsOf low.toNat ++ ' ' :: 't' :: 'o' :: ' ' :: Numeral.digitsOf high.toNat
  | variableName name => '@' :: name.toList
  | word name => name.toList
  | expression e => '(' :: (e.print 0 ++ [')'])
  | number (.real _) | range _ | missing _ => []

/-- Contents that can be printed: any strings, integers that may be read and ranges of them, any
words behind `@`, names, and expressions. -/
def Printable (setting : Setting) : Content → Prop
  | string _ => True
  | number (.int n) => 0 ≤ n ∧ Numeral.Fits n.toNat
  | range ⟨.int low, .int high⟩ =>
    (0 ≤ low ∧ Numeral.Fits low.toNat) ∧ 0 ≤ high ∧ Numeral.Fits high.toNat
  | variableName name => IsWord name
  | word name => IsName name
  | expression e => e.Printable setting
  | number (.real _) | range _ | missing _ => False

/-- The contents of a line, each behind a blank. -/
def printLine (contents : List Content) : List Char := contents.flatMap (' ' :: ·.print)

/-- All contents can be printed. A number ends the line, since a range would begin like
it. -/
def PrintableLine (setting : Setting) : List Content → Prop
  | [] => True
  | c :: cs => c.Printable setting ∧ (c.kind = .number → cs = []) ∧ PrintableLine setting cs

theorem printableLine_of_forall {setting : Setting} {contents : List Content}
    (h : ∀ c ∈ contents, c.Printable setting) (hn : ∀ c ∈ contents, c.kind ≠ .number) :
    PrintableLine setting contents := by
  induction contents with
  | nil => trivial
  | cons c cs ih =>
    refine ⟨h c (by simp), fun hk => absurd hk (hn c (by simp)), ih ?_ ?_⟩
    · exact fun d hd => h d (by simp [hd])
    · exact fun d hd => hn d (by simp [hd])

end Content

namespace Line

theorem lead?_cons (x : Char) (s : List Char) :
    lead? (x :: s) = Pattern.firstOf (leads.filter (·.2.starts x)) (x :: s) :=
  Pattern.firstOf_cons (by decide) x s

variable {setting : Setting} {u : List Char}

theorem next_of_lead {c : Cursor} {lead : Lead} {m : Match} (h : lead? c.rest = some (lead, m)) :
    next setting c = follow setting c.pos m (c.past m) lead := by
  simp only [next, h]

/-- A token that is the match itself. -/
theorem next_of_match {c : Cursor} {lead : Lead} {m : Match} (h : lead? c.rest = some (lead, m))
    {content : Content}
    (hf : follow setting c.pos m (c.past m) lead = .token ⟨content, c.pos⟩ (c.past m)) :
    ∃ d, next setting c = .token ⟨content, c.pos⟩ d ∧ d.rest = m.rest :=
  ⟨c.past m, (next_of_lead h).trans hf, rfl⟩

/-- A name is read as a word. -/
theorem lead?_name {name : String} (hn : IsName name) (hu : Free isWordChar u) :
    lead? (name.toList ++ u) = some (.word, ⟨name.toList, [], u⟩) := by
  obtain ⟨x, s, hx, hword, -⟩ := hn.1.exists_cons
  have hdigit : x.isDigit = false := hn.2 x (by rw [hx]; rfl)
  have hsign : ∀ y, isWordChar y = false → x ≠ y := by
    rintro y hy rfl
    simp [hword] at hy
  have hf : leads.filter (·.2.starts x) = [(.word, word)] := by
    simp [leads, blanks, comma, quote, range, variableName, numeral, parenOpen, word, lineEnd,
      comment, between, sigil, digits, Pattern.char, Pattern.span, Pattern.starts,
      Pattern.consumes, isBlank_of_isWordChar hword, hword, hdigit, hsign ',' rfl, hsign '"' rfl,
      hsign '@' rfl, hsign '(' rfl, hsign '\n' rfl, hsign '#' rfl]
  have hr := run_word hn.1 hu
  rw [hx, List.cons_append] at hr ⊢
  rw [lead?_cons, hf]
  simp [Pattern.firstOf, hr]

/-- A digit begins a range or a number. -/
theorem lead?_digit {t : List Char} (ht : Made Char.isDigit t) (u : List Char) :
    lead? (t ++ u) = Pattern.firstOf [(.range, range), (.number, numeral), (.word, word)]
      (t ++ u) := by
  obtain ⟨x, s, rfl, hx, -⟩ := ht.exists_cons
  rw [List.cons_append, lead?_cons]
  have hx := Lexeme.digit_mem hx
  simp only [List.mem_cons, List.not_mem_nil, or_false] at hx
  rcases hx with rfl | rfl | rfl | rfl | rfl | rfl | rfl | rfl | rfl | rfl <;> rfl

theorem lead?_number {n : Nat} (hu : Free (fun x => x.isDigit || x == '.') u) (hn : NoRange u) :
    lead? (Numeral.digitsOf n ++ u) = some (.number, ⟨Numeral.digitsOf n, [], u⟩) := by
  have hr := run_numeral (.inl (Numeral.made_digitsOf n)) hu
  rw [lead?_digit (Numeral.made_digitsOf n)]
  simp [Pattern.firstOf, range, run_between_none hr hn, hr]

theorem lead?_range (low high : Nat) (hu : Free (fun x => x.isDigit || x == '.') u) :
    lead? (Numeral.digitsOf low ++ ' ' :: 't' :: 'o' :: ' ' :: (Numeral.digitsOf high ++ u)) =
      some (.range, ⟨Numeral.digitsOf low ++ ' ' :: 't' :: 'o' :: ' ' :: Numeral.digitsOf high,
        [Numeral.digitsOf low, Numeral.digitsOf high], u⟩) := by
  have hhigh := Numeral.made_digitsOf high
  have hblank : ∀ c ∈ [' '], isBlank c = true := by simp [isBlank]
  have hlow := run_numeral (.inl (Numeral.made_digitsOf low))
    (u := ' ' :: 't' :: 'o' :: ' ' :: (Numeral.digitsOf high ++ u)) (by simp [Free])
  have h := run_between (s := [' ']) hlow (run_numeral (.inl hhigh) hu) hblank hblank
    (free_isBlank_of_digits hhigh u)
  rw [lead?_digit (Numeral.made_digitsOf low)]
  simp only [List.cons_append, List.nil_append] at h
  simp [Pattern.firstOf, range, h]

theorem lead?_variableName {name : List Char} (hn : Made isWordChar name)
    (hu : Free isWordChar u) :
    lead? ('@' :: (name ++ u)) = some (.variableName, ⟨'@' :: name, [name], u⟩) := by
  have hrun : variableName.run ('@' :: (name ++ u)) = some ⟨'@' :: name, [name], u⟩ := by
    simp [variableName, sigil, Pattern.char, Pattern.run, run_word hn hu]
  rw [lead?_cons]
  change Pattern.firstOf [(Lead.variableName, variableName)] _ = _
  simp [Pattern.firstOf, hrun]

theorem lead?_blank (hu : Free isBlank u) : lead? (' ' :: u) = some (.gap, ⟨[' '], [], u⟩) := by
  have hr : blanks.run (' ' :: u) = some ⟨[' '], [], u⟩ :=
    Pattern.run_span (w := [' ']) ⟨by simp, by simp [isBlank]⟩ hu
  rw [lead?_cons]
  change Pattern.firstOf [(Lead.gap, blanks)] _ = _
  simp [Pattern.firstOf, hr]

/-- What stands behind a content: the blank before the next one, or the end of the line. -/
def Gap (u : List Char) : Prop := u.head? = some ' ' ∨ u.head? = some '\n'

theorem Gap.free (hu : Gap u) {p : Char → Bool} (hb : p ' ' = false) (hl : p '\n' = false) :
    Free p u := by
  rcases hu with hu | hu <;> simpa [Free, hu]

/-- A content that was printed is the next token. -/
theorem next_print {content : Content} (hp : content.Printable setting)
    (hu : Free (fun x => isWordChar x || x == '.') u) (hn : content.kind = .number → NoRange u)
    {c : Cursor} (hc : c.rest = content.print ++ u) :
    ∃ d, next setting c = .token ⟨content, c.pos⟩ d ∧ d.rest = u := by
  have hdigit : Free (fun x => x.isDigit || x == '.') u := by
    refine hu.mono fun x hx => ?_
    rcases Bool.or_eq_true_iff.1 hx with hx | hx
    · simp [isWordChar_of_isDigit hx]
    · simp [hx]
  have hword : Free isWordChar u := hu.mono fun x hx => by simp [hx]
  cases content with
  | string s =>
    have hl : lead? c.rest = some (.quote, ⟨['"'], [], escaped s.toList ++ '"' :: u⟩) := by
      rw [hc, Content.print, List.cons_append, List.append_assoc]
      rfl
    refine ⟨((c.past ⟨['"'], [], escaped s.toList ++ '"' :: u⟩).advance u).release, ?_, rfl⟩
    rw [next_of_lead hl]
    simp only [follow, Read.string, Cursor.rest_past, stringBody_escaped, String.ofList_toList]
    rfl
  | number n =>
    cases n with
    | real x => exact hp.elim
    | int n =>
      obtain ⟨hpos, hfits⟩ := hp
      have hl := lead?_number (n := n.toNat) hdigit (hn rfl)
      rw [Content.print] at hc
      rw [← hc] at hl
      refine next_of_match hl ?_
      simp only [follow, Numeral.number?_digitsOf hfits, Int.toNat_of_nonneg hpos]
      rfl
  | range r =>
    obtain ⟨low, high⟩ := r
    cases low with
    | real x => exact hp.elim
    | int low =>
      cases high with
      | real x => exact hp.elim
      | int high =>
        obtain ⟨⟨hlow, hlfits⟩, hhigh, hhfits⟩ := hp
        have hl := lead?_range low.toNat high.toNat hdigit
        simp only [Content.print, List.append_assoc, List.cons_append] at hc
        rw [← hc] at hl
        have hr : rangeOf ⟨Numeral.digitsOf low.toNat ++
            ' ' :: 't' :: 'o' :: ' ' :: Numeral.digitsOf high.toNat,
            [Numeral.digitsOf low.toNat, Numeral.digitsOf high.toNat], u⟩ =
            .ok ⟨.int low, .int high⟩ := by
          simp only [rangeOf, List.getD_cons_zero, List.getD_cons_succ,
            Numeral.number?_digitsOf hlfits, Numeral.number?_digitsOf hhfits,
            Int.toNat_of_nonneg hlow, Int.toNat_of_nonneg hhigh]
          rfl
        refine next_of_match hl ?_
        simp only [follow, hr]
        rfl
  | word name =>
    have hl := lead?_name hp hword
    rw [Content.print] at hc
    rw [← hc] at hl
    refine next_of_match hl ?_
    simp only [follow, String.ofList_toList]
  | variableName name =>
    have hl := lead?_variableName hp hword
    rw [Content.print, List.cons_append] at hc
    rw [← hc] at hl
    refine next_of_match hl ?_
    simp only [follow, List.getD_cons_zero, String.ofList_toList]
  | expression e =>
    have hl : lead? c.rest = some (.paren, ⟨['('], [], e.print 0 ++ ')' :: u⟩) := by
      rw [hc, Content.print, List.cons_append, List.append_assoc]
      rfl
    obtain ⟨d, hd, hrest⟩ := Read.expr_parens_print (u := u)
      (c := c.past ⟨['('], [], e.print 0 ++ ')' :: u⟩) hp rfl
    refine ⟨d, ?_, hrest⟩
    rw [next_of_lead hl, follow, hd]
    rfl
  | missing kind => exact hp.elim

theorem gap_printLine (contents : List Content) (v : List Char) :
    Gap (Content.printLine contents ++ '\n' :: v) := by
  cases contents with
  | nil => exact .inr rfl
  | cons c cs => exact .inl rfl

theorem free_isBlank_print {content : Content} (hp : content.Printable setting) (u : List Char) :
    Free isBlank (content.print ++ u) := by
  cases content with
  | string s => simp [Content.print, Free, isBlank]
  | number n =>
    cases n with
    | real x => exact hp.elim
    | int n => exact free_isBlank_of_digits (Numeral.made_digitsOf _) u
  | range r =>
    obtain ⟨low, high⟩ := r
    cases low with
    | real x => exact hp.elim
    | int low =>
      cases high with
      | real x => exact hp.elim
      | int high =>
        rw [Content.print, List.append_assoc]
        exact free_isBlank_of_digits (Numeral.made_digitsOf _) _
  | word name => exact hp.1.free_append (fun _ hx => isBlank_of_isWordChar hx) u
  | variableName _ | expression _ => simp [Content.print, Free, isBlank]
  | missing kind => exact hp.elim

/-- A printed line has tokens with its contents, and its end is taken. -/
theorem readFrom_print {contents : List Content} (hp : Content.PrintableLine setting contents)
    {c : Cursor} {v : List Char} (hc : c.rest = Content.printLine contents ++ '\n' :: v)
    (tokens : List Token) :
    ∃ line d, readFrom setting c tokens = .ok (tokens.reverse ++ line) d ∧
      line.map Token.content = contents ∧ d.rest = v := by
  induction contents generalizing c tokens with
  | nil =>
    have hl : lead? c.rest = some (.lineEnd, ⟨['\n'], [], v⟩) := by
      rw [hc]
      rfl
    refine ⟨[], c.past ⟨['\n'], [], v⟩, ?_, rfl, rfl⟩
    rw [List.append_nil]
    exact readFrom_of_finish (next_of_lead hl) tokens
  | cons content contents ih =>
    obtain ⟨hcontent, hlast, hmore⟩ := hp
    have hrest : c.rest = ' ' :: (content.print ++ (Content.printLine contents ++ '\n' :: v)) := by
      simpa [Content.printLine] using hc
    have hl := lead?_blank (free_isBlank_print hcontent (Content.printLine contents ++ '\n' :: v))
    rw [← hrest] at hl
    have hn : content.kind = .number → NoRange (Content.printLine contents ++ '\n' :: v) := by
      intro hk
      rw [hlast hk]
      simp [Content.printLine, NoRange, isBlank]
    obtain ⟨d, hd, hdrest⟩ := next_print hcontent ((gap_printLine contents v).free rfl rfl) hn
      (c := c.past ⟨[' '], [], _⟩) rfl
    obtain ⟨line, e, he, hline, herest⟩ := ih hmore hdrest (⟨content, c.pos + 1⟩ :: tokens)
    refine ⟨⟨content, c.pos + 1⟩ :: line, e, ?_, by simp [hline], herest⟩
    rw [readFrom_of_gap (next_of_lead hl), readFrom_of_token hd]
    refine he.trans ?_
    simp

end Line

namespace Read

variable {setting : Setting} {contents : List Content} {c : Cursor} {v : List Char}

theorem line_print (hp : Content.PrintableLine setting contents)
    (hc : c.rest = Content.printLine contents ++ '\n' :: v) :
    ∃ line d, Read.line setting c = .ok line d ∧ line.map Token.content = contents ∧ d.rest = v :=
  Line.readFrom_print hp hc []

/-- A line that begins with a name. -/
theorem line_print_name {name : String} (hn : IsName name)
    (hp : Content.PrintableLine setting contents)
    (hc : c.rest = name.toList ++ (Content.printLine contents ++ '\n' :: v)) :
    ∃ line d, Read.line setting c = .ok line d ∧
      line.map Token.content = .word name :: contents ∧ d.rest = v := by
  have hword : (Content.word name).Printable setting := hn
  obtain ⟨d, hd, hrest⟩ :=
    Line.next_print hword ((Line.gap_printLine contents v).free rfl rfl) nofun hc
  obtain ⟨line, e, he, hline, herest⟩ := Line.readFrom_print hp hrest [⟨.word name, c.pos⟩]
  refine ⟨⟨.word name, c.pos⟩ :: line, e, ?_, by simp [hline], herest⟩
  exact (Line.readFrom_of_token hd []).trans he

end Read
end Gamebook
