import Gamebook.Proofs.Lines
import Gamebook.Proofs.Wording

/-!
The text of definitions and directives. They are not read as tokens only: a definition and
the condition of a directive stand in the text itself. Printed and read again they are the
same, at the place where their text begins.
-/
namespace Gamebook

open Grammar

theorem IsName.run_char_none {name : String} (hn : IsName name) {y : Char}
    (hy : isWordChar y = false) (u : List Char) :
    (Pattern.char y).run (name.toList ++ u) = none := by
  obtain ⟨x, s, hx, hword, -⟩ := hn.1.exists_cons
  have hne : x ≠ y := by
    rintro rfl
    simp [hword] at hy
  rw [hx]
  simp [Pattern.char, Pattern.run, hne]

theorem IsName.free_isBlank {name : String} (hn : IsName name) (u : List Char) :
    Free isBlank (name.toList ++ u) :=
  hn.1.free_append (fun _ hx => isBlank_of_isWordChar hx) u

namespace Read

/-- Where the text is ahead, the reader gives `a` and leaves `rest`. -/
def Gives (x : Read α) (text : List Char) (a : α) (rest : List Char) : Prop :=
  ∀ c : Cursor, c.rest = text → ∃ d, x c = .ok a d ∧ d.rest = rest

namespace Gives

variable {s t u : List Char}

theorem pure {a : α} : Gives (Pure.pure a) s a s := fun c hc => ⟨c, rfl, hc⟩

theorem bind {x : Read α} {f : α → Read β} {a : α} {b : β} (hx : Gives x s a t)
    (hf : Gives (f a) t b u) : Gives (x >>= f) s b u := by
  intro c hc
  obtain ⟨d, hd, ht⟩ := hx c hc
  obtain ⟨e, he, hu⟩ := hf d ht
  exact ⟨e, bind_eq_ok.2 ⟨a, d, hd, he⟩, hu⟩

theorem match? {p : Pattern} {m : Match} (h : p.run s = some m) :
    Gives (Read.match? p) s (some m) m.rest :=
  fun c hc => ⟨c.past m, by simp only [Read.match?, hc, h], rfl⟩

theorem match?_none {p : Pattern} (h : p.run s = none) : Gives (Read.match? p) s none s :=
  fun c hc => ⟨c, by simp only [Read.match?, hc, h], hc⟩

theorem accept {p : Pattern} {m : Match} (h : p.run s = some m) :
    Gives (Read.accept p) s true m.rest :=
  (match? h).bind pure

theorem accept_none {p : Pattern} (h : p.run s = none) : Gives (Read.accept p) s false s :=
  (match?_none h).bind pure

theorem peek (p : Pattern) : Gives (Read.peek p) s (p.run s).isSome s :=
  fun c hc => ⟨c, hc ▸ rfl, hc⟩

theorem require {p : Pattern} {m : Match} (h : p.run s = some m) (complaint : Complaint) :
    Gives (Read.require p complaint) s m m.rest :=
  fun c hc => ⟨c.past m, by simp only [Read.require, hc, h], rfl⟩

theorem firstOf {table : List (α × Pattern)} {a : α} {m : Match}
    (h : Pattern.firstOf table s = some (a, m)) : Gives (Read.firstOf table) s (some a) m.rest :=
  fun c hc => ⟨c.past m, by simp only [Read.firstOf, hc, h], rfl⟩

theorem firstOf_none {table : List (α × Pattern)} (h : Pattern.firstOf table s = none) :
    Gives (Read.firstOf table) s none s :=
  fun c hc => ⟨c, by simp only [Read.firstOf, hc, h], hc⟩

theorem skip {p : Pattern} {m : Match} (h : p.run s = some m) :
    Gives (Read.skip p) s () m.rest := by
  intro c hc
  have hskip : c.skip p = c.past m := by simp only [Cursor.skip, hc, h]
  exact ⟨c.past m, congrArg (EStateM.Result.ok ()) hskip, rfl⟩

theorem skip_none {p : Pattern} (h : p.run s = none) : Gives (Read.skip p) s () s := by
  intro c hc
  have hskip : c.skip p = c := by simp only [Cursor.skip, hc, h]
  exact ⟨c, congrArg (EStateM.Result.ok ()) hskip, hc⟩

theorem skip_blank (h : Free isBlank s) : Gives (Read.skip blanks) (' ' :: s) () s := by
  have hr : blanks.run (' ' :: s) = some ⟨[' '], [], s⟩ :=
    Pattern.run_span (w := [' ']) ⟨by simp, by simp [isBlank]⟩ h
  exact skip hr

/-- What is read may have the place in it at which reading began. -/
theorem begin {f : Nat → Read α} {b : Nat → α} (hf : ∀ pos, Gives (f pos) s (b pos) t)
    (subject : String) {c : Cursor} (hc : c.rest = s) :
    ∃ d, (Read.begin subject >>= f) c = .ok (b c.pos) d ∧ d.rest = t :=
  hf c.pos (c.note subject) hc

end Gives
end Read

def Assignment.symbol : Assignment → String
  | set => ":="
  | increase => "+="
  | decrease => "-="
  | multiply => "*="
  | divide => "/="

def Change.print : Change → List Char
  | declare => []
  | assign how value => ' ' :: (how.symbol.toList ++ ' ' :: value.print 0)

def Change.Printable (setting : Setting) : Change → Prop
  | declare => True
  | assign _ value => value.Printable setting

/-- The text of a definition behind its keyword. -/
def Definition.print (v : Definition) : List Char := ' ' :: (v.name.toList ++ v.change.print)

structure Definition.Printable (setting : Setting) (v : Definition) : Prop where
  name : IsName v.name
  change : v.change.Printable setting

namespace Read

variable {setting : Setting} {u : List Char}

theorem lineEnd_gives (wanted : Wanted) : Gives (Read.lineEnd wanted) ('\n' :: u) () u :=
  have hend : Gives (Read.firstOf lineEnds) ('\n' :: u) (some .lineEnd) u :=
    .firstOf (m := ⟨['\n'], [], u⟩) rfl
  (Gives.skip_none rfl).bind (hend.bind .pure)

/-- A change is read back behind the blank before it. -/
theorem change_print {change : Change} (h : change.Printable setting) :
    ∃ t, Gives (skip blanks) (change.print ++ '\n' :: u) () t ∧
      Gives (Read.change setting) t change ('\n' :: u) := by
  cases change with
  | declare =>
    exact ⟨'\n' :: u, .skip_none rfl, (Gives.firstOf_none rfl).bind .pure⟩
  | assign how value =>
    have hexpr : Gives (Read.expr setting .line) (' ' :: (value.print 0 ++ '\n' :: u)) value
        ('\n' :: u) := fun c hc => expr_line_print h hc
    have htext : (Change.assign how value).print ++ '\n' :: u =
        ' ' :: (how.symbol.toList ++ ' ' :: (value.print 0 ++ '\n' :: u)) := by
      simp [Change.print]
    have hop : Gives (firstOf operators) (how.symbol.toList ++ ' ' :: (value.print 0 ++ '\n' :: u))
        (some how) (' ' :: (value.print 0 ++ '\n' :: u)) :=
      .firstOf (m := ⟨how.symbol.toList, [], _⟩) (by cases how <;> rfl)
    rw [htext]
    exact ⟨_, .skip_blank (by cases how <;> simp [Assignment.symbol, Free, isBlank]),
      hop.bind (hexpr.bind .pure)⟩

/-- A definition is read back at its place. -/
theorem definition_print {v : Definition} (h : v.Printable setting) {c : Cursor}
    (hc : c.rest = v.print ++ '\n' :: u) :
    ∃ d, Read.definition setting c = .ok { v with ref := c.pos } d ∧ d.rest = '\n' :: u := by
  obtain ⟨t, hblanks, hchange⟩ := change_print (u := u) h.change
  have htext : v.print ++ '\n' :: u = ' ' :: (v.name.toList ++ (v.change.print ++ '\n' :: u)) := by
    simp [Definition.print]
  have hsigil : sigil.run (v.name.toList ++ (v.change.print ++ '\n' :: u)) = none :=
    h.name.run_char_none rfl _
  have hfree : Free isWordChar (v.change.print ++ '\n' :: u) := by
    cases v.change <;> simp [Change.print, Free, isWordChar]
  have hword := run_word h.name.1 hfree
  have hlast : ∀ pos, Gives (Pure.pure (⟨String.ofList v.name.toList, v.change, pos⟩ : Definition))
      ('\n' :: u) { v with ref := pos } ('\n' :: u) := by
    intro pos
    rw [String.ofList_toList]
    exact .pure
  exact Gives.begin (fun pos => (Gives.skip_blank (h.name.free_isBlank _)).bind
    ((Gives.skip_none hsigil).bind ((Gives.require hword _).bind
      (hblanks.bind (hchange.bind (hlast pos)))))) _ (hc.trans htext)

end Read

/-- The place is told by what is taken. -/
theorem Read.Advances.pos_eq {x : Read α} (hx : x.Advances) {c d : Cursor} {a : α}
    (h : x c = .ok a d) {taken : List Char} (hc : c.rest = taken ++ d.rest) :
    d.pos = c.pos + taken.length := by
  have hr := hx c
  rw [h] at hr
  exact hr.pos_eq hc

/-- The text of a command behind its keyword. -/
def Command.body : Command → List Char
  | setVariable v => v.print
  | c => Content.printLine c.arguments

def Command.Printable (setting : Setting) : Command → Prop
  | setVariable v => v.Printable setting
  | c => ∀ content ∈ c.arguments, content.Printable setting

theorem Command.Printable.line {setting : Setting} {c : Command} (h : c.Printable setting)
    (hv : ∀ v, c ≠ .setVariable v) : Content.PrintableLine setting c.arguments := by
  cases c with
  | setVariable v => exact absurd rfl (hv v)
  | skip count => exact ⟨h _ List.mem_cons_self, fun _ => rfl, trivial⟩
  | _ =>
    refine Content.printableLine_of_forall h ?_
    grind [arguments, Content.kind, Option.map_eq_some_iff]

theorem Command.isName_keyword (c : Command) : IsName c.keyword := by
  cases c <;> (dsimp only [keyword]; decide)

theorem Command.gap_body (c : Command) (u : List Char) : Line.Gap (c.body ++ '\n' :: u) := by
  cases c with
  | setVariable v => exact .inl rfl
  | _ => exact Line.gap_printLine _ u

namespace Directive

/-- The condition of a directive in parentheses. -/
def guard (d : Directive) : List Char :=
  (d.cond.map fun cond => '(' :: (cond.print 0 ++ [')', ' '])).getD []

def opening (d : Directive) : List Char := d.guard ++ d.command.keyword.toList

def print (d : Directive) : List Char := d.opening ++ d.command.body

structure Printable (setting : Setting) (d : Directive) : Prop where
  cond : ∀ cond, d.cond = some cond → cond.Printable setting
  command : d.command.Printable setting

/-- The directive as it is read at a place; a definition has its own place in it. -/
def placed (ref : Nat) (d : Directive) : Directive :=
  ⟨d.command.relocate fun _ => ref + d.opening.length, d.cond, ref⟩

theorem exists_first (d : Directive) :
    ∃ x s, d.print = x :: s ∧ (x = '(' ∨ isWordChar x = true) := by
  cases hd : d.cond with
  | none =>
    obtain ⟨x, s, hx, hword, -⟩ := d.command.isName_keyword.1.exists_cons
    refine ⟨x, s ++ d.command.body, ?_, .inr hword⟩
    simp [print, opening, guard, hd, hx]
  | some cond =>
    refine ⟨'(', cond.print 0 ++ ')' :: ' ' :: (d.command.keyword.toList ++ d.command.body), ?_,
      .inl rfl⟩
    simp [print, opening, guard, hd]

end Directive

namespace Read

variable {setting : Setting} {u : List Char} {c : Cursor}

theorem condition_guard {d : Directive} (h : d.Printable setting) :
    Gives (Read.condition setting) (d.guard ++ (d.command.keyword.toList ++ u)) d.cond
      (d.command.keyword.toList ++ u) := by
  have hname := d.command.isName_keyword
  generalize d.command.keyword = name at hname
  cases hd : d.cond with
  | none =>
    have hnone : parenOpen.run (name.toList ++ u) = none := hname.run_char_none rfl u
    rw [Directive.guard, hd]
    exact (Gives.accept_none hnone).bind .pure
  | some cond =>
    have htext : d.guard ++ (name.toList ++ u) =
        '(' :: (cond.print 0 ++ ')' :: ' ' :: (name.toList ++ u)) := by
      simp [Directive.guard, hd]
    have hopen : Gives (accept parenOpen)
        ('(' :: (cond.print 0 ++ ')' :: ' ' :: (name.toList ++ u))) true
        (cond.print 0 ++ ')' :: ' ' :: (name.toList ++ u)) := .accept (m := ⟨['('], [], _⟩) rfl
    have hexpr : Gives (Read.expr setting .parens)
        (cond.print 0 ++ ')' :: ' ' :: (name.toList ++ u)) cond (' ' :: (name.toList ++ u)) :=
      fun c hc => expr_parens_print (h.cond cond hd) hc
    rw [htext]
    exact hopen.bind (hexpr.bind ((Gives.skip_blank (hname.free_isBlank u)).bind .pure))

/-- No other command is announced like a definition. -/
theorem definitionAhead_command {command : Command} (h : ∀ v, command ≠ .setVariable v) :
    Gives Read.definitionAhead (command.keyword.toList ++ (command.body ++ '\n' :: u)) false
      (command.keyword.toList ++ (command.body ++ '\n' :: u)) := by
  have hname := command.isName_keyword
  have hfree : Free isWordChar (command.body ++ '\n' :: u) := (command.gap_body u).free rfl rfl
  have hpeek : variableName.run (command.keyword.toList ++ (command.body ++ '\n' :: u)) = none := by
    have hsigil : sigil.run _ = none := hname.run_char_none rfl (command.body ++ '\n' :: u)
    rw [variableName, Pattern.run, hsigil]
  have hvar : command.keyword.toList ≠ "var".toList := by
    cases command <;> simp_all [Command.keyword]
  have hkeyword := run_keyword_none (k := "var") (by simp [isWordChar]) hname.1.2 hvar hfree
  have hp := Gives.peek (s := command.keyword.toList ++ (command.body ++ '\n' :: u)) variableName
  rw [hpeek] at hp
  exact hp.bind (.accept_none hkeyword)

/-- A command is read back to the end of its line. -/
theorem command_print {command : Command} (h : command.Printable setting) (ref : Nat)
    (hc : c.rest = command.keyword.toList ++ (command.body ++ '\n' :: u)) :
    ∃ d, Read.command setting ref c =
      .ok (command.relocate fun _ => c.pos + command.keyword.toList.length, []) d ∧
        d.rest = u := by
  by_cases hv : ∃ v, command = .setVariable v
  · obtain ⟨v, rfl⟩ := hv
    have hc : c.rest = "var".toList ++ (v.print ++ '\n' :: u) := hc
    have hk := run_keyword "var" (u := v.print ++ '\n' :: u)
      (by simp [Definition.print, Free, isWordChar])
    have ha : Gives Read.definitionAhead ("var".toList ++ (v.print ++ '\n' :: u)) true
        (v.print ++ '\n' :: u) := (Gives.peek variableName).bind (.accept hk)
    obtain ⟨b, hb, hbrest⟩ := ha c hc
    have hpos : b.pos = c.pos + "var".toList.length :=
      Advances.definitionAhead.pos_eq hb (hbrest.symm ▸ hc)
    obtain ⟨d, hd, hrest⟩ := definition_print h hbrest
    obtain ⟨e, he, herest⟩ := lineEnd_gives .lineEnd d hrest
    refine ⟨e, bind_eq_ok.2 ⟨true, b, hb, ?_⟩, herest⟩
    rw [hpos] at hd
    exact bind_eq_ok.2 ⟨_, d, hd, bind_eq_ok.2 ⟨(), e, he, rfl⟩⟩
  · have hv : ∀ v, command ≠ .setVariable v := fun v hcommand => hv ⟨v, hcommand⟩
    obtain ⟨b, hb, hbrest⟩ := definitionAhead_command (u := u) hv c hc
    have hbody : command.body = Content.printLine command.arguments := by
      cases command <;> simp_all [Command.body]
    rw [hbody] at hbrest
    obtain ⟨line, d, hd, hline, hrest⟩ := line_print_name command.isName_keyword (h.line hv) hbrest
    obtain ⟨left, hcommand, hleft⟩ := Entry.Reads.command hv line hline
    have hplaced : command.relocate (fun _ => c.pos + command.keyword.toList.length) = command := by
      cases command <;> simp_all [Command.relocate]
    rw [List.map_eq_nil_iff] at hleft
    subst hleft
    refine ⟨d, bind_eq_ok.2 ⟨false, b, hb, bind_eq_ok.2 ⟨line, d, hd, ?_⟩⟩, hrest⟩
    rw [hcommand, hplaced]
    rfl

/-- A directive is read back at its place, with the end of its line. -/
theorem directive_print {d : Directive} (h : d.Printable setting)
    (hc : c.rest = d.print ++ '\n' :: u) :
    ∃ e, Read.directive setting c = .ok (d.placed c.pos, []) e ∧ e.rest = u := by
  have htext : d.print ++ '\n' :: u =
      d.guard ++ (d.command.keyword.toList ++ (d.command.body ++ '\n' :: u)) := by
    simp [Directive.print, Directive.opening]
  have hc := hc.trans htext
  obtain ⟨b, hb, hbrest⟩ := condition_guard h (c.note "directive") hc
  have hpos : b.pos = c.pos + d.guard.length :=
    (Advances.condition setting).pos_eq hb (hbrest.symm ▸ hc)
  obtain ⟨e, he, herest⟩ := command_print h.command c.pos hbrest
  rw [hpos, Nat.add_assoc, ← List.length_append] at he
  refine ⟨e, ?_, herest⟩
  exact bind_eq_ok.2 ⟨c.pos, c.note "directive", rfl,
    bind_eq_ok.2 ⟨d.cond, b, hb, bind_eq_ok.2 ⟨_, e, he, rfl⟩⟩⟩

end Read
end Gamebook
