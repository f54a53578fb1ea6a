import Gamebook.Proofs.Placement
import Gamebook.Proofs.Tokens

/-!
Where reading a script fails. Each reader pins its faults to the text behind its beginning: a
complaint about a record to where the record began, any other one to the cursor. So a script
is refused in the passage that fails, between its beginning and the place that is left behind.
-/
namespace Gamebook

open Grammar

namespace Read

/-- Faults are pinned to the text from the base on, wherever reading starts behind it. -/
def Pins (b : Cursor) (x : Read α) : Prop :=
  ∀ c, b.Reaches c → ∀ fault d, x c = .error fault d → fault.Pinned b d

namespace Pins

variable {b : Cursor}

theorem pure (a : α) : Pins b (Pure.pure a : Read α) := by
  intro c _ fault d h
  cases h

theorem bind {x : Read α} {f : α → Read β} (hx : Pins b x) (ha : Advances x)
    (hf : ∀ a, Pins b (f a)) : Pins b (x >>= f) := by
  intro c hc fault d h
  rcases error_of_bind h with h | ⟨a, e, he, h⟩
  · exact hx c hc fault d h
  · exact hf a e (hc.trans (ha.of_ok he)) fault d h

/-- A step that never fails. -/
theorem of_ok {x : Read α} (h : ∀ c fault d, x c ≠ .error fault d) : Pins b x :=
  fun c _ fault d hx => absurd hx (h c fault d)

theorem skip (p : Pattern) : Pins b (Read.skip p) := of_ok fun _ _ _ h => nomatch h

theorem skipThrough (p : Pattern) : Pins b (Read.skipThrough p) := of_ok fun _ _ _ h => nomatch h

theorem match? (p : Pattern) : Pins b (Read.match? p) := by
  refine of_ok fun c fault d h => ?_
  unfold Read.match? at h
  split at h <;> simp at h

theorem firstOf (table : List (α × Pattern)) : Pins b (Read.firstOf table) := by
  refine of_ok fun c fault d h => ?_
  unfold Read.firstOf at h
  split at h <;> simp at h

theorem peek (p : Pattern) : Pins b (Read.peek p) := of_ok fun _ _ _ h => nomatch h

theorem accept (p : Pattern) : Pins b (Read.accept p) :=
  bind (match? p) (.match? p) fun _ => pure _

theorem failHere (complaint : Complaint) : Pins b (Read.failHere complaint : Read α) := by
  intro c hc fault d h
  cases h
  exact Cursor.spans_here hc

/-- A complaint about what began at the base. -/
theorem fail (complaint : Complaint) : Pins b (Read.fail complaint b.pos : Read α) := by
  intro c hc fault d h
  cases h
  exact Cursor.spans_base hc

theorem require (p : Pattern) (complaint : Complaint) : Pins b (Read.require p complaint) := by
  intro c hc fault d h
  unfold Read.require at h
  split at h
  · simp at h
  · cases h
    exact Cursor.spans_here hc

/-- What begins is a base of its own. -/
theorem begin_bind (subject : String) {f : Nat → Read α} (hf : ∀ c : Cursor, Pins c (f c.pos)) :
    Pins b (Read.begin subject >>= f) := by
  intro c hc fault d h
  exact (hf c (c.note subject) ((Cursor.Reaches.refl c).note _) fault d h).of_reaches hc

theorem ite {t : Bool} {x y : Read α} (hx : Pins b x) (hy : Pins b y) :
    Pins b (if t then x else y) := by
  cases t
  · exact hy
  · exact hx

theorem string : Pins b Read.string := by
  intro c hc fault d h
  unfold Read.string at h
  split at h
  · simp at h
  · cases h
    exact Cursor.spans_here (hc.trans (Cursor.reaches_advance (List.append_nil _).symm))

theorem expr (setting : Setting) (goal : Goal) : Pins b (Read.expr setting goal) :=
  fun _ hc _ _ h => (expr_pinned h).of_reaches hc

end Pins
end Read

namespace Line

theorem long_of_rangeOf {m : Match} {low high : List Char} {n : Nat} (hm : m.groups = [low, high])
    (hlow : IsNumeral low) (hhigh : IsNumeral high) (h : rangeOf m = .error n) :
    ∃ w ∈ m.groups, Numeral.Long n w := by
  simp only [rangeOf, hm, List.getD_cons_zero, List.getD_cons_succ] at h
  cases hl : Numeral.number? low with
  | error k =>
    simp only [hl, bind, Except.bind, Except.error.injEq] at h
    exact ⟨low, by simp [hm], Numeral.long_of_number? hlow (h ▸ hl)⟩
  | ok a =>
    cases hh : Numeral.number? high with
    | ok c => simp [hl, hh, bind, Except.bind, pure, Except.pure] at h
    | error k =>
      simp only [hl, hh, bind, Except.bind, Except.error.injEq] at h
      exact ⟨high, by simp [hm], Numeral.long_of_number? hhigh (h ▸ hh)⟩

theorem error_of_ofResult {make : α → Content} {offset : Nat} {fault : Fault} {d : Cursor}
    {r : EStateM.Result Fault Cursor α} (h : Part.ofResult make offset r = .stop fault d) :
    r = .error fault d := by
  cases r with
  | ok a c => simp [Part.ofResult] at h
  | error f c =>
    cases h
    rfl

theorem error_of_numeral {value : Except Nat α} {fault : Fault} {c d : Cursor}
    (h : Read.numeral value c = .error fault d) :
    ∃ n, value = .error n ∧ fault = .longNumeral n ∧ d = c := by
  cases value with
  | ok a => simp [Read.numeral, Pure.pure, EStateM.pure] at h
  | error n =>
    cases h
    exact ⟨n, rfl, rfl, rfl⟩

/-- A line is refused where it goes wrong. -/
theorem next_pinned {setting : Setting} {c d : Cursor} {fault : Fault}
    (h : next setting c = .stop fault d) : fault.Pinned c d := by
  unfold next at h
  split at h
  · rename_i lead m hm
    have hmade := lead?_madeOf hm
    obtain ⟨p, -, hp⟩ := lead?_run hm
    have hc := Cursor.reaches_past hp
    have took : ∀ w, w <:+: m.text → c.Took (c.past m) w :=
      fun w hw => Cursor.took_of_run (.refl c) hp hw rfl
    cases lead with
    | quote => exact Read.Pins.string _ hc _ _ (error_of_ofResult h)
    | paren => exact Read.Pins.expr _ _ _ hc _ _ (error_of_ofResult h)
    | range =>
      obtain ⟨low, high, hgroups, hlow, hhigh⟩ := hmade
      obtain ⟨n, hn, rfl, rfl⟩ := error_of_numeral (error_of_ofResult h)
      obtain ⟨w, hw, hlong⟩ := long_of_rangeOf hgroups hlow hhigh hn
      exact ⟨w, hlong, took w (Pattern.infix_of_shape (Pattern.run_shape hp) w hw)⟩
    | number =>
      obtain ⟨n, hn, rfl, rfl⟩ := error_of_numeral (error_of_ofResult h)
      exact ⟨m.text, Numeral.long_of_number? hmade hn, took _ List.infix_rfl⟩
    | gap | variableName | word | lineEnd | comment => simp [follow] at h
  · split at h
    · simp at h
    · cases h
      exact Cursor.spans_here (.refl _)

theorem readFrom_pinned {setting : Setting} {b c d : Cursor} {tokens : List Token} {fault : Fault}
    (hb : b.Reaches c) (h : readFrom setting c tokens = .error fault d) : fault.Pinned b d := by
  fun_induction readFrom setting c tokens with
  | case1 c tokens c' hn ih => exact ih (hb.trans (reaches_of_next hn)) h
  | case2 c tokens t c' hn ih => exact ih (hb.trans (reaches_of_next hn)) h
  | case3 => simp at h
  | case4 c tokens f c' hn =>
    cases h
    exact (next_pinned hn).of_reaches hb

end Line

namespace Read.Pins

variable {b : Cursor}

theorem line (setting : Setting) : Pins b (Read.line setting) :=
  fun _ hc _ _ h => Line.readFrom_pinned hc h

theorem entry (setting : Setting) (subject : String) (reader : Nat → Entry α) :
    Pins b (Read.entry setting subject reader) := by
  refine begin_bind subject fun c => bind (line setting) (.line setting) fun tokens => ?_
  split
  · exact pure _
  · exact fail _

theorem change (setting : Setting) : Pins b (Read.change setting) := by
  refine bind (firstOf _) (.firstOf _) fun how => ?_
  split
  · exact bind (expr setting _) (.expr setting _) fun _ => pure _
  · exact pure _

theorem definition (setting : Setting) : Pins b (Read.definition setting) :=
  begin_bind _ fun _ => bind (skip _) (.skip _) fun _ => bind (skip _) (.skip _) fun _ =>
    bind (require _ _) (.require _ _) fun _ => bind (skip _) (.skip _) fun _ =>
      bind (change setting) (.change setting) fun _ => pure _

theorem lineEnd (wanted : Wanted) : Pins b (Read.lineEnd wanted) := by
  refine bind (skip _) (.skip _) fun _ => bind (firstOf _) (.firstOf _) fun how => ?_
  split
  · exact skipThrough _
  · exact pure _
  · exact failHere _

theorem definitionAhead : Pins b Read.definitionAhead :=
  bind (peek _) (.peek _) fun _ => ite (pure _) (accept _)

theorem condition (setting : Setting) : Pins b (Read.condition setting) :=
  bind (accept _) (.accept _) fun _ => ite
    (bind (expr setting _) (.expr setting _) fun _ => bind (skip _) (.skip _) fun _ => pure _)
    (pure _)

theorem command (setting : Setting) : Pins b (Read.command setting b.pos) := by
  refine bind definitionAhead .definitionAhead fun _ => ite
    (bind (definition setting) (Takes.definition setting).advances fun _ =>
      bind (lineEnd _) (.lineEnd _) fun _ => pure _)
    (bind (line setting) (.line setting) fun tokens => ?_)
  split
  · exact pure _
  · exact fail _

theorem directive (setting : Setting) : Pins b (Read.directive setting) :=
  begin_bind _ fun _ => bind (condition setting) (.condition setting) fun _ =>
    bind (command setting) (Takes.command setting _).advances fun _ => pure _

/-- A count is taken before it is found to be too long. -/
theorem count : Pins b (Read.match? digits >>= Read.count) := by
  intro c hc fault d h
  change EStateM.bind (Read.match? digits) Read.count c = .error fault d at h
  cases hm : digits.run c.rest with
  | none => simp [EStateM.bind, Read.match?, hm, Read.count, Pure.pure, EStateM.pure] at h
  | some m =>
    simp only [EStateM.bind, Read.match?, hm, Read.count] at h
    obtain ⟨n, hn, rfl, rfl⟩ := Line.error_of_numeral h
    have hdigits := (shape_digits (Pattern.run_shape hm)).1
    exact ⟨m.text, Numeral.long_of_integer? hdigits hn,
      Cursor.took_of_run hc hm List.infix_rfl rfl⟩

theorem first : Pins b Read.first := by
  refine begin_bind _ fun c => bind (skip _) (.skip _) fun _ => ?_
  -- Too many digits are refused behind them, so matching and counting are one step here.
  rw [← bind_assoc]
  refine bind count (.bind (.match? _) .count) fun _ => bind (skip _) (.skip _) fun _ =>
    bind (firstOf _) (.firstOf _) fun category => ?_
  split
  · exact pure _
  · exact failHere _

theorem heading (name : String) : Pins b (Read.heading name) :=
  begin_bind _ fun _ => lineEnd _

theorem blockComment : Pins b Read.blockComment :=
  bind (skipThrough _) (.skipThrough _) fun _ => skip _

theorem lead (scope : Scope) : Pins b (Read.lead scope) := by
  refine of_ok fun c fault d h => ?_
  unfold Read.lead at h
  split at h <;> simp at h

end Read.Pins

namespace Parse

/-- A line of reactions remembers where it began. -/
theorem ref_of_reactions {setting : Setting} {id : String} {c d : Cursor} {records : List Record}
    {ref : Nat} {line : Line}
    (h : Read.entry setting "boring" (Entry.reactions id) c = .ok ((records, ref), line) d) :
    ref = c.pos := by
  obtain ⟨_, _, ⟨⟩, h⟩ := bind_eq_ok.1 h
  obtain ⟨tokens, e, -, h⟩ := bind_eq_ok.1 h
  simp only [Entry.reactions, Pure.pure, EStateM.pure, EStateM.Result.ok.injEq,
    Prod.mk.injEq] at h
  exact h.1.1.2.symm

theorem cursor_of_read {x : Read α} {s t : Progress} {a : α} (h : Parse.read x s = .ok a t) :
    ∃ d, x s.cursor = .ok a d ∧ t = s.moveTo d := by
  unfold Parse.read at h
  split at h
  · rename_i b d hd
    cases h
    exact ⟨d, hd, rfl⟩
  · cases h

/-- Faults are pinned to the text from the base on. -/
def Pins (b : Cursor) (x : Parse α) : Prop :=
  ∀ s : Progress, b.Reaches s.cursor → ∀ fault t, x s = .error fault t → fault.Pinned b t.cursor

namespace Pins

variable {b : Cursor}

theorem pure (a : α) : Pins b (Pure.pure a : Parse α) := by
  intro s _ fault t h
  cases h

theorem read {x : Read α} (hx : x.Pins b) : Pins b (Parse.read x) := by
  intro s hs fault t h
  unfold Parse.read at h
  split at h
  · simp at h
  · rename_i f c hc
    cases h
    exact hx s.cursor hs fault c hc

theorem bind {x : Parse α} {f : α → Parse β} (hx : Pins b x) (ha : Advances x)
    (hf : ∀ a, Pins b (f a)) : Pins b (x >>= f) := by
  intro s hs fault t h
  rcases error_of_bind h with h | ⟨a, u, hu, h⟩
  · exact hx s hs fault t h
  · exact hf a u (hs.trans (ha.of_ok hu)) fault t h

theorem commit (r : Record) (unused : Line) : Pins b (Parse.commit r unused) := by
  intro s _ fault t h
  cases h

theorem commitAll (rs : List Record) : Pins b (Parse.commitAll rs) := by
  induction rs with
  | nil => exact pure ()
  | cons r rs ih => exact bind (commit r []) (.commit r []) fun _ => ih

theorem statement (setting : Setting) (scope : Scope) (subject : String)
    (reader : Nat → Entry Record) : Pins b (Parse.statement setting scope subject reader) :=
  bind (read (.entry setting subject reader)) (.read (Read.Takes.entry ..).advances) fun _ =>
    bind (commit _ _) (.commit _ _) fun _ => pure _

theorem definition (setting : Setting) : Pins b (Parse.definition setting) :=
  bind (read (.definition setting)) (.read (Read.Takes.definition setting).advances) fun _ =>
    bind (commit _ _) (.commit _ _) fun _ => read (.lineEnd _)

theorem directive (setting : Setting) (modifier : String) :
    Pins b (Parse.directive setting modifier) :=
  bind (read (.directive setting)) (.read (Read.Takes.directive setting).advances) fun _ =>
    commit _ _

/-- What follows a reader may be about where the reader began. -/
theorem read_bind {x : Read α} {f : α → Parse β} (hx : x.Pins b) (ha : x.Advances)
    (hf : ∀ c a d, x c = .ok a d → Pins c (f a)) : Pins b (Parse.read x >>= f) := by
  intro s hs fault t h
  rcases error_of_bind h with h | ⟨a, u, hu, h⟩
  · exact read hx s hs fault t h
  · obtain ⟨d, hd, rfl⟩ := cursor_of_read hu
    have hr := ha.of_ok hd
    exact (hf s.cursor a d hd (s.moveTo d) hr fault t h).of_reaches hs

/-- A word that names no reaction is a complaint about the whole line. -/
theorem reactions (setting : Setting) (id : String) : Pins b (Parse.reactions setting id) := by
  refine read_bind (.entry setting "boring" _) (Read.Takes.entry ..).advances
    fun c result d h => ?_
  obtain ⟨⟨records, ref⟩, line⟩ := result
  obtain rfl : ref = c.pos := ref_of_reactions h
  refine bind (commitAll records) (.commitAll records) fun _ => ?_
  split
  · exact pure _
  · intro s hs fault t h
    cases h
    exact Cursor.spans_base hs

theorem start (setting : Setting) (scope : Scope) : Pins b (Parse.start setting scope) := by
  refine bind (x := get) (fun s _ fault t h => nomatch h) (fun s => .refl s.cursor) fun s => ?_
  split
  · exact read (.failHere _)
  · exact statement _ _ _ _

theorem follow (setting : Setting) (scope : Scope) (lead : Lead) :
    Pins b (Parse.follow setting scope lead) := by
  cases lead with
  | gap => exact pure _
  | close => exact pure _
  | comment => exact bind (read (.skipThrough _)) (.read (.skipThrough _)) fun _ => pure _
  | block => exact bind (read .blockComment) (.read .blockComment) fun _ => pure _
  | heading h => exact bind (read (.heading _)) (.read (.heading _)) fun _ => pure _
  | start => exact start _ _
  | first => exact bind (read .first) (.read .first) fun _ => statement _ _ _ _
  | boring id => exact bind (reactions _ _) (Takes.reactions ..).advances fun _ => pure _
  | sigil => exact bind (definition _) (Takes.definition _).advances fun _ => pure _
  | var => exact bind (definition _) (Takes.definition _).advances fun _ => pure _
  | _ => exact statement _ _ _ _

theorem sectionLine (setting : Setting) (scope : Scope) (h : Heading) :
    Pins b (Parse.sectionLine setting scope h) := by
  cases h with
  | vars => exact bind (definition _) (Takes.definition _).advances fun _ => pure _
  | _ => exact statement _ _ _ _

theorem plainLine (setting : Setting) (scope : Scope) :
    Pins b (Parse.plainLine setting scope) := by
  cases scope with
  | top => exact read (.failHere _)
  | item => exact read (.failHere _)
  | lines h => exact sectionLine _ _ h
  | modifier name => exact bind (directive _ _) (Takes.directive ..).advances fun _ => pure _

theorem step (setting : Setting) (scope : Scope) : Pins b (Parse.step setting scope) := by
  refine bind (read (.lead scope)) (.read (Advances.lead scope)) fun lead => ?_
  cases lead with
  | none => exact plainLine _ _
  | some l => exact follow _ _ l

theorem finish (setting : Setting) (scope : Scope) : Pins b (Parse.finish setting scope) := by
  intro s hs fault u h
  fun_induction Parse.finish setting scope s with
  | case1 => simp at h
  | case2 scope s _ next t hstep ih =>
    exact ih (hs.trans ((Advances.step setting scope).of_ok hstep)) h
  | case3 scope s _ f t hstep =>
    cases h
    exact step setting scope s hs fault u hstep

/-- A passage fails between its beginning and the cursor it leaves behind. -/
theorem passage (setting : Setting) : Pins b (Parse.passage setting) := by
  intro s hs fault u h
  unfold Parse.passage at h
  split at h
  · rename_i next t hstep
    have hr := (Advances.step setting .top).of_ok hstep
    exact finish setting next t (hs.trans hr) fault u h
  · rename_i f t hstep
    cases h
    exact step setting .top s hs fault u hstep

end Pins

/-- Reading a source ends well, or is refused in the passage that fails, or meets digits
there that are too many for a number. Nothing else goes wrong: tokens and lexemes have the
parts that they are made of, and an expression is read without ever asking for an operand, an
operator or an end that is not there. -/
theorem run_faults (setting : Setting) (source : List Char) :
    (∀ b s l m, Lexeme.next? b s = some (l, m) → l.MadeOf m) ∧
    (∀ s lead m, Line.lead? s = some (lead, m) → lead.MadeOf m) ∧
    (∀ goal c, Bare.expr? setting goal c = some (Read.expr setting goal c)) ∧
    ((∃ t, Passages setting (.ofText source) t ∧ t.cursor.rest = [] ∧
        run setting .top (.ofText source) = .ok () t) ∨
      ∃ s fault u, Passages setting (.ofText source) s ∧ s.cursor.rest ≠ [] ∧
        passage setting s = .error fault u ∧
        run setting .top (.ofText source) = .error fault u ∧
        fault.Pinned s.cursor u.cursor ∧ u.cursor.pos ≤ source.length) := by
  refine ⟨fun _ _ _ _ h => Lexeme.next?_madeOf h, fun _ _ _ h => Line.lead?_madeOf h,
    Read.expr_defined setting, ?_⟩
  have ho := run_outcome setting (.ofText source)
  generalize run setting .top (.ofText source) = r at ho
  cases ho with
  | @finished t h ht => exact .inl ⟨t, h, ht, rfl⟩
  | @failed s u fault h hs hu =>
    have hr := (Takes.passage setting).advances.of_error hu
    have hwithin := (h.reaches.trans hr).within (Cursor.within_ofText source)
    exact .inr ⟨s, fault, u, h, hs, hu, rfl,
      Pins.passage setting s (.refl s.cursor) fault u hu, hwithin.pos_le⟩

/-- A parenthesis on the second line. -/
theorem run_faults_second_line :
    let source := "\n(1 to 6)".toList
    let range : Match := ⟨"1 to 6".toList, [['1'], ['6']], [')']⟩
    Lexeme.next? true "1 to 6)".toList = some (.range ['1'] ['6'], range) ∧
    range.groups = [['1'], ['6']] ∧
    ∃ s u, Passages {} (.ofText source) s ∧
      passage {} s = .error (.refused .unexpectedToken 1) u ∧
      s.cursor.pos ≤ 1 ∧ 1 ≤ u.cursor.pos ∧ u.cursor.pos ≤ source.length := by
  intro source range
  have hnext : Lexeme.next? true "1 to 6)".toList = some (.range ['1'] ['6'], range) := by
    decide
  obtain ⟨hlexemes, -, -, hrun⟩ := run_faults {} source
  refine ⟨hnext, (hlexemes _ _ _ _ hnext).1, ?_⟩
  have hfail : ∃ u, run {} .top (.ofText source) = .error (.refused .unexpectedToken 1) u := by
    have hgap : Parse.step {} .top (.ofText source) =
        .ok .top (Progress.moveTo (.ofText source) ⟨1, "(1 to 6)".toList, [], []⟩) := by rfl
    rw [run_of_ok (by decide) hgap]
    exact ⟨_, run_of_error (by decide) rfl⟩
  obtain ⟨v, hfail⟩ := hfail
  rw [hfail] at hrun
  rcases hrun with ⟨t, -, -, ht⟩ | ⟨s, fault, u, hs, -, hu, hr, hpin, hlen⟩
  · simp at ht
  · cases hr
    exact ⟨s, v, hs, hu, hpin.1, hpin.2, hlen⟩

end Parse
end Gamebook
