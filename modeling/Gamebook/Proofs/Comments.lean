import Gamebook.Proofs.Composition
import Gamebook.Proofs.Spelling

/-!
Comments are neutral. Wherever a line can begin, at the top, in a section or in a block, a
comment is passed over with its line break: the scope stays open or closed as it was, and what
follows is read as if it stood there by itself, with all its places further on.
-/
namespace Gamebook

open Grammar

/-- A comment that takes up its lines: to the end of a line, or from `#|` to the first `|#`
with nothing but blanks behind it. -/
inductive IsComment : List Char → Prop
  | line {before text : List Char} (hb : ∀ x ∈ before, isBlank x = true) (ht : '\n' ∉ text)
    (hh : text.head? ≠ some '|') : IsComment (before ++ '#' :: (text ++ ['\n']))
  | block {before body behind : List Char} (hb : ∀ x ∈ before, isBlank x = true)
    (hc : ¬['|', '#'] <:+: body) (ha : ∀ x ∈ behind, isBlank x = true) :
    IsComment (before ++ '#' :: '|' :: (body ++ '|' :: '#' :: (behind ++ ['\n'])))

/-- The state with the text ahead of it, and all notes taken over. -/
def Progress.facing (s : Progress) (text : List Char) : Progress :=
  { s with cursor := { s.cursor with rest := text, notes := [] } }

theorem Progress.events_moveTo (s : Progress) {c : Cursor} (h : c.notes = []) :
    (s.moveTo c).events = s.events := by
  simp only [moveTo, h, List.map_nil, List.nil_append]

theorem Cursor.skipThrough_of_search {c : Cursor} {p : Pattern} {k : List Char} {m : Match}
    (h : p.search c.rest = some (k, m)) : c.skipThrough p = c.advance m.rest := by
  simp only [skipThrough, h]

namespace Pattern

theorem search_lineEnd_eq_none {text : List Char} (h : '\n' ∉ text) :
    lineEnd.search text = none := by
  induction text with
  | nil => rfl
  | cons c text ih =>
    obtain ⟨hc, ht⟩ := not_or.1 (mt List.mem_cons.2 h)
    have hc : lineEnd.run (c :: text) = none := by simp [lineEnd, char, run, Ne.symm hc]
    simp only [search, hc, ih ht, Option.map_none]

theorem search_lineEnd_of_not_mem {text : List Char} (h : '\n' ∉ text) (v : List Char) :
    lineEnd.search (text ++ '\n' :: v) = some (text, ⟨['\n'], [], v⟩) :=
  search_lineEnd (search_lineEnd_eq_none h) v

theorem run_blockClose_eq_none {c : Char} {s : List Char} (h : c = '|' → s.head? ≠ some '#') :
    blockClose.run (c :: s) = none := by
  by_cases hc : c = '|'
  · cases s with
    | nil => simp [blockClose, literal, spell, run, hc]
    | cons d s =>
      have hd : d ≠ '#' := by simpa using h hc
      simp [blockClose, literal, spell, run, hc, hd]
  · simp [blockClose, literal, spell, run, hc]

/-- The first end of a block comment is the one behind its body. -/
theorem search_blockClose {body : List Char} (h : ¬['|', '#'] <:+: body) (v : List Char) :
    blockClose.search (body ++ '|' :: '#' :: v) = some (body, ⟨['|', '#'], [], v⟩) := by
  induction body with
  | nil => rfl
  | cons c body ih =>
    have htail : ¬['|', '#'] <:+: body := fun hi => h (hi.trans (List.suffix_cons c body).isInfix)
    have hnone : blockClose.run (c :: (body ++ '|' :: '#' :: v)) = none := by
      refine run_blockClose_eq_none ?_
      rintro rfl hs
      cases body with
      | nil => simp at hs
      | cons d body =>
        obtain rfl : d = '#' := by simpa using hs
        exact h ⟨[], body, rfl⟩
    rw [List.cons_append, search, hnone]
    simp only [ih htail, Option.map_some]

theorem run_blankLine_of_blanks {blanks : List Char} (h : ∀ x ∈ blanks, isBlank x = true)
    (v : List Char) : blankLine.run (blanks ++ '\n' :: v) = some ⟨blanks ++ ['\n'], [], v⟩ := by
  have hfree : Free isBlank ('\n' :: v) := by simp [Free, isBlank]
  simp [blankLine, lineEnd, char, run, takeWhile_of_free h hfree, dropWhile_of_free h hfree]

theorem firstOf_cons_of_none {table : List (α × Pattern)} {a : α} {p : Pattern} {s : List Char}
    (h : p.run s = none) : firstOf ((a, p) :: table) s = firstOf table s := by
  simp only [firstOf, List.findSome?_cons, h, Option.map_none]

theorem firstOf_cons_of_some {table : List (α × Pattern)} {a : α} {p : Pattern} {s : List Char}
    {m : Match} (h : p.run s = some m) : firstOf ((a, p) :: table) s = some (a, m) := by
  simp only [firstOf, List.findSome?_cons, h, Option.map_some]

/-- Blanks in front of what a pattern takes. -/
theorem run_behind_blanks {blanks s : List Char} (hb : ∀ x ∈ blanks, isBlank x = true)
    (hs : Free isBlank s) (p : Pattern) :
    (seq (many isBlank) p).run (blanks ++ s) =
      (p.run s).map fun m => ⟨blanks ++ m.text, m.groups, m.rest⟩ := by
  simp only [run, takeWhile_of_free hb hs, dropWhile_of_free hb hs]
  cases p.run s <;> rfl

end Pattern

namespace Scope

open Pattern (firstOf_cons_of_none firstOf_cons_of_some run_behind_blanks)

variable {scope : Scope} {blanks text : List Char}

/-- The lead of a comment. In a section it has the blanks before it. -/
theorem firstOf_comment (hb : ∀ x ∈ blanks, isBlank x = true)
    (hs : (∀ h, scope ≠ lines h) → blanks = []) (hh : text.head? ≠ some '|') :
    Pattern.firstOf scope.leads (blanks ++ '#' :: text) =
      some (.comment, ⟨blanks ++ ['#'], [], text⟩) := by
  have hopen : blockOpen.run ('#' :: text) = none := by
    cases text with
    | nil => rfl
    | cons c text =>
      have hc : c ≠ '|' := by simpa using hh
      simp [blockOpen, Pattern.literal, Pattern.spell, Pattern.run, hc]
  cases scope with
  | top =>
    obtain rfl := hs (by simp)
    exact (firstOf_cons_of_none hopen).trans (firstOf_cons_of_some rfl)
  | lines heading =>
    have hfree : Free isBlank ('#' :: text) := by simp [Free, isBlank]
    refine (firstOf_cons_of_none (run_behind_blanks hb hfree _)).trans ?_
    refine (firstOf_cons_of_none ?_).trans (firstOf_cons_of_some (run_behind_blanks hb hfree _))
    rw [blockLine, run_behind_blanks hb hfree, hopen]
    rfl
  | item | modifier =>
    obtain rfl := hs (by simp)
    refine (firstOf_cons_of_none rfl).trans ((firstOf_cons_of_none rfl).trans ?_)
    exact (firstOf_cons_of_none hopen).trans (firstOf_cons_of_some rfl)

theorem firstOf_block (hb : ∀ x ∈ blanks, isBlank x = true)
    (hs : (∀ h, scope ≠ lines h) → blanks = []) :
    Pattern.firstOf scope.leads (blanks ++ '#' :: '|' :: text) =
      some (.block, ⟨blanks ++ ['#', '|'], [], text⟩) := by
  cases scope with
  | lines heading =>
    have hfree : Free isBlank ('#' :: '|' :: text) := by simp [Free, isBlank]
    refine (firstOf_cons_of_none (run_behind_blanks hb hfree _)).trans ?_
    exact firstOf_cons_of_some (run_behind_blanks hb hfree _)
  | top | item | modifier =>
    obtain rfl := hs (by simp)
    rfl

theorem firstOf_gap (hs : ∀ h, scope ≠ lines h) {x : Char} (hx : isBlank x = true) :
    Pattern.firstOf scope.leads (x :: text) =
      some (.gap, ⟨x :: text.takeWhile isBlank, [], text.dropWhile isBlank⟩) := by
  have hx : x = ' ' ∨ x = '\t' := by simpa [isBlank] using hx
  rcases hx with rfl | rfl
  · cases scope with
    | lines h => exact absurd rfl (hs h)
    | _ => rfl
  · cases scope with
    | lines h => exact absurd rfl (hs h)
    | _ => rfl

end Scope

namespace Parse

/-- Reading gets to the text in the scope it is in, and nothing else happens. -/
def Passes (setting : Setting) (scope : Scope) (s : Progress) (text : List Char) : Prop :=
  ∃ t, Leads setting scope s scope t ∧ t.cursor.rest = text ∧ t.cursor.notes = [] ∧
    t.document = s.document ∧ t.events = s.events

variable {setting : Setting} {scope : Scope} {s : Progress} {m : Match} {text v : List Char}

theorem Passes.trans (h : Passes setting scope s text)
    (h' : ∀ t : Progress, t.cursor.rest = text → t.cursor.notes = [] →
      Passes setting scope t v) : Passes setting scope s v := by
  obtain ⟨t, hl, ht, hn, hd, he⟩ := h
  obtain ⟨u, hl', hu, hn', hd', he'⟩ := h' t ht hn
  exact ⟨u, hl.trans hl', hu, hn', hd'.trans hd, he'.trans he⟩

theorem passes_gap (hs : s.cursor.rest ≠ []) (hn : s.cursor.notes = [])
    (hf : Pattern.firstOf scope.leads s.cursor.rest = some (.gap, m)) :
    Passes setting scope s m.rest :=
  ⟨_, .step hs (step_of_lead (lead_of_firstOf hf nofun)) (.refl ..), rfl, rfl, rfl,
    s.events_moveTo hn⟩

/-- A lead with text to be skipped behind it. -/
theorem passes_of_skip {lead : Lead} {x : Read Unit} {c : Cursor} (hs : s.cursor.rest ≠ [])
    (hn : s.cursor.notes = [])
    (hf : Pattern.firstOf scope.leads s.cursor.rest = some (lead, m)) (hl : lead ≠ .sigil)
    (hfollow : Parse.follow setting scope lead = do read x; return scope)
    (hx : x (s.moveTo (s.cursor.past m)).cursor = .ok () c) (hc : c.notes = []) :
    Passes setting scope s c.rest := by
  have hstep : Parse.step setting scope s =
      .ok scope ((s.moveTo (s.cursor.past m)).moveTo c) := by
    refine (step_of_lead (lead_of_firstOf hf hl)).trans ?_
    rw [proceed, hfollow]
    exact bind_eq_ok.2 ⟨(), _, read_of_ok hx, rfl⟩
  refine ⟨_, .step hs hstep (.refl ..), rfl, rfl, rfl, ?_⟩
  exact (Progress.events_moveTo _ hc).trans (s.events_moveTo hn)

/-- A comment goes to the end of its line. -/
theorem passes_comment (hs : s.cursor.rest ≠ []) (hn : s.cursor.notes = [])
    (hf : Pattern.firstOf scope.leads s.cursor.rest = some (.comment, m))
    (hm : m.rest = text ++ '\n' :: v) (ht : '\n' ∉ text) : Passes setting scope s v := by
  have hskip : (s.moveTo (s.cursor.past m)).cursor.skipThrough lineEnd =
      (s.moveTo (s.cursor.past m)).cursor.advance v := by
    refine Cursor.skipThrough_of_search (k := text) (m := ⟨['\n'], [], v⟩) ?_
    rw [Progress.rest_moveTo, Cursor.rest_past, hm]
    exact Pattern.search_lineEnd_of_not_mem ht v
  exact passes_of_skip hs hn hf (by simp) rfl (congrArg (EStateM.Result.ok ()) hskip) rfl

/-- A block comment goes to its first end, and to the end of the line if nothing follows. -/
theorem passes_block {body behind : List Char} (hs : s.cursor.rest ≠ [])
    (hn : s.cursor.notes = [])
    (hf : Pattern.firstOf scope.leads s.cursor.rest = some (.block, m))
    (hm : m.rest = body ++ '|' :: '#' :: (behind ++ '\n' :: v)) (hc : ¬['|', '#'] <:+: body)
    (ha : ∀ x ∈ behind, isBlank x = true) : Passes setting scope s v := by
  let c := (s.moveTo (s.cursor.past m)).cursor.advance (behind ++ '\n' :: v)
  have hclose : (s.moveTo (s.cursor.past m)).cursor.skipThrough blockClose = c := by
    refine Cursor.skipThrough_of_search (k := body)
      (m := ⟨['|', '#'], [], behind ++ '\n' :: v⟩) ?_
    rw [Progress.rest_moveTo, Cursor.rest_past, hm]
    exact Pattern.search_blockClose hc _
  have hline : c.skip blankLine = c.past ⟨behind ++ ['\n'], [], v⟩ := by
    have hrun : blankLine.run c.rest = some ⟨behind ++ ['\n'], [], v⟩ :=
      Pattern.run_blankLine_of_blanks ha v
    simp only [Cursor.skip, hrun]
  have hread : Read.blockComment (s.moveTo (s.cursor.past m)).cursor =
      .ok () (c.past ⟨behind ++ ['\n'], [], v⟩) := by
    refine bind_eq_ok.2 ⟨(), c, congrArg (EStateM.Result.ok ()) hclose, ?_⟩
    exact congrArg (EStateM.Result.ok ()) hline
  exact passes_of_skip hs hn hf (by simp) rfl hread rfl

/-- The blanks before a comment go with it in a section, and are passed over first everywhere
else. -/
theorem passes_blanks {before : List Char} (hb : ∀ x ∈ before, isBlank x = true)
    (hn : s.cursor.notes = []) (hr : s.cursor.rest = before ++ '#' :: text)
    (h : ∀ (t : Progress) (blanks : List Char), t.cursor.notes = [] →
      t.cursor.rest = blanks ++ '#' :: text → (∀ x ∈ blanks, isBlank x = true) →
      ((∀ h, scope ≠ .lines h) → blanks = []) → Passes setting scope t v) :
    Passes setting scope s v := by
  by_cases hs : ∀ h, scope ≠ .lines h
  · cases before with
    | nil => exact h s [] hn hr nofun fun _ => rfl
    | cons x before =>
      obtain ⟨hx, hbefore⟩ := List.forall_mem_cons.1 hb
      have hfree : Free isBlank ('#' :: text) := by simp [Free, isBlank]
      have hf : Pattern.firstOf scope.leads s.cursor.rest =
          some (.gap, ⟨x :: before, [], '#' :: text⟩) := by
        rw [hr, List.cons_append, Scope.firstOf_gap hs hx,
          Pattern.takeWhile_of_free hbefore hfree, Pattern.dropWhile_of_free hbefore hfree]
      refine (passes_gap (by simp [hr]) hn hf).trans fun t ht hn' => ?_
      exact h t [] hn' ht nofun fun _ => rfl
  · exact h s before hn hr hb fun hlines => absurd hlines hs

/-- A comment is passed over in every scope. -/
theorem passes_of_isComment {comment : List Char} (hc : IsComment comment) (setting : Setting)
    (scope : Scope) (hn : s.cursor.notes = []) (hr : s.cursor.rest = comment ++ v) :
    Passes setting scope s v := by
  cases hc with
  | @line before text hb ht hh =>
    have hr : s.cursor.rest = before ++ '#' :: (text ++ '\n' :: v) := by simpa using hr
    have hhead : (text ++ '\n' :: v).head? ≠ some '|' := by
      cases text with
      | nil => simp
      | cons c text => exact hh
    refine passes_blanks hb hn hr fun t blanks hn' ht' hblanks hscope => ?_
    have hf := Scope.firstOf_comment hblanks hscope hhead
    exact passes_comment (by simp [ht']) hn' (ht' ▸ hf) rfl ht
  | @block before body behind hb hc ha =>
    have hr : s.cursor.rest =
        before ++ '#' :: '|' :: (body ++ '|' :: '#' :: (behind ++ '\n' :: v)) := by simpa using hr
    refine passes_blanks hb hn hr fun t blanks hn' ht' hblanks hscope => ?_
    have hf : Pattern.firstOf scope.leads t.cursor.rest = some (.block,
        ⟨blanks ++ ['#', '|'], [], body ++ '|' :: '#' :: (behind ++ '\n' :: v)⟩) :=
      ht' ▸ Scope.firstOf_block hblanks hscope
    exact passes_block (by simp [ht']) hn' hf rfl hc ha

/-- A comment changes nothing but places. Behind it reading is in the scope it was in, with
the document and the events it had; it comes to the same fault, the same warnings, the same
events and the same document as without the comment, and what comes behind the comment lies
further on by its length. -/
theorem run_comment {comment : List Char} (hc : IsComment comment) (setting : Setting)
    (scope : Scope) (s : Progress) (text : List Char) :
    let plain := Script.ofResult (run setting scope (s.facing text))
    let commented := Script.ofResult (run setting scope (s.facing (comment ++ text)))
    let further := (· + comment.length)
    (∃ t, Leads setting scope (s.facing (comment ++ text)) scope t ∧ t.cursor.rest = text ∧
        t.cursor.pos = further s.cursor.pos ∧ t.document = s.document ∧ t.events = s.events) ∧
      commented.fault? = plain.fault?.map (Fault.relocate further) ∧
      commented.warnings.map Warning.text = plain.warnings.map Warning.text ∧
      ∃ new : List Event, plain.events = s.events.reverse ++ new ∧
        commented.events = s.events.reverse ++ new.map (Event.relocate further) ∧
        plain.document = Event.document s.document new.reverse ∧
        commented.document =
          Event.document s.document (new.map (Event.relocate further)).reverse := by
  intro plain commented further
  obtain ⟨t, hl, hr, hn, hd, he⟩ :=
    passes_of_isComment (s := s.facing (comment ++ text)) hc setting scope rfl rfl
  have hpos : t.cursor.pos = s.cursor.pos + comment.length := by
    obtain ⟨taken, htaken, hpos⟩ := hl.reaches
    have hlen := congrArg List.length htaken
    simp only [Progress.facing, List.length_append, hr] at hlen hpos
    omega
  -- behind the comment the two states are one, shifted; so are their runs
  have hst : Progress.Moved (.shift comment.length) s.document s.events s.events
      (s.facing text) t :=
    ⟨⟨hr.symm, hpos.symm, fun _ => by rw [hn]; rfl⟩, [], [], rfl, he, .nil, rfl, hd⟩
  have hm := Script.ofResult_shift (Moves.run setting scope _ t hst)
  rw [← hl.run_eq] at hm
  obtain ⟨hfault, new, hpe, hce, hpd, hcd⟩ := hm
  refine ⟨⟨t, hl, hr, hpos, hd, he⟩, hfault, ?_, new, hpe, hce, hpd, hcd⟩
  refine Script.warnings_of_alike (.of_map ?_)
  simp [plain, commented, hpe, hce, Views.blind, Event.relocate_relocate, Function.comp_def]

/-- Behind a comment of two lines a block is still open. -/
theorem run_comment_in_block :
    let comment := " #|a\n|#\t\n".toList
    let s : Progress := { cursor := .ofText [] }
    IsComment comment ∧
      (Script.ofResult (run {} (.item "k") (s.facing (comment ++ ['?'])))).fault? =
        some (.refused .unexpectedToken 9) := by
  intro comment s
  have hc : IsComment comment :=
    @IsComment.block [' '] ['a', '\n'] ['\t'] (by simp [isBlank]) (by decide) (by simp [isBlank])
  refine ⟨hc, ?_⟩
  have hplain : (Script.ofResult (run {} (.item "k") (s.facing ['?']))).fault? =
      some (.refused .unexpectedToken 0) := by
    rw [run_of_error (by decide) rfl]
    rfl
  rw [(run_comment hc {} (.item "k") s ['?']).2.1, hplain]
  rfl

end Parse
end Gamebook
