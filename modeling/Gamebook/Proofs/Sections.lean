import Gamebook.Proofs.Composition
import Gamebook.Proofs.Spelling

/-!
A section says once what each of its records would say by itself. The loop over a section
and the choice by keyword at the top lead to the same readers, so that the same bodies
come to the same document, with the same warnings and the same complaint.
-/
namespace Gamebook

/-- A variable definition and the end of its line. -/
def Read.definitionLine (setting : Setting) : Read Definition := do
  let v ← Read.definition setting
  Read.lineEnd .lineEnd
  return v

/-- The reader takes the text from its beginning to its end. -/
def Read.TakesAll (x : Read α) (text : List Char) : Prop :=
  ∃ a c, x (.ofText text) = .ok a c ∧ c.rest = []

namespace Heading

/-- The word that stands before one record outside of the section. -/
def keyword? : Heading → Option String
  | nodes => some "node"
  | vars => some "var"
  | properties => some "property"
  | actions => some "action"
  | map => some "path"
  | boring => none

/-- The text is what is read for one record. -/
def Fills (setting : Setting) (text : List Char) : Heading → Prop
  | vars => (Read.definitionLine setting).TakesAll text
  | _ => (Read.line setting).TakesAll text

/-- What can stand on a line of the section, with the line break at its end. -/
structure Body (h : Heading) (setting : Setting) (text : List Char) : Prop where
  blank : ∃ c ∈ text.head?, Grammar.isBlank c = true
  first : ∃ c ∈ (text.dropWhile Grammar.isBlank).head?, c ≠ '\n' ∧ c ≠ '#'
  lineEnd : ∃ u, text = u ++ ['\n']
  fills : h.Fills setting text

end Heading

namespace Entry

/-- All that the reader gives is of a kind. -/
def Yields (P : α → Prop) (x : Entry α) : Prop := ∀ line p, x line = .ok p → P p.1

namespace Yields

variable {P : α → Prop}

theorem pure {a : α} (h : P a) : Yields P (Pure.pure a : Entry α) := by
  rintro line _ ⟨⟩
  exact h

theorem bind {x : Entry β} {f : β → Entry α} (hf : ∀ b, Yields P (f b)) :
    Yields P (x >>= f) := by
  intro line p h
  change (x line >>= fun q => f q.1 q.2) = .ok p at h
  cases hx : x line with
  | error complaint =>
    rw [hx] at h
    cases h
  | ok q =>
    rw [hx] at h
    exact hf q.1 q.2 p h

end Yields
end Entry

/-- The keywords of records at the top. -/
def Scope.keywords : List (String × Lead) :=
  [("start", .start), ("node", .node), ("property", .property), ("path", .path),
    ("action", .action), ("first", .first), ("pick", .behavior .pick), ("check", .behavior .check),
    ("use", .behavior .use), ("lay", .behavior .lay), ("location", .location),
    ("resources", .resources), ("var", .var), ("item", .item), ("mod", .modifier)]

theorem Scope.keywords_lead : ∀ e ∈ keywords,
    Pattern.firstOf top.leads e.1.toList = some (e.2, ⟨e.1.toList, [], []⟩) := by
  decide +kernel

/-- A blank ends whatever can begin like a keyword. -/
theorem Scope.keywords_ignore : ∀ e ∈ keywords, ∀ c ∈ e.1.toList.head?, ∀ d ∈ [' ', '\t'],
    top.leads.all (fun p => p.2.ignores d || p.2.consumes && !p.2.starts c) = true := by
  have h : (keywords.all fun e => e.1.toList.head?.all fun c => [' ', '\t'].all fun d =>
      top.leads.all fun p => p.2.ignores d || p.2.consumes && !p.2.starts c) = true := by
    decide +kernel
  simpa only [List.all_eq_true, Option.all_eq_true, Option.mem_def] using h

namespace Read

/-- A keyword is found at the top, whatever follows the blank behind it. -/
theorem lead_keyword {keyword : String} {lead : Lead} (hk : (keyword, lead) ∈ Scope.keywords)
    {w : List Char} (hw : ∃ x ∈ w.head?, Grammar.isBlank x = true) {c : Cursor} {v : List Char}
    (hc : c.rest = keyword.toList ++ (w ++ v)) :
    Read.lead .top c = .ok (some lead) (c.past ⟨keyword.toList, [], w ++ v⟩) := by
  obtain ⟨x, hx, hblank⟩ := hw
  obtain ⟨r, rfl⟩ := List.head?_eq_some_iff.1 hx
  have hx : x ∈ [' ', '\t'] := by simpa [Grammar.isBlank] using hblank
  have hfirst := Scope.keywords_lead _ hk
  obtain ⟨y, s, hy⟩ : ∃ y s, keyword.toList = y :: s := by
    cases h : keyword.toList with
    | nil =>
      rw [h] at hfirst
      cases hfirst
    | cons y s => exact ⟨y, s, rfl⟩
  have hignore := Scope.keywords_ignore _ hk y (by rw [hy]; rfl) x hx
  refine Parse.lead_of_firstOf ?_ (by rintro rfl; simp [Scope.keywords] at hk)
  simp only [hy] at hfirst
  rw [hc, hy]
  refine (Pattern.firstOf_append_of_starts hignore s (r ++ v)).trans ?_
  rw [hfirst]
  rfl

/-- What a reader takes whole it takes before every text that may follow, at any place. -/
theorem TakesAll.ok {R : α → α → Prop} {x : Read α} {u : List Char} (h : x.TakesAll (u ++ ['\n']))
    (hm : Read.Moves .blind R x x) (hx : ∀ v, Read.Crosses ['\n'] ('\n' :: v) x) :
    ∃ a, ∀ (v : List Char) (c : Cursor), c.rest = u ++ '\n' :: v →
      ∃ a' d, x c = .ok a' d ∧ d.rest = v ∧ R a a' := by
  obtain ⟨a, b, ha, hb⟩ := h
  refine ⟨a, fun v c hc => ?_⟩
  have hm := hm (.ofText (u ++ ['\n'])) (Cursor.before { c with rest := u } ['\n']) (.blind rfl)
  rw [ha] at hm
  generalize hr : x (Cursor.before { c with rest := u } ['\n']) = r at hm
  cases hm with
  | @ok _ a' _ t hval hcur =>
    have hc : c = Cursor.before { c with rest := u } ('\n' :: v) := by
      cases c
      simp_all [Cursor.before]
    obtain ⟨d, hd, hmeets⟩ := hx v (.within { c with rest := u }) hr
    rw [← hc] at hd
    refine ⟨a', d, hd, ?_, hval⟩
    have ht : t.rest = [] := hcur.rest.symm.trans hb
    cases hmeets with
    | within e => simp at ht
    | beyond _ e _ => rfl

end Read

theorem Event.Alike.blind_notes (l k : List Note) :
    Event.Alike .blind (l.map .note) (k.map .note) :=
  ⟨by simp [List.filter_map, Function.comp_def, lasts], False.elim⟩

theorem Progress.Alike.moveTo_blind {doc : Document} {base base' : List Event} {s t : Progress}
    (h : s.Alike .blind doc base base' t) (c d : Cursor) :
    (s.moveTo c).Alike .blind doc base base' (t.moveTo d) :=
  h.moveTo (.blind_notes ..)

/-- Two results for the same line before two texts: what is left of each is its text, or
both are refused alike. -/
inductive SameLine (doc : Document) (base base' : List Event) (v v' : List Char) (a : α) (b : β) :
    EStateM.Result Fault Progress α → EStateM.Result Fault Progress β → Prop
  | ok {s t : Progress} (hs : s.cursor.rest = v) (ht : t.cursor.rest = v')
    (log : s.Alike .blind doc base base' t) : SameLine doc base base' v v' a b (.ok a s) (.ok b t)
  | error {e f : Fault} {s t : Progress} (fault : Fault.Moved .blind e f)
    (log : s.Alike .blind doc base base' t) :
    SameLine doc base base' v v' a b (.error e s) (.error f t)

namespace Parse

variable {setting : Setting} {doc : Document} {base base' : List Event} {s t : Progress}
  {u v v' : List Char}

/-- What a statement comes to once its line is read. -/
theorem statement_of_line {scope : Scope} {subject : String} {reader : Nat → Entry Record}
    {line : Line} {c : Cursor}
    (h : Read.line setting (s.cursor.note subject) = .ok line c) :
    Parse.statement setting scope subject reader s =
      match reader s.cursor.pos line with
      | .ok (r, unused) => .ok (r.opens?.getD scope) ((s.moveTo c).commit r unused)
      | .error complaint => .error (.refused complaint s.cursor.pos) (s.moveTo c) := by
  have he : Read.entry setting subject reader s.cursor =
      match reader s.cursor.pos line with
      | .ok p => .ok p c
      | .error complaint => .error (.refused complaint s.cursor.pos) c := by
    change EStateM.bind (Read.line setting) _ (s.cursor.note subject) = _
    simp only [EStateM.bind, h]
    cases reader s.cursor.pos line <;> rfl
  change EStateM.bind (Parse.read (Read.entry setting subject reader)) _ s = _
  simp only [EStateM.bind, Parse.read, he]
  cases reader s.cursor.pos line with
  | error complaint => rfl
  | ok p => rfl

theorem statement_sameLine (scope scope' : Scope) (subject : String) {reader : Nat → Entry Record}
    (hr : ∀ f ref, Entry.Natural f (Record.relocate f) (reader ref) (reader (f ref)))
    (ho : ∀ ref, (reader ref).Yields (·.opens? = none))
    (hu : (Read.line setting).TakesAll (u ++ ['\n']))
    (hs : s.cursor.rest = u ++ '\n' :: v) (ht : t.cursor.rest = u ++ '\n' :: v')
    (hst : s.Alike .blind doc base base' t) :
    SameLine doc base base' v v' scope scope' (Parse.statement setting scope subject reader s)
      (Parse.statement setting scope' subject reader t) := by
  obtain ⟨line, hline⟩ := hu.ok (.line setting) fun v => .line (.mk (.inr rfl) v) setting
  obtain ⟨l, c, hl, hc, hml⟩ := hline v (s.cursor.note subject) hs
  obtain ⟨k, d, hk, hd, hmk⟩ := hline v' (t.cursor.note subject) ht
  have hlk : Line.Moved .blind l k := hml.symm.trans hmk
  rw [statement_of_line hl, statement_of_line hk]
  have h := Entry.Natural.moved (v := .blind) (hr _ s.cursor.pos) (hr _ t.cursor.pos) rfl hlk
  rcases h with ⟨p, q, hp, hq, hpq⟩ | ⟨complaint, hp, hq⟩
  · have hop := ho _ _ _ hp
    have hoq := ho _ _ _ hq
    simp only [hp, hq, hop, hoq]
    exact .ok hc hd ((hst.moveTo_blind c d).commit hpq.1 hpq.2)
  · simp only [hp, hq]
    exact .error (.refused rfl complaint) (hst.moveTo_blind c d)

/-- What a definition comes to once its line is read. -/
theorem definition_of_line {v : Definition} {c : Cursor}
    (h : Read.definitionLine setting s.cursor = .ok v c) :
    ∃ d e, Parse.definition setting s =
      .ok () (((s.moveTo d).commit (.definition v) []).moveTo e) ∧ e.rest = c.rest := by
  obtain ⟨v, d, hv, h⟩ := bind_eq_ok.1 h
  obtain ⟨_, e, he, h⟩ := bind_eq_ok.1 h
  cases h
  -- the notes of the definition are events by now, and the end of the line does not see them
  have hm := Read.Moves.lineEnd (v := .blind) .lineEnd d { d with notes := [] } (.blind rfl)
  rw [he] at hm
  generalize he' : Read.lineEnd .lineEnd { d with notes := [] } = r at hm
  cases hm with
  | @ok _ _ _ e' _ hcur =>
    refine ⟨d, e', ?_, hcur.rest.symm⟩
    exact bind_eq_ok.2 ⟨v, s.moveTo d, read_of_ok hv, bind_eq_ok.2 ⟨(), _, rfl, read_of_ok he'⟩⟩

theorem definition_sameLine (hu : (Read.definitionLine setting).TakesAll (u ++ ['\n']))
    (hs : s.cursor.rest = u ++ '\n' :: v) (ht : t.cursor.rest = u ++ '\n' :: v')
    (hst : s.Alike .blind doc base base' t) :
    SameLine doc base base' v v' () () (Parse.definition setting s)
      (Parse.definition setting t) := by
  have hmoves : Read.Moves .blind (fun a b => a.relocate Views.blind.left =
      b.relocate Views.blind.right) (Read.definitionLine setting) (Read.definitionLine setting) :=
    (Read.Moves.definition setting).bind fun hv => (Read.Moves.lineEnd _).bind fun _ => .pure hv
  have hcrosses : ∀ v, Read.Crosses ['\n'] ('\n' :: v) (Read.definitionLine setting) := fun v =>
    (Read.Keeps.definition (.mk (.inr rfl) v) setting).bind fun _ =>
      (Read.Crosses.lineEnd (.mk (.inr rfl) v) _).bind fun _ => .pure _
  obtain ⟨a, ha⟩ := hu.ok hmoves hcrosses
  obtain ⟨x, c, hx, hc, hax⟩ := ha v s.cursor hs
  obtain ⟨y, d, hy, hd, hay⟩ := ha v' t.cursor ht
  obtain ⟨c₁, c₂, hsd, hc₂⟩ := definition_of_line hx
  obtain ⟨d₁, d₂, htd, hd₂⟩ := definition_of_line hy
  rw [hsd, htd]
  have hxy : Record.Moved .blind (.definition x) (.definition y) :=
    congrArg Record.definition (hax.symm.trans hay)
  exact .ok (hc₂.trans hc) (hd₂.trans hd)
    (((hst.moveTo_blind c₁ d₁).commit hxy (.nil _)).moveTo_blind c₂ d₂)

theorem sameLine_bind_pure {x y : Parse Unit} {scope scope' : Scope}
    (h : SameLine doc base base' v v' () () (x s) (y t)) :
    SameLine doc base base' v v' scope scope' ((x >>= fun _ => pure scope) s)
      ((y >>= fun _ => pure scope') t) := by
  change SameLine doc base base' v v' scope scope' (EStateM.bind x _ s) (EStateM.bind y _ t)
  unfold EStateM.bind
  cases hx : x s <;> cases hy : y t <;> rw [hx, hy] at h <;> cases h
  · rename_i hs ht log
    exact .ok hs ht log
  · rename_i fault log
    exact .error fault log

end Parse

namespace Heading.Body

variable {h : Heading} {setting : Setting} {text : List Char}

/-- The line is not taken for a blank one or for a comment. -/
theorem lead_section (hb : h.Body setting text) {c : Cursor} {v : List Char}
    (hc : c.rest = text ++ v) : Read.lead (.lines h) c = .ok none c := by
  obtain ⟨x, hx, hline, hcomment⟩ := hb.first
  obtain ⟨r, hr⟩ : ∃ r, text.dropWhile Grammar.isBlank = x :: r := by
    cases hd : text.dropWhile Grammar.isBlank with
    | nil => simp [hd] at hx
    | cons y r =>
      rw [hd] at hx
      cases hx
      exact ⟨r, rfl⟩
  have hblank : Grammar.isBlank x = false := by
    have := List.head?_dropWhile_not Grammar.isBlank text
    simpa [hr] using this
  have htext : text ++ v = text.takeWhile Grammar.isBlank ++ x :: (r ++ v) := by
    conv => lhs; rw [← text.takeWhile_append_dropWhile (p := Grammar.isBlank), hr]
    simp
  have hfree : Free Grammar.isBlank (x :: (r ++ v)) := by simpa [Free] using hblank
  have hall : ∀ y ∈ text.takeWhile Grammar.isBlank, Grammar.isBlank y = true := by
    intro y hy
    exact List.all_eq_true.1 List.all_takeWhile y hy
  have hrun : ∀ p : Pattern, p.run (x :: (r ++ v)) = none →
      (Pattern.seq (.many Grammar.isBlank) p).run (text ++ v) = none := by
    intro p hp
    rw [htext]
    simp only [Pattern.run, Pattern.dropWhile_of_free hall hfree, hp]
  have hnone : Pattern.firstOf (Scope.lines h).leads c.rest = none := by
    rw [hc]
    simp only [Pattern.firstOf, Scope.leads, List.findSome?_cons, Grammar.blankLine,
      Grammar.blockLine, Grammar.commentLine]
    rw [hrun, hrun, hrun]
    · rfl
    · simp [Grammar.comment, Pattern.char, Pattern.run, hcomment]
    · simp [Grammar.blockOpen, Pattern.literal, Pattern.spell, Pattern.run, hcomment]
    · simp [Grammar.lineEnd, Pattern.char, Pattern.run, hline]
  simp only [Read.lead, hnone]

end Heading.Body

namespace Parse

variable {setting : Setting} {doc : Document} {base base' : List Event} {s t : Progress}
  {h : Heading} {keyword : String} {text v v' : List Char}

/-- One body, on a line of the section and behind its keyword at the top. -/
theorem step_sameLine (hk : h.keyword? = some keyword) (hb : h.Body setting text)
    (hs : s.cursor.rest = text ++ v) (ht : t.cursor.rest = keyword.toList ++ (text ++ v'))
    (hst : s.Alike .blind doc base base' t) :
    SameLine doc base base' v v' (.lines h) .top (Parse.step setting (.lines h) s)
      (Parse.step setting .top t) := by
  obtain ⟨u, rfl⟩ := hb.lineEnd
  rw [step_of_lead (hb.lead_section hs)]
  have hlead : ∀ lead, (keyword, lead) ∈ Scope.keywords →
      Parse.step setting .top t = Parse.follow setting .top lead
        (t.moveTo (t.cursor.past ⟨keyword.toList, [], u ++ ['\n'] ++ v'⟩)) := by
    intro lead hlead
    exact step_of_lead (Read.lead_keyword hlead hb.blank ht)
  have hmove := hst.moveTo_blind s.cursor (t.cursor.past ⟨keyword.toList, [], u ++ ['\n'] ++ v'⟩)
  have hs : (s.moveTo s.cursor).cursor.rest = u ++ '\n' :: v := by simp [hs]
  have ht : (t.moveTo (t.cursor.past ⟨keyword.toList, [], u ++ ['\n'] ++ v'⟩)).cursor.rest =
      u ++ '\n' :: v' := by simp
  cases h with
  | nodes =>
    cases hk
    rw [hlead .node (by decide)]
    exact statement_sameLine _ _ _ (fun _ ref => .node ref)
      (fun ref => .bind fun _ => .bind fun _ => .bind fun _ => .pure rfl) hb.fills hs ht hmove
  | vars =>
    cases hk
    rw [hlead .var (by decide)]
    exact sameLine_bind_pure (definition_sameLine hb.fills hs ht hmove)
  | properties =>
    cases hk
    rw [hlead .property (by decide)]
    exact statement_sameLine _ _ _ (fun _ ref => .property ref)
      (fun ref => .bind fun _ => .bind fun _ => .bind fun _ => .pure rfl) hb.fills hs ht hmove
  | actions =>
    cases hk
    rw [hlead .action (by decide)]
    exact statement_sameLine _ _ _ (fun _ ref => .action ref)
      (fun ref => .bind fun trigger => .bind fun _ => .bind fun _ => .bind fun _ => by
        cases trigger with
        | node => exact .pure rfl
        | condition =>
          dsimp only
          split
          · exact .bind fun _ => .pure rfl
          · exact .pure rfl) hb.fills hs ht hmove
  | map =>
    cases hk
    rw [hlead .path (by decide)]
    exact statement_sameLine _ _ _ (fun _ ref => .path ref)
      (fun ref => .bind fun _ => .bind fun _ => .bind fun _ => .bind fun _ => .pure rfl)
      hb.fills hs ht hmove
  | boring => cases hk

/-- All bodies, below the heading and each behind its keyword. -/
theorem run_bodies (hk : h.keyword? = some keyword) {bodies : List (List Char)}
    (hb : ∀ text ∈ bodies, h.Body setting text) (hs : s.cursor.rest = bodies.flatten)
    (ht : t.cursor.rest = bodies.flatMap (keyword.toList ++ ·))
    (hst : s.Alike .blind doc base base' t) :
    Agrees (Progress.Alike .blind doc base base') (Fault.Moved .blind) Eq
      (Parse.run setting (.lines h) s) (Parse.run setting .top t) := by
  induction bodies generalizing s t with
  | nil =>
    rw [run_of_nil hs, run_of_nil ht]
    exact .ok rfl hst
  | cons text bodies ih =>
    have hbody := hb text List.mem_cons_self
    obtain ⟨u, hu⟩ := hbody.lineEnd
    have hs' : s.cursor.rest ≠ [] := by simp [hs, hu]
    have ht' : t.cursor.rest ≠ [] := by simp [ht, hu]
    rw [List.flatten_cons] at hs
    rw [List.flatMap_cons, List.append_assoc] at ht
    have hline := step_sameLine hk hbody hs ht hst
    generalize hsr : Parse.step setting (.lines h) s = r at hline
    generalize htr : Parse.step setting .top t = r' at hline
    cases hline with
    | ok hsn htn log =>
      rw [run_of_ok hs' hsr, run_of_ok ht' htr]
      exact ih (fun b hmem => hb b (List.mem_cons_of_mem _ hmem)) hsn htn log
    | error fault log =>
      rw [run_of_error hs' hsr, run_of_error ht' htr]
      exact .error fault log

/-- The heading is taken with its line break, and only noted. -/
theorem leads_heading (setting : Setting) (h : Heading) (rest : List Char) :
    ∃ s n, Leads setting .top (.ofText (h.name.toList ++ '\n' :: rest)) (.lines h) s ∧
      s.cursor.rest = rest ∧ s.document = {} ∧ s.events = [.note n] := by
  have hne : (Progress.ofText (h.name.toList ++ '\n' :: rest)).cursor.rest ≠ [] := by
    simp [Progress.ofText, Cursor.ofText]
  cases h <;> exact ⟨_, _, .step hne rfl (.refl ..), rfl, rfl, rfl⟩

end Parse

/-- The records of a section are the records that its lines are behind their keyword, with
the same warnings, and the first line that is refused is refused alike. -/
theorem Script.read_section (setting : Setting) {h : Heading} {keyword : String}
    (hk : h.keyword? = some keyword) {bodies : List (List Char)}
    (hb : ∀ text ∈ bodies, h.Body setting text) :
    let grouped := Script.read setting (h.name.toList ++ '\n' :: bodies.flatten)
    let single := Script.read setting (bodies.flatMap (keyword.toList ++ ·))
    grouped.fault?.map (Fault.relocate fun _ => 0) =
        single.fault?.map (Fault.relocate fun _ => 0) ∧
      grouped.document.relocate (fun _ => 0) = single.document.relocate (fun _ => 0) ∧
      grouped.warnings.map Warning.text = single.warnings.map Warning.text := by
  intro grouped single
  obtain ⟨s, n, hl, hs, hd, he⟩ := Parse.leads_heading setting h bodies.flatten
  have hst : s.Alike .blind {} [.note n] [] (.ofText (bodies.flatMap (keyword.toList ++ ·))) :=
    ⟨[], [], he, rfl, .nil, hd, rfl⟩
  have hrun := Parse.run_bodies hk hb hs rfl hst
  have hlog : ∀ {s t : Progress}, s.Alike .blind {} [.note n] [] t →
      Event.Alike .blind s.events.reverse t.events.reverse := by
    rintro s t ⟨new, new', hs, ht, hn, -⟩
    have hbase : Event.Alike .blind [.note n] [] := ⟨rfl, False.elim⟩
    rw [hs, ht]
    exact (hn.append hbase).reverse
  have hgrouped : grouped = ofResult (Parse.run setting (.lines h) s) := by
    simp only [grouped, read, hl.run_eq]
  have hsingle : single = ofResult (Parse.run setting .top
      (.ofText (bodies.flatMap (keyword.toList ++ ·)))) := rfl
  rw [hgrouped, hsingle]
  generalize Parse.run setting (.lines h) s = r at hrun ⊢
  generalize Parse.run setting .top _ = r' at hrun ⊢
  cases hrun with
  | ok _ log => exact ⟨rfl, log.document, warnings_of_alike (hlog log)⟩
  | error fault log =>
    exact ⟨congrArg some fault, log.document, warnings_of_alike (hlog log)⟩

/-- A line that goes on in its string and ends with a comment, and one that is refused. -/
theorem Script.read_section_refused :
    (∀ text ∈ [" a \"x\n\\\"y\" # c\n".toList, " b\n".toList], Heading.nodes.Body {} text) ∧
      (Script.read {} "nodes\n a \"x\n\\\"y\" # c\n b\n".toList).fault?.map
          (Fault.relocate fun _ => 0) =
        (Script.read {} "node a \"x\n\\\"y\" # c\nnode b\n".toList).fault?.map
          (Fault.relocate fun _ => 0) := by
  have hfirst : Heading.nodes.Body {} " a \"x\n\\\"y\" # c\n".toList := by
    refine ⟨⟨' ', rfl, rfl⟩, ⟨'a', rfl, by decide, by decide⟩, ⟨" a \"x\n\\\"y\" # c".toList, rfl⟩,
      ?_⟩
    exact ⟨_, _, (Line.readFrom_of_gap rfl _).trans <| (Line.readFrom_of_token rfl _).trans <|
      (Line.readFrom_of_gap rfl _).trans <| (Line.readFrom_of_token rfl _).trans <|
      (Line.readFrom_of_gap rfl _).trans <| Line.readFrom_of_finish rfl _, rfl⟩
  have hsecond : Heading.nodes.Body {} " b\n".toList := by
    refine ⟨⟨' ', rfl, rfl⟩, ⟨'b', rfl, by decide, by decide⟩, ⟨" b".toList, rfl⟩, ?_⟩
    exact ⟨_, _, (Line.readFrom_of_gap rfl _).trans <| (Line.readFrom_of_token rfl _).trans <|
      Line.readFrom_of_finish rfl _, rfl⟩
  have hb : ∀ text ∈ [" a \"x\n\\\"y\" # c\n".toList, " b\n".toList],
      Heading.nodes.Body {} text := by
    simp only [List.mem_cons, List.not_mem_nil, or_false]
    rintro text (rfl | rfl)
    · exact hfirst
    · exact hsecond
  have hk : Heading.nodes.keyword? = some "node" := rfl
  exact ⟨hb, (Script.read_section {} hk hb).1⟩

end Gamebook
