import Gamebook.Proofs.Extension

/-!
Sources compose. An empty line ends whatever a source has left open, so a second source
put behind it is read from the top, with the document and the events of the first one.
Only a block comment that is never closed would take the second source in.
-/
namespace Gamebook

/-- Two states that differ at most in their cursors, with all notes taken over. -/
structure Progress.Beside (C : Cursor → Cursor → Prop) (s t : Progress) : Prop where
  cursor : C s.cursor t.cursor
  notes : t.cursor.notes = []
  document : s.document = t.document
  events : s.events = t.events

theorem Progress.Beside.mono {C D : Cursor → Cursor → Prop} {s t : Progress}
    (h : Progress.Beside C s t) (hc : ∀ c d, C c d → D c d) : Progress.Beside D s t :=
  ⟨hc _ _ h.cursor, h.notes, h.document, h.events⟩

namespace Cursor.Meets

variable {p : Prop} {near far : List Char} {c d : Cursor}

theorem notes (h : Cursor.Meets p near far c d) : c.notes = d.notes := by
  cases h with
  | within c => rfl
  | beyond _ c _ => cases near <;> cases far <;> rfl

theorem clear (h : Cursor.Meets p near far c d) :
    Cursor.Meets p near far { c with notes := [] } { d with notes := [] } := by
  cases h with
  | within c => exact .within { c with notes := [] }
  | beyond hp c hc =>
    have hb : ∀ u, { c.beyond u with notes := [] } = Cursor.beyond { c with notes := [] } u := by
      intro u
      cases u <;> rfl
    rw [hb, hb]
    exact .beyond hp { c with notes := [] } hc

end Cursor.Meets

theorem Progress.Beside.moveTo {C : Cursor → Cursor → Prop} {p : Prop} {near far : List Char}
    {s t : Progress} (h : Progress.Beside C s t) {c d : Cursor}
    (hm : Cursor.Meets p near far c d) :
    Progress.Beside (Cursor.Meets p near far) (s.moveTo c) (t.moveTo d) := by
  refine ⟨hm.clear, rfl, h.document, ?_⟩
  simp only [Progress.moveTo, hm.notes, h.events]

namespace Parse

variable {C : Cursor → Cursor → Prop} {p : Prop} {near far : List Char}

theorem read_of_ok {x : Read α} {s : Progress} {a : α} {c : Cursor} (h : x s.cursor = .ok a c) :
    Parse.read x s = .ok a (s.moveTo c) := by
  simp only [Parse.read, h]

theorem carries_read {x : Read α} (hx : Carries C (Cursor.Meets p near far) x) :
    Carries (Progress.Beside C) (Progress.Beside (Cursor.Meets p near far)) (Parse.read x) := by
  intro s t hst a s' h
  unfold Parse.read at h
  cases hs : x s.cursor with
  | error fault c =>
    rw [hs] at h
    cases h
  | ok b c =>
    rw [hs] at h
    cases h
    obtain ⟨d, hd, hm⟩ := hx hst.cursor hs
    exact ⟨t.moveTo d, read_of_ok hd, hst.moveTo hm⟩

theorem carries_commit (r : Record) (unused : Line) :
    Carries (Progress.Beside C) (Progress.Beside C) (Parse.commit r unused) := by
  rintro s t hst _ _ ⟨⟩
  refine ⟨t.commit r unused, rfl, hst.cursor, hst.notes, ?_, ?_⟩
  · simp only [Progress.commit, hst.document]
  · simp only [Progress.commit, hst.document, hst.events]

theorem carries_commitAll (rs : List Record) :
    Carries (Progress.Beside C) (Progress.Beside C) (Parse.commitAll rs) := by
  induction rs with
  | nil => exact .pure ()
  | cons r rs ih => exact (carries_commit r []).bind fun _ => ih

/-- The step does the same in both texts, and may take the break. -/
abbrev Crosses (near far : List Char) (x : Parse α) : Prop :=
  Carries (Progress.Beside (Cursor.Meets False near far))
    (Progress.Beside (Cursor.Meets True near far)) x

namespace Crosses

theorem pure (a : α) : Crosses near far (Pure.pure a : Parse α) :=
  (Carries.pure a).mono fun _ _ h => h.mono fun _ _ hm => hm.mono False.elim

variable (hb : Break near far) (setting : Setting)
include hb

theorem statement (scope : Scope) (subject : String) (reader : Nat → Entry Record) :
    Crosses near far (Parse.statement setting scope subject reader) :=
  (carries_read (Read.Crosses.entry hb setting subject reader)).bind fun _ =>
    (carries_commit _ _).bind fun _ => .pure _

theorem definition : Crosses near far (Parse.definition setting) :=
  (carries_read (Read.Keeps.definition hb setting)).bind fun _ => (carries_commit _ _).bind fun _ =>
    carries_read (Read.Crosses.lineEnd hb _)

theorem directive (modifier : String) : Crosses near far (Parse.directive setting modifier) :=
  (carries_read (Read.Crosses.directive hb setting)).bind fun _ => carries_commit _ _

theorem reactions (id : String) : Crosses near far (Parse.reactions setting id) := by
  refine (carries_read (Read.Crosses.entry hb setting _ _)).bind fun _ =>
    (carries_commitAll _).bind fun _ => ?_
  split
  · exact .pure _
  · exact .throw _

theorem start (scope : Scope) : Crosses near far (Parse.start setting scope) := by
  intro s t hst a s' h
  have hx : ∀ q : Progress, Parse.start setting scope q =
      (if q.document.start.isSome then Parse.read (Read.failHere .startDefined)
        else Parse.statement setting scope "start" Entry.start) q := fun _ => rfl
  rw [hx] at h
  rw [hx, ← hst.document]
  cases hd : s.document.start.isSome with
  | true =>
    rw [hd] at h
    cases h
  | false =>
    rw [hd] at h
    exact statement hb setting scope _ _ hst h

/-- What follows a lead other than a block comment. -/
theorem follow (scope : Scope) {lead : Lead} (hl : lead ≠ .block) :
    Crosses near far (Parse.follow setting scope lead) := by
  cases lead with
  | gap | close => exact pure _
  | comment => exact (carries_read (Read.Crosses.skipThrough_lineEnd hb)).bind fun _ => .pure _
  | block => exact absurd rfl hl
  | heading h => exact (carries_read (Read.Crosses.heading hb _)).bind fun _ => .pure _
  | start => exact start hb setting scope
  | first => exact (carries_read (Read.Keeps.first hb)).bind fun _ => statement hb setting ..
  | boring id => exact (reactions hb setting id).bind fun _ => .pure _
  | sigil | var => exact (definition hb setting).bind fun _ => .pure _
  | _ => exact statement hb setting ..

theorem plainLine (scope : Scope) : Crosses near far (Parse.plainLine setting scope) := by
  cases scope with
  | top | item => exact carries_read (Read.Keeps.failHere _).crosses
  | modifier name => exact (directive hb setting name).bind fun _ => .pure _
  | lines h =>
    cases h with
    | vars => exact (definition hb setting).bind fun _ => .pure _
    | _ => exact statement hb setting ..

end Crosses

/-- A block comment that begins here is closed. -/
def Closed (scope : Scope) (c : Cursor) : Prop :=
  ∀ d, Read.lead scope c = .ok (some .block) d →
    (Grammar.blockClose.search d.rest).isSome = true

theorem lead_of_firstOf {scope : Scope} {c : Cursor} {lead : Lead} {m : Match}
    (h : Pattern.firstOf scope.leads c.rest = some (lead, m)) (hl : lead ≠ .sigil) :
    Read.lead scope c = .ok (some lead) (c.past m) := by
  simp only [Read.lead, h]

theorem step_of_lead {setting : Setting} {scope : Scope} {s : Progress} {l : Option Lead}
    {c : Cursor} (h : Read.lead scope s.cursor = .ok l c) :
    Parse.step setting scope s = Parse.proceed setting scope l (s.moveTo c) := by
  change EStateM.bind (Parse.read (Read.lead scope)) (Parse.proceed setting scope) s = _
  simp only [EStateM.bind, Parse.read, h]

/-- A step before the end of a source does the same where the source goes on. -/
theorem step_crosses {far : List Char} (hb : Break [] far) {setting : Setting} {scope next : Scope}
    {s t s' : Progress} {c : Cursor} (hst : Progress.Beside (c.At [] far) s t)
    (hc : c.rest ≠ []) (hclosed : Closed scope s.cursor)
    (h : Parse.step setting scope s = .ok next s') :
    ∃ t', Parse.step setting scope t = .ok next t' ∧
      Progress.Beside (Cursor.Meets True [] far) s' t' := by
  obtain ⟨l, d, hl⟩ : ∃ l d, Read.lead scope s.cursor = .ok l d := by
    unfold Read.lead
    split <;> exact ⟨_, _, rfl⟩
  have hlead := hl
  rw [hst.cursor.1] at hl
  obtain ⟨d', hl', hm⟩ := Read.lead_meets hb hc hl
  rw [← hst.cursor.2] at hl'
  rw [step_of_lead hlead] at h
  rw [step_of_lead hl']
  have hmove := hst.moveTo hm
  by_cases hclose : l = some .close
  · subst hclose
    exact (Carries.pure Scope.top).mono (fun _ _ h => h.mono fun _ _ hm => hm.mono fun _ => trivial)
      hmove h
  · have hwithin : Progress.Beside (Cursor.Meets False [] far) (s.moveTo d) (t.moveTo d') :=
      hmove.mono fun _ _ hm => hm.mono hclose
    cases l with
    | none => exact Crosses.plainLine hb setting scope hwithin h
    | some lead =>
      by_cases hblock : lead = .block
      · subst hblock
        have hsome := hclosed d hlead
        cases hm with
        | beyond hp => exact absurd hp hclose
        | within e =>
          have he : (Grammar.blockClose.search { e with notes := [] }.rest).isSome = true := by
            simpa using hsome
          have hat : Progress.Beside (Cursor.At { e with notes := [] } [] far)
              (s.moveTo (e.before [])) (t.moveTo (e.before far)) :=
            ⟨⟨rfl, rfl⟩, rfl, hmove.document, hmove.events⟩
          exact (carries_read (Read.blockComment_crosses hb he)).bind (fun _ => .pure scope) hat h
      · exact Crosses.follow hb setting scope hblock hwithin h

/-- Reading gets from one state to another, step by step. -/
inductive Leads (setting : Setting) : Scope → Progress → Scope → Progress → Prop
  | refl (scope : Scope) (s : Progress) : Leads setting scope s scope s
  | step {scope next final : Scope} {s t u : Progress} (hs : s.cursor.rest ≠ [])
    (h : Parse.step setting scope s = .ok next t) (hl : Leads setting next t final u) :
    Leads setting scope s final u

namespace Leads

variable {setting : Setting} {scope next final : Scope} {s t u : Progress}

theorem trans (h : Leads setting scope s next t) (h' : Leads setting next t final u) :
    Leads setting scope s final u := by
  induction h with
  | refl => exact h'
  | step hs hstep _ ih => exact .step hs hstep (ih h')

theorem run_eq (h : Leads setting scope s final u) :
    Parse.run setting scope s = Parse.run setting final u := by
  induction h with
  | refl => rfl
  | step hs hstep _ ih => exact (run_of_ok hs hstep).trans ih

theorem reaches (h : Leads setting scope s final u) : s.cursor.Reaches u.cursor := by
  induction h with
  | refl => exact .refl _
  | @step scope _ _ s _ _ _ hstep _ ih =>
    have hr := Advances.step setting scope s
    rw [hstep] at hr
    exact hr.trans ih

end Leads

/-- An empty line ends every scope. -/
theorem step_lineEnd (setting : Setting) (scope : Scope) {s : Progress} {v : List Char}
    (hs : s.cursor.rest = '\n' :: v) :
    Parse.step setting scope s = .ok .top (s.moveTo (s.cursor.past ⟨['\n'], [], v⟩)) := by
  have hf : ∃ lead, Pattern.firstOf scope.leads s.cursor.rest = some (lead, ⟨['\n'], [], v⟩) ∧
      (lead = .close ∨ lead = .gap ∧ scope = .top) := by
    rw [hs]
    cases scope with
    | top => exact ⟨.gap, rfl, .inr ⟨rfl, rfl⟩⟩
    | lines | item | modifier => exact ⟨.close, rfl, .inl rfl⟩
  obtain ⟨lead, hf, hlead⟩ := hf
  rcases hlead with rfl | ⟨rfl, rfl⟩
  · rw [step_of_lead (lead_of_firstOf hf nofun)]
    rfl
  · rw [step_of_lead (lead_of_firstOf hf nofun)]
    rfl

/-- Past an empty line reading stands at the top, and nothing else has happened. -/
theorem leads_lineEnd (setting : Setting) (scope : Scope) {s : Progress} {v : List Char}
    (hs : s.cursor.rest = '\n' :: v) (hn : s.cursor.notes = []) :
    ∃ t, Leads setting scope s .top t ∧ t.cursor.rest = v ∧ t.cursor.notes = [] ∧
      t.document = s.document ∧ t.events = s.events := by
  have hne : s.cursor.rest ≠ [] := by simp [hs]
  refine ⟨_, .step hne (step_lineEnd setting scope hs) (.refl ..), rfl, rfl, rfl, ?_⟩
  simp only [Progress.moveTo, Cursor.past, hn, List.map_nil, List.nil_append]

/-- A source that is read to its end leads to the top behind an empty line. -/
theorem leads_of_run {setting : Setting} {scope : Scope} {s t u : Progress} {c : Cursor}
    {v : List Char} (hst : Progress.Beside (c.At [] ('\n' :: '\n' :: v)) s t)
    (hclosed : ∀ scope' s', Leads setting scope s scope' s' → Closed scope' s'.cursor)
    (h : Parse.run setting scope s = .ok () u) :
    ∃ t', Leads setting scope t .top t' ∧ t'.cursor.rest = v ∧ t'.cursor.notes = [] ∧
      t'.document = u.document ∧ t'.events = u.events := by
  fun_induction Parse.run setting scope s generalizing t c with
  | case1 scope s hnil =>
    cases h
    have hc : c.rest = [] := by simpa [hst.cursor.1] using hnil
    have ht : t.cursor.rest = '\n' :: '\n' :: v := by simp [hst.cursor.2, hc]
    obtain ⟨t₁, hl₁, hr₁, hn₁, hd₁, he₁⟩ := leads_lineEnd setting scope ht hst.notes
    obtain ⟨t₂, hl₂, hr₂, hn₂, hd₂, he₂⟩ := leads_lineEnd setting .top hr₁ hn₁
    exact ⟨t₂, hl₁.trans hl₂, hr₂, hn₂, hd₂.trans (hd₁.trans hst.document.symm),
      he₂.trans (he₁.trans hst.events.symm)⟩
  | case2 scope s hne next s' hstep ih =>
    have hc : c.rest ≠ [] := by simpa [hst.cursor.1] using hne
    obtain ⟨t', hstep', hm, hn, hd, he⟩ :=
      step_crosses (.mk (.inl rfl) _) hst hc (hclosed _ _ (.refl ..)) hstep
    have htne : t.cursor.rest ≠ [] := by simp [hst.cursor.2]
    generalize hsc : s'.cursor = a at hm
    generalize htc : t'.cursor = b at hm
    cases hm with
    | within e =>
      obtain ⟨u', hl, hu⟩ := ih ⟨⟨hsc, htc⟩, hn, hd, he⟩
        (fun _ _ hl => hclosed _ _ (.step hne hstep hl)) h
      exact ⟨u', .step htne hstep' hl, hu⟩
    | beyond _ e he' =>
      -- the near text is used up, and of the empty line one break is left
      have hnil : s'.cursor.rest = [] := by rw [hsc]; exact he'
      rw [run_of_nil hnil] at h
      cases h
      have ht' : t'.cursor.rest = '\n' :: v := by rw [htc]; rfl
      obtain ⟨u', hl, hr, hn', hd', he''⟩ := leads_lineEnd setting next ht' hn
      exact ⟨u', .step htne hstep' hl, hr, hn', hd'.trans hd.symm, he''.trans he.symm⟩
  | case3 scope s hne fault s' hstep => cases h

end Parse

theorem Fault.relocate_id (e : Fault) : e.relocate (fun n => n) = e := by
  cases e <;> rfl

namespace Script

/-- A block comment of the source is never closed. -/
def Unclosed (setting : Setting) (source : List Char) : Prop :=
  ∃ scope s c, Parse.Leads setting .top (.ofText source) scope s ∧
    Read.lead scope s.cursor = .ok (some .block) c ∧ Grammar.blockClose.search c.rest = none

/-- Read a source from the top, with what a script has come to so far. -/
def resume (setting : Setting) (s : Script) (source : List Char) : Script :=
  ofResult (Parse.run setting .top
    { cursor := .ofText source, document := s.document, events := s.events.reverse })

/-- The texts of the warnings can be told from the events without their places. -/
theorem warnings_text (s : Script) : s.warnings.map Warning.text =
    (warnings { s with events := (s.events.filter Event.lasts).map (Event.relocate fun _ => 0) }).map
      Warning.text := by
  obtain ⟨document, events, fault⟩ := s
  induction events with
  | nil => rfl
  | cons e events ih =>
    cases e with
    | note => exact ih
    | record r => exact ih
    | warning w =>
      refine (congrArg (w.text :: ·) ih).trans (congrArg (· :: _) ?_)
      exact w.text_relocate.symm

theorem warnings_of_alike {s t : Script} (h : Event.Alike .blind s.events t.events) :
    s.warnings.map Warning.text = t.warnings.map Warning.text := by
  rw [warnings_text s, warnings_text t]
  have hl : (s.events.filter Event.lasts).map (Event.relocate fun _ => 0) =
      (t.events.filter Event.lasts).map (Event.relocate fun _ => 0) := h.lasting
  simp only [hl]
  rfl

/-- A source that is read to its end leads to the top behind an empty line, at the place
where the second source begins. -/
theorem leads_append {setting : Setting} {s₁ : List Char} {u : Progress}
    (hu : Parse.run setting .top (.ofText s₁) = .ok () u) (hc : ¬ Unclosed setting s₁)
    (s₂ : List Char) :
    ∃ t, Parse.Leads setting .top (.ofText (s₁ ++ '\n' :: '\n' :: s₂)) .top t ∧
      t.cursor.rest = s₂ ∧ t.cursor.pos = s₁.length + 2 ∧ t.cursor.notes = [] ∧
      t.document = u.document ∧ t.events = u.events := by
  have hat : Progress.Beside ((Cursor.ofText s₁).At [] ('\n' :: '\n' :: s₂)) (.ofText s₁)
      (.ofText (s₁ ++ '\n' :: '\n' :: s₂)) := by
    refine ⟨⟨?_, rfl⟩, rfl, rfl, rfl⟩
    simp [Progress.ofText, Cursor.ofText, Cursor.before]
  have hclosed : ∀ scope s, Parse.Leads setting .top (.ofText s₁) scope s →
      Parse.Closed scope s.cursor := by
    intro scope s hl d hd
    by_contra hn
    exact hc ⟨scope, s, d, hl, hd, by simpa using hn⟩
  obtain ⟨t, hl, hr, hn, hd, he⟩ := Parse.leads_of_run hat hclosed hu
  refine ⟨t, hl, hr, ?_, hn, hd, he⟩
  obtain ⟨taken, htaken, hpos⟩ := hl.reaches
  have hlen := congrArg List.length htaken
  simp only [Progress.ofText, Cursor.ofText, List.length_append, List.length_cons, hr] at hlen hpos
  omega

/-- Two scripts that read the same text from the same state, one of them further on. -/
theorem ofResult_shift {k : Nat} {doc : Document} {base : List Event}
    {r r' : EStateM.Result Fault Progress Unit}
    (h : Agrees (Progress.Moved (.shift k) doc base base) (Fault.Moved (.shift k)) Eq r r') :
    (ofResult r').fault? = (ofResult r).fault?.map (Fault.relocate (· + k)) ∧
      ∃ new : List Event, (ofResult r).events = base.reverse ++ new ∧
        (ofResult r').events = base.reverse ++ new.map (Event.relocate (· + k)) ∧
        (ofResult r).document = Event.document doc new.reverse ∧
        (ofResult r').document =
          Event.document doc (new.map (Event.relocate (· + k))).reverse := by
  have events : ∀ {s t : Progress}, s.Moved (.shift k) doc base base t →
      ∃ new : List Event, s.events.reverse = base.reverse ++ new ∧
        t.events.reverse = base.reverse ++ new.map (Event.relocate (· + k)) ∧
        s.document = Event.document doc new.reverse ∧
        t.document = Event.document doc (new.map (Event.relocate (· + k))).reverse := by
    intro s t hst
    obtain ⟨new, new', hs, ht, hn, hsd, htd⟩ := hst.log
    have hn : new.map (Event.relocate (· + k)) = new' := by
      exact (hn.notes trivial).trans (Event.map_relocate_id new')
    subst hn
    refine ⟨new.reverse, ?_, ?_, ?_, ?_⟩
    · simp [hs]
    · simp [ht]
    · simpa using hsd
    · simpa using htd
  cases h with
  | ok _ hst => exact ⟨rfl, events hst⟩
  | error hf hst =>
    refine ⟨?_, events hst⟩
    exact congrArg some (((Fault.relocate_id _).symm.trans hf.symm))

/-- A source put behind another one and an empty line is read on from the document and
the events of that one, and all its places lie further on. -/
theorem read_append (setting : Setting) {s₁ : List Char} (h : (read setting s₁).fault? = none)
    (hc : ¬ Unclosed setting s₁) (s₂ : List Char) :
    let first := read setting s₁
    let second := first.resume setting s₂
    let whole := read setting (s₁ ++ '\n' :: '\n' :: s₂)
    let further := (· + (s₁.length + 2))
    whole.fault? = second.fault?.map (Fault.relocate further) ∧
      whole.warnings.map Warning.text = second.warnings.map Warning.text ∧
      ∃ new : List Event, second.events = first.events ++ new ∧
        whole.events = first.events ++ new.map (Event.relocate further) ∧
        second.document = Event.document first.document new.reverse ∧
        whole.document =
          Event.document first.document (new.map (Event.relocate further)).reverse := by
  intro first second whole further
  obtain ⟨u, hu⟩ : ∃ u, Parse.run setting .top (.ofText s₁) = .ok () u := by
    unfold read at h
    cases hr : Parse.run setting .top (.ofText s₁) with
    | ok _ u => exact ⟨u, rfl⟩
    | error fault u =>
      rw [hr] at h
      cases h
  have hfirst : first = ⟨u.document, u.events.reverse, none⟩ := by
    simp only [first, read, hu, ofResult]
  obtain ⟨t, hl, hr, hp, hn, hd, he⟩ := leads_append hu hc s₂
  have hst : Progress.Moved (.shift (s₁.length + 2)) u.document u.events u.events
      { cursor := .ofText s₂, document := u.document, events := u.events } t := by
    refine ⟨⟨hr.symm, ?_, fun _ => ?_⟩, [], [], rfl, he, .nil, rfl, hd⟩
    · simp [Views.Same, Views.shift, Cursor.ofText, hp]
    · simp [Cursor.ofText, hn]
  have hm := ofResult_shift (Parse.Moves.run setting .top _ t hst)
  have hsecond : second = ofResult (Parse.run setting .top
      { cursor := .ofText s₂, document := u.document, events := u.events }) := by
    simp only [second, resume, hfirst, List.reverse_reverse]
  have hwhole : whole = ofResult (Parse.run setting .top t) := by
    simp only [whole, read, hl.run_eq]
  rw [← hsecond, ← hwhole] at hm
  obtain ⟨hfault, new, hse, hwe, hsd, hwd⟩ := hm
  rw [hfirst]
  refine ⟨hfault, ?_, new, hse, hwe, hsd, hwd⟩
  refine warnings_of_alike (.of_map ?_)
  simp [hse, hwe, Views.blind, Event.relocate_relocate, Function.comp_def]

/-- Behind the empty line the open section is over, and a line of it is refused. -/
theorem read_append_after_section :
    (read {} "#|x|#nodes".toList).fault? = none ∧ ¬ Unclosed {} "#|x|#nodes".toList ∧
      (read {} ("#|x|#nodes".toList ++ '\n' :: '\n' :: ['x'])).fault? =
        some (.refused .unexpectedToken 12) := by
  have hcomment : Parse.step {} .top (.ofText "#|x|#nodes".toList) =
      .ok .top { cursor := ⟨5, "nodes".toList, [], []⟩ } := rfl
  have hsection : ∃ u, Parse.step {} .top { cursor := ⟨5, "nodes".toList, [], []⟩ } =
      .ok (.lines .nodes) u ∧ u.cursor.rest = [] := ⟨_, rfl, rfl⟩
  obtain ⟨u, hu, hr⟩ := hsection
  have hread : (read {} "#|x|#nodes".toList).fault? = none := by
    rw [read, Parse.run_of_ok (by decide) hcomment, Parse.run_of_ok (by decide) hu,
      Parse.run_of_nil hr]
    rfl
  have hclosed : ¬ Unclosed {} "#|x|#nodes".toList := by
    rintro ⟨scope, s, c, hl, hd, hs⟩
    cases hl with
    | refl =>
      cases hd
      exact absurd hs (by decide)
    | step _ h hl =>
      cases hcomment.symm.trans h
      cases hl with
      | refl => cases hd
      | step _ h hl =>
        cases hu.symm.trans h
        cases hl with
        | refl =>
          rw [Read.lead, hr] at hd
          cases hd
        | step hne => exact hne hr
  refine ⟨hread, hclosed, ?_⟩
  have hsecond : ∀ s : Script, (s.resume {} ['x']).fault? = some (.refused .unexpectedToken 0) := by
    intro s
    rw [resume, Parse.run_of_error (by simp [Cursor.ofText]) rfl]
    rfl
  rw [(read_append {} hread hclosed ['x']).1, hsecond]
  rfl

end Script
end Gamebook
