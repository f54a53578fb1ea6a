import Gamebook.Proofs.Passages
import Gamebook.Proofs.Turns

/-!
Statements keep to themselves. What a statement is about can be told from its keyword and the
words behind it, and with all that it opens it changes nothing else in the document. From
step to step documents only grow.
-/
namespace Gamebook

open Wording (named affirmed)

def Heading.region : Heading → Region
  | nodes => .nodes
  | vars => .definitions
  | properties => .properties
  | actions => .actions
  | map => .edges
  | boring => .boring

/-- What an open section or block is about. -/
def Scope.region? : Scope → Option Region
  | top => none
  | lines h => some h.region
  | item id => some (.item id)
  | modifier name => some (.modifier name)

/-- What a statement is about, by its lead and the words of its line. -/
def Lead.region? (words : List (Option String)) : Lead → Option Region
  | gap | close | comment | block => none
  | heading h => some h.region
  | start => some .start
  | node => some .nodes
  | property => some .properties
  | path => some .edges
  | action => some .actions
  | sigil | var => some .definitions
  | modifier => (named words).map .modifier
  | item | location | resources => (named words).map .item
  | first | behavior _ => (named (affirmed words)).map .item
  | boring id => some (.item id)

namespace Turn

/-- The words on the line of the record that comes next. -/
def words (setting : Setting) (text : List Char) (turn : Turn) : List (Option String) :=
  match turn.form? text with
  | some (_, line) => Read.words setting line
  | none => []

/-- What the turn is about, in the block of an item or outside of one. -/
def region? (block : Option String) (words : List (Option String)) : Turn → Option Region
  | pass => none
  | form f => f.region? block words
  | first => (block.or (named (affirmed words))).map .item
  | definition => some .definitions
  | directive name => some (.modifier name)
  | reactions id => some (.item id)

end Turn

/-- What the statement at the beginning of a text is about, with all that it opens. -/
def Region.ahead? (setting : Setting) (text : List Char) : Option Region :=
  match Scope.top.ahead text with
  | (some lead, text) => lead.region? (lead.turn.words setting text)
  | (none, _) => none

/-- What the next step is about. -/
def Scope.about (setting : Setting) (text : List Char) : Scope → Option Region
  | top => Region.ahead? setting text
  | scope => scope.region?

theorem Lead.region?_turn (lead : Lead) (words : List (Option String)) :
    lead.turn = .pass ∨ lead.turn.region? none words = lead.region? words := by
  cases lead with
  | gap | close | comment | block | heading => exact .inl rfl
  | _ => exact .inr rfl

/-- In a section or a block every turn is about the same. -/
theorem Scope.region?_turn {scope : Scope} {lead : Option Lead} (hs : scope ≠ top)
    (hl : ∀ l, lead = some l → l ∈ scope.leads.map Prod.fst) (words : List (Option String)) :
    scope.turn lead = .pass ∨ (scope.turn lead).region? scope.item? words = scope.region? := by
  cases scope with
  | top => exact absurd rfl hs
  | lines h =>
    cases lead with
    | none =>
      right
      cases h <;> rfl
    | some l =>
      left
      have hmem : l ∈ [Lead.close, .block, .comment] := hl l rfl
      simp only [List.mem_cons, List.not_mem_nil, or_false] at hmem
      rcases hmem with rfl | rfl | rfl <;> rfl
  | item id =>
    cases lead with
    | none => exact .inl rfl
    | some l =>
      have hmem : l ∈ [Lead.gap, .close, .block, .comment, .first, .behavior .pick,
        .behavior .check, .behavior .use, .behavior .lay, .location, .resources, .boring id] :=
        hl l rfl
      simp only [List.mem_cons, List.not_mem_nil, or_false] at hmem
      rcases hmem with rfl | rfl | rfl | rfl | rfl | rfl | rfl | rfl | rfl | rfl | rfl | rfl
      all_goals first | exact .inl rfl | exact .inr rfl
  | modifier name =>
    cases lead with
    | none => exact .inr rfl
    | some l =>
      left
      have hmem : l ∈ [Lead.gap, .close, .block, .comment] := hl l rfl
      simp only [List.mem_cons, List.not_mem_nil, or_false] at hmem
      rcases hmem with rfl | rfl | rfl | rfl <;> rfl

namespace Parse

variable {setting : Setting} {scope next : Scope} {s t : Progress}

/-- The records of a turn are about what the turn is about. -/
theorem Turned.region {lead : Option Lead} {rs : List Record}
    {result : EStateM.Result Fault Progress Scope} (h : Turned setting scope lead s rs result) :
    ∀ r ∈ rs, (scope.turn lead).region? scope.item?
      ((scope.turn lead).words setting s.cursor.rest) = some r.region := by
  intro r hr
  cases h with
  | pass => cases hr
  | refused => cases hr
  | @record f t r' unused c hb he =>
    obtain rfl := List.mem_singleton.1 hr
    have hg := (Read.gives_of_entry he).region
    rw [Turn.words, hb.form?_eq]
    generalize scope.turn lead = turn at hb
    cases hb with
    | form => exact hg
    | first => exact hg
  | definition h =>
    obtain rfl := List.mem_singleton.1 hr
    rw [h]
    rfl
  | unfinished h =>
    obtain rfl := List.mem_singleton.1 hr
    rw [h]
    rfl
  | directive h =>
    obtain rfl := List.mem_singleton.1 hr
    rw [h]
    rfl
  | reactions h hread =>
    obtain ⟨word, rfl⟩ := Read.reaction_of_entry hread r hr
    rw [h]
    rfl
  | stray h hread =>
    obtain ⟨word, rfl⟩ := Read.reaction_of_entry hread r hr
    rw [h]
    rfl

/-- All records of a step are about what the step is about. -/
theorem region_of_turned {lead : Option Lead} {c : Cursor} {rs : List Record}
    {result : EStateM.Result Fault Progress Scope} (hl : Read.lead scope s.cursor = .ok lead c)
    (h : Turned setting scope lead (s.moveTo c) rs result) :
    ∀ r ∈ rs, some r.region = scope.about setting s.cursor.rest := by
  intro r hr
  have hregion := h.region r hr
  have hpass : scope.turn lead ≠ .pass := by
    intro hp
    rw [hp] at hregion
    cases hregion
  by_cases hs : scope = .top
  · subst hs
    cases lead with
    | none => exact absurd rfl hpass
    | some l =>
      have hahead := Scope.ahead_of_lead hl
      have hl := (l.region?_turn (l.turn.words setting c.rest)).resolve_left hpass
      rw [Scope.about, Region.ahead?, hahead]
      exact hregion.symm.trans hl
  · have hmem : ∀ l, lead = some l → l ∈ scope.leads.map Prod.fst := by
      rintro l rfl
      exact Scope.mem_of_lead hl
    have habout : scope.about setting s.cursor.rest = scope.region? := by
      cases scope <;> first | rfl | exact absurd rfl hs
    rw [habout, ← hregion]
    exact (Scope.region?_turn hs hmem _).resolve_left hpass

/-- A step changes what it is about and nothing else. -/
theorem step_within (setting : Setting) (scope : Scope) (s : Progress) :
    Document.Within (scope.about setting s.cursor.rest) s.document
      (reached (step setting scope s)).document := by
  obtain ⟨lead, c, rs, hl, h⟩ := step_turned setting scope s
  rw [h.document]
  exact Document.within_foldl (region_of_turned hl h) s.document

theorem region?_of_opens {r : Record} {scope : Scope} (h : r.opens? = some scope) :
    scope.region? = some r.region := by
  cases r <;> cases h <;> rfl

theorem region?_eq_about (setting : Setting) (text : List Char) (hs : scope ≠ .top) :
    scope.region? = scope.about setting text := by
  cases scope with
  | top => exact absurd rfl hs
  | _ => rfl

/-- What a step opens is about the same as the step. -/
theorem step_opens (h : step setting scope s = .ok next t) :
    next = .top ∨ next.region? = scope.about setting s.cursor.rest := by
  have hself : scope = .top ∨ scope.region? = scope.about setting s.cursor.rest := by
    by_cases hs : scope = .top
    · exact .inl hs
    · exact .inr (region?_eq_about setting _ hs)
  obtain ⟨lead, c, rs, hl, hturned⟩ := step_turned setting scope s
  have hregion := region_of_turned hl hturned
  rw [h] at hturned
  cases hturned with
  | pass =>
    cases lead with
    | none => exact hself
    | some l =>
      cases l with
      | close => exact .inl rfl
      | heading heading =>
        right
        cases scope with
        | top =>
          rw [Scope.about, Region.ahead?, Scope.ahead_of_lead hl]
          rfl
        | lines => simpa [Scope.leads] using Scope.mem_of_lead hl
        | item => simpa [Scope.leads, Scope.blockLeads, Scope.itemLeads] using Scope.mem_of_lead hl
        | modifier => simpa [Scope.leads, Scope.blockLeads] using Scope.mem_of_lead hl
      | _ => exact hself
  | @record f t r unused c =>
    cases ho : r.opens? with
    | none => exact hself
    | some opened =>
      right
      exact (region?_of_opens ho).trans (hregion r (List.mem_singleton_self r))
  | definition => exact hself
  | directive => exact hself
  | reactions => exact hself

/-- A section or a block changes what it is about and nothing else. -/
theorem finish_within (setting : Setting) (scope : Scope) (s : Progress) :
    Document.Within scope.region? s.document (reached (finish setting scope s)).document := by
  fun_induction finish setting scope s with
  | case1 scope s hs => exact .refl ..
  | case2 scope s hs next t h ih =>
    have habout := region?_eq_about setting s.cursor.rest (not_or.1 hs).1
    have hstep := step_within setting scope s
    rw [h, ← habout] at hstep
    refine hstep.trans ?_
    -- at the top there is nothing left to finish; else the rest is about the same
    rcases step_opens h with rfl | hnext
    · exact .of_eq ih _
    · rwa [habout, ← hnext]
  | case3 scope s hs fault t h =>
    have habout := region?_eq_about setting s.cursor.rest (not_or.1 hs).1
    have hstep := step_within setting scope s
    rwa [h, ← habout] at hstep

theorem passage_within (setting : Setting) (s : Progress) :
    Document.Within (Region.ahead? setting s.cursor.rest) s.document
      (reached (passage setting s)).document := by
  have hstep := step_within setting .top s
  unfold passage
  cases h : step setting .top s with
  | error fault t =>
    rw [h] at hstep
    exact hstep
  | ok next t =>
    rw [h] at hstep
    refine Document.Within.trans hstep ?_
    rcases step_opens h with rfl | hnext
    · exact .of_eq (finish_within setting .top t) _
    · have hfinish := finish_within setting next t
      rw [hnext] at hfinish
      exact hfinish

theorem Turned.grows {lead : Option Lead} {rs : List Record}
    {result : EStateM.Result Fault Progress Scope} (h : Turned setting scope lead s rs result) :
    s.document.Grows (reached result).document := by
  rw [h.document]
  cases h with
  | pass => exact .refl _
  | refused => exact .refl _
  | @record f t r unused c hb he =>
    refine s.document.grows_add fun hr => ?_
    -- only a start is put where the start stands, and only if there is none
    have hf : f = .start := by
      have hg := Read.gives_of_entry he
      cases hg <;> first | rfl | cases hr
    subst hf
    generalize scope.turn lead = turn at hb
    cases hb with
    | form hs => exact hs rfl
  | @definition v => exact s.document.grows_add (r := .definition v) nofun
  | @unfinished v => exact s.document.grows_add (r := .definition v) nofun
  | @directive name d => exact s.document.grows_add (r := .directive name d) nofun
  | reactions h hread =>
    refine Document.grows_foldl (fun r hr => ?_) s.document
    obtain ⟨word, rfl⟩ := Read.reaction_of_entry hread r hr
    exact nofun
  | stray h hread =>
    refine Document.grows_foldl (fun r hr => ?_) s.document
    obtain ⟨word, rfl⟩ := Read.reaction_of_entry hread r hr
    exact nofun

theorem step_grows (setting : Setting) (scope : Scope) (s : Progress) :
    s.document.Grows (reached (step setting scope s)).document := by
  obtain ⟨lead, c, rs, -, h⟩ := step_turned setting scope s
  exact h.grows

/-- The document where each step of a run begins, and the one that is left in the end. -/
def documents (setting : Setting) (scope : Scope) (s : Progress) : List Document :=
  (stops setting scope s).map (·.2.document) ++ [(reached (run setting scope s)).document]

theorem documents_grow (setting : Setting) (scope : Scope) (s : Progress) :
    (∀ d ∈ documents setting scope s, s.document.Grows d) ∧
      (documents setting scope s).Pairwise Document.Grows := by
  fun_induction run setting scope s with
  | case1 scope s hs =>
    simp [documents, stops_of_nil hs, run_of_nil hs, reached, Document.Grows.refl]
  | case2 scope s hs next t h ih =>
    have hstep := step_grows setting scope s
    rw [h] at hstep
    have hlist : documents setting scope s = s.document :: documents setting next t := by
      simp [documents, stops_of_ok hs h, run_of_ok hs h]
    have hlater : ∀ d ∈ documents setting next t, s.document.Grows d :=
      fun d hd => Document.Grows.trans hstep (ih.1 d hd)
    rw [hlist]
    exact ⟨List.forall_mem_cons.2 ⟨.refl _, hlater⟩, List.pairwise_cons.2 ⟨hlater, ih.2⟩⟩
  | case3 scope s hs fault t h =>
    have hstep := step_grows setting scope s
    rw [h] at hstep
    simpa [documents, stops_of_error hs h, run_of_error hs h, reached, Document.Grows.refl]
      using hstep

/-- A statement changes what it is about and nothing else, with the section or the block that
it opens and whether it can be read or not; and along a run documents only grow. -/
theorem passage_confined (setting : Setting) (scope : Scope) (s : Progress) :
    Document.Within (Region.ahead? setting s.cursor.rest) s.document
        (reached (passage setting s)).document ∧
      (documents setting scope s).Pairwise Document.Grows :=
  ⟨passage_within setting s, (documents_grow setting scope s).2⟩

example : Region.ahead? {} "first 2 pick no lamp\n".toList = some (.item "lamp") := by
  decide +kernel

end Parse
end Gamebook
