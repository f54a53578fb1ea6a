import Mathlib.Algebra.Ring.Nat
import Gamebook.Proofs.Loops
import Gamebook.Proofs.Turns

/-!
Lists in a document are in the order of the source. Every entry is known by the place where
its record begins, and from step to step places go up; only the reactions of one boring line
are known by the same place. Nothing is lost and nothing is put in twice: a list is as long as
the text that was read says.
-/
namespace Gamebook

open Wording (named affirmed)

/-- The place that an entry of a series is known by. -/
def Series.ref? : Series α → α → Option Nat
  | .actions, a => some a.ref
  | .behaviors _ _, b => b.ref
  | .directives _, d => some d.ref

/-- How many entries of the series a record of the form is, by the words of its line. -/
def Form.entries (block : Option String) (words : List (Option String)) (q : Series α) :
    Form → Nat
  | action =>
    match q with
    | .actions => 1
    | _ => 0
  | behavior category _ =>
    match q with
    | .behaviors id category' =>
      if category' = category ∧ block.or (named (affirmed words)) = some id then 1 else 0
    | _ => 0
  | _ => 0

/-- How many entries of the series there are to be read: one for a record of its kind, and on
a boring line one for each word of its category. -/
def Turn.entries (setting : Setting) (block : Option String) (text : List Char) (q : Series α) :
    Turn → Nat
  | directive name =>
    match q with
    | .directives name' => if name' = name then 1 else 0
    | _ => 0
  | reactions id =>
    match q with
    | .behaviors id' category =>
      if id' = id then (Read.words setting text).count (some category.name) else 0
    | _ => 0
  | turn =>
    match turn.form? text with
    | some (f, line) => f.entries block (Read.words setting line) q
    | none => 0

/-- How many entries of the series the next step is to read from the text. -/
def Scope.entries (setting : Setting) (scope : Scope) (text : List Char) (q : Series α) : Nat :=
  (scope.turn (scope.ahead text).1).entries setting scope.item? (scope.ahead text).2 q

theorem Category.name_inj {a b : Category} : a.name = b.name ↔ a = b := by
  cases a <;> cases b <;> decide

theorem Category.ofName?_eq_some {name : String} {category : Category}
    (h : ofName? name = some category) : name = category.name := by
  have hname := List.find?_some h
  exact (beq_iff_eq.1 hname).symm

namespace Line

variable {t : Token} {line : Line} {category : Category}

theorem count_words_cons (h : t.content.word?.bind Category.ofName? = some category)
    (category' : Category) : (words (t :: line)).count (some category'.name) =
      line.words.count (some category'.name) + if category = category' then 1 else 0 := by
  obtain ⟨name, hword, hname⟩ := Option.bind_eq_some_iff.1 h
  simp [words, hword, Category.ofName?_eq_some hname, List.count_cons, Category.name_inj]

theorem count_words_no (offset : Nat) (category : Category) :
    (words (⟨.word "no", offset⟩ :: line)).count (some category.name) =
      line.words.count (some category.name) := by
  cases category <;> simp [words, Content.word?, Category.name]

end Line

/-- On a boring line without a stray token, every word of a category is a reaction. -/
theorem Entry.count_boringWords {line : Line} {reactions : List (Category × Bool)}
    (h : boringWords line = (reactions, [])) (category : Category) :
    (reactions.map Prod.fst).count category = line.words.count (some category.name) := by
  fun_induction boringWords line generalizing reactions with
  | case1 =>
    cases h
    rfl
  | case2 t line hnone => cases h
  | case3 t line hcheck more rest hmore ih =>
    cases h
    rw [Line.count_words_cons hcheck, ← ih hmore]
    simp [List.count_cons]
  | case4 t category' hne hsome offset line more rest hmore ih =>
    cases h
    rw [Line.count_words_cons hsome, Line.count_words_no, ← ih hmore]
    simp [List.count_cons]
  | case5 t category' hne hsome line hno more rest hmore ih =>
    cases h
    rw [Line.count_words_cons hsome, ← ih hmore]
    simp [List.count_cons]

namespace Record

/-- What the record puts into a series is known by the place. -/
def At (ref : Nat) (r : Record) : Prop :=
  ∀ {α : Type} (q : Series α) (a : α), r.series? q = some a → q.ref? a = some ref

variable {block : Option String} {ref : Nat} {words : List (Option String)} {f : Form}
  {r : Record}

/-- A record of one line is known by the place where the line was read. -/
theorem at_of_gives (h : f.Gives block ref words r) : r.At ref := by
  intro α q a ha
  cases h with
  | action hr =>
    cases q <;> cases ha
    exact congrArg some hr
  | behavior _ hr =>
    cases q <;> simp only [series?, reduceCtorEq] at ha
    split at ha <;> cases ha
    exact hr
  | _ => cases q <;> cases ha

theorem entries_of_gives (h : f.Gives block ref words r) (q : Series α) :
    (r.series? q).toList.length = f.entries block words q := by
  cases h with
  | action => cases q <;> rfl
  | @behavior id hi category count b =>
    cases q with
    | behaviors id' category' =>
      simp only [series?, Form.entries, hi, Option.some.injEq]
      by_cases hid : id = id'
      · by_cases hc : category' = category <;> simp [hid, hc]
      · simp [hid, Ne.symm hid]
    | _ => rfl
  | _ => cases q <;> rfl

theorem at_reaction (id : String) (ref : Nat) (word : Category × Bool) :
    (reaction id ref word).At ref := by
  intro α q a ha
  cases q <;> simp only [reaction, series?, reduceCtorEq] at ha
  split at ha <;> cases ha
  rfl

theorem filterMap_reaction (id : String) (ref : Nat) (reactions : List (Category × Bool))
    (q : Series α) : ((reactions.map (reaction id ref)).filterMap (·.series? q)).length =
      match q with
      | .behaviors id' category =>
        if id' = id then (reactions.map Prod.fst).count category else 0
      | _ => 0 := by
  rw [List.length_filterMap_eq_countP, List.countP_map]
  cases q with
  | behaviors id' category =>
    have hseries : ∀ word, ((reaction id ref word).series? (.behaviors id' category)).isSome =
        decide (id' = id ∧ category = word.1) := by
      intro word
      simp only [reaction, series?]
      split <;> simp_all
    simp only [Function.comp_def, hseries, List.count_eq_countP, List.countP_map]
    by_cases hid : id' = id
    · rw [if_pos hid]
      refine List.countP_congr fun word _ => ?_
      simp only [hid, true_and, decide_eq_true_eq, beq_iff_eq]
      exact eq_comm
    · simp [hid]
  | _ => simp [Function.comp_def, reaction, series?]

end Record

namespace Parse

variable {setting : Setting} {scope next : Scope} {s t u : Progress}

theorem Begins.entries {turn : Turn} {f : Form} (h : Begins s turn f t) (block : Option String)
    (q : Series α) : turn.entries setting block s.cursor.rest q =
      f.entries block (Read.words setting t.cursor.rest) q := by
  have hform := h.form?_eq
  cases h with
  | form => rfl
  | first => simp only [Turn.entries, hform]

/-- The boring line of an item whose reactions are known by the place. -/
def Boring (id : String) (ref : Nat) (stop : Scope × Progress) : Prop :=
  stop.1 = .item id ∧
    ∃ t, read (Read.lead stop.1) stop.2 = .ok (some (.boring id)) t ∧ t.cursor.pos = ref

/-- What a step puts into the document: the entries there are to be read, known by the place
where their record begins. There is more than one only on a boring line. -/
structure Enters (setting : Setting) (scope : Scope) (s t : Progress) (rs : List Record)
    (ref : Nat) : Prop where
  document : t.document = rs.foldl Document.add s.document
  pos_le : s.cursor.pos ≤ ref
  lt_pos : t.cursor.rest ≠ [] → ref < t.cursor.pos
  placed : ∀ r ∈ rs, r.At ref
  single : rs.length ≤ 1 ∨ ∃ id, Boring id ref (scope, s) ∧
    ∀ r ∈ rs, ∃ word, r = Record.reaction id ref word
  entries {α : Type} (q : Series α) :
    (rs.filterMap (·.series? q)).length = scope.entries setting s.cursor.rest q

/-- The record is over before the next step begins. -/
theorem lt_pos_of_takes {x : Read α} (hx : x.Takes) {a : α} {c : Cursor}
    (h : x s.cursor = .ok a c) (hc : c.rest ≠ []) : s.cursor.pos < c.pos := by
  have hr := hx.advances.of_ok h
  have hne : s.cursor.rest ≠ [] := by
    intro hnil
    have hle := hr.length_le
    rw [hnil] at hle
    exact hc (List.length_eq_zero_iff.1 (Nat.le_zero.1 hle))
  have hlt := hx.lt h hne
  have hadd := hr.pos_add
  omega

theorem ref_of_directive {d : Directive} {unused : Line} {c e : Cursor}
    (h : Read.directive setting c = .ok (d, unused) e) : d.ref = c.pos := by
  obtain ⟨ref, _, hbegin, h⟩ := bind_eq_ok.1 h
  cases hbegin
  obtain ⟨cond, _, -, h⟩ := bind_eq_ok.1 h
  obtain ⟨p, _, -, h⟩ := bind_eq_ok.1 h
  cases h
  rfl

namespace Enters

variable {lead : Option Lead} {c : Cursor}

theorem entries_of_lead (hl : Read.lead scope s.cursor = .ok lead c) (q : Series α) :
    scope.entries setting s.cursor.rest q =
      (scope.turn lead).entries setting scope.item? c.rest q := by
  simp only [Scope.entries, Scope.ahead_of_lead hl]

theorem pos_le_of_lead (hl : Read.lead scope s.cursor = .ok lead c) : s.cursor.pos ≤ c.pos :=
  ((Advances.lead scope).of_ok hl).pos_le

/-- Text without an entry. -/
theorem idle {rs : List Record} (hl : Read.lead scope s.cursor = .ok lead c)
    (hd : t.document = rs.foldl Document.add s.document) (ht : s.cursor.pos < t.cursor.pos)
    (hlen : rs.length ≤ 1)
    (hrs : ∀ {α : Type} (q : Series α), ∀ r ∈ rs, r.series? q = none)
    (hturn : ∀ {α : Type} (q : Series α),
      (scope.turn lead).entries setting scope.item? c.rest q = 0) :
    Enters setting scope s t rs s.cursor.pos where
  document := hd
  pos_le := le_rfl
  lt_pos _ := ht
  placed r hr α q a ha := by
    rw [hrs q r hr] at ha
    cases ha
  single := .inl hlen
  entries q := by
    rw [entries_of_lead hl, hturn, List.length_eq_zero_iff, List.filterMap_eq_nil_iff]
    exact hrs q

theorem record {f : Form} {r : Record} {unused : Line} {d : Cursor}
    (hl : Read.lead scope s.cursor = .ok lead c)
    (hb : Begins (s.moveTo c) (scope.turn lead) f t)
    (he : Read.entry setting f.subject (f.reader scope.item?) t.cursor = .ok (r, unused) d) :
    Enters setting scope s ((t.moveTo d).commit r unused) [r] t.cursor.pos where
  document := congrArg (Document.add · r) hb.adds.document
  pos_le := (pos_le_of_lead hl).trans hb.reaches.pos_le
  lt_pos := lt_pos_of_takes (c := d) (Read.Takes.entry ..) he
  placed := List.forall_mem_singleton.2 (Record.at_of_gives (Read.gives_of_entry he))
  single := .inl le_rfl
  entries q := by
    have hone : ([r].filterMap (·.series? q)).length = (r.series? q).toList.length := by
      cases hr : r.series? q <;> simp [hr]
    rw [hone, Record.entries_of_gives (Read.gives_of_entry he), entries_of_lead hl]
    exact (hb.entries scope.item? q).symm

theorem directive {name : String} {d : Directive} {unused : Line} {e : Cursor}
    (hl : Read.lead scope s.cursor = .ok lead c) (hturn : scope.turn lead = .directive name)
    (hd : Read.directive setting (s.moveTo c).cursor = .ok (d, unused) e) :
    Enters setting scope s (((s.moveTo c).moveTo e).commit (.directive name d) unused)
      [.directive name d] c.pos where
  document := rfl
  pos_le := pos_le_of_lead hl
  lt_pos := lt_pos_of_takes (s := s.moveTo c) (c := e) (Read.Takes.directive setting) hd
  placed := by
    have href : d.ref = (s.moveTo c).cursor.pos := ref_of_directive hd
    refine List.forall_mem_singleton.2 fun q a ha => ?_
    cases q <;> simp only [Record.series?, reduceCtorEq] at ha
    split at ha <;> cases ha
    exact congrArg some href
  single := .inl le_rfl
  entries q := by
    rw [entries_of_lead hl, hturn]
    cases q with
    | directives name' => by_cases hn : name' = name <;> simp [Record.series?, Turn.entries, hn]
    | _ => rfl

/-- The reactions of a boring line are as many as its words. -/
theorem reactions {id : String} {rs : List Record} {ref : Nat} {d : Cursor}
    (hl : Read.lead scope s.cursor = .ok lead c) (hturn : scope.turn lead = .reactions id)
    (hr : Read.entry setting "boring" (Entry.reactions id) (s.moveTo c).cursor =
      .ok ((rs, ref), []) d) :
    Enters setting scope s (((s.moveTo c).moveTo d).commitAll rs) rs c.pos := by
  obtain ⟨hscope, rfl⟩ := Scope.eq_of_turn_reactions hl hturn
  obtain ⟨line, hline, hwords⟩ := Read.line_of_entry hr
  have htext : Read.words setting c.rest = line.words :=
    Read.words_of_line (c := (s.moveTo c).cursor.note "boring") hline
  rw [Entry.reactions_eq, Except.ok.injEq, Prod.mk.injEq, Prod.mk.injEq] at hwords
  obtain ⟨⟨rfl, -⟩, hnone⟩ := hwords
  have hcount := Entry.count_boringWords (Prod.ext rfl hnone : Entry.boringWords line = (_, []))
  constructor
  · exact (Progress.Adds.commitAll ((s.moveTo c).moveTo d) _).document
  · exact pos_le_of_lead hl
  · rw [Progress.cursor_commitAll]
    exact lt_pos_of_takes (s := s.moveTo c) (c := d) (Read.Takes.entry ..) hr
  · intro r hmem
    obtain ⟨word, -, rfl⟩ := List.mem_map.1 hmem
    exact Record.at_reaction id c.pos word
  · refine .inr ⟨id, ⟨hscope, _, read_of_ok hl, rfl⟩, fun r hmem => ?_⟩
    obtain ⟨word, -, rfl⟩ := List.mem_map.1 hmem
    exact ⟨word, rfl⟩
  · intro α q
    rw [entries_of_lead hl, hturn]
    refine (Record.filterMap_reaction id c.pos (Entry.boringWords line).1 q).trans ?_
    cases q with
    | behaviors id' category => simp only [Turn.entries, hcount, htext]
    | _ => rfl

end Enters

/-- A step that goes well puts in what there was to be read. -/
theorem step_enters (hs : s.cursor.rest ≠ []) (h : step setting scope s = .ok next t) :
    ∃ rs ref, Enters setting scope s t rs ref := by
  obtain ⟨lead, c, rs, hl, hturned⟩ := step_turned setting scope s
  have hstep : s.cursor.pos < t.cursor.pos := by
    have hlt := (Takes.step setting scope).lt h hs
    have hadd := ((Advances.step setting scope).of_ok h).pos_add
    omega
  have hdocument := hturned.document
  rw [h] at hturned hdocument
  cases hturned with
  | pass hpass =>
    refine ⟨[], _, .idle hl hdocument hstep (Nat.zero_le 1) (fun _ => nofun) fun q => ?_⟩
    rw [hpass]
    rfl
  | record hb he => exact ⟨_, _, .record hl hb he⟩
  | @definition v d e hturn =>
    refine ⟨[.definition v], _, .idle hl hdocument hstep le_rfl (fun q => ?_) fun q => ?_⟩
    · exact List.forall_mem_singleton.2 (by cases q <;> rfl)
    · rw [hturn]
      cases q <;> rfl
  | directive hturn hd => exact ⟨_, _, .directive hl hturn hd⟩
  | reactions hturn hr => exact ⟨_, _, .reactions hl hturn hr⟩

end Parse

/-- The two entries come of one boring line. -/
def Series.OneLine (stops : List (Scope × Progress)) (ref : Nat) : Series α → α → α → Prop
  | .behaviors id _, a, b =>
    a.mods = [Behavior.boringMod] ∧ b.mods = [Behavior.boringMod] ∧
      ∃ stop ∈ stops, Parse.Boring id ref stop
  | _, _, _ => False

/-- The first entry stands before the second in the source, or on one boring line with it. -/
def Series.Before (stops : List (Scope × Progress)) (q : Series α) (a b : α) : Prop :=
  ∃ m n, q.ref? a = some m ∧ q.ref? b = some n ∧ (m < n ∨ m = n ∧ q.OneLine stops m a b)

theorem Series.Before.mono {stops stops' : List (Scope × Progress)} (h : stops ⊆ stops')
    {q : Series α} {a b : α} (hab : q.Before stops a b) : q.Before stops' a b := by
  obtain ⟨m, n, ha, hb, hlt | ⟨rfl, hline⟩⟩ := hab
  · exact ⟨m, n, ha, hb, .inl hlt⟩
  · refine ⟨m, m, ha, hb, .inr ⟨rfl, ?_⟩⟩
    cases q with
    | behaviors =>
      obtain ⟨hamods, hbmods, stop, hmem, hstop⟩ := hline
      exact ⟨hamods, hbmods, stop, h hmem, hstop⟩
    | actions => exact hline
    | directives => exact hline

/-- Where no line has more than one entry, places go up. -/
theorem Series.pairwise_lt {stops : List (Scope × Progress)} {q : Series α} {ref : α → Nat}
    (hr : ∀ a, q.ref? a = some (ref a)) (hq : ∀ m a b, ¬q.OneLine stops m a b) {l : List α}
    (h : l.Pairwise (q.Before stops)) : (l.map ref).Pairwise (· < ·) := by
  rw [List.pairwise_map]
  refine h.imp fun {a b} hab => ?_
  obtain ⟨m, n, ha, hb, hlt | ⟨-, hline⟩⟩ := hab
  · cases (hr a).symm.trans ha
    cases (hr b).symm.trans hb
    exact hlt
  · exact absurd hline (hq m a b)

namespace Parse

variable {setting : Setting} {scope next : Scope} {s t u : Progress}

/-- The entries of one step are in order. -/
theorem Enters.pairwise {rs : List Record} {ref : Nat} (h : Enters setting scope s t rs ref)
    (q : Series α) : (rs.filterMap (·.series? q)).Pairwise (q.Before [(scope, s)]) := by
  rcases h.single with hlen | ⟨id, hboring, hword⟩
  · have hone : (rs.filterMap (·.series? q)).length ≤ 1 :=
      (List.length_filterMap_le _ rs).trans hlen
    cases hrs : rs.filterMap (·.series? q) with
    | nil => exact .nil
    | cons a as =>
      cases as with
      | nil => exact List.pairwise_singleton ..
      | cons b bs => simp [hrs] at hone
  · refine List.pairwise_of_forall_mem_list fun a ha b hb => ?_
    obtain ⟨r, hr, ha⟩ := List.mem_filterMap.1 ha
    obtain ⟨r', hr', hb⟩ := List.mem_filterMap.1 hb
    refine ⟨ref, ref, h.placed r hr q a ha, h.placed r' hr' q b hb, .inr ⟨rfl, ?_⟩⟩
    obtain ⟨word, rfl⟩ := hword r hr
    obtain ⟨word', rfl⟩ := hword r' hr'
    cases q with
    | actions => cases ha
    | directives => cases ha
    | behaviors id' category =>
      simp only [Record.reaction, Record.series?] at ha hb
      split at ha
      · rename_i hid
        split at hb <;> cases ha <;> cases hb
        exact ⟨rfl, rfl, (scope, s), List.mem_singleton_self _, hid.1 ▸ hboring⟩
      · cases ha

/-- What a run puts into the document: the entries of its steps, in order. -/
structure Gathers (setting : Setting) (scope : Scope) (s u : Progress) (rs : List Record) :
    Prop where
  document : u.document = rs.foldl Document.add s.document
  nil : s.cursor.rest = [] → rs = []
  pos_le {α : Type} (q : Series α) :
    ∀ a ∈ rs.filterMap (·.series? q), ∃ m, q.ref? a = some m ∧ s.cursor.pos ≤ m
  pairwise {α : Type} (q : Series α) :
    (rs.filterMap (·.series? q)).Pairwise (q.Before (stops setting scope s))
  entries {α : Type} (q : Series α) : (rs.filterMap (·.series? q)).length =
    ((stops setting scope s).map fun stop => stop.1.entries setting stop.2.cursor.rest q).sum

/-- One step more in front of a run. -/
theorem Gathers.cons {rs ks : List Record} {ref : Nat} (hs : s.cursor.rest ≠ [])
    (hstep : step setting scope s = .ok next t) (h : Enters setting scope s t rs ref)
    (h' : Gathers setting next t u ks) : Gathers setting scope s u (rs ++ ks) where
  document := by rw [h'.document, h.document, List.foldl_append]
  nil hnil := absurd hnil hs
  pos_le q a ha := by
    rw [List.filterMap_append] at ha
    rcases List.mem_append.1 ha with ha | ha
    · obtain ⟨r, hr, ha⟩ := List.mem_filterMap.1 ha
      exact ⟨ref, h.placed r hr q a ha, h.pos_le⟩
    · obtain ⟨m, hm, hle⟩ := h'.pos_le q a ha
      have hpos := ((Advances.step setting scope).of_ok hstep).pos_le
      exact ⟨m, hm, hpos.trans hle⟩
  pairwise q := by
    rw [List.filterMap_append, stops_of_ok hs hstep, List.pairwise_append]
    refine ⟨?_, ?_, fun a ha b hb => ?_⟩
    · exact (h.pairwise q).imp (.mono (by simp))
    · exact (h'.pairwise q).imp (.mono (by simp))
    · -- an entry of the first step is behind it, and where the next step begins is no entry yet
      obtain ⟨r, hr, ha⟩ := List.mem_filterMap.1 ha
      obtain ⟨n, hn, hle⟩ := h'.pos_le q b hb
      have hrest : t.cursor.rest ≠ [] := by
        intro hnil
        simp [h'.nil hnil] at hb
      exact ⟨ref, n, h.placed r hr q a ha, hn, .inl ((h.lt_pos hrest).trans_le hle)⟩
  entries q := by
    rw [List.filterMap_append, List.length_append, h.entries, h'.entries, stops_of_ok hs hstep]
    rfl

theorem run_gathers (h : run setting scope s = .ok () u) :
    ∃ rs, Gathers setting scope s u rs := by
  fun_induction run setting scope s with
  | case1 scope s hs =>
    cases h
    refine ⟨[], rfl, fun _ => rfl, by simp, fun _ => .nil, fun q => ?_⟩
    rw [stops_of_nil hs]
    rfl
  | case2 scope s hs next t hstep ih =>
    obtain ⟨ks, hks⟩ := ih h
    obtain ⟨rs, ref, hrs⟩ := step_enters hs hstep
    exact ⟨rs ++ ks, hks.cons hs hstep hrs⟩
  | case3 => cases h

end Parse

namespace Script

/-- The lists of a document that was read to the end are in the order of the source, and they
have in them what there was to be read, no more and no less. -/
theorem read_ordered {setting : Setting} {source : List Char}
    (h : (read setting source).fault? = none) :
    let d := (read setting source).document
    let stops := Parse.stops setting .top (.ofText source)
    (d.actions.map (·.ref)).Pairwise (· < ·) ∧
      (∀ name, ((d.series (.directives name)).map (·.ref)).Pairwise (· < ·)) ∧
      (∀ id category, ((d.item id).behaviors category).Pairwise
        ((Series.behaviors id category).Before stops)) ∧
      ∀ {α : Type} (q : Series α), (d.series q).length =
        (stops.map fun stop => stop.1.entries setting stop.2.cursor.rest q).sum := by
  intro d stops
  obtain ⟨u, hu⟩ : ∃ u, Parse.run setting .top (.ofText source) = .ok () u := by
    cases hrun : Parse.run setting .top (.ofText source) with
    | ok _ u => exact ⟨u, rfl⟩
    | error fault u =>
      rw [read, hrun] at h
      cases h
  obtain ⟨rs, hrs⟩ := Parse.run_gathers hu
  have hd : d = rs.foldl Document.add {} := by
    simp only [d, read, hu]
    exact hrs.document
  have hseries : ∀ {α : Type} (q : Series α), d.series q = rs.filterMap (·.series? q) :=
    fun q => hd ▸ (Document.holds_foldl rs).series q
  have hpairwise : ∀ {α : Type} (q : Series α), (d.series q).Pairwise (q.Before stops) :=
    fun q => hseries q ▸ hrs.pairwise q
  refine ⟨?_, fun name => ?_, fun id category => ?_, fun q => ?_⟩
  · exact Series.pairwise_lt (fun _ => rfl) (fun _ _ _ => id) (hpairwise .actions)
  · exact Series.pairwise_lt (fun _ => rfl) (fun _ _ _ => id) (hpairwise (.directives name))
  · exact hpairwise (.behaviors id category)
  · exact hseries q ▸ hrs.entries q

/-- Two words of a boring line, and a record of the same category behind it. -/
theorem read_ordered_boring :
    let source := "item k \"l\"\nboring pick pick no\npick\n\npick k\n".toList
    let d := (read {} source).document
    (read {} source).fault? = none ∧
      ((d.item "k").behaviors .pick).Pairwise ((Series.behaviors "k" .pick).Before
        (Parse.stops {} .top (.ofText source))) ∧
      ((d.item "k").behaviors .pick).length = 4 := by
  intro source d
  have hread : (read {} source).fault? = none := by
    rw [← Option.isNone_iff_eq_none]
    decide +kernel
  obtain ⟨-, -, hbehaviors, hlength⟩ := read_ordered hread
  refine ⟨hread, hbehaviors "k" .pick, (hlength (.behaviors "k" .pick)).trans ?_⟩
  decide +kernel

end Script
end Gamebook
