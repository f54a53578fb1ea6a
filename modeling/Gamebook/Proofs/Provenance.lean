import Gamebook.Proofs.Leaves
import Gamebook.Proofs.Turns
import Gamebook.Proofs.Usage

/-!
Where the trees and ranges of a document come from. A document holds only those of its records,
and each record has them from the text: so every tree of a document is proper, and its numbers
and constants, like the bounds of every range, are spelled by pieces of the source.
-/
namespace Gamebook

open Grammar

theorem Category.mem_all (category : Category) : category ∈ all := by
  cases category <;> decide

def Item.trees (item : Item) : List Expr :=
  Category.all.flatMap fun category => (item.behaviors category).flatMap Behavior.trees

namespace Table

/-- What the values of a table are made of. -/
def parts (f : α → List β) (t : Table κ α) : List β := t.entries.flatMap (f ·.2)

variable {κ α β : Type} [DecidableEq κ] {f : α → List β} {t : Table κ α} {k : κ} {x : β}

omit [DecidableEq κ] in
theorem mem_parts : x ∈ t.parts f ↔ ∃ k v, (k, v) ∈ t.entries ∧ x ∈ f v := by
  simp [parts, List.mem_flatMap]

theorem mem_parts_insert {v : α} (h : x ∈ (t.insert k v).parts f) : x ∈ f v ∨ x ∈ t.parts f := by
  obtain ⟨k', v', hmem, hx⟩ := mem_parts.1 h
  rcases mem_put hmem with he | he
  · cases he
    exact .inl hx
  · exact .inr (mem_parts.2 ⟨k', v', he, hx⟩)

/-- A value that is changed gets no more than new parts. -/
theorem mem_parts_update (fallback : α) {g : α → α} (new : List β) (hf : f fallback = [])
    (hg : ∀ v, ∀ x ∈ f (g v), x ∈ new ∨ x ∈ f v) (h : x ∈ (t.update k fallback g).parts f) :
    x ∈ new ∨ x ∈ t.parts f := by
  rcases mem_parts_insert h with h | h
  · refine (hg _ x h).imp_right fun hold => ?_
    cases hv : t.get? k with
    | none =>
      rw [hv, Option.getD_none, hf] at hold
      cases hold
    | some v =>
      rw [hv] at hold
      exact mem_parts.2 ⟨k, v, mem_of_get? hv, hold⟩
  · exact .inr h

end Table

namespace Document

def trees (d : Document) : List Expr :=
  d.definitions.parts Definition.trees ++ d.actions.flatMap Action.trees ++
    d.items.parts Item.trees ++ d.modifiers.parts (·.flatMap Directive.trees)

def ranges (d : Document) : List Range := d.properties.parts Property.ranges

end Document

namespace Item

theorem mem_trees {item : Item} {e : Expr} :
    e ∈ item.trees ↔ ∃ category, ∃ b ∈ item.behaviors category, e ∈ b.trees := by
  simp [trees, List.mem_flatMap, Category.mem_all]

theorem mem_trees_addBehavior {item : Item} {b : Behavior} {category : Category} {e : Expr}
    (h : e ∈ (item.addBehavior b category).trees) : e ∈ b.trees ∨ e ∈ item.trees := by
  obtain ⟨category', b', hb, he⟩ := mem_trees.1 h
  rw [behaviors_addBehavior] at hb
  rcases List.mem_append.1 hb with hb | hb
  · exact .inr (mem_trees.2 ⟨category', b', hb, he⟩)
  · split at hb
    · obtain rfl := List.mem_singleton.1 hb
      exact .inl he
    · cases hb

theorem trees_congr {item other : Item} (h : other.behaviors = item.behaviors) :
    other.trees = item.trees := by
  simp only [trees, h]

end Item

namespace Document

variable {d : Document} {r : Record}

theorem mem_trees_updateItem {id : String} {f : Item → Item} {new : List Expr} {e : Expr}
    (hf : ∀ item : Item, ∀ e ∈ (f item).trees, e ∈ new ∨ e ∈ item.trees)
    (h : e ∈ (d.updateItem id f).trees) : e ∈ new ∨ e ∈ d.trees := by
  simp only [trees, updateItem, List.mem_append] at h ⊢
  rcases h with ((h | h) | h) | h
  · tauto
  · tauto
  · have hitem := Table.mem_parts_update (f := Item.trees) {} new rfl hf h
    tauto
  · tauto

/-- A document has its trees from its records. -/
theorem mem_trees_add {e : Expr} (h : e ∈ (d.add r).trees) : e ∈ r.trees ∨ e ∈ d.trees := by
  have hold : ∀ {f : Item → Item}, (∀ item : Item, (f item).behaviors = item.behaviors) →
      ∀ item : Item, ∀ e ∈ (f item).trees, e ∈ r.trees ∨ e ∈ item.trees :=
    fun hf item e he => .inr (Item.trees_congr (hf item) ▸ he)
  cases r with
  | start | node | property | path | boring => exact .inr h
  | action a =>
    simp only [trees, add, Record.trees, List.flatMap_append, List.flatMap_singleton,
      List.mem_append] at h ⊢
    tauto
  | behavior id category b =>
    exact mem_trees_updateItem (fun item e he => Item.mem_trees_addBehavior he) h
  | resources id nodes =>
    refine mem_trees_updateItem (hold fun item => ?_) h
    funext category
    exact Item.behaviors_foldl ..
  | location id p =>
    refine mem_trees_updateItem (hold fun item => ?_) h
    funext category
    cases category <;> rfl
  | item id label appendix =>
    refine mem_trees_updateItem (hold fun item => ?_) h
    funext category
    cases category <;> rfl
  | modifier name =>
    simp only [trees, add, List.mem_append] at h ⊢
    rcases h with h | h
    · tauto
    · have hmods := Table.mem_parts_update [] [] rfl (fun ds x hx => .inr hx) h
      exact .inr (.inr (hmods.resolve_left (List.not_mem_nil)))
  | directive name x =>
    simp only [trees, add, Record.trees, List.mem_append] at h ⊢
    rcases h with h | h
    · tauto
    · have hnew : ∀ ds : List Directive, ∀ e ∈ (ds ++ [x]).flatMap Directive.trees,
          e ∈ x.trees ∨ e ∈ ds.flatMap Directive.trees := by
        intro ds e he
        rw [List.flatMap_append, List.flatMap_singleton, List.mem_append] at he
        exact he.symm
      have hmods := Table.mem_parts_update [] x.trees rfl hnew h
      tauto
  | definition v =>
    simp only [trees, add, Record.trees, List.mem_append] at h ⊢
    rcases h with ((h | h) | h) | h
    · have hdefs := Table.mem_parts_insert h
      tauto
    · tauto
    · tauto
    · tauto

theorem mem_ranges_add {x : Range} (h : x ∈ (d.add r).ranges) : x ∈ r.ranges ∨ x ∈ d.ranges := by
  cases r with
  | property name p => exact Table.mem_parts_insert h
  | _ => exact .inr h

/-- What the document is made of has the property. -/
structure Over (Q : Content → Prop) (d : Document) : Prop where
  trees : ∀ e ∈ d.trees, Q (.expression e)
  ranges : ∀ x ∈ d.ranges, Q (.range x)

variable {Q : Content → Prop}

theorem Over.empty : Document.Over Q {} :=
  ⟨List.forall_mem_nil _, List.forall_mem_nil _⟩

theorem Over.add (h : d.Over Q) (hr : r.Over Q) : (d.add r).Over Q := by
  constructor
  · intro e he
    exact (mem_trees_add he).elim (hr.trees e) (h.trees e)
  · intro x hx
    exact (mem_ranges_add hx).elim (hr.ranges x) (h.ranges x)

theorem Over.foldl {rs : List Record} (h : d.Over Q) (hr : ∀ r ∈ rs, r.Over Q) :
    (rs.foldl Document.add d).Over Q := by
  induction rs generalizing d with
  | nil => exact h
  | cons r rs ih =>
    obtain ⟨hfirst, hrest⟩ := List.forall_mem_cons.1 hr
    exact ih (h.add hfirst) hrest

end Document

/-- The text spells the bounds of the range. -/
def Range.Within (text : List Char) (x : Range) : Prop :=
  ∃ low high, low <:+: text ∧ high <:+: text ∧ IsNumeral low ∧ IsNumeral high ∧
    Numeral.number? low = .ok x.low ∧ Numeral.number? high = .ok x.high

/-- A tree that is read from the text, or a range that it spells. -/
def Content.From (text : List Char) : Content → Prop
  | expression e => e.Proper ∧ ∀ x ∈ e.leaves, x.Within text
  | range x => x.Within text
  | _ => True

theorem Content.From.mono {text whole : List Char} {content : Content} (h : content.From text)
    (ht : text <:+: whole) : content.From whole := by
  cases content with
  | expression e => exact ⟨h.1, fun x hx => (h.2 x hx).mono ht⟩
  | range x =>
    obtain ⟨low, high, hlow, hhigh, hrest⟩ := h
    exact ⟨low, high, hlow.trans ht, hhigh.trans ht, hrest⟩
  | _ => trivial

theorem Cursor.Reaches.piece {c d : Cursor} (h : c.Reaches d) : d.rest <:+: c.rest := by
  obtain ⟨taken, htaken, -⟩ := h
  exact htaken ▸ (List.suffix_append ..).isInfix

theorem Read.expr_from {setting : Setting} {goal : Goal} {c d : Cursor} {e : Expr}
    (h : Read.expr setting goal c = .ok e d) : (Content.expression e).From c.rest :=
  ⟨Read.expr_proper h, Read.expr_leaves h⟩

namespace Line

theorem within_of_rangeOf {m : Match} {s : List Char} {x : Range} (hm : Lead.range.MadeOf m)
    (hs : ∀ w ∈ m.groups, w <:+: s) (h : rangeOf m = .ok x) : x.Within s := by
  obtain ⟨low, high, hgroups, hlow, hhigh⟩ := hm
  simp only [rangeOf, hgroups, List.getD_cons_zero, List.getD_cons_succ] at h
  cases hl : Numeral.number? low with
  | error => simp [hl, bind, Except.bind] at h
  | ok a =>
    cases hh : Numeral.number? high with
    | error => simp [hl, hh, bind, Except.bind] at h
    | ok b =>
      simp only [hl, hh] at h
      cases h
      exact ⟨low, high, hs low (by simp [hgroups]), hs high (by simp [hgroups]), hlow, hhigh,
        hl, hh⟩

theorem eq_of_ofResult {make : α → Content} {offset : Nat} {r : EStateM.Result Fault Cursor α}
    {t : Token} {d : Cursor} (h : Part.ofResult make offset r = .token t d) :
    ∃ a, r = .ok a d ∧ t.content = make a := by
  cases r with
  | error fault c => cases h
  | ok a c =>
    cases h
    exact ⟨a, rfl, rfl⟩

theorem next_from {setting : Setting} {c d : Cursor} {t : Token}
    (h : next setting c = .token t d) : t.content.From c.rest := by
  unfold next at h
  split at h
  · rename_i lead m hm
    obtain ⟨p, -, hp⟩ := lead?_run hm
    have hpart : ∀ w ∈ m.groups, w <:+: c.rest := fun w hw =>
      (Pattern.infix_of_shape (Pattern.run_shape hp) w hw).trans
        (Pattern.run_split hp ▸ (List.prefix_append ..).isInfix)
    cases lead with
    | range =>
      obtain ⟨x, hx, ht⟩ := eq_of_ofResult h
      cases hr : rangeOf m with
      | error n =>
        rw [hr] at hx
        cases hx
      | ok y =>
        rw [hr] at hx
        cases hx
        exact ht ▸ within_of_rangeOf (lead?_madeOf hm) hpart hr
    | paren =>
      obtain ⟨e, he, ht⟩ := eq_of_ofResult h
      exact ht ▸ (Read.expr_from he).mono (Cursor.reaches_past hp).piece
    | quote | number =>
      obtain ⟨a, -, ht⟩ := eq_of_ofResult h
      exact ht ▸ trivial
    | variableName | word =>
      cases h
      trivial
    | gap | lineEnd | comment => cases h
  · split at h <;> cases h

/-- A tree on a line is an expression in parentheses. -/
theorem expr_of_next {setting : Setting} {c d : Cursor} {t : Token} {e : Expr}
    (h : next setting c = .token t d) (he : t.content = .expression e) :
    ∃ goal b, Read.expr setting goal b = .ok e d := by
  unfold next at h
  split at h
  · rename_i lead m hm
    cases lead with
    | paren =>
      obtain ⟨e', hr, ht⟩ := eq_of_ofResult h
      cases ht.symm.trans he
      exact ⟨_, _, hr⟩
    | range | quote | number =>
      obtain ⟨a, -, ht⟩ := eq_of_ofResult h
      cases ht.symm.trans he
    | variableName | word =>
      cases h
      cases he
    | gap | lineEnd | comment => cases h
  · split at h <;> cases h

end Line

/-- All that is read in a part of the text has the property: every expression, and every token
of a line. -/
structure Setting.Supplies (setting : Setting) (text : List Char) (Q : Content → Prop) : Prop where
  expr {goal : Goal} {c d : Cursor} {e : Expr} (hc : c.rest <:+: text)
    (h : Read.expr setting goal c = .ok e d) : Q (.expression e)
  token {c d : Cursor} {t : Token} (hc : c.rest <:+: text) (h : Line.next setting c = .token t d) :
    Q t.content

/-- A text supplies what comes from it. -/
theorem Setting.supplies_from (setting : Setting) (text : List Char) :
    setting.Supplies text (Content.From text) where
  expr hc h := (Read.expr_from h).mono hc
  token hc h := (Line.next_from h).mono hc

/-- What holds of every expression that is read, holds of the trees that a text supplies. -/
theorem Setting.supplies_of_expr {setting : Setting} {P : Expr → Prop}
    (h : ∀ goal c e d, Read.expr setting goal c = .ok e d → P e) (text : List Char) :
    setting.Supplies text fun content => ∀ e, content = .expression e → P e where
  expr _ hr e he := by
    cases he
    exact h _ _ _ _ hr
  token _ hn e he := by
    obtain ⟨goal, b, hr⟩ := Line.expr_of_next hn he
    exact h goal b e _ hr

theorem Line.readFrom_all {setting : Setting} {text : List Char} {Q : Content → Prop}
    (hq : setting.Supplies text Q) {c d : Cursor} {tokens : List Token} {line : Line}
    (hc : c.rest <:+: text) (ht : ∀ t ∈ tokens, Q t.content)
    (h : readFrom setting c tokens = .ok line d) : ∀ t ∈ line, Q t.content := by
  fun_induction readFrom setting c tokens with
  | case1 c tokens c' hn ih => exact ih ((reaches_of_next hn).piece.trans hc) ht h
  | case2 c tokens t c' hn ih =>
    refine ih ((reaches_of_next hn).piece.trans hc) (List.forall_mem_cons.2 ⟨?_, ht⟩) h
    exact hq.token hc hn
  | case3 c tokens c' hn =>
    cases h
    exact fun t hmem => ht t (List.mem_reverse.1 hmem)
  | case4 => cases h

namespace Read

/-- Read from a part of the text, the result has the property. -/
def Draws (text : List Char) (x : Read α) (P : α → Prop) : Prop :=
  ∀ c a d, c.rest <:+: text → x c = .ok a d → P a

namespace Draws

variable {text : List Char} {P : α → Prop} {R : β → Prop}

theorem any (text : List Char) (x : Read α) : Draws text x fun _ => True :=
  fun _ _ _ _ _ => trivial

theorem pure {a : α} (h : P a) : Draws text (Pure.pure a) P := by
  intro c a' d _ heq
  cases heq
  exact h

theorem fail (complaint : Complaint) (pos : Nat) : Draws text (Read.fail complaint pos) P := by
  intro c a d _ heq
  cases heq

theorem bind {x : Read α} {f : α → Read β} (hx : Draws text x P) (ha : Advances x)
    (hf : ∀ a, P a → Draws text (f a) R) : Draws text (x >>= f) R := by
  intro c b e hc h
  obtain ⟨a, d, hd, h⟩ := bind_eq_ok.1 h
  exact hf a (hx c a d hc hd) d b e ((ha.of_ok hd).piece.trans hc) h

theorem ite {b : Bool} {x y : Read α} (hx : Draws text x P) (hy : Draws text y P) :
    Draws text (if b then x else y) P := by
  cases b
  · exact hy
  · exact hx

variable {setting : Setting} {Q : Content → Prop} (hq : setting.Supplies text Q)
include hq

theorem expr (goal : Goal) : Draws text (Read.expr setting goal) fun e => Q (.expression e) :=
  fun _ _ _ hc h => hq.expr hc h

theorem line : Draws text (Read.line setting) fun line => ∀ t ∈ line, Q t.content :=
  fun _ _ _ hc h => Line.readFrom_all hq hc (List.forall_mem_nil _) h

theorem entry (subject : String) {reader : Nat → Entry α} (h : ∀ ref, (reader ref).Uses Q P) :
    Draws text (Read.entry setting subject reader) fun p => P p.1 := by
  refine bind (any text _) (.begin subject) fun ref _ =>
    bind (line hq) (.line setting) fun tokens ht => ?_
  split
  · rename_i result hresult
    exact pure (h ref tokens ht result.1 result.2 hresult).1
  · exact fail _ _

theorem definition : Draws text (Read.definition setting) fun v =>
    ∀ e ∈ v.trees, Q (.expression e) := by
  refine bind (any text _) (.begin _) fun ref _ => bind (any text _) (.skip _) fun _ _ =>
    bind (any text _) (.skip _) fun _ _ => bind (any text _) (.require _ _) fun _ _ =>
      bind (any text _) (.skip _) fun _ _ =>
        bind (P := fun change => ∀ e ∈ change.value?.toList, Q (.expression e))
          ?_ (.change setting) fun change hchange => pure hchange
  refine bind (any text _) (.firstOf _) fun how _ => ?_
  split
  · exact bind (expr hq .line) (.expr setting _) fun e he =>
      pure (List.forall_mem_singleton.2 he)
  · exact pure (List.forall_mem_nil _)

theorem condition : Draws text (Read.condition setting) fun cond =>
    ∀ e ∈ cond.toList, Q (.expression e) := by
  refine bind (any text _) (.accept _) fun _ _ => ite ?_ (pure (List.forall_mem_nil _))
  exact bind (expr hq .parens) (.expr setting _) fun e he =>
    bind (any text _) (.skip _) fun _ _ => pure (List.forall_mem_singleton.2 he)

theorem command (ref : Nat) : Draws text (Read.command setting ref) fun p =>
    ∀ e ∈ p.1.trees, Q (.expression e) := by
  refine bind (any text _) .definitionAhead fun _ _ => ite
    (bind (definition hq) (Takes.definition setting).advances fun v hv =>
      bind (any text _) (.lineEnd _) fun _ _ => pure hv)
    (bind (line hq) (.line setting) fun tokens ht => ?_)
  split
  · rename_i result hresult
    exact pure (Entry.Uses.command tokens ht result.1 result.2 hresult).1
  · exact fail _ _

theorem directive : Draws text (Read.directive setting) fun p =>
    ∀ e ∈ p.1.trees, Q (.expression e) :=
  bind (any text _) (.begin _) fun ref _ => bind (condition hq) (.condition setting)
    fun _ hcond => bind (command hq ref) (Takes.command setting ref).advances
      fun _ hc => pure (List.forall_mem_append.2 ⟨hcond, hc⟩)

end Draws
end Read

namespace Parse

variable {setting : Setting} {text : List Char} {Q : Content → Prop}

/-- What a turn puts into the document, it has from the text. -/
theorem Turned.over (hq : setting.Supplies text Q) {scope : Scope} {lead : Option Lead}
    {s : Progress} {rs : List Record} {result : EStateM.Result Fault Progress Scope}
    (hs : s.cursor.rest <:+: text) (h : Turned setting scope lead s rs result) :
    ∀ r ∈ rs, r.Over Q := by
  cases h with
  | pass | refused => exact List.forall_mem_nil _
  | record hb h =>
    refine List.forall_mem_singleton.2 ?_
    exact Read.Draws.entry hq _ (.form _ · _) _ _ _ (hb.reaches.piece.trans hs) h
  | definition _ hv | unfinished _ hv =>
    refine List.forall_mem_singleton.2 ⟨?_, List.forall_mem_nil _⟩
    exact Read.Draws.definition hq _ _ _ hs hv
  | directive _ hd =>
    refine List.forall_mem_singleton.2 ⟨?_, List.forall_mem_nil _⟩
    exact Read.Draws.directive hq _ _ _ hs hd
  | reactions _ hr | stray _ hr =>
    intro r hmem
    obtain ⟨word, rfl⟩ := Read.reaction_of_entry hr r hmem
    exact .bare rfl rfl

theorem run_over (hq : setting.Supplies text Q) {scope : Scope} {s : Progress}
    (hs : s.cursor.rest <:+: text) (h : s.document.Over Q) :
    (reached (run setting scope s)).document.Over Q := by
  -- a step adds records that have their trees from the text that is left, and leaves less of it
  have hstep : ∀ scope s, s.cursor.rest <:+: text → s.document.Over Q →
      (reached (step setting scope s)).cursor.rest <:+: text ∧
        (reached (step setting scope s)).document.Over Q := by
    intro scope s hs h
    obtain ⟨lead, c, rs, hl, hturn⟩ := step_turned setting scope s
    have hc : (s.moveTo c).cursor.rest <:+: text :=
      ((Advances.lead scope).of_ok hl).piece.trans hs
    refine ⟨((Takes.step setting scope).advances s).piece.trans hs, ?_⟩
    rw [hturn.document]
    exact Document.Over.foldl h (hturn.over hq hc)
  fun_induction run setting scope s with
  | case1 => exact h
  | case2 scope s _ next t heq ih =>
    obtain ⟨ht, hover⟩ := hstep scope s hs h
    rw [heq] at ht hover
    exact ih ht hover
  | case3 scope s _ fault t heq =>
    obtain ⟨-, hover⟩ := hstep scope s hs h
    rw [heq] at hover
    exact hover

end Parse

/-- A document is made of what its source supplies. -/
theorem Script.document_supplied {setting : Setting} {source : List Char} {Q : Content → Prop}
    (hq : setting.Supplies source Q) : (read setting source).document.Over Q := by
  have h : (Parse.reached (Parse.run setting .top (.ofText source))).document.Over Q :=
    Parse.run_over hq List.infix_rfl .empty
  rwa [read, (ofResult_eq _).1]

/-- All trees and ranges of a document come from its source. -/
theorem Script.document_over (setting : Setting) (source : List Char) :
    (read setting source).document.Over (Content.From source) :=
  document_supplied (setting.supplies_from source)

end Gamebook
