import Gamebook.Proofs.Agreement

/-!
A document can be recovered from its engine form: two documents that were read and whose forms
cannot be told apart are equal in every field. The name of a definition is not in its form and
is known from the key under which it stands.
-/
namespace Gamebook

inductive Change.Alike (R : Number → Number → Prop) : Change → Change → Prop
  | declare : Alike R declare declare
  | assign {e f : Expr} (how : Assignment) (h : e.Alike R f) :
      Alike R (assign how e) (assign how f)

structure Definition.Alike (R : Number → Number → Prop) (v w : Definition) : Prop where
  name : v.name = w.name
  change : v.change.Alike R w.change
  ref : v.ref = w.ref

structure Range.Alike (R : Number → Number → Prop) (r s : Range) : Prop where
  low : R r.low s.low
  high : R r.high s.high

structure Property.Alike (R : Number → Number → Prop) (p q : Property) : Prop where
  label : p.label = q.label
  range : Option.Rel (Range.Alike R) p.range q.range
  ref : p.ref = q.ref

inductive Trigger.Alike (R : Number → Number → Prop) : Trigger → Trigger → Prop
  | condition {e f : Expr} (h : e.Alike R f) : Alike R (condition e) (condition f)
  | node (id : String) : Alike R (node id) (node id)

structure Action.Alike (R : Number → Number → Prop) (a b : Action) : Prop where
  trigger : a.trigger.Alike R b.trigger
  label : a.label = b.label
  message : a.message = b.message
  mods : a.mods = b.mods
  ref : a.ref = b.ref

structure Behavior.Alike (R : Number → Number → Prop) (a b : Behavior) : Prop where
  cond : Option.Rel (Expr.Alike R) a.cond b.cond
  message : a.message = b.message
  mods : a.mods = b.mods
  count : a.count = b.count
  negated : a.negated = b.negated
  target : a.target = b.target
  ref : a.ref = b.ref

structure Item.Alike (R : Number → Number → Prop) (a b : Item) : Prop where
  label : a.label = b.label
  appendix : a.appendix = b.appendix
  behaviors : ∀ c, List.Forall₂ (Behavior.Alike R) (a.behaviors c) (b.behaviors c)
  resources : a.resources = b.resources
  location : a.location = b.location

inductive Command.Alike (R : Number → Number → Prop) : Command → Command → Prop
  /-- A command without trees is alike to itself only. -/
  | plain (c : Command) (h : c.trees = []) : Alike R c c
  | callMod {o p : Option Expr} (modifier : String) (h : Option.Rel (Expr.Alike R) o p) :
      Alike R (callMod modifier o) (callMod modifier p)
  | setVariable {v w : Definition} (h : v.Alike R w) : Alike R (setVariable v) (setVariable w)

structure Directive.Alike (R : Number → Number → Prop) (a b : Directive) : Prop where
  command : a.command.Alike R b.command
  cond : Option.Rel (Expr.Alike R) a.cond b.cond
  ref : a.ref = b.ref

theorem Assignment.code_injective : Function.Injective Assignment.code := by
  intro a b h
  cases a <;> cases b <;> cases h <;> rfl

theorem Assignment.code_ne_zero (how : Assignment) : how.code ≠ 0 := by
  cases how <;> decide

theorem Change.alike {R : Number → Number → Prop} {a b : Change} (hcode : a.code = b.code)
    (hvalue : Option.Rel (Expr.Alike R) a.value? b.value?) : a.Alike R b := by
  cases a with
  | declare =>
    cases b with
    | declare => exact .declare
    | assign how => exact absurd hcode.symm how.code_ne_zero
  | assign how e =>
    cases b with
    | declare => exact absurd hcode how.code_ne_zero
    | assign how' f =>
      obtain rfl := Assignment.code_injective hcode
      exact .assign how (Option.rel_some_some.1 hvalue)

section Records

variable {R : Number → Number → Prop} (hR : Number.Discerning R)

include hR

/-- A tree that may be missing is told from its form. -/
theorem rel_of_formOption {o p : Option Expr} {x y : Data} (ho : ∀ e ∈ o.toList, e.Proper)
    (hp : ∀ e ∈ p.toList, e.Proper) (hx : formOption o = .ok x) (hy : formOption p = .ok y)
    (h : x.Alike R y) : Option.Rel (Expr.Alike R) o p := by
  have hnull : ∀ {e : Expr} {x : Data}, e.form = .ok x →
      ¬ x.Alike R .null ∧ ¬ Data.Alike R .null x := by
    intro e x he
    obtain ⟨_, rfl⟩ := Expr.form_tagged he
    exact Data.Alike.not_null rfl Data.noConfusion
  cases o with
  | none =>
    cases hx
    cases p with
    | none => exact .none
    | some f => exact absurd h (hnull hy).2
  | some e =>
    cases p with
    | none =>
      cases hy
      exact absurd h (hnull hx).1
    | some f =>
      exact .some (e.alike_of_form hR (ho e (by simp)) (hp f (by simp)) hx hy h)

/-- A definition has its name from elsewhere. -/
theorem Definition.alike_of_form {v w : Definition} (hname : v.name = w.name) {x y : Data}
    (hv : ∀ e ∈ v.trees, e.Proper) (hw : ∀ e ∈ w.trees, e.Proper) (hx : v.form = .ok x)
    (hy : w.form = .ok y) (h : x.Alike R y) : v.Alike R w := by
  obtain ⟨a, ha, hx⟩ := bind_ok_iff.1 hx
  obtain ⟨b, hb, hy⟩ := bind_ok_iff.1 hy
  cases hx
  cases hy
  refine ⟨hname, Change.alike ?_ ?_, (h.field "_ref" rfl rfl).nat_eq hR⟩
  · exact (h.field "type" rfl rfl).nat_eq hR
  · exact rel_of_formOption hR hv hw ha hb (h.field "expression" rfl rfl)

theorem Property.alike_of_form {p q : Property} (h : p.form.Alike R q.form) : p.Alike R q := by
  have hrange : Option.Rel (Range.Alike R) p.range q.range := by
    have hr := h.field "range" rfl rfl
    revert hr
    generalize p.range = r
    generalize q.range = s
    exact Data.Alike.ofOption_rel (fun _ => Data.Alike.not_null rfl Data.noConfusion)
      fun _ _ hr => ⟨(hr.field "from" rfl rfl).number_rel, (hr.field "to" rfl rfl).number_rel⟩
  exact ⟨(h.field "label" rfl rfl).text_eq, hrange, (h.field "_ref" rfl rfl).nat_eq hR⟩

theorem Node.eq_of_form {m n : Node} (h : m.form.Alike R n.form) : m = n := by
  obtain ⟨message, final, ref⟩ := m
  obtain rfl := (h.field "message" rfl rfl).text_eq
  obtain rfl := (h.field "isFinal" rfl rfl).bool_eq hR
  obtain rfl := (h.field "_ref" rfl rfl).nat_eq hR
  rfl

theorem Path.eq_of_form {p q : Path} (h : p.form.Alike R q.form) : p = q := by
  obtain ⟨label, mods, ref⟩ := p
  obtain rfl := (h.field "label" rfl rfl).text_eq
  obtain rfl := (h.field "mods" rfl rfl).texts_eq
  obtain rfl := (h.field "_ref" rfl rfl).nat_eq hR
  rfl

theorem Start.eq_of_form {s t : Start} (h : s.form.Alike R t.form) : s = t := by
  obtain ⟨message, node, ref⟩ := s
  obtain rfl := (h.field "message" rfl rfl).text_eq
  obtain rfl := (h.field "node" rfl rfl).text_eq
  obtain rfl := (h.field "_ref" rfl rfl).nat_eq hR
  rfl

theorem Placement.eq_of_form {p q : Placement} (h : p.form.Alike R q.form) : p = q := by
  obtain ⟨place, ref⟩ := p
  obtain ⟨place', ref'⟩ := q
  obtain rfl := (h.field "_ref" rfl rfl).nat_eq hR
  have hcode : place.code = place'.code := (h.field "type" rfl rfl).nat_eq hR
  have hnode : place.node? = place'.node? := (h.field "node" rfl rfl).optionalText_eq
  cases place <;> cases place' <;> cases hcode <;> cases hnode <;> rfl

theorem Action.alike_of_form {a b : Action} {x y : Data} (ha : ∀ e ∈ a.trees, e.Proper)
    (hb : ∀ e ∈ b.trees, e.Proper) (hx : a.form = .ok x) (hy : b.form = .ok y)
    (h : x.Alike R y) : a.Alike R b := by
  obtain ⟨c, hc, hx⟩ := bind_ok_iff.1 hx
  obtain ⟨d, hd, hy⟩ := bind_ok_iff.1 hy
  cases hx
  cases hy
  have hcond := rel_of_formOption hR ha hb hc hd (h.field "cond" rfl rfl)
  have hnode : a.trigger.node? = b.trigger.node? := (h.field "node" rfl rfl).optionalText_eq
  refine ⟨?_, (h.field "label" rfl rfl).text_eq, (h.field "msg" rfl rfl).optionalText_eq,
    (h.field "mods" rfl rfl).texts_eq, (h.field "_ref" rfl rfl).nat_eq hR⟩
  revert hcond hnode
  generalize a.trigger = s
  generalize b.trigger = t
  intro hcond hnode
  cases s with
  | condition e =>
    cases t with
    | condition f => exact .condition (Option.rel_some_some.1 hcond)
    | node => cases hnode
  | node id =>
    cases t with
    | condition => cases hnode
    | node =>
      cases hnode
      exact .node id

theorem Behavior.alike_of_form {a b : Behavior} {x y : Data} (ha : ∀ e ∈ a.trees, e.Proper)
    (hb : ∀ e ∈ b.trees, e.Proper) (hx : a.form = .ok x) (hy : b.form = .ok y)
    (h : x.Alike R y) : a.Alike R b := by
  obtain ⟨c, hc, hx⟩ := bind_ok_iff.1 hx
  obtain ⟨d, hd, hy⟩ := bind_ok_iff.1 hy
  cases hx
  cases hy
  have htarget : a.target = b.target := by
    have ht := h.fields "target"
    revert ht
    generalize a.target = s
    generalize b.target = t
    intro ht
    cases s <;> cases t <;> cases ht
    · rfl
    · rename_i ht
      rw [ht.text_eq]
  exact ⟨rel_of_formOption hR ha hb hc hd (h.field "cond" rfl rfl),
    (h.field "msg" rfl rfl).optionalText_eq, (h.field "mods" rfl rfl).texts_eq,
    (h.field "count" rfl rfl).optionalNat_eq hR, (h.field "no" rfl rfl).bool_eq hR, htarget,
    (h.field "_ref" rfl rfl).optionalNat_eq hR⟩

theorem Command.alike_of_args {c d : Command} {xs ys : List Data}
    (hc : ∀ e ∈ c.trees, e.Proper) (hd : ∀ e ∈ d.trees, e.Proper) (hx : c.args = .ok xs)
    (hy : d.args = .ok ys) (hname : c.name = d.name) (h : List.Forall₂ (Data.Alike R) xs ys) :
    c.Alike R d := by
  cases c with
  | message | delItem | teleport =>
    cases d <;> simp [name] at hname
    cases hx
    cases hy
    obtain _ | ⟨ha, -⟩ := h
    rw [ha.text_eq]
    exact .plain _ rfl
  | addItem =>
    cases d <;> simp [name] at hname
    cases hx
    cases hy
    obtain _ | ⟨ha, _ | ⟨hb, -⟩⟩ := h
    rw [ha.text_eq, hb.optionalText_eq]
    exact .plain _ rfl
  | setItem =>
    cases d <;> simp [name] at hname
    cases hx
    cases hy
    obtain _ | ⟨ha, _ | ⟨hb, _ | ⟨hc, -⟩⟩⟩ := h
    rw [ha.text_eq, hb.text_eq, hc.optionalText_eq]
    exact .plain _ rfl
  | addResource | delResource | setNode | delPath =>
    cases d <;> simp [name] at hname
    cases hx
    cases hy
    obtain _ | ⟨ha, _ | ⟨hb, -⟩⟩ := h
    rw [ha.text_eq, hb.text_eq]
    exact .plain _ rfl
  | addPath =>
    cases d <;> simp [name] at hname
    cases hx
    cases hy
    obtain _ | ⟨ha, _ | ⟨hb, _ | ⟨hc, -⟩⟩⟩ := h
    rw [ha.text_eq, hb.text_eq, hc.text_eq]
    exact .plain _ rfl
  | skip =>
    cases d <;> simp [name] at hname
    cases hx
    cases hy
    obtain _ | ⟨ha, -⟩ := h
    rw [ha.nat_eq hR]
    exact .plain _ rfl
  | «return» =>
    cases d <;> simp [name] at hname
    exact .plain _ rfl
  | callMod a o =>
    cases d <;> simp [name] at hname
    obtain ⟨x, hform, hxs⟩ := bind_ok_iff.1 hx
    obtain ⟨y, hform', hys⟩ := bind_ok_iff.1 hy
    cases hxs
    cases hys
    obtain _ | ⟨ha, _ | ⟨hb, -⟩⟩ := h
    rw [ha.text_eq]
    exact .callMod _ (rel_of_formOption hR hc hd hform hform' hb)
  | setVariable v =>
    cases d <;> simp [name] at hname
    obtain ⟨x, hform, hxs⟩ := bind_ok_iff.1 hx
    obtain ⟨y, hform', hys⟩ := bind_ok_iff.1 hy
    cases hxs
    cases hys
    obtain _ | ⟨ha, _ | ⟨hb, -⟩⟩ := h
    exact .setVariable (Definition.alike_of_form hR ha.text_eq hc hd hform hform' hb)

theorem Directive.alike_of_form {a b : Directive} {x y : Data} (ha : ∀ e ∈ a.trees, e.Proper)
    (hb : ∀ e ∈ b.trees, e.Proper) (hx : a.form = .ok x) (hy : b.form = .ok y)
    (h : x.Alike R y) : a.Alike R b := by
  obtain ⟨c, hc, hx⟩ := bind_ok_iff.1 hx
  obtain ⟨xs, hxs, hx⟩ := bind_ok_iff.1 hx
  obtain ⟨d, hd, hy⟩ := bind_ok_iff.1 hy
  obtain ⟨ys, hys, hy⟩ := bind_ok_iff.1 hy
  cases hx
  cases hy
  rw [trees, List.forall_mem_append] at ha hb
  obtain _ | ⟨hname, hargs⟩ := (h.field "command" rfl rfl).items
  exact ⟨Command.alike_of_args hR ha.2 hb.2 hxs hys hname.text_eq hargs,
    rel_of_formOption hR ha.1 hb.1 hc hd (h.field "cond" rfl rfl),
    (h.field "_ref" rfl rfl).nat_eq hR⟩

end Records

/-- A list of which the empty one is left out. -/
def given (xs : List α) : Option (List α) := if xs.isEmpty then none else some xs

theorem eq_of_mem_given {xs ys : List α} (h : ys ∈ given xs) : ys = xs := by
  cases xs with
  | nil => cases h
  | cons => exact (Option.some.inj h).symm

theorem given_injective {xs ys : List α} (h : given xs = given ys) : xs = ys := by
  cases xs <;> cases ys <;> cases h <;> rfl

theorem forall₂_of_given {S : α → α → Prop} {xs ys : List α}
    (h : Option.Rel (List.Forall₂ S) (given xs) (given ys)) : List.Forall₂ S xs ys := by
  cases xs <;> cases ys <;> cases h
  · exact .nil
  · assumption

theorem Category.name_injective : Function.Injective Category.name := by
  intro a b h
  cases a <;> cases b <;> simp [name] at h ⊢

/-- A name that no field has. -/
theorem lookup_eq_none {fields : List (String × α)} {names : List String} {k : String}
    (h : fields.map Prod.fst ⊆ names) (hk : k ∉ names) : fields.lookup k = none := by
  rw [List.lookup_eq_none_iff]
  rintro ⟨name, v⟩ hmem
  rw [bne_iff_ne]
  rintro rfl
  exact hk (h (List.mem_map_of_mem hmem))

namespace Item

/-- The reactions of a category are found under its name. -/
theorem rel_of_behaviorFields {item : Item} {categories : List Category}
    {fields : List (String × Data)} (hnodup : categories.Nodup)
    (h : item.behaviorFields categories = .ok fields) {c : Category} (hc : c ∈ categories) :
    Option.Rel (fun bs d => formList Behavior.form bs = .ok d) (given (item.behaviors c))
      (fields.lookup c.name) := by
  induction categories generalizing fields with
  | nil => cases hc
  | cons category categories ih =>
    obtain ⟨hfresh, hrest⟩ := List.nodup_cons.1 hnodup
    rw [behaviorFields] at h
    split at h
    · rename_i hempty
      rcases List.mem_cons.1 hc with rfl | hc
      · have hnames : c.name ∉ categories.map Category.name :=
          fun hmem => hfresh ((List.mem_map_of_injective Category.name_injective).1 hmem)
        rw [given, if_pos hempty, lookup_eq_none (behaviorFields_keys h).subset hnames]
        exact .none
      · exact ih hrest h hc
    · rename_i hempty
      simp only [bind_ok_iff, pure, Except.pure, Except.ok.injEq] at h
      obtain ⟨list, hlist, rest, hfields, rfl⟩ := h
      rcases List.mem_cons.1 hc with rfl | hc
      · rw [given, if_neg hempty, List.lookup_cons_self]
        exact .some hlist
      · have hne : c.name ≠ category.name :=
          fun he => hfresh (Category.name_injective he ▸ hc)
        rw [List.lookup_cons, beq_eq_false_iff_ne.2 hne]
        exact ih hrest hfields hc

/-- What the form of an item has under the name of each part. -/
theorem form_fields {item : Item} {x : Data} (h : item.form = .ok x) :
    ∃ fields, x = .record fields ∧
      fields.lookup "label" = some (optionalText item.label) ∧
      fields.lookup "appendix" = some (optionalText item.appendix) ∧
      (∀ c : Category, Option.Rel (fun bs d => formList Behavior.form bs = .ok d)
        (given (item.behaviors c)) (fields.lookup c.name)) ∧
      fields.lookup "resources" = (given item.resources).map .texts ∧
      fields.lookup "location" = item.location.map Placement.form := by
  obtain ⟨behaviors, hb, hx⟩ := bind_ok_iff.1 h
  cases hx
  have hcategory := fun c => rel_of_behaviorFields (by decide) hb (Category.mem_all c)
  have hother : ∀ {k : String}, k ∉ Category.all.map Category.name → behaviors.lookup k = none :=
    fun hk => lookup_eq_none (behaviorFields_keys hb).subset hk
  refine ⟨_, rfl, rfl, rfl, fun c => ?_, ?_, ?_⟩
  · have hlookup : ∀ {resources location : List (String × Data)},
        resources.map Prod.fst ⊆ ["resources"] → location.map Prod.fst ⊆ ["location"] →
          ([("label", optionalText item.label), ("appendix", optionalText item.appendix)] ++
            behaviors ++ resources ++ location).lookup c.name = behaviors.lookup c.name := by
      intro resources location hr hl
      have hlabel : [("label", optionalText item.label),
          ("appendix", optionalText item.appendix)].lookup c.name = none := by
        cases c <;> rfl
      rw [List.lookup_append, List.lookup_append, List.lookup_append, hlabel,
        lookup_eq_none hr (by cases c <;> decide), lookup_eq_none hl (by cases c <;> decide),
        Option.none_or, Option.or_none, Option.or_none]
    rw [hlookup (by split <;> simp) (by split <;> simp)]
    exact hcategory c
  · rw [List.lookup_append, List.lookup_append, List.lookup_append, hother (by decide), given]
    by_cases hr : item.resources.isEmpty = true <;> cases hl : item.location <;> simp [hr] <;> rfl
  · rw [List.lookup_append, List.lookup_append, List.lookup_append, hother (by decide)]
    by_cases hr : item.resources.isEmpty = true <;> cases hl : item.location <;> simp [hr] <;> rfl

theorem alike_of_form {R : Number → Number → Prop} (hR : Number.Discerning R) {a b : Item}
    {x y : Data} (ha : ∀ e ∈ a.trees, e.Proper) (hb : ∀ e ∈ b.trees, e.Proper)
    (hx : a.form = .ok x) (hy : b.form = .ok y) (h : x.Alike R y) : a.Alike R b := by
  obtain ⟨f, rfl, hflabel, hfappendix, hfbehaviors, hfresources, hflocation⟩ := form_fields hx
  obtain ⟨g, rfl, hglabel, hgappendix, hgbehaviors, hgresources, hglocation⟩ := form_fields hy
  have hresources : a.resources = b.resources := by
    have hr := h.fields "resources"
    rw [hfresources, hgresources] at hr
    exact given_injective (eq_of_rel_map hr fun _ _ => Data.Alike.texts_eq)
  have hlocation : a.location = b.location := by
    have hl := h.fields "location"
    rw [hflocation, hglocation] at hl
    exact eq_of_rel_map hl fun _ _ => Placement.eq_of_form hR
  refine ⟨(h.field "label" hflabel hglabel).optionalText_eq,
    (h.field "appendix" hfappendix hgappendix).optionalText_eq, fun c => ?_, hresources, hlocation⟩
  refine forall₂_of_given (rel_through (hfbehaviors c) (hgbehaviors c) (h.fields c.name) ?_)
  rintro as has bs hbs u v hu hv huv
  obtain rfl := eq_of_mem_given has
  obtain rfl := eq_of_mem_given hbs
  refine forall₂_of_formList hu hv huv fun s hs t ht x y hx hy hxy => ?_
  refine Behavior.alike_of_form hR (fun e he => ha e ?_) (fun e he => hb e ?_) hx hy hxy
  · exact mem_trees.2 ⟨c, s, hs, he⟩
  · exact mem_trees.2 ⟨c, t, ht, he⟩

end Item

namespace Document

structure Alike (R : Number → Number → Prop) (d e : Document) : Prop where
  definitions : d.definitions.Alike (Definition.Alike R) e.definitions
  properties : d.properties.Alike (Property.Alike R) e.properties
  nodes : d.nodes.Alike (· = ·) e.nodes
  edges : d.edges.Alike (Table.Alike (· = ·)) e.edges
  items : d.items.Alike (Item.Alike R) e.items
  modifiers : d.modifiers.Alike (List.Forall₂ (Directive.Alike R)) e.modifiers
  boring : d.boring.Alike (· = ·) e.boring
  actions : List.Forall₂ (Action.Alike R) d.actions e.actions
  start : d.start = e.start

/-- What makes a document recoverable. -/
structure Tidy (d : Document) : Prop where
  trees : ∀ e ∈ d.trees, e.Proper
  names : d.definitions.All fun name v => v.name = name

theorem Tidy.parts {d : Document} (h : d.Tidy) :
    (((∀ e ∈ d.definitions.parts Definition.trees, e.Proper) ∧
      ∀ e ∈ d.actions.flatMap Action.trees, e.Proper) ∧
      ∀ e ∈ d.items.parts Item.trees, e.Proper) ∧
      ∀ e ∈ d.modifiers.parts (·.flatMap Directive.trees), e.Proper := by
  simpa only [Document.trees, List.forall_mem_append] using h.trees

theorem alike_of_form {R : Number → Number → Prop} (hR : Number.Discerning R) {d e : Document}
    {x y : Data} (hd : d.Tidy) (he : e.Tidy) (hx : d.form = .ok x) (hy : e.form = .ok y)
    (h : x.Alike R y) : d.Alike R e := by
  simp only [form, bind_ok_iff, pure, Except.pure, Except.ok.injEq] at hx hy
  obtain ⟨a, ha, b, hb, c, hc, n, hn, p, hp, i, hi, o, ho, m, hm, rfl⟩ := hx
  obtain ⟨a', ha', b', hb', c', hc', n', hn', p', hp', i', hi', o', ho', m', hm', rfl⟩ := hy
  obtain ⟨⟨⟨hddefs, hdactions⟩, hditems⟩, hdmods⟩ := hd.parts
  obtain ⟨⟨⟨hedefs, heactions⟩, heitems⟩, hemods⟩ := he.parts
  have hid : Function.Injective (id : String → String) := Function.injective_id
  constructor
  · refine Table.alike_of_form hid ha ha' (h.field "variables" rfl rfl) ?_
    intro k v w hv hw x y hx hy hxy
    have hname : v.name = w.name := (hd.names k v hv).trans (he.names k w hw).symm
    refine Definition.alike_of_form hR hname (fun f hf => hddefs f ?_) (fun f hf => hedefs f ?_)
      hx hy hxy
    · exact Table.mem_parts.2 ⟨k, v, hv, hf⟩
    · exact Table.mem_parts.2 ⟨k, w, hw, hf⟩
  · refine Table.alike_of_form hid hb hb' (h.field "properties" rfl rfl) ?_
    rintro k v w - - _ _ ⟨⟩ ⟨⟩ hxy
    exact Property.alike_of_form hR hxy
  · refine Table.alike_of_form hid hn hn' (h.field "nodes" rfl rfl) ?_
    rintro k v w - - _ _ ⟨⟩ ⟨⟩ hxy
    exact Node.eq_of_form hR hxy
  · refine Table.alike_of_form hid hp hp' (h.field "edges" rfl rfl) ?_
    intro k v w _ _ x y hx hy hxy
    refine Table.alike_of_form hid hx hy hxy ?_
    rintro j v w - - _ _ ⟨⟩ ⟨⟩ hxy
    exact Path.eq_of_form hR hxy
  · refine Table.alike_of_form hid hi hi' (h.field "items" rfl rfl) ?_
    intro k v w hv hw x y hx hy hxy
    refine Item.alike_of_form hR (fun f hf => hditems f ?_) (fun f hf => heitems f ?_) hx hy hxy
    · exact Table.mem_parts.2 ⟨k, v, hv, hf⟩
    · exact Table.mem_parts.2 ⟨k, w, hw, hf⟩
  · refine Table.alike_of_form hid hm hm' (h.field "modifiers" rfl rfl) ?_
    intro k v w hv hw x y hx hy hxy
    refine forall₂_of_formList hx hy hxy fun s hs t ht x y hx hy hxy => ?_
    refine Directive.alike_of_form hR (fun f hf => hdmods f ?_) (fun f hf => hemods f ?_)
      hx hy hxy
    · exact Table.mem_parts.2 ⟨k, v, hv, List.mem_flatMap_of_mem hs hf⟩
    · exact Table.mem_parts.2 ⟨k, w, hw, List.mem_flatMap_of_mem ht hf⟩
  · refine Table.alike_of_form BoringCase.name_injective ho ho' (h.field "boring" rfl rfl) ?_
    rintro k v w - - _ _ ⟨⟩ ⟨⟩ hxy
    exact hxy.text_eq
  · refine forall₂_of_formList hc hc' (h.field "actions" rfl rfl) ?_
    intro s hs t ht x y hx hy hxy
    refine Action.alike_of_form hR (fun f hf => hdactions f ?_) (fun f hf => heactions f ?_)
      hx hy hxy
    · exact List.mem_flatMap_of_mem hs hf
    · exact List.mem_flatMap_of_mem ht hf
  · refine Data.Alike.ofOption_eq (fun _ => Data.Alike.not_null rfl Data.noConfusion) ?_
      (h.field "start" rfl rfl)
    exact fun _ _ => Start.eq_of_form hR

end Document

theorem Change.Alike.eq {a b : Change} (h : a.Alike (· = ·) b) : a = b := by
  cases h with
  | declare => rfl
  | assign how h => rw [Expr.eq_of_alike _ h]

theorem Definition.Alike.eq {v w : Definition} (h : v.Alike (· = ·) w) : v = w := by
  obtain ⟨name, change, ref⟩ := v
  obtain ⟨rfl, hchange, rfl⟩ := h
  cases hchange.eq
  rfl

theorem Range.Alike.eq {r s : Range} (h : r.Alike (· = ·) s) : r = s := by
  obtain ⟨low, high⟩ := r
  obtain ⟨rfl, rfl⟩ := h
  rfl

theorem Property.Alike.eq {p q : Property} (h : p.Alike (· = ·) q) : p = q := by
  obtain ⟨label, range, ref⟩ := p
  obtain ⟨rfl, hrange, rfl⟩ := h
  cases eq_of_rel hrange fun _ _ => Range.Alike.eq
  rfl

theorem Action.Alike.eq {a b : Action} (h : a.Alike (· = ·) b) : a = b := by
  obtain ⟨trigger, label, message, mods, ref⟩ := a
  obtain ⟨trigger', _, _, _, _⟩ := b
  obtain ⟨htrigger, rfl, rfl, rfl, rfl⟩ := h
  cases htrigger with
  | condition h => rw [Expr.eq_of_alike _ h]
  | node => rfl

/-- Trees that may be missing and are alike under equality of numbers are the same. -/
theorem Expr.eq_of_rel {o p : Option Expr} (h : Option.Rel (Expr.Alike (· = ·)) o p) : o = p :=
  Gamebook.eq_of_rel h fun e _ => e.eq_of_alike

theorem Behavior.Alike.eq {a b : Behavior} (h : a.Alike (· = ·) b) : a = b := by
  obtain ⟨cond, message, mods, count, negated, target, ref⟩ := a
  obtain ⟨hcond, rfl, rfl, rfl, rfl, rfl, rfl⟩ := h
  cases Expr.eq_of_rel hcond
  rfl

theorem Item.Alike.eq {a b : Item} (h : a.Alike (· = ·) b) : a = b := by
  have hbehaviors : ∀ c, a.behaviors c = b.behaviors c :=
    fun c => eq_of_forall₂ (h.behaviors c) fun _ _ => Behavior.Alike.eq
  obtain ⟨label, appendix, pick, check, use, lay, resources, location⟩ := a
  obtain ⟨rfl, rfl, -, rfl, rfl⟩ := h
  cases hbehaviors .pick
  cases hbehaviors .check
  cases hbehaviors .use
  cases hbehaviors .lay
  rfl

theorem Command.Alike.eq {c d : Command} (h : c.Alike (· = ·) d) : c = d := by
  cases h with
  | plain => rfl
  | callMod modifier h => rw [Expr.eq_of_rel h]
  | setVariable h => rw [h.eq]

theorem Directive.Alike.eq {a b : Directive} (h : a.Alike (· = ·) b) : a = b := by
  obtain ⟨command, cond, ref⟩ := a
  obtain ⟨hcommand, hcond, rfl⟩ := h
  cases hcommand.eq
  cases Expr.eq_of_rel hcond
  rfl

namespace Document

/-- Equality of documents in every field; only the order of their tables is left open. -/
structure Equal (d e : Document) : Prop where
  definitions : ∀ name, d.definitions.get? name = e.definitions.get? name
  properties : ∀ name, d.properties.get? name = e.properties.get? name
  nodes : ∀ id, d.nodes.get? id = e.nodes.get? id
  sources : ∀ source, d.edges.contains source = e.edges.contains source
  paths : ∀ source target, (d.edges.get? source).bind (·.get? target) =
    (e.edges.get? source).bind (·.get? target)
  items : ∀ id, d.items.get? id = e.items.get? id
  modifiers : ∀ name, d.modifiers.get? name = e.modifiers.get? name
  boring : ∀ case, d.boring.get? case = e.boring.get? case
  actions : d.actions = e.actions
  start : d.start = e.start

theorem Alike.equal {d e : Document} (h : d.Alike (· = ·) e) : d.Equal e where
  definitions := h.definitions.get?_eq fun _ _ => Definition.Alike.eq
  properties := h.properties.get?_eq fun _ _ => Property.Alike.eq
  nodes := h.nodes.get?_eq fun _ _ => id
  sources source := by
    have hrel := h.edges source
    unfold Table.contains
    generalize d.edges.get? source = t at hrel ⊢
    generalize e.edges.get? source = u at hrel ⊢
    cases hrel <;> rfl
  paths source target := by
    have hrel := h.edges source
    generalize d.edges.get? source = t at hrel ⊢
    generalize e.edges.get? source = u at hrel ⊢
    cases hrel with
    | none => rfl
    | some h => exact h.get?_eq (fun _ _ => id) target
  items := h.items.get?_eq fun _ _ => Item.Alike.eq
  modifiers := h.modifiers.get?_eq fun _ _ hs => eq_of_forall₂ hs fun _ _ => Directive.Alike.eq
  boring := h.boring.get?_eq fun _ _ => id
  actions := eq_of_forall₂ h.actions fun _ _ => Action.Alike.eq
  start := h.start

end Document

namespace Script

theorem document_tidy (setting : Setting) (source : List Char) :
    (read setting source).document.Tidy := by
  have hlast : (Parse.reached (Parse.run setting .top (.ofText source))).Sound source.length :=
    Parse.run_sound trivial (Progress.sound_ofText source)
  have hdocument := (ofResult_eq (Parse.run setting .top (.ofText source))).1
  constructor
  · exact fun e he => ((document_over setting source).trees e he).1
  · rw [read, hdocument]
    exact fun name v hmem => (hlast.document_sound.definitions name v hmem).1

/-- Two documents that were read are equal in every field if their forms cannot be told apart;
and if the forms are compared with equal numbers for the same, then the documents differ in
nothing but equal numbers. -/
theorem equal_of_forms {setting setting' : Setting} {source source' : List Char} {x y : Data}
    (hx : (read setting source).document.form = .ok x)
    (hy : (read setting' source').document.form = .ok y) :
    (x.Alike (· = ·) y →
      (read setting source).document.Equal (read setting' source').document) ∧
    (x.Alike (fun a b => a.same b = true) y →
      (read setting source).document.Alike (fun a b => a.same b = true)
        (read setting' source').document) := by
  have hd := document_tidy setting source
  have he := document_tidy setting' source'
  constructor
  · intro h
    exact (Document.alike_of_form Number.discerning_eq hd he hx hy h).equal
  · exact Document.alike_of_form Number.discerning_same hd he hx hy

/-- The same nodes, met in two orders because one text is replaced. -/
theorem equal_of_forms_reordered :
    let source := "node a \"1\"\nnode b \"2\"\nnode a \"3\"\nvar x := 1 + 2".toList
    let source' := "node b \"1\"\nnode b \"2\"\nnode a \"3\"\nvar x := (1 + 2)".toList
    (read {} source).document.nodes.keys = ["a", "b"] ∧
      (read {} source').document.nodes.keys = ["b", "a"] ∧
      (∃ x y, (read {} source).document.form = .ok x ∧ (read {} source').document.form = .ok y ∧
        x.Alike (· = ·) y) ∧
      (read {} source).document.Equal (read {} source').document := by
  intro source source'
  have hforms : ∃ x y, (read {} source).document.form = .ok x ∧
      (read {} source').document.form = .ok y ∧ x.Alike (· = ·) y := by
    have hagrees : (match (read {} source).document.form, (read {} source').document.form with
        | .ok x, .ok y => x.agrees (· = ·) y
        | _, _ => false) = true := by
      decide +kernel
    split at hagrees
    · rename_i x y hx hy
      exact ⟨x, y, hx, hy, Data.alike_of_agrees x y hagrees⟩
    · cases hagrees
  obtain ⟨x, y, hx, hy, h⟩ := hforms
  exact ⟨by decide +kernel, by decide +kernel, ⟨x, y, hx, hy, h⟩, (equal_of_forms hx hy).1 h⟩

end Script
end Gamebook
