import Mathlib.Data.List.Forall2
import Mathlib.Data.List.Nodup
import Mathlib.Data.List.TakeWhile
import Gamebook.Proofs.Doubles
import Gamebook.Proofs.Provenance

/-!
When the engine form of a document is strict data: finite numbers, and no field twice. A form
is put together from the leaves of trees and from ranges, and everything else in it is strict
by its shape, so it takes no more than writable leaves and finite ranges.
-/
namespace Gamebook

namespace Data

mutual

/-- Data that can be written in a standard way. -/
def Strict : Data → Prop
  | number n => n.IsFinite
  | list items => StrictAll items
  | record fields => (fields.map Prod.fst).Nodup ∧ StrictFields fields
  | _ => True

def StrictAll : List Data → Prop
  | [] => True
  | d :: ds => d.Strict ∧ StrictAll ds

def StrictFields : List (String × Data) → Prop
  | [] => True
  | (_, d) :: fields => d.Strict ∧ StrictFields fields

end

@[simp] theorem strict_null : null.Strict := by simp [Strict]

@[simp] theorem strict_bool (b : Bool) : (bool b).Strict := by simp [Strict]

@[simp] theorem strict_text (s : String) : (text s).Strict := by simp [Strict]

@[simp] theorem strict_number (n : Number) : (number n).Strict ↔ n.IsFinite := by simp [Strict]

@[simp] theorem strict_nat (n : Nat) : (nat n).Strict := by
  rw [nat, strict_number]
  exact Number.isFinite_int n

@[simp] theorem strict_list (items : List Data) : (list items).Strict ↔ ∀ d ∈ items, d.Strict := by
  rw [Strict]
  induction items with
  | nil => simp [StrictAll]
  | cons d ds ih => simp [StrictAll, ih]

@[simp] theorem strict_record (fields : List (String × Data)) :
    (record fields).Strict ↔ (fields.map Prod.fst).Nodup ∧ ∀ f ∈ fields, f.2.Strict := by
  have hfields : StrictFields fields ↔ ∀ f ∈ fields, f.2.Strict := by
    induction fields with
    | nil => simp [StrictFields]
    | cons f fields ih =>
      obtain ⟨name, d⟩ := f
      rw [StrictFields, ih, List.forall_mem_cons]
  rw [Strict, hfields]

@[simp] theorem strict_texts (items : List String) : (texts items).Strict := by
  simp [texts]

@[simp] theorem strict_ofOption (f : α → Data) (o : Option α) :
    (ofOption f o).Strict ↔ ∀ a ∈ o, (f a).Strict := by
  cases o <;> simp [ofOption]

@[simp] theorem strict_optionalText (s : Option String) : (optionalText s).Strict := by
  simp [optionalText]

end Data

theorem bind_ok_iff {x : Except ε α} {k : α → Except ε β} {b : β} :
    (x >>= k) = .ok b ↔ ∃ a, x = .ok a ∧ k a = .ok b := by
  cases x <;> simp [bind, Except.bind]

theorem map_ok_iff {x : Except ε α} {f : α → β} {b : β} :
    x.map f = .ok b ↔ ∃ a, x = .ok a ∧ f a = b := by
  cases x <;> simp [Except.map]

theorem mapM_ok_iff {f : α → Except ε β} {items : List α} {results : List β} :
    items.mapM f = .ok results ↔ List.Forall₂ (fun a b => f a = .ok b) items results := by
  induction items generalizing results with
  | nil => cases results <;> simp [pure, Except.pure]
  | cons a items ih =>
    simp only [List.mapM_cons, bind_ok_iff, List.forall₂_cons_left_iff, pure, Except.pure,
      Except.ok.injEq, ih]
    constructor
    · rintro ⟨b, hb, bs, hbs, rfl⟩
      exact ⟨b, bs, hb, hbs, rfl⟩
    · rintro ⟨b, bs, hb, hbs, rfl⟩
      exact ⟨b, hb, bs, hbs, rfl⟩

/-- Results for all of the items, each with a property, are results for each of them. -/
theorem exists_forall₂_iff (R : α → β → Prop) (P : β → Prop) (items : List α) :
    (∃ results, List.Forall₂ R items results ∧ ∀ b ∈ results, P b) ↔
      ∀ a ∈ items, ∃ b, R a b ∧ P b := by
  induction items with
  | nil => simp
  | cons a items ih =>
    rw [List.forall_mem_cons, ← ih]
    simp only [List.forall₂_cons_left_iff]
    constructor
    · rintro ⟨_, ⟨b, bs, hb, hbs, rfl⟩, hp⟩
      obtain ⟨hfirst, hrest⟩ := List.forall_mem_cons.1 hp
      exact ⟨⟨b, hb, hfirst⟩, bs, hbs, hrest⟩
    · rintro ⟨⟨b, hb, hfirst⟩, bs, hbs, hrest⟩
      exact ⟨b :: bs, ⟨b, bs, hb, hbs, rfl⟩, List.forall_mem_cons.2 ⟨hfirst, hrest⟩⟩

/-- There is a form, and it is strict. -/
def Strictly (x : Except FormError Data) : Prop := ∃ data, x = .ok data ∧ data.Strict

@[simp] theorem strictly_ok (d : Data) : Strictly (.ok d) ↔ d.Strict := by
  simp [Strictly]

@[simp] theorem strictly_pure (d : Data) : Strictly (pure d) ↔ d.Strict := strictly_ok d

@[simp] theorem strictly_error (e : FormError) : ¬ Strictly (.error e) := by
  simp [Strictly]

theorem strictly_bind {x : Except FormError α} {k : α → Except FormError Data} :
    Strictly (x >>= k) ↔ ∃ a, x = .ok a ∧ Strictly (k a) := by
  cases x <;> simp [bind, Except.bind]

/-- A part of a form takes a strict form, and the rest what it takes beside it. -/
theorem strictly_part {x : Except FormError Data} {k : Data → Except FormError Data} {p : Prop}
    (h : ∀ d, Strictly (k d) ↔ d.Strict ∧ p) : Strictly (x >>= k) ↔ Strictly x ∧ p := by
  rw [strictly_bind, Strictly, ← exists_and_right]
  refine exists_congr fun d => ?_
  rw [h, and_assoc]

theorem strictly_only {x : Except FormError Data} {f : Data → Data}
    (h : ∀ d, (f d).Strict ↔ d.Strict) : Strictly (x >>= fun d => pure (f d)) ↔ Strictly x := by
  rw [strictly_part (p := True) fun d => by rw [strictly_pure, h, and_true], and_true]

theorem strictly_formList {f : α → Except FormError Data} {items : List α} :
    Strictly (formList f items) ↔ ∀ a ∈ items, Strictly (f a) := by
  unfold formList Strictly
  simp only [map_ok_iff, mapM_ok_iff]
  rw [← exists_forall₂_iff]
  constructor
  · rintro ⟨_, ⟨ds, hds, rfl⟩, hs⟩
    exact ⟨ds, hds, (Data.strict_list ds).1 hs⟩
  · rintro ⟨ds, hds, hs⟩
    exact ⟨_, ⟨ds, hds, rfl⟩, (Data.strict_list ds).2 hs⟩

/-- The fields of a table are named by its keys. -/
theorem Table.form_ok_iff {name : κ → String} {f : α → Except FormError Data} {t : Table κ α}
    {data : Data} : t.form name f = .ok data ↔ ∃ fields, data = .record fields ∧
      List.Forall₂ (fun e field => name e.1 = field.1 ∧ f e.2 = .ok field.2) t.entries fields := by
  have hfield : ∀ (e : κ × α) (field : String × Data),
      (f e.2).map (name e.1, ·) = .ok field ↔ name e.1 = field.1 ∧ f e.2 = .ok field.2 := by
    rintro e ⟨key, d⟩
    rw [map_ok_iff]
    constructor
    · rintro ⟨_, hd, ⟨⟩⟩
      exact ⟨rfl, hd⟩
    · rintro ⟨rfl, hd⟩
      exact ⟨d, hd, rfl⟩
  rw [form, map_ok_iff]
  refine exists_congr fun fields => ?_
  rw [mapM_ok_iff, and_comm, eq_comm]
  refine and_congr_right fun _ => ⟨?_, ?_⟩
  · exact List.Forall₂.imp fun e field => (hfield e field).1
  · exact List.Forall₂.imp fun e field => (hfield e field).2

theorem Table.strictly_form {name : κ → String} (hname : Function.Injective name)
    {f : α → Except FormError Data} {t : Table κ α} :
    Strictly (t.form name f) ↔ ∀ k v, (k, v) ∈ t.entries → Strictly (f v) := by
  have hkeys : ∀ {fields : List (String × Data)},
      List.Forall₂ (fun e field => name e.1 = field.1 ∧ f e.2 = .ok field.2) t.entries fields →
        (fields.map Prod.fst).Nodup := by
    intro fields hf
    have heq : t.keys.map name = fields.map Prod.fst := by
      rw [keys, List.map_map, ← List.forall₂_eq_eq_eq, List.forall₂_map_left_iff,
        List.forall₂_map_right_iff]
      exact hf.imp fun e field h => h.1
    exact heq ▸ t.nodup.map hname
  have hall := exists_forall₂_iff
    (fun e (field : String × Data) => name e.1 = field.1 ∧ f e.2 = .ok field.2)
    (fun field => field.2.Strict) t.entries
  constructor
  · rintro ⟨data, hdata, hs⟩ k v hmem
    obtain ⟨fields, rfl, hf⟩ := form_ok_iff.1 hdata
    obtain ⟨field, ⟨-, hv⟩, hfield⟩ := hall.1 ⟨fields, hf, ((Data.strict_record _).1 hs).2⟩ _ hmem
    exact ⟨field.2, hv, hfield⟩
  · intro h
    have hfields : ∀ e ∈ t.entries, ∃ field : String × Data,
        (name e.1 = field.1 ∧ f e.2 = .ok field.2) ∧ field.2.Strict := by
      intro e he
      obtain ⟨d, hd, hs⟩ := h e.1 e.2 he
      exact ⟨(name e.1, d), ⟨rfl, hd⟩, hs⟩
    obtain ⟨fields, hf, hs⟩ := hall.2 hfields
    exact ⟨_, form_ok_iff.2 ⟨fields, rfl, hf⟩, (Data.strict_record _).2 ⟨hkeys hf, hs⟩⟩

namespace Expr

/-- A leaf that has a strict form. -/
def WritableLeaf : Expr → Prop
  | number n | percent n => n.IsFinite
  | constant name => (constantValue? name).isSome = true
  | blank => False
  | _ => True

instance : (e : Expr) → Decidable e.WritableLeaf
  | number n | percent n => inferInstanceAs (Decidable n.IsFinite)
  | constant name => inferInstanceAs (Decidable ((constantValue? name).isSome = true))
  | blank => inferInstanceAs (Decidable False)
  | string _ | range .. | localVar _ | globalVar _ | property .. | hasItem .. | atNode ..
  | unary .. | binary .. | call .. => inferInstanceAs (Decidable True)

/-- A tree with only such leaves. -/
def Writable (e : Expr) : Prop := ∀ x ∈ e.leaves, x.WritableLeaf

mutual

theorem strictly_form : (e : Expr) → (Strictly e.form ↔ e.Writable)
  | number n | percent n => by simp [form, tagged, Writable, leaves, WritableLeaf]
  | string s | localVar s | globalVar s => by simp [form, tagged, Writable, leaves, WritableLeaf]
  | hasItem s b | atNode s b => by simp [form, tagged, Writable, leaves, WritableLeaf]
  | range low high => by
    simp [form, tagged, Writable, leaves, WritableLeaf, Number.isFinite_int]
  | constant name => by
    cases h : constantValue? name <;> simp [form, tagged, Writable, leaves, WritableLeaf, h]
  | blank => by simp [form, Writable, leaves, WritableLeaf]
  | property target name => by
    rw [form, strictly_only fun d => by simp [tagged]]
    exact strictly_form target
  | unary op operand => by
    rw [form, strictly_only fun d => by simp [tagged]]
    exact strictly_form operand
  | binary op left right => by
    have hright : ∀ l : Data, Strictly (do
        let r ← right.form
        return tagged "binary" [("op", .text op.symbol), ("left", l), ("right", r)]) ↔
          l.Strict ∧ Strictly right.form := fun l => by
      rw [strictly_part (p := l.Strict) fun r => by simp [tagged, and_comm], and_comm]
    rw [form, strictly_part hright, strictly_form left, strictly_form right]
    exact List.forall_mem_append.symm
  | call name args => by
    rw [form, strictly_bind]
    refine Iff.trans (exists_congr fun ds => and_congr_right fun _ => ?_) (strictly_formAll args)
    simp [tagged]

/-- The arguments of a call. -/
theorem strictly_formAll : (es : List Expr) →
    ((∃ ds, formAll es = .ok ds ∧ ∀ d ∈ ds, d.Strict) ↔ ∀ x ∈ leavesAll es, x.WritableLeaf)
  | [] => by simp [formAll, leavesAll]
  | e :: es => by
    have he : Strictly e.form ↔ ∀ x ∈ e.leaves, x.WritableLeaf := strictly_form e
    rw [leavesAll, List.forall_mem_append, ← he, ← strictly_formAll es, formAll]
    simp only [bind_ok_iff, pure, Except.pure, Except.ok.injEq]
    constructor
    · rintro ⟨_, ⟨d, hd, ds, hds, rfl⟩, hs⟩
      obtain ⟨hfirst, hrest⟩ := List.forall_mem_cons.1 hs
      exact ⟨⟨d, hd, hfirst⟩, ds, hds, hrest⟩
    · rintro ⟨⟨d, hd, hfirst⟩, ds, hds, hrest⟩
      exact ⟨d :: ds, ⟨d, hd, ds, hds, rfl⟩, List.forall_mem_cons.2 ⟨hfirst, hrest⟩⟩

end

end Expr

theorem strictly_formOption {o : Option Expr} :
    Strictly (formOption o) ↔ ∀ e ∈ o.toList, e.Writable := by
  cases o <;> simp [formOption, Expr.strictly_form]

theorem Definition.strictly_form (v : Definition) :
    Strictly v.form ↔ ∀ e ∈ v.trees, e.Writable := by
  rw [form, strictly_only fun d => by simp, strictly_formOption]
  rfl

theorem Action.strictly_form (a : Action) : Strictly a.form ↔ ∀ e ∈ a.trees, e.Writable := by
  rw [form, strictly_only fun d => by simp, strictly_formOption]
  rfl

theorem Behavior.strictly_form (b : Behavior) : Strictly b.form ↔ ∀ e ∈ b.trees, e.Writable := by
  rw [form, strictly_only fun d => by cases b.target <;> simp, strictly_formOption]
  rfl

theorem Property.strict_form (p : Property) :
    p.form.Strict ↔ ∀ x ∈ p.ranges, x.low.IsFinite ∧ x.high.IsFinite := by
  simp [form, Range.form, ranges]

theorem Node.strict_form (n : Node) : n.form.Strict := by simp [form]

theorem Path.strict_form (p : Path) : p.form.Strict := by simp [form]

theorem Start.strict_form (s : Start) : s.form.Strict := by simp [form]

theorem Placement.strict_form (p : Placement) : p.form.Strict := by simp [form]

namespace Item

theorem behaviorFields_keys {item : Item} {categories : List Category}
    {fields : List (String × Data)} (h : item.behaviorFields categories = .ok fields) :
    (fields.map Prod.fst).Sublist (categories.map Category.name) := by
  induction categories generalizing fields with
  | nil =>
    cases h
    exact .slnil
  | cons category categories ih =>
    rw [behaviorFields] at h
    split at h
    · exact (ih h).cons _
    · simp only [bind_ok_iff, pure, Except.pure, Except.ok.injEq] at h
      obtain ⟨list, -, rest, hrest, rfl⟩ := h
      exact (ih hrest).cons_cons _

theorem strictly_behaviorFields {item : Item} {categories : List Category} :
    (∃ fields, item.behaviorFields categories = .ok fields ∧ ∀ f ∈ fields, f.2.Strict) ↔
      ∀ category ∈ categories, ∀ b ∈ item.behaviors category, ∀ e ∈ b.trees, e.Writable := by
  induction categories with
  | nil => simp [behaviorFields]
  | cons category categories ih =>
    rw [List.forall_mem_cons, ← ih, behaviorFields]
    split
    · rename_i hnone
      have hnil : item.behaviors category = [] := by simpa using hnone
      simp [hnil]
    · have hlist : Strictly (formList Behavior.form (item.behaviors category)) ↔
          ∀ b ∈ item.behaviors category, ∀ e ∈ b.trees, e.Writable := by
        rw [strictly_formList]
        exact forall₂_congr fun b _ => b.strictly_form
      rw [← hlist]
      simp only [bind_ok_iff, pure, Except.pure, Except.ok.injEq]
      constructor
      · rintro ⟨_, ⟨d, hd, fields, hf, rfl⟩, hs⟩
        obtain ⟨hfirst, hrest⟩ := List.forall_mem_cons.1 hs
        exact ⟨⟨d, hd, hfirst⟩, fields, hf, hrest⟩
      · rintro ⟨⟨d, hd, hfirst⟩, fields, hf, hrest⟩
        exact ⟨_, ⟨d, hd, fields, hf, rfl⟩, List.forall_mem_cons.2 ⟨hfirst, hrest⟩⟩

/-- All fields that an item can have. -/
def fieldNames : List String :=
  ["label", "appendix"] ++ Category.all.map Category.name ++ ["resources"] ++ ["location"]

theorem nodup_fieldNames : fieldNames.Nodup := by decide

theorem strictly_form (item : Item) : Strictly item.form ↔ ∀ e ∈ item.trees, e.Writable := by
  have htrees : (∀ e ∈ item.trees, e.Writable) ↔
      ∀ category ∈ Category.all, ∀ b ∈ item.behaviors category, ∀ e ∈ b.trees, e.Writable := by
    simp only [trees, List.mem_flatMap]
    grind
  rw [htrees, ← strictly_behaviorFields, form, strictly_bind]
  refine exists_congr fun fields => and_congr_right fun hfields => ?_
  -- a part that is left out leaves fewer names than there could be
  have hnodup : ∀ {resources location : List (String × Data)},
      (resources.map Prod.fst).Sublist ["resources"] →
        (location.map Prod.fst).Sublist ["location"] →
          (([("label", optionalText item.label), ("appendix", optionalText item.appendix)] ++
            fields ++ resources ++ location).map Prod.fst).Nodup := by
    intro resources location hr hl
    simp only [List.map_append]
    refine List.Sublist.nodup ?_ nodup_fieldNames
    exact (((List.Sublist.refl _).append (behaviorFields_keys hfields)).append hr).append hl
  rw [strictly_pure, Data.strict_record, and_iff_right (hnodup ?_ ?_)]
  · by_cases hr : item.resources.isEmpty = true <;> cases hl : item.location <;>
      simp [hr, or_imp, forall_and, Placement.strict_form]
  · split <;> simp
  · split <;> simp

end Item

/-- Arguments of which one is a form and the others are strict. -/
theorem exists_strict_args {x : Except FormError Data} {f : Data → List Data}
    (h : ∀ d, (∀ a ∈ f d, a.Strict) ↔ d.Strict) :
    (∃ args, (x >>= fun d => pure (f d)) = .ok args ∧ ∀ a ∈ args, a.Strict) ↔ Strictly x := by
  simp only [bind_ok_iff, pure, Except.pure, Except.ok.injEq]
  constructor
  · rintro ⟨_, ⟨d, hd, rfl⟩, hs⟩
    exact ⟨d, hd, (h d).1 hs⟩
  · rintro ⟨d, hd, hs⟩
    exact ⟨_, ⟨d, hd, rfl⟩, (h d).2 hs⟩

theorem Command.strictly_args (c : Command) :
    (∃ args, c.args = .ok args ∧ ∀ d ∈ args, d.Strict) ↔ ∀ e ∈ c.trees, e.Writable := by
  cases c with
  | callMod modifier cond => exact (exists_strict_args fun d => by simp).trans strictly_formOption
  | setVariable v => exact (exists_strict_args fun d => by simp).trans v.strictly_form
  | _ => simp [args, trees]

theorem Directive.strictly_form (d : Directive) :
    Strictly d.form ↔ ∀ e ∈ d.trees, e.Writable := by
  have hargs : ∀ cond : Data, Strictly (do
      let args ← d.command.args
      return .record [("_ref", .nat d.ref), ("cond", cond),
        ("command", .list (.text d.command.name :: args))]) ↔
        cond.Strict ∧ ∀ e ∈ d.command.trees, e.Writable := by
    intro cond
    rw [strictly_bind, ← Command.strictly_args, ← exists_and_left]
    refine exists_congr fun args => ?_
    simp [and_left_comm]
  rw [form, strictly_part hargs, strictly_formOption, trees, List.forall_mem_append]

theorem BoringCase.name_injective : Function.Injective BoringCase.name := by
  intro a b h
  cases a <;> cases b <;> simp [name] at h ⊢

namespace Document

/-- A document whose trees are writable and whose ranges are finite. -/
structure Writable (d : Document) : Prop where
  trees : ∀ e ∈ d.trees, e.Writable
  ranges : ∀ x ∈ d.ranges, x.low.IsFinite ∧ x.high.IsFinite

/-- The form of a document is made of the forms of its parts. -/
theorem strictly_parts (d : Document) : Strictly d.form ↔
    Strictly (d.definitions.form id Definition.form) ∧
    Strictly (d.properties.form id fun p => .ok p.form) ∧
    Strictly (formList Action.form d.actions) ∧
    Strictly (d.nodes.form id fun n => .ok n.form) ∧
    Strictly (d.edges.form id fun targets => targets.form id fun p => .ok p.form) ∧
    Strictly (d.items.form id Item.form) ∧
    Strictly (d.boring.form BoringCase.name fun s => .ok (.text s)) ∧
    Strictly (d.modifiers.form id (formList Directive.form)) := by
  have hstart : (Data.ofOption Start.form d.start).Strict := by
    rw [Data.strict_ofOption]
    exact fun s _ => s.strict_form
  simp only [form, strictly_bind, strictly_pure, Data.strict_record]
  constructor
  · rintro ⟨a, ha, b, hb, c, hc, n, hn, e, he, i, hi, o, ho, m, hm, -, hs⟩
    simp only [List.forall_mem_cons] at hs
    obtain ⟨hsa, hsb, hsc, hsn, hse, hsi, hso, hsm, -⟩ := hs
    exact ⟨⟨a, ha, hsa⟩, ⟨b, hb, hsb⟩, ⟨c, hc, hsc⟩, ⟨n, hn, hsn⟩, ⟨e, he, hse⟩, ⟨i, hi, hsi⟩,
      ⟨o, ho, hso⟩, m, hm, hsm⟩
  · rintro ⟨⟨a, ha, hsa⟩, ⟨b, hb, hsb⟩, ⟨c, hc, hsc⟩, ⟨n, hn, hsn⟩, ⟨e, he, hse⟩, ⟨i, hi, hsi⟩,
      ⟨o, ho, hso⟩, m, hm, hsm⟩
    refine ⟨a, ha, b, hb, c, hc, n, hn, e, he, i, hi, o, ho, m, hm, by simp, ?_⟩
    simp only [List.forall_mem_cons]
    exact ⟨hsa, hsb, hsc, hsn, hse, hsi, hso, hsm, hstart, List.forall_mem_nil _⟩

end Document

/-- A table has a strict form if all that its values are made of is fit for one. -/
theorem Table.strictly_form_parts {β : Type} {t : Table String α}
    {f : α → Except FormError Data} {g : α → List β} {P : β → Prop}
    (h : ∀ v, Strictly (f v) ↔ ∀ x ∈ g v, P x) :
    Strictly (t.form id f) ↔ ∀ x ∈ t.parts g, P x := by
  rw [strictly_form Function.injective_id]
  constructor
  · intro hv x hx
    obtain ⟨k, v, hmem, hx⟩ := mem_parts.1 hx
    exact (h v).1 (hv k v hmem) x hx
  · intro hx k v hmem
    exact (h v).2 fun x hxv => hx x (mem_parts.2 ⟨k, v, hmem, hxv⟩)

/-- The form of a document is strict exactly if the document is writable. -/
theorem Document.strictly_form (d : Document) : Strictly d.form ↔ d.Writable := by
  have hdefinitions := Table.strictly_form_parts (t := d.definitions) Definition.strictly_form
  have hproperties := Table.strictly_form_parts (t := d.properties) fun p =>
    (strictly_ok p.form).trans p.strict_form
  have hactions : Strictly (formList Action.form d.actions) ↔
      ∀ e ∈ d.actions.flatMap Action.trees, e.Writable := by
    rw [strictly_formList, List.forall_mem_flatMap]
    exact forall₂_congr fun a _ => a.strictly_form
  have hitems := Table.strictly_form_parts (t := d.items) Item.strictly_form
  have hmodifiers : Strictly (d.modifiers.form id (formList Directive.form)) ↔
      ∀ e ∈ d.modifiers.parts (·.flatMap Directive.trees), e.Writable := by
    refine Table.strictly_form_parts fun ds => ?_
    rw [strictly_formList, List.forall_mem_flatMap]
    exact forall₂_congr fun x _ => x.strictly_form
  -- what is left has neither trees nor ranges
  have hnodes : Strictly (d.nodes.form id fun n => .ok n.form) :=
    (Table.strictly_form Function.injective_id).2 fun _ n _ => (strictly_ok _).2 n.strict_form
  have hedges : Strictly (d.edges.form id fun targets => targets.form id fun p => .ok p.form) :=
    (Table.strictly_form Function.injective_id).2 fun _ targets _ =>
      (Table.strictly_form Function.injective_id).2 fun _ p _ => (strictly_ok _).2 p.strict_form
  have hboring : Strictly (d.boring.form BoringCase.name fun s => .ok (.text s)) :=
    (Table.strictly_form BoringCase.name_injective).2 fun _ s _ => by simp
  rw [strictly_parts, hdefinitions, hproperties, hactions, hitems, hmodifiers]
  constructor
  · rintro ⟨hd, hp, ha, -, -, hi, -, hm⟩
    refine ⟨?_, hp⟩
    simp only [trees, List.forall_mem_append]
    exact ⟨⟨⟨hd, ha⟩, hi⟩, hm⟩
  · rintro ⟨ht, hp⟩
    simp only [trees, List.forall_mem_append] at ht
    obtain ⟨⟨⟨hd, ha⟩, hi⟩, hm⟩ := ht
    exact ⟨hd, hp, ha, hnodes, hedges, hi, hboring, hm⟩

/-- The constant that is read and has no value. -/
def Lexeme.longFalse : String := "fal\u017fe"

theorem Lexeme.constantValue?_isSome {name : String} (h : name ∈ constantNames) :
    (Expr.constantValue? name).isSome = true ↔ name ≠ longFalse := by
  simp only [constantNames, List.mem_cons, List.not_mem_nil, or_false] at h
  rcases h with rfl | rfl | rfl | rfl <;> decide

/-- Only a long s is a long s in small letters. -/
theorem Lexeme.mem_of_lowered_eq {w : List Char} (h : lowered w = longFalse) : '\u017f' ∈ w := by
  have hmem : '\u017f' ∈ w.map Char.toLower := by
    have htext : w.map Char.toLower = longFalse.toList := by
      rw [← h, lowered, String.toList_ofList]
    rw [htext]
    decide
  obtain ⟨c, hc, hlower⟩ := List.mem_map.1 hmem
  have hnat := toNat_toLower c
  rw [hlower] at hnat
  by_cases hu : c.isUpper = true
  · have := isUpper_iff.1 hu
    rw [if_pos hu, show ('\u017f' : Char).toNat = 383 from rfl] at hnat
    omega
  · rw [if_neg hu] at hnat
    exact Char.toNat_inj.1 hnat ▸ hc

/-- A source without a long s, and without a point behind more digits than fit. -/
structure PlainSource (source : List Char) : Prop where
  letters : '\u017f' ∉ source
  digits : ∀ w, w ++ ['.'] <:+: source → (∀ c ∈ w, c.isDigit = true) →
    w.length ≤ Numeral.wholeLimit

namespace PlainSource

variable {source : List Char}

theorem number_finite {w : List Char} (h : PlainSource source) (hw : w <:+: source)
    (hn : Grammar.IsNumeral w) {n : Number} (hv : Numeral.number? w = .ok n) : n.IsFinite := by
  have hpoint : ∀ {c : Char}, c.isDigit = true → (c != '.') = true := by
    intro c hc
    rw [bne_iff_ne]
    rintro rfl
    exact absurd hc (by decide)
  rcases hn with hd | ⟨a, b, rfl, ha, hb⟩
  · have hnone : w.dropWhile (· != '.') = [] :=
      List.dropWhile_eq_nil_iff.2 fun c hc => hpoint (hd.2 c hc)
    rw [Numeral.number?, hnone] at hv
    obtain ⟨k, -, rfl⟩ := map_ok_iff.1 hv
    exact Number.isFinite_int k
  · have hfree : Free (· != '.') ('.' :: b) := by simp [Free]
    have hwhole : ∀ c ∈ a, (c != '.') = true := fun c hc => hpoint (ha.2 c hc)
    rw [Numeral.number?, Pattern.dropWhile_of_free hwhole hfree,
      Pattern.takeWhile_of_free hwhole hfree] at hv
    cases hv
    have hinfix : a ++ ['.'] <:+: source := by
      refine List.IsInfix.trans ⟨[], b, ?_⟩ hw
      simp
    exact Numeral.isFinite_decimal ha.2 hb.2 (h.digits a hinfix ha.2)

theorem writableLeaf (h : PlainSource source) {e : Expr} (he : e.Within source) :
    e.WritableLeaf := by
  obtain ⟨w, hw, hs⟩ := he
  cases e with
  | number n => exact h.number_finite hw hs.1 hs.2
  | percent n => exact h.number_finite hw hs.1 hs.2
  | constant name =>
    obtain ⟨hname, hmem⟩ := hs
    refine (Lexeme.constantValue?_isSome hmem).2 fun hlong => h.letters ?_
    exact hw.subset (Lexeme.mem_of_lowered_eq (hname.symm.trans hlong))
  | blank => exact hs
  | _ => trivial

/-- From a plain source only writable documents are read. -/
theorem writable (h : PlainSource source) (setting : Setting) :
    (Script.read setting source).document.Writable := by
  have hover := Script.document_over setting source
  constructor
  · intro e he x hx
    exact h.writableLeaf ((hover.trees e he).2 x hx)
  · intro x hx
    obtain ⟨low, high, hlow, hhigh, hnlow, hnhigh, hvlow, hvhigh⟩ := hover.ranges x hx
    exact ⟨h.number_finite hlow hnlow hvlow, h.number_finite hhigh hnhigh hvhigh⟩

end PlainSource

/-- Of the leaves that are read only one constant and infinite numbers are not writable. -/
theorem Expr.writableLeaf_iff {text : List Char} {e : Expr} (h : e.Within text) :
    e.WritableLeaf ↔ e ≠ .constant Lexeme.longFalse ∧
      ∀ n, e = .number n ∨ e = .percent n → n.IsFinite := by
  obtain ⟨w, -, hs⟩ := h
  cases e with
  | number | percent => simp [WritableLeaf]
  | constant name =>
    have hvalue := Lexeme.constantValue?_isSome hs.2
    simpa [WritableLeaf] using hvalue
  | blank => exact hs.elim
  | _ => simp [WritableLeaf]

namespace Script

/-- The form of a document that was read is strict unless a tree of it holds the constant without
a value, or a tree or a range holds a decimal beyond all doubles; and neither is in it if the
source has no long s and no point behind more than 308 digits. -/
theorem form_strict_iff (setting : Setting) (source : List Char) :
    let d := (read setting source).document
    ((∃ data, d.form = .ok data ∧ data.Strict) ↔
      (∀ e ∈ d.trees, ∀ x ∈ e.leaves, x ≠ .constant "fal\u017fe" ∧
        ∀ n, x = .number n ∨ x = .percent n → n.IsFinite) ∧
      ∀ x ∈ d.ranges, x.low.IsFinite ∧ x.high.IsFinite) ∧
    ('\u017f' ∉ source →
      (∀ w, w ++ ['.'] <:+: source → (∀ c ∈ w, c.isDigit = true) → w.length ≤ 308) →
        ∃ data, d.form = .ok data ∧ data.Strict) := by
  intro d
  have hover := document_over setting source
  constructor
  · have hleaves : (∀ e ∈ d.trees, e.Writable) ↔ ∀ e ∈ d.trees, ∀ x ∈ e.leaves,
        x ≠ .constant "fal\u017fe" ∧ ∀ n, x = .number n ∨ x = .percent n → n.IsFinite :=
      forall₂_congr fun e he => forall₂_congr fun x hx =>
        Expr.writableLeaf_iff ((hover.trees e he).2 x hx)
    rw [← hleaves]
    exact d.strictly_form.trans ⟨fun h => ⟨h.trees, h.ranges⟩, fun h => ⟨h.1, h.2⟩⟩
  · intro hletters hdigits
    exact d.strictly_form.2 (PlainSource.writable ⟨hletters, hdigits⟩ setting)

/-- A decimal in a tree, two of them in a range, and a constant in capital letters. -/
theorem form_strict_decimals :
    let source := "var x := 2.5 + NULL\nproperties\n@x \"X\" 0.5 to 99.9\n".toList
    (read {} source).fault? = none ∧
      (read {} source).document.trees.length = 1 ∧ (read {} source).document.ranges.length = 1 ∧
      ∃ data, (read {} source).document.form = .ok data ∧ data.Strict := by
  intro source
  have hread : (read {} source).fault? = none := by
    rw [← Option.isNone_iff_eq_none]
    decide +kernel
  refine ⟨hread, by decide +kernel, by decide +kernel,
    (form_strict_iff {} source).2 (by decide) fun w hw _ => ?_⟩
  have hlength : (w ++ ['.']).length ≤ source.length := hw.length_le
  have hshort : source.length ≤ 308 := by decide
  rw [List.length_append] at hlength
  omega

/-- A source is read to its end and its document has no form; another is read to its end and
its document has one, with an infinite number in it. -/
theorem form_without_value_and_infinite :
    let long := "var x := fal\u017fe\n".toList
    let large := "var x := 1".toList ++ List.replicate 309 '0' ++ ".0\n".toList
    (read {} long).fault? = none ∧
      ((read {} long).document.form.map fun _ => ()) = .error (.unknownConstant "fal\u017fe") ∧
    (read {} large).fault? = none ∧ (read {} large).document.form.toOption.isSome = true ∧
      ∀ data, (read {} large).document.form = .ok data → ¬ data.Strict := by
  intro long large
  have hlarge : ¬∀ e ∈ (read {} large).document.trees, ∀ x ∈ e.leaves, x.WritableLeaf := by
    decide +kernel
  refine ⟨?_, by decide +kernel, ?_, by decide +kernel, fun data hdata hs => ?_⟩
  · rw [← Option.isNone_iff_eq_none]
    decide +kernel
  · rw [← Option.isNone_iff_eq_none]
    decide +kernel
  · exact hlarge ((read {} large).document.strictly_form.1 ⟨data, hdata, hs⟩).trees

end Script
end Gamebook
