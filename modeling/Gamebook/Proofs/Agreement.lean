import Gamebook.Proofs.Strictness

/-!
Engine forms that cannot be told apart. Data are compared as an engine would: records by their
fields and in no order, a bool as a number. What forms that are alike say is recovered from
containers, from tables and from trees; a proper tree has operators of the language only, so
that a symbol tells the operator.
-/
namespace Gamebook

namespace Data

/-- Where data are compared, a bool is one of two numbers. -/
def number? : Data → Option Number
  | bool b => some (.int b.toNat)
  | number n => some n
  | _ => none

/-- Data that cannot be told apart. Records are compared field by field and in no order, and `R`
says which numbers are equal. -/
inductive Alike (R : Number → Number → Prop) : Data → Data → Prop
  | null : Alike R null null
  | number {x y : Data} {a b : Number} (hx : x.number? = some a) (hy : y.number? = some b)
      (h : R a b) : Alike R x y
  | text (s : String) : Alike R (text s) (text s)
  | list {xs ys : List Data} (h : List.Forall₂ (Alike R) xs ys) : Alike R (list xs) (list ys)
  | record {f g : List (String × Data)}
      (h : ∀ k, Option.Rel (Alike R) (f.lookup k) (g.lookup k)) : Alike R (record f) (record g)

end Data

theorem eq_of_rel {α : Type} {S : α → α → Prop} {o p : Option α} (h : Option.Rel S o p)
    (hS : ∀ a b, S a b → a = b) : o = p := by
  cases h with
  | none => rfl
  | some h => rw [hS _ _ h]

theorem eq_of_rel_map {α γ : Type} {Q : γ → γ → Prop} {f : α → γ} {o p : Option α}
    (h : Option.Rel Q (o.map f) (p.map f)) (hf : ∀ a b, Q (f a) (f b) → a = b) : o = p := by
  cases o with
  | none =>
    cases p with
    | none => rfl
    | some => cases h
  | some a =>
    cases p with
    | none => cases h
    | some b => rw [hf a b (Option.rel_some_some.1 h)]

/-- Equality of numbers that keeps the integers apart. -/
def Number.Discerning (R : Number → Number → Prop) : Prop :=
  ∀ a b : Int, R (.int a) (.int b) → a = b

theorem Number.discerning_eq : Number.Discerning (· = ·) := fun _ _ h => Number.int.inj h

theorem Number.discerning_same : Number.Discerning fun a b => a.same b = true := by
  intro a b h
  rw [same, compare?_int] at h
  exact Int.compare_eq_eq.1 (by simpa using h)

namespace Data.Alike

variable {R : Number → Number → Prop} {α : Type}

theorem text_eq {s t : String} (h : Alike R (.text s) (.text t)) : s = t := by
  cases h with
  | number hx => cases hx
  | text => rfl

theorem number_rel {a b : Number} (h : Alike R (.number a) (.number b)) : R a b := by
  cases h with
  | number hx hy h =>
    cases hx
    cases hy
    exact h

theorem nat_eq (hR : Number.Discerning R) {m n : Nat} (h : Alike R (.nat m) (.nat n)) : m = n :=
  Int.ofNat.inj (hR _ _ h.number_rel)

theorem bool_eq (hR : Number.Discerning R) {a b : Bool} (h : Alike R (.bool a) (.bool b)) :
    a = b := by
  cases h with
  | number hx hy h =>
    cases hx
    cases hy
    have hnat : (a.toNat : Int) = b.toNat := hR _ _ h
    cases a <;> cases b <;> cases hnat <;> rfl

theorem items {xs ys : List Data} (h : Alike R (.list xs) (.list ys)) :
    List.Forall₂ (Alike R) xs ys := by
  cases h with
  | number hx => cases hx
  | list h => exact h

theorem fields {f g : List (String × Data)} (h : Alike R (.record f) (.record g)) (k : String) :
    Option.Rel (Alike R) (f.lookup k) (g.lookup k) := by
  cases h with
  | number hx => cases hx
  | record h => exact h k

/-- A field that both records have. -/
theorem field {f g : List (String × Data)} (h : Alike R (.record f) (.record g)) (k : String)
    {x y : Data} (hx : f.lookup k = some x) (hy : g.lookup k = some y) : Alike R x y := by
  have hk := h.fields k
  rw [hx, hy] at hk
  exact Option.rel_some_some.1 hk

/-- Data that are never null tell what is there from what is missing. -/
theorem ofOption_rel {S : α → α → Prop} {f : α → Data}
    (hf : ∀ a, ¬ Alike R (f a) .null ∧ ¬ Alike R .null (f a))
    (hS : ∀ a b, Alike R (f a) (f b) → S a b) {o p : Option α}
    (h : Alike R (.ofOption f o) (.ofOption f p)) : Option.Rel S o p := by
  cases o with
  | none =>
    cases p with
    | none => exact .none
    | some b => exact absurd h (hf b).2
  | some a =>
    cases p with
    | none => exact absurd h (hf a).1
    | some b => exact .some (hS a b h)

theorem ofOption_eq {f : α → Data} (hf : ∀ a, ¬ Alike R (f a) .null ∧ ¬ Alike R .null (f a))
    (hS : ∀ a b, Alike R (f a) (f b) → a = b) {o p : Option α}
    (h : Alike R (.ofOption f o) (.ofOption f p)) : o = p :=
  eq_of_rel (ofOption_rel hf hS h) fun _ _ => id

theorem not_null {d : Data} (hn : d.number? = none) (hd : d ≠ .null) :
    ¬ Alike R d .null ∧ ¬ Alike R .null d := by
  constructor
  · intro h
    cases h with
    | null => exact hd rfl
    | number hx => simp [hn] at hx
  · intro h
    cases h with
    | null => exact hd rfl
    | number hx => cases hx

theorem optionalText_eq {o p : Option String} (h : Alike R (optionalText o) (optionalText p)) :
    o = p :=
  ofOption_eq (fun _ => not_null rfl Data.noConfusion) (fun _ _ => text_eq) h

theorem optionalNat_eq (hR : Number.Discerning R) {o p : Option Nat}
    (h : Alike R (.ofOption .nat o) (.ofOption .nat p)) : o = p := by
  refine ofOption_eq (fun n => ⟨fun h => ?_, fun h => ?_⟩) (fun _ _ => nat_eq hR) h
  · cases h with
    | number _ hy => cases hy
  · cases h with
    | number hx => cases hx

theorem texts_eq {xs ys : List String} (h : Alike R (.texts xs) (.texts ys)) : xs = ys := by
  have hitems := h.items
  rw [List.forall₂_map_left_iff, List.forall₂_map_right_iff] at hitems
  exact List.forall₂_eq_eq_eq ▸ hitems.imp fun _ _ => text_eq

end Data.Alike

namespace Data

section Agreement

variable (R : Number → Number → Prop) [DecidableRel R]

mutual

/-- Are the data alike? -/
def agrees : Data → Data → Bool
  | null, null => true
  | text s, text t => s == t
  | list xs, list ys => agreesAll xs ys
  | record f, record g => agreesFields f g && g.all fun field => (f.lookup field.1).isSome
  | x, y =>
    match x.number?, y.number? with
    | some a, some b => decide (R a b)
    | _, _ => false

def agreesAll : List Data → List Data → Bool
  | [], [] => true
  | x :: xs, y :: ys => agrees x y && agreesAll xs ys
  | _, _ => false

/-- Does the record answer each of the fields alike? -/
def agreesFields : List (String × Data) → List (String × Data) → Bool
  | [], _ => true
  | (k, x) :: f, g =>
    (match g.lookup k with
      | some y => agrees x y
      | none => false) && agreesFields f g

end

variable {R}

mutual

theorem alike_of_agrees : (x y : Data) → x.agrees R y = true → x.Alike R y
  | null, y, h => by
    cases y <;> simp [agrees, number?] at h
    exact .null
  | text s, y, h => by
    cases y <;> simp [agrees, number?] at h
    rw [h]
    exact .text _
  | bool a, y, h => by
    cases y <;> simp [agrees, number?] at h <;> exact .number rfl rfl h
  | number a, y, h => by
    cases y <;> simp [agrees, number?] at h <;> exact .number rfl rfl h
  | list xs, y, h => by
    cases y <;> simp [agrees, number?] at h
    exact .list (alike_of_agreesAll xs _ h)
  | record f, y, h => by
    cases y <;> simp only [agrees, number?, Bool.and_eq_true, List.all_eq_true,
      Bool.false_eq_true] at h
    rename_i g
    obtain ⟨hfields, hkeys⟩ := h
    refine .record fun k => ?_
    cases hx : f.lookup k with
    | some x =>
      obtain ⟨y, hy, hxy⟩ := alike_of_agreesFields f g hfields k x hx
      rw [hy]
      exact .some hxy
    | none =>
      cases hy : g.lookup k with
      | none => exact .none
      | some y =>
        obtain ⟨front, back, rfl, -⟩ := List.lookup_eq_some_iff.1 hy
        have hsome := hkeys (k, y) (by simp)
        rw [hx] at hsome
        cases hsome

theorem alike_of_agreesAll : (xs ys : List Data) → agreesAll R xs ys = true →
    List.Forall₂ (Alike R) xs ys
  | [], [], _ => .nil
  | x :: xs, y :: ys, h => by
    rw [agreesAll, Bool.and_eq_true] at h
    exact .cons (alike_of_agrees x y h.1) (alike_of_agreesAll xs ys h.2)

theorem alike_of_agreesFields : (f g : List (String × Data)) → agreesFields R f g = true →
    ∀ k x, f.lookup k = some x → ∃ y, g.lookup k = some y ∧ x.Alike R y
  | (k', x') :: f, g, h, k, x, hx => by
    rw [agreesFields, Bool.and_eq_true] at h
    obtain ⟨hfirst, hrest⟩ := h
    rw [List.lookup_cons] at hx
    split at hx
    · rename_i hk
      obtain rfl := Option.some.inj hx
      obtain rfl := eq_of_beq hk
      cases hy : g.lookup k with
      | none => simp [hy] at hfirst
      | some y =>
        rw [hy] at hfirst
        exact ⟨y, rfl, alike_of_agrees x' y hfirst⟩
    · exact alike_of_agreesFields f g hrest k x hx

end

end Agreement

end Data

section Containers

variable {R : Number → Number → Prop}

/-- Answers that are alike come from values that are. -/
theorem rel_through {α γ : Type} {P : α → γ → Prop} {Q : γ → γ → Prop} {S : α → α → Prop}
    {v w : Option α} {x y : Option γ} (hx : Option.Rel P v x) (hy : Option.Rel P w y)
    (hxy : Option.Rel Q x y) (hS : ∀ a ∈ v, ∀ b ∈ w, ∀ c d, P a c → P b d → Q c d → S a b) :
    Option.Rel S v w := by
  cases hxy with
  | none =>
    cases hx
    cases hy
    exact .none
  | some h =>
    cases hx with
    | some ha =>
      cases hy with
      | some hb => exact .some (hS _ rfl _ rfl _ _ ha hb h)

theorem eq_of_forall₂ {α : Type} {S : α → α → Prop} {as bs : List α} (h : List.Forall₂ S as bs)
    (hS : ∀ a b, S a b → a = b) : as = bs :=
  List.forall₂_eq_eq_eq ▸ h.imp hS

/-- Items with forms that are alike, one by one. -/
theorem forall₂_of_formList {α : Type} {f : α → Except FormError Data} {S : α → α → Prop}
    {as bs : List α} {x y : Data} (hx : formList f as = .ok x) (hy : formList f bs = .ok y)
    (h : x.Alike R y)
    (hS : ∀ a ∈ as, ∀ b ∈ bs, ∀ x y, f a = .ok x → f b = .ok y → x.Alike R y → S a b) :
    List.Forall₂ S as bs := by
  obtain ⟨xs, hxs, rfl⟩ := map_ok_iff.1 hx
  obtain ⟨ys, hys, rfl⟩ := map_ok_iff.1 hy
  have hitems := h.items
  rw [mapM_ok_iff] at hxs hys
  clear hx hy h
  induction hxs generalizing bs ys with
  | nil =>
    cases hitems
    cases hys
    exact .nil
  | cons hx _ ih =>
    cases hitems with
    | cons hxy hitems =>
      cases hys with
      | cons hy hys =>
        refine .cons (hS _ List.mem_cons_self _ List.mem_cons_self _ _ hx hy hxy) ?_
        refine ih (fun a ha b hb => ?_) _ hys hitems
        exact hS a (List.mem_cons_of_mem _ ha) b (List.mem_cons_of_mem _ hb)

namespace Table

variable {κ α : Type} [DecidableEq κ]

/-- Two tables that answer every key alike. -/
def Alike (S : α → α → Prop) (t u : Table κ α) : Prop :=
  ∀ k, Option.Rel S (t.get? k) (u.get? k)

theorem Alike.get?_eq {S : α → α → Prop} {t u : Table κ α} (h : t.Alike S u)
    (hS : ∀ a b, S a b → a = b) (k : κ) : t.get? k = u.get? k :=
  eq_of_rel (h k) hS

/-- The form of a table answers the name of a key with the form of its value. -/
theorem rel_of_form {name : κ → String} (hname : Function.Injective name)
    {f : α → Except FormError Data} {t : Table κ α} {fields : List (String × Data)}
    (h : t.form name f = .ok (.record fields)) (k : κ) :
    Option.Rel (fun v d => f v = .ok d) (t.get? k) (fields.lookup (name k)) := by
  obtain ⟨_, ⟨⟩, hfields⟩ := form_ok_iff.1 h
  rw [get?]
  clear h
  generalize t.entries = entries at hfields ⊢
  induction hfields with
  | nil => exact .none
  | @cons e field _ _ hentry _ ih =>
    obtain ⟨k', v⟩ := e
    obtain ⟨key, d⟩ := field
    obtain ⟨hkey, hd⟩ := hentry
    by_cases hk : k = k'
    · subst hk
      subst hkey
      simpa using hd
    · have hne : (name k == key) = false :=
        beq_eq_false_iff_ne.2 fun he => hk (hname (he.trans hkey.symm))
      rw [List.lookup_cons, List.lookup_cons, beq_eq_false_iff_ne.2 hk, hne]
      exact ih

/-- Tables with forms that are alike. -/
theorem alike_of_form {name : κ → String} (hname : Function.Injective name)
    {f : α → Except FormError Data} {S : α → α → Prop} {t u : Table κ α} {x y : Data}
    (hx : t.form name f = .ok x) (hy : u.form name f = .ok y) (h : x.Alike R y)
    (hS : ∀ k v w, (k, v) ∈ t.entries → (k, w) ∈ u.entries →
      ∀ x y, f v = .ok x → f w = .ok y → x.Alike R y → S v w) : t.Alike S u := by
  intro k
  obtain ⟨fields, rfl, -⟩ := form_ok_iff.1 hx
  obtain ⟨fields', rfl, -⟩ := form_ok_iff.1 hy
  refine rel_through (rel_of_form hname hx k) (rel_of_form hname hy k) (h.fields (name k)) ?_
  intro v hv w hw
  exact hS k v w (mem_of_get? hv) (mem_of_get? hw)

end Table

end Containers

namespace Expr

/-- Trees that differ at most in equal numbers. -/
inductive Alike (R : Number → Number → Prop) : Expr → Expr → Prop
  | number {a b : Number} (h : R a b) : Alike R (number a) (number b)
  | percent {a b : Number} (h : R a b) : Alike R (percent a) (percent b)
  | string (s : String) : Alike R (string s) (string s)
  | constant (name : String) : Alike R (constant name) (constant name)
  | localVar (name : String) : Alike R (localVar name) (localVar name)
  | globalVar (name : String) : Alike R (globalVar name) (globalVar name)
  | hasItem (item : String) (no : Bool) : Alike R (hasItem item no) (hasItem item no)
  | atNode (node : String) (no : Bool) : Alike R (atNode node no) (atNode node no)
  | range (low high : Int) : Alike R (range low high) (range low high)
  | property {t u : Expr} (name : String) (h : Alike R t u) :
      Alike R (property t name) (property u name)
  | call {xs ys : List Expr} (name : String) (h : List.Forall₂ (Alike R) xs ys) :
      Alike R (call name xs) (call name ys)
  | unary {a b : Expr} (op : UnaryOp) (h : Alike R a b) : Alike R (unary op a) (unary op b)
  | binary {a b c d : Expr} (op : BinaryOp) (hl : Alike R a c) (hr : Alike R b d) :
      Alike R (binary op a b) (binary op c d)

mutual

theorem eq_of_alike : (e : Expr) → {f : Expr} → Alike (· = ·) e f → e = f
  | .number _, _, .number h => by rw [h]
  | .percent _, _, .percent h => by rw [h]
  | .string _, _, .string _ => rfl
  | .constant _, _, .constant _ => rfl
  | .localVar _, _, .localVar _ => rfl
  | .globalVar _, _, .globalVar _ => rfl
  | .hasItem .., _, .hasItem .. => rfl
  | .atNode .., _, .atNode .. => rfl
  | .range .., _, .range .. => rfl
  | .property t _, _, .property _ h => by rw [eq_of_alike t h]
  | .call _ xs, _, .call _ h => by rw [eq_of_alikeAll xs h]
  | .unary _ a, _, .unary _ h => by rw [eq_of_alike a h]
  | .binary _ a b, _, .binary _ hl hr => by rw [eq_of_alike a hl, eq_of_alike b hr]

theorem eq_of_alikeAll : (es : List Expr) → {fs : List Expr} →
    List.Forall₂ (Alike (· = ·)) es fs → es = fs
  | [], _, .nil => rfl
  | e :: es, _, .cons h hs => by rw [eq_of_alike e h, eq_of_alikeAll es hs]

end

theorem form_property {t : Expr} {name : String} {x : Data} (h : (property t name).form = .ok x) :
    ∃ d, t.form = .ok d ∧ x = tagged "property" [("target", d), ("name", .text name)] := by
  rw [form] at h
  obtain ⟨d, hd, hx⟩ := bind_ok_iff.1 h
  exact ⟨d, hd, (Except.ok.inj hx).symm⟩

theorem form_unary {op : UnaryOp} {e : Expr} {x : Data} (h : (unary op e).form = .ok x) :
    ∃ d, e.form = .ok d ∧ x = tagged "unary" [("op", .text op.symbol), ("operand", d)] := by
  rw [form] at h
  obtain ⟨d, hd, hx⟩ := bind_ok_iff.1 h
  exact ⟨d, hd, (Except.ok.inj hx).symm⟩

theorem form_binary {op : BinaryOp} {l r : Expr} {x : Data} (h : (binary op l r).form = .ok x) :
    ∃ a b, l.form = .ok a ∧ r.form = .ok b ∧
      x = tagged "binary" [("op", .text op.symbol), ("left", a), ("right", b)] := by
  rw [form] at h
  obtain ⟨a, ha, h⟩ := bind_ok_iff.1 h
  obtain ⟨b, hb, hx⟩ := bind_ok_iff.1 h
  exact ⟨a, b, ha, hb, (Except.ok.inj hx).symm⟩

theorem form_call {name : String} {args : List Expr} {x : Data}
    (h : (call name args).form = .ok x) :
    ∃ ds, formAll args = .ok ds ∧
      x = tagged "call" [("name", .text name), ("args", .list ds)] := by
  rw [form] at h
  obtain ⟨ds, hds, hx⟩ := bind_ok_iff.1 h
  exact ⟨ds, hds, (Except.ok.inj hx).symm⟩

theorem form_constant {name : String} {x : Data} (h : (constant name).form = .ok x) :
    ∃ d, x = tagged "constant" [("name", .text name), ("value", d)] := by
  rw [form] at h
  split at h
  · exact ⟨_, (Except.ok.inj h).symm⟩
  · cases h

theorem formAll_cons {e : Expr} {es : List Expr} {xs : List Data}
    (h : formAll (e :: es) = .ok xs) :
    ∃ d ds, e.form = .ok d ∧ formAll es = .ok ds ∧ xs = d :: ds := by
  rw [formAll] at h
  obtain ⟨d, hd, h⟩ := bind_ok_iff.1 h
  obtain ⟨ds, hds, hx⟩ := bind_ok_iff.1 h
  exact ⟨d, ds, hd, hds, (Except.ok.inj hx).symm⟩

/-- The type that the form of a tree is tagged with. -/
def tag : Expr → String
  | number _ => "number"
  | string _ => "string"
  | constant _ => "constant"
  | localVar _ => "local"
  | globalVar _ => "global"
  | property .. => "property"
  | call .. => "call"
  | hasItem .. => "hasItem"
  | atNode .. => "atNode"
  | range .. => "range"
  | percent _ => "percent"
  | unary .. => "unary"
  | binary .. => "binary"
  | blank => ""

theorem form_tagged {e : Expr} {x : Data} (h : e.form = .ok x) :
    ∃ fields, x = tagged e.tag fields := by
  cases e with
  | constant =>
    obtain ⟨_, rfl⟩ := form_constant h
    exact ⟨_, rfl⟩
  | property =>
    obtain ⟨_, -, rfl⟩ := form_property h
    exact ⟨_, rfl⟩
  | call =>
    obtain ⟨_, -, rfl⟩ := form_call h
    exact ⟨_, rfl⟩
  | unary =>
    obtain ⟨_, -, rfl⟩ := form_unary h
    exact ⟨_, rfl⟩
  | binary =>
    obtain ⟨_, _, -, -, rfl⟩ := form_binary h
    exact ⟨_, rfl⟩
  | blank => cases h
  | _ =>
    cases h
    exact ⟨_, rfl⟩

theorem tag_eq {R : Number → Number → Prop} {e f : Expr} {x y : Data} (hx : e.form = .ok x)
    (hy : f.form = .ok y) (h : x.Alike R y) : e.tag = f.tag := by
  obtain ⟨_, rfl⟩ := form_tagged hx
  obtain ⟨_, rfl⟩ := form_tagged hy
  exact (h.field "type" rfl rfl).text_eq

end Expr

theorem UnaryOp.symbol_injOn :
    ∀ a ∈ [minus, not], ∀ b ∈ [minus, not], a.symbol = b.symbol → a = b := by
  decide

theorem BinaryOp.symbol_injOn : ∀ a ∈ all, ∀ b ∈ all, a.symbol = b.symbol → a = b := by
  decide

namespace Expr

variable {R : Number → Number → Prop}

mutual

/-- Proper trees with forms that are alike. -/
theorem alike_of_form (hR : Number.Discerning R) (e : Expr) {f : Expr} {x y : Data}
    (he : e.Proper) (hf : f.Proper) (hx : e.form = .ok x) (hy : f.form = .ok y)
    (h : x.Alike R y) : e.Alike R f := by
  have htag := tag_eq hx hy h
  cases e with
  | number a =>
    cases f with
    | number b =>
      cases hx
      cases hy
      exact .number (h.field "value" rfl rfl).number_rel
    | _ => simp [tag] at htag
  | percent a =>
    cases f with
    | percent b =>
      cases hx
      cases hy
      exact .percent (h.field "value" rfl rfl).number_rel
    | _ => simp [tag] at htag
  | string s =>
    cases f with
    | string t =>
      cases hx
      cases hy
      obtain rfl := (h.field "value" rfl rfl).text_eq
      exact .string s
    | _ => simp [tag] at htag
  | constant a =>
    cases f with
    | constant b =>
      obtain ⟨_, rfl⟩ := form_constant hx
      obtain ⟨_, rfl⟩ := form_constant hy
      obtain rfl := (h.field "name" rfl rfl).text_eq
      exact .constant a
    | _ => simp [tag] at htag
  | localVar a =>
    cases f with
    | localVar b =>
      cases hx
      cases hy
      obtain rfl := (h.field "name" rfl rfl).text_eq
      exact .localVar a
    | _ => simp [tag] at htag
  | globalVar a =>
    cases f with
    | globalVar b =>
      cases hx
      cases hy
      obtain rfl := (h.field "name" rfl rfl).text_eq
      exact .globalVar a
    | _ => simp [tag] at htag
  | hasItem a no =>
    cases f with
    | hasItem b =>
      cases hx
      cases hy
      obtain rfl := (h.field "item" rfl rfl).text_eq
      obtain rfl := (h.field "no" rfl rfl).bool_eq hR
      exact .hasItem a no
    | _ => simp [tag] at htag
  | atNode a no =>
    cases f with
    | atNode b =>
      cases hx
      cases hy
      obtain rfl := (h.field "node" rfl rfl).text_eq
      obtain rfl := (h.field "no" rfl rfl).bool_eq hR
      exact .atNode a no
    | _ => simp [tag] at htag
  | range low high =>
    cases f with
    | range low' high' =>
      cases hx
      cases hy
      obtain rfl := hR _ _ (h.field "from" rfl rfl).number_rel
      obtain rfl := hR _ _ (h.field "to" rfl rfl).number_rel
      exact .range low high
    | _ => simp [tag] at htag
  | property t a =>
    cases f with
    | property u b =>
      obtain ⟨d, hd, rfl⟩ := form_property hx
      obtain ⟨d', hd', rfl⟩ := form_property hy
      obtain rfl := (h.field "name" rfl rfl).text_eq
      obtain ⟨-, -, ht⟩ := he
      obtain ⟨-, -, hu⟩ := hf
      exact .property a (alike_of_form hR t ht hu hd hd' (h.field "target" rfl rfl))
    | _ => simp [tag] at htag
  | call a es =>
    cases f with
    | call b fs =>
      obtain ⟨xs, hxs, rfl⟩ := form_call hx
      obtain ⟨ys, hys, rfl⟩ := form_call hy
      obtain rfl := (h.field "name" rfl rfl).text_eq
      have hargs := (h.field "args" rfl rfl).items
      exact .call a (alike_of_formAll hR es he.2 hf.2 hxs hys hargs)
    | _ => simp [tag] at htag
  | unary op a =>
    cases f with
    | unary op' b =>
      obtain ⟨d, hd, rfl⟩ := form_unary hx
      obtain ⟨d', hd', rfl⟩ := form_unary hy
      have hsymbol := (h.field "op" rfl rfl).text_eq
      obtain rfl := UnaryOp.symbol_injOn _ he.1 _ hf.1 hsymbol
      exact .unary op (alike_of_form hR a he.2 hf.2 hd hd' (h.field "operand" rfl rfl))
    | _ => simp [tag] at htag
  | binary op a b =>
    cases f with
    | binary op' a' b' =>
      obtain ⟨l, r, hl, hr, rfl⟩ := form_binary hx
      obtain ⟨l', r', hl', hr', rfl⟩ := form_binary hy
      have hsymbol := (h.field "op" rfl rfl).text_eq
      obtain rfl := BinaryOp.symbol_injOn _ he.1 _ hf.1 hsymbol
      exact .binary op (alike_of_form hR a he.2.1 hf.2.1 hl hl' (h.field "left" rfl rfl))
        (alike_of_form hR b he.2.2 hf.2.2 hr hr' (h.field "right" rfl rfl))
    | _ => simp [tag] at htag
  | blank => exact he.elim

theorem alike_of_formAll (hR : Number.Discerning R) (es : List Expr) {fs : List Expr}
    {xs ys : List Data} (he : ProperAll es) (hf : ProperAll fs) (hx : formAll es = .ok xs)
    (hy : formAll fs = .ok ys) (h : List.Forall₂ (Data.Alike R) xs ys) :
    List.Forall₂ (Alike R) es fs := by
  cases es with
  | nil =>
    cases hx
    cases h
    cases fs with
    | nil => exact .nil
    | cons =>
      obtain ⟨_, _, -, -, hy⟩ := formAll_cons hy
      cases hy
  | cons e es =>
    obtain ⟨x, xs, hfirst, hxs, rfl⟩ := formAll_cons hx
    cases fs with
    | nil =>
      cases hy
      cases h
    | cons f fs =>
      obtain ⟨y, ys, hfirst', hys, rfl⟩ := formAll_cons hy
      cases h with
      | cons h hs =>
        exact .cons (alike_of_form hR e he.1 hf.1 hfirst hfirst' h)
          (alike_of_formAll hR es he.2 hf.2 hxs hys hs)

end

end Expr

end Gamebook
