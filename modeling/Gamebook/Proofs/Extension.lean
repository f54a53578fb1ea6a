import Gamebook.Proofs.Locality
import Gamebook.Proofs.Transport

/-!
Lines are read without a look at what follows them. A text that ends at the end of a
line, with its line break or without, is compared with the same text where the source
goes on behind the break. What is read in the near text is read in the far one too. A
reader stays before the break, or takes it together with the end of the near text.
-/
namespace Gamebook

/-- The near text ends with the source or with a line break, and the far one goes on
with a line break. -/
inductive Break : List Char → List Char → Prop
  | mk {near : List Char} (h : near = [] ∨ near = ['\n']) (v : List Char) :
    Break near ('\n' :: v)

namespace Break

variable {near far : List Char}

theorem line (hb : Break near far) : Horizon .line near far := by
  cases hb with
  | mk h v => exact .line h v

theorem inside (hb : Break near far) : Horizon .parens near far := by
  cases hb with
  | mk h v => exact .inside h _ v

theorem near_ne_paren (hb : Break near far) : near ≠ [')'] := by
  cases hb with
  | mk h v => rcases h with rfl | rfl <;> simp

theorem near_head (hb : Break near far) : ∀ c ∈ near.head?, c = '\n' := by
  cases hb with
  | mk h v => rcases h with rfl | rfl <;> simp

theorem far_head (hb : Break near far) : ∀ c ∈ far.head?, c = '\n' := by
  cases hb with
  | mk h v => simp

variable {p : Pattern} (hp : p.ignores '\n' = true)
include hp

theorem run_near (hb : Break near far) (s : List Char) :
    p.run (s ++ near) = (p.run s).map (·.before near) :=
  Pattern.run_append (fun c hc => hb.near_head c hc ▸ hp) s

theorem run_far (hb : Break near far) (s : List Char) :
    p.run (s ++ far) = (p.run s).map (·.before far) :=
  Pattern.run_append (fun c hc => hb.far_head c hc ▸ hp) s

end Break

/-- A sequence gives what its parts give one after the other. -/
theorem bind_eq_ok {x : EStateM ε σ α} {f : α → EStateM ε σ β} {s u : σ} {b : β} :
    (x >>= f) s = .ok b u ↔ ∃ a t, x s = .ok a t ∧ f a t = .ok b u := by
  change EStateM.bind x f s = .ok b u ↔ _
  unfold EStateM.bind
  cases x s with
  | ok a t =>
    constructor
    · intro h
      exact ⟨a, t, rfl, h⟩
    · rintro ⟨_, _, ⟨⟩, h⟩
      exact h
  | error e t =>
    constructor
    · intro h
      cases h
    · rintro ⟨_, _, ⟨⟩, _⟩

/-- A sequence fails in its first part or in its second. -/
theorem error_of_bind {x : EStateM ε σ α} {f : α → EStateM ε σ β} {s u : σ} {e : ε}
    (h : (x >>= f) s = .error e u) :
    x s = .error e u ∨ ∃ a t, x s = .ok a t ∧ f a t = .error e u := by
  change EStateM.bind x f s = .error e u at h
  unfold EStateM.bind at h
  cases hx : x s with
  | ok a t =>
    rw [hx] at h
    exact .inr ⟨a, t, rfl, h⟩
  | error e' t =>
    rw [hx] at h
    cases h
    exact .inl rfl

/-- What the step gives from one state it also gives from the other. -/
def Carries (P Q : σ → σ → Prop) (x : EStateM ε σ α) : Prop :=
  ∀ ⦃s t : σ⦄, P s t → ∀ ⦃a : α⦄ ⦃s' : σ⦄, x s = .ok a s' → ∃ t', x t = .ok a t' ∧ Q s' t'

namespace Carries

variable {P Q R : σ → σ → Prop}

theorem pure (a : α) : Carries P P (Pure.pure a : EStateM ε σ α) := by
  rintro s t hst _ _ ⟨⟩
  exact ⟨t, rfl, hst⟩

theorem throw (e : ε) : Carries P Q (throw e : EStateM ε σ α) := by
  rintro s t _ _ _ ⟨⟩

theorem bind {x : EStateM ε σ α} {f : α → EStateM ε σ β} (hx : Carries P Q x)
    (hf : ∀ a, Carries Q R (f a)) : Carries P R (x >>= f) := by
  intro s t hst b u h
  obtain ⟨a, s', hs, h⟩ := bind_eq_ok.1 h
  obtain ⟨t', ht, hst'⟩ := hx hst hs
  obtain ⟨u', hu, hr⟩ := hf a hst' h
  exact ⟨u', bind_eq_ok.2 ⟨a, t', ht, hu⟩, hr⟩

theorem mono {x : EStateM ε σ α} (h : ∀ s t, Q s t → R s t) (hx : Carries P Q x) :
    Carries P R x := by
  intro s t hst a s' hs
  obtain ⟨t', ht, hq⟩ := hx hst hs
  exact ⟨t', ht, h _ _ hq⟩

theorem ite {b : Bool} {x y : EStateM ε σ α} (hx : Carries P Q x) (hy : Carries P Q y) :
    Carries P Q (if b then x else y) := by
  cases b
  · exact hy
  · exact hx

end Carries

theorem Cursor.Meets.mono {p q : Prop} {near far : List Char} {c d : Cursor} (h : p → q)
    (hm : Cursor.Meets p near far c d) : Cursor.Meets q near far c d := by
  cases hm with
  | within c => exact .within c
  | beyond hp c hc => exact .beyond (h hp) c hc

/-- The cursor itself in both texts. -/
def Cursor.At (c : Cursor) (near far : List Char) (a b : Cursor) : Prop :=
  a = c.before near ∧ b = c.before far

namespace Read

variable {near far : List Char}

/-- The reader does the same in both texts and stays before the break. -/
abbrev Keeps (near far : List Char) (x : Read α) : Prop :=
  Carries (Cursor.Meets False near far) (Cursor.Meets False near far) x

/-- The reader does the same in both texts, and may take the break. -/
abbrev Crosses (near far : List Char) (x : Read α) : Prop :=
  Carries (Cursor.Meets False near far) (Cursor.Meets True near far) x

theorem carries_of {p : Prop} {x : Read α}
    (h : ∀ ⦃c : Cursor⦄ ⦃a : α⦄ ⦃d : Cursor⦄, x (c.before near) = .ok a d →
      ∃ d', x (c.before far) = .ok a d' ∧ Cursor.Meets p near far d d') :
    Carries (Cursor.Meets False near far) (Cursor.Meets p near far) x := by
  intro _ _ hm a d hr
  cases hm with
  | within c => exact h hr
  | beyond hf => exact hf.elim

theorem Keeps.crosses {x : Read α} (hx : Keeps near far x) : Crosses near far x :=
  hx.mono fun _ _ h => h.mono False.elim

namespace Keeps

theorem failHere (complaint : Complaint) : Keeps near far (Read.failHere complaint : Read α) :=
  carries_of fun _ _ _ h => nomatch h

theorem begin (subject : String) : Keeps near far (Read.begin subject) := by
  apply carries_of
  rintro c _ _ ⟨⟩
  exact ⟨_, rfl, .within (c.note subject)⟩

theorem numeral (value : Except Nat α) : Keeps near far (Read.numeral value) := by
  cases value with
  | ok a => exact .pure a
  | error digits => exact .throw _

theorem firstOf_of_map {table : List (α × Pattern)} {c d : Cursor} {a : Option α}
    (hn : Pattern.firstOf table (c.rest ++ near) =
      (Pattern.firstOf table c.rest).map fun (a, m) => (a, m.before near))
    (hf : Pattern.firstOf table (c.rest ++ far) =
      (Pattern.firstOf table c.rest).map fun (a, m) => (a, m.before far))
    (h : Read.firstOf table (c.before near) = .ok a d) :
    ∃ d', Read.firstOf table (c.before far) = .ok a d' ∧ Cursor.Meets False near far d d' := by
  simp only [Read.firstOf, Cursor.rest_before, hn, hf] at h ⊢
  cases hr : Pattern.firstOf table c.rest with
  | none =>
    rw [hr] at h
    cases h
    exact ⟨_, rfl, .within c⟩
  | some m =>
    rw [hr] at h
    cases h
    exact ⟨_, rfl, .within (c.past m.2)⟩

variable (hb : Break near far) {p : Pattern}
include hb

/-- A table that settles at the break, where some text stands before. -/
theorem firstOf_at {table : List (α × Pattern)} (ht : table.all (·.2.settles '\n') = true)
    {c d : Cursor} (hc : c.rest ≠ []) {a : Option α}
    (h : Read.firstOf table (c.before near) = .ok a d) :
    ∃ d', Read.firstOf table (c.before far) = .ok a d' ∧ Cursor.Meets False near far d d' :=
  firstOf_of_map (Pattern.firstOf_append (fun x hx => hb.near_head x hx ▸ ht) hc)
    (Pattern.firstOf_append (fun x hx => hb.far_head x hx ▸ ht) hc) h

theorem firstOf {table : List (α × Pattern)} (ht : table.all (·.2.ignores '\n') = true) :
    Keeps near far (Read.firstOf table) := by
  apply carries_of
  intro c a d h
  exact firstOf_of_map (Pattern.firstOf_map fun e he => hb.run_near (List.all_eq_true.1 ht e he) _)
    (Pattern.firstOf_map fun e he => hb.run_far (List.all_eq_true.1 ht e he) _) h

/-- A match is used for its text and its parts, not for the text ahead. -/
theorem bind_match? (hp : p.ignores '\n' = true) {f : Option Match → Read β}
    (hm : ∀ m u, f (Option.map (·.before u) m) = f m) (hf : ∀ m, Keeps near far (f m)) :
    Keeps near far (Read.match? p >>= f) := by
  have hr : ∀ {u : List Char}, (∀ x ∈ u.head?, p.ignores x = true) → ∀ c : Cursor,
      (Read.match? p >>= f) (c.before u) = f (p.run c.rest) ((c.skip p).before u) := by
    intro u hu c
    change EStateM.bind (Read.match? p) f (c.before u) = _
    simp only [EStateM.bind, Read.match?, Cursor.rest_before, Pattern.run_append hu, Cursor.skip]
    cases h : p.run c.rest with
    | none => rfl
    | some m => exact congrFun (hm (some m) u) _
  apply carries_of
  intro c b d h
  rw [hr fun x hx => hb.near_head x hx ▸ hp] at h
  rw [hr fun x hx => hb.far_head x hx ▸ hp]
  exact hf _ (.within _) h

theorem accept (hp : p.ignores '\n' = true) : Keeps near far (Read.accept p) := by
  refine bind_match? hb hp (fun m u => ?_) fun m => .pure m.isSome
  rw [Option.isSome_map]

theorem bind_require (hp : p.ignores '\n' = true) (complaint : Complaint) {f : Match → Read β}
    (hm : ∀ m u, f (m.before u) = f m) (hf : ∀ m, Keeps near far (f m)) :
    Keeps near far (Read.require p complaint >>= f) := by
  have hr : (Read.require p complaint >>= f) =
      Read.match? p >>= fun m => m.elim (Read.failHere complaint) f := by
    funext c
    change EStateM.bind _ _ c = EStateM.bind _ _ c
    simp only [EStateM.bind, Read.match?, Read.require]
    cases p.run c.rest <;> rfl
  rw [hr]
  refine bind_match? hb hp (fun m u => ?_) fun m => ?_
  · cases m with
    | none => rfl
    | some m => exact hm m u
  · cases m with
    | none => exact failHere complaint
    | some m => exact hf m

theorem peek (hp : p.ignores '\n' = true) : Keeps near far (Read.peek p) := by
  apply carries_of
  rintro c _ _ ⟨⟩
  refine ⟨c.before far, ?_, .within c⟩
  have hn : (p.run (c.rest ++ near)).isSome = (p.run (c.rest ++ far)).isSome := by
    simp only [hb.run_near hp, hb.run_far hp, Option.isSome_map]
  exact congrArg (EStateM.Result.ok · (c.before far)) hn.symm

theorem skip (hp : p.ignores '\n' = true) : Keeps near far (Read.skip p) := by
  apply carries_of
  rintro c _ _ ⟨⟩
  refine ⟨(c.before far).skip p, rfl, ?_⟩
  dsimp only
  rw [c.skip_before near fun x hx => hb.near_head x hx ▸ hp,
    c.skip_before far fun x hx => hb.far_head x hx ▸ hp]
  exact .within (c.skip p)

/-- An expression is read in the near text up to its end, and not beyond. -/
theorem expr {goal : Goal} (h : Horizon goal near far) (setting : Setting) :
    Keeps near far (Read.expr setting goal) := by
  apply carries_of
  intro c e d hr
  obtain ⟨d', hd, hm⟩ := Read.expr_extends h hr
  exact ⟨d', hd, hm.mono hb.near_ne_paren⟩

theorem string : Keeps near far Read.string := by
  apply carries_of
  intro c a d h
  simp only [Read.string, Cursor.rest_before] at h ⊢
  split at h
  · rename_i content rest hs
    obtain ⟨r, rfl, hn, hf⟩ := Machine.stringBody_near hb.line (congrArg Prod.snd hs)
    rw [hn] at hs
    cases hs
    cases h
    rw [hf]
    simp only [Cursor.advance_before, Cursor.release_before]
    exact ⟨_, rfl, .within (c.advance r).release⟩
  · cases h

theorem change (setting : Setting) : Keeps near far (Read.change setting) := by
  refine (firstOf hb (by decide)).bind fun how => ?_
  cases how with
  | none => exact .pure _
  | some how => exact (expr hb hb.line setting).bind fun _ => .pure _

theorem definition (setting : Setting) : Keeps near far (Read.definition setting) :=
  (begin _).bind fun _ => (skip hb (by decide)).bind fun _ => (skip hb (by decide)).bind fun _ =>
    bind_require hb (by decide) _ (fun _ _ => rfl) fun _ => (skip hb (by decide)).bind fun _ =>
      (change hb setting).bind fun _ => .pure _

theorem definitionAhead : Keeps near far Read.definitionAhead :=
  (peek hb (by decide)).bind fun _ => .ite (.pure _) (accept hb (by decide))

theorem condition (setting : Setting) : Keeps near far (Read.condition setting) :=
  (accept hb (by decide)).bind fun _ => .ite
    ((expr hb hb.inside setting).bind fun _ => (skip hb (by decide)).bind fun _ => .pure _)
    (.pure _)

theorem first : Keeps near far Read.first := by
  refine (begin _).bind fun _ => (skip hb (by decide)).bind fun _ =>
    bind_match? hb (by decide) (fun m u => ?_) fun m => ?_
  · cases m <;> rfl
  · refine .bind ?_ fun _ => (skip hb (by decide)).bind fun _ =>
      (firstOf hb (by decide)).bind fun category => ?_
    · cases m with
      | none => exact .pure _
      | some m => exact numeral _
    · cases category with
      | none => exact failHere _
      | some category => exact .pure _

end Keeps
end Read

/-- A match found before the end stays the first one in a text that goes on. -/
theorem Pattern.search_append {p : Pattern} (hp : p.consumes = true) {u : List Char}
    (hu : ∀ c ∈ u.head?, p.settles c = true) {s skipped : List Char} {m : Match}
    (h : p.search s = some (skipped, m)) : p.search (s ++ u) = some (skipped, m.before u) := by
  induction s generalizing skipped with
  | nil =>
    simp only [search, Option.map_eq_some_iff] at h
    obtain ⟨n, hn, -⟩ := h
    exact absurd (List.append_eq_nil_iff.1 (run_split hn)).1 (text_ne_nil hp hn)
  | cons c s ih =>
    have hr := run_append_of_ne_nil hu (List.cons_ne_nil c s)
    rw [List.cons_append] at hr ⊢
    rw [search, hr]
    rw [search] at h
    cases hc : p.run (c :: s) with
    | some n =>
      rw [hc] at h
      cases h
      rfl
    | none =>
      simp only [hc, Option.map_eq_some_iff] at h
      obtain ⟨⟨k, n⟩, hk, hn⟩ := h
      cases hn
      simp [ih hk]

/-- The first line break is at the end of a text without one. -/
theorem Pattern.search_lineEnd {s : List Char} (h : Grammar.lineEnd.search s = none)
    (v : List Char) :
    Grammar.lineEnd.search (s ++ '\n' :: v) = some (s, ⟨['\n'], [], v⟩) := by
  induction s with
  | nil => rfl
  | cons c s ih =>
    rw [search] at h
    cases hc : Grammar.lineEnd.run (c :: s) with
    | some m => simp [hc] at h
    | none =>
      simp only [hc, Option.map_eq_none_iff] at h
      have hr := run_append_of_ne_nil (p := Grammar.lineEnd) (u := '\n' :: v) (fun _ _ => rfl)
        (List.cons_ne_nil c s)
      rw [hc, List.cons_append] at hr
      rw [List.cons_append, search, hr, ih h]
      rfl

namespace Cursor

variable {near far : List Char}

/-- Past the whole text and the break. -/
theorem advance_beyond (c : Cursor) (x : Char) (v : List Char) :
    (c.before (x :: v)).advance v = (c.advance []).beyond (x :: v) := by
  simp only [advance, before, beyond, List.length_append, List.length_cons, List.length_nil,
    Cursor.mk.injEq, and_true]
  omega

theorem skipThrough_before {p : Pattern} (hp : p.consumes = true) {u : List Char}
    (hu : ∀ c ∈ u.head?, p.settles c = true) {c : Cursor} {skipped : List Char} {m : Match}
    (h : p.search c.rest = some (skipped, m)) :
    (c.before u).skipThrough p = (c.advance m.rest).before u := by
  simp only [skipThrough, rest_before, Pattern.search_append hp hu h, Match.rest_before,
    advance_before]

theorem skipThrough_lineEnd_meets (hb : Break near far) (c : Cursor) :
    Meets True near far ((c.before near).skipThrough Grammar.lineEnd)
      ((c.before far).skipThrough Grammar.lineEnd) := by
  cases h : Grammar.lineEnd.search c.rest with
  | some k =>
    have hs : ∀ u : List Char, (c.before u).skipThrough Grammar.lineEnd =
        (c.advance k.2.rest).before u := fun u => skipThrough_before rfl (fun _ _ => rfl) h
    rw [hs, hs]
    exact .within _
  | none =>
    have hs : ∀ v : List Char, (c.before ('\n' :: v)).skipThrough Grammar.lineEnd =
        (c.advance []).beyond ('\n' :: v) := by
      intro v
      simp only [skipThrough, rest_before, Pattern.search_lineEnd h, advance_beyond]
    have hn : (c.before []).skipThrough Grammar.lineEnd = (c.advance []).beyond [] := by
      simp only [skipThrough, rest_before, List.append_nil, h]
      simp [before, beyond]
    cases hb with
    | mk hnear v =>
      rcases hnear with rfl | rfl
      · rw [hn, hs]
        exact .beyond trivial _ rfl
      · rw [hs, hs]
        exact .beyond trivial _ rfl

end Cursor

namespace Read.Crosses

variable {near far : List Char}

variable (hb : Break near far)
include hb

theorem skipThrough_lineEnd : Crosses near far (Read.skipThrough Grammar.lineEnd) := by
  apply carries_of
  rintro c _ _ ⟨⟩
  exact ⟨_, rfl, c.skipThrough_lineEnd_meets hb⟩

theorem lineEnd (wanted : Wanted) : Crosses near far (Read.lineEnd wanted) := by
  refine (Keeps.skip hb (by decide)).bind fun _ => carries_of fun c a d h => ?_
  by_cases hc : c.rest = []
  · -- the near text may end here, where the far one has the break
    obtain ⟨pos, rest, held, notes⟩ := c
    cases hc
    refine ⟨Cursor.beyond ⟨pos, [], held, notes⟩ far, ?_⟩
    cases hb with
    | mk hn v =>
      rcases hn with rfl | rfl
      · cases h
        exact ⟨rfl, .beyond trivial ⟨pos, [], held, notes⟩ rfl⟩
      · cases h
        exact ⟨rfl, .beyond trivial ⟨pos, [], held, notes⟩ rfl⟩
  · have hl : Carries (c.At near far) (Cursor.Meets False near far) (Read.firstOf lineEnds) := by
      rintro _ _ ⟨rfl, rfl⟩ how e he
      exact Keeps.firstOf_at hb (by decide) hc he
    refine hl.bind (fun how => ?_) ⟨rfl, rfl⟩ h
    cases how with
    | none => exact (Keeps.failHere _).crosses
    | some how =>
      cases how with
      | comment => exact skipThrough_lineEnd hb
      | lineEnd | finish => exact Keeps.crosses (.pure ())

end Read.Crosses

namespace Line

variable {near far : List Char}

/-- What a part in the near text says about the part in the far one. -/
inductive Part.Extends (near far : List Char) : Part → Part → Prop
  | gap (c : Cursor) : Part.Extends near far (.gap (c.before near)) (.gap (c.before far))
  | token (t : Token) (c : Cursor) :
    Part.Extends near far (.token t (c.before near)) (.token t (c.before far))
  | finish {c d : Cursor} (h : Cursor.Meets True near far c d) :
    Part.Extends near far (.finish c) (.finish d)
  | stop {fault : Fault} {c : Cursor} {part : Part} : Part.Extends near far (.stop fault c) part

theorem ofResult_extends {x : Read α} (hx : Read.Keeps near far x) (make : α → Content)
    (offset : Nat) (c : Cursor) :
    Part.Extends near far (.ofResult make offset (x (c.before near)))
      (.ofResult make offset (x (c.before far))) := by
  cases h : x (c.before near) with
  | error fault d => exact .stop
  | ok a d =>
    obtain ⟨d', hd, hm⟩ := hx (.within c) h
    rw [hd]
    cases hm with
    | within e => exact .token _ e
    | beyond hf => exact hf.elim

variable (hb : Break near far)
include hb

theorem follow_extends (setting : Setting) (offset : Nat) (m : Match) (c : Cursor) (lead : Lead) :
    Part.Extends near far (follow setting offset (m.before near) (c.before near) lead)
      (follow setting offset (m.before far) (c.before far) lead) := by
  cases lead with
  | gap => exact .gap c
  | quote => exact ofResult_extends (.string hb) _ offset c
  | range => exact ofResult_extends (.numeral (rangeOf m)) _ offset c
  | variableName => exact .token _ c
  | number => exact ofResult_extends (.numeral (Numeral.number? m.text)) _ offset c
  | paren => exact ofResult_extends (.expr hb hb.inside setting) _ offset c
  | word => exact .token _ c
  | lineEnd => exact .finish (.within c)
  | comment => exact .finish (c.skipThrough_lineEnd_meets hb)

/-- Where the text ends, the break ends the line. -/
theorem next_at_break {c : Cursor} (hc : c.rest = []) (setting : Setting) :
    next setting (c.before near) = .finish (c.beyond near) ∧
      next setting (c.before far) = .finish (c.beyond far) := by
  obtain ⟨pos, rest, held, notes⟩ := c
  cases hc
  cases hb with
  | mk hn v =>
    rcases hn with rfl | rfl
    · exact ⟨rfl, rfl⟩
    · exact ⟨rfl, rfl⟩

theorem next_extends (setting : Setting) (c : Cursor) :
    Part.Extends near far (next setting (c.before near)) (next setting (c.before far)) := by
  by_cases hc : c.rest = []
  · obtain ⟨hn, hf⟩ := next_at_break hb hc setting
    rw [hn, hf]
    exact .finish (.beyond trivial c hc)
  · have hn : lead? (c.rest ++ near) = _ :=
      Pattern.firstOf_append (fun x hx => hb.near_head x hx ▸ by decide) hc
    have hf : lead? (c.rest ++ far) = _ :=
      Pattern.firstOf_append (fun x hx => hb.far_head x hx ▸ by decide) hc
    simp only [next, Cursor.rest_before, hn, hf]
    cases Pattern.firstOf leads c.rest with
    | none =>
      have hne : (c.rest ++ near).isEmpty = false := by simp [hc]
      simp only [Option.map_none, hne]
      exact .stop
    | some l => exact follow_extends hb setting c.pos l.2 (c.past l.2) l.1

theorem readFrom_extends {setting : Setting} {c d : Cursor} {tokens line : List Token}
    (h : readFrom setting (c.before near) tokens = .ok line d) :
    ∃ d', readFrom setting (c.before far) tokens = .ok line d' ∧
      Cursor.Meets True near far d d' := by
  generalize hc : c.before near = b at h
  fun_induction readFrom setting b tokens generalizing c with
  | case1 b tokens b' hn ih =>
    have hx := next_extends hb setting c
    generalize hf : next setting (c.before far) = part at hx
    rw [hc, hn] at hx
    cases hx with
    | gap e =>
      rw [readFrom_of_gap hf]
      exact ih rfl h
  | case2 b tokens t b' hn ih =>
    have hx := next_extends hb setting c
    generalize hf : next setting (c.before far) = part at hx
    rw [hc, hn] at hx
    cases hx with
    | token t e =>
      rw [readFrom_of_token hf]
      exact ih rfl h
  | case3 b tokens b' hn =>
    have hx := next_extends hb setting c
    generalize hf : next setting (c.before far) = part at hx
    rw [hc, hn] at hx
    cases hx with
    | finish hm =>
      cases h
      exact ⟨_, readFrom_of_finish hf tokens, hm⟩
  | case4 b tokens fault b' hn => cases h

end Line

namespace Read.Crosses

variable {near far : List Char} (hb : Break near far) (setting : Setting)
include hb

theorem line : Crosses near far (Read.line setting) :=
  carries_of fun _ _ _ h => Line.readFrom_extends hb h

theorem entry (subject : String) (reader : Nat → Entry α) :
    Crosses near far (Read.entry setting subject reader) := by
  refine (Keeps.begin subject).bind fun ref => (line hb setting).bind fun line => ?_
  split
  · exact .pure _
  · exact .throw _

theorem command (ref : Nat) : Crosses near far (Read.command setting ref) := by
  refine (Keeps.definitionAhead hb).bind fun ahead => ?_
  cases ahead with
  | true =>
    exact (Keeps.definition hb setting).bind fun v =>
      (lineEnd hb _).bind fun _ => .pure _
  | false =>
    refine (line hb setting).bind fun line => ?_
    split
    · exact .pure _
    · exact .throw _

theorem directive : Crosses near far (Read.directive setting) :=
  (Keeps.begin _).bind fun ref => (Keeps.condition hb setting).bind fun _ =>
    (command hb setting ref).bind fun _ => .pure _

omit setting in
theorem heading (name : String) : Crosses near far (Read.heading name) :=
  (Keeps.begin _).bind fun _ => lineEnd hb _

end Read.Crosses

/-- A blank line in a text that goes on: the same where another character comes first,
and else the break is its end. -/
theorem Pattern.run_blankLine (s : List Char) :
    (∀ u : List Char, (∀ c ∈ u.head?, c = '\n') →
      Grammar.blankLine.run (s ++ u) = (Grammar.blankLine.run s).map (·.before u)) ∨
    ∀ u : List Char, (∀ c ∈ u.head?, c = '\n') →
      Grammar.blankLine.run (s ++ u) = some ⟨s ++ u.take 1, [], u.drop 1⟩ := by
  by_cases hs : s.dropWhile Grammar.isBlank = []
  · have ht : s.takeWhile Grammar.isBlank = s := by
      have := s.takeWhile_append_dropWhile (p := Grammar.isBlank)
      rwa [hs, List.append_nil] at this
    refine .inr fun u hu => ?_
    cases u with
    | nil => simp [Grammar.blankLine, Grammar.lineEnd, char, run, hs, ht]
    | cons c v =>
      have hc : c = '\n' := hu c rfl
      have hb : Grammar.isBlank '\n' = false := rfl
      simp [hc, Grammar.blankLine, Grammar.lineEnd, char, run, takeWhile_before hb,
        dropWhile_before hb, hs, ht]
  · exact .inl fun u hu => run_seq_append (fun c hc => hu c hc ▸ rfl) (fun c hc => rfl) rfl hs

theorem Cursor.past_beyond (c : Cursor) (u : List Char) :
    (c.before u).past ⟨c.rest ++ u.take 1, [], u.drop 1⟩ = (c.advance []).beyond u := by
  cases u with
  | nil => simp [past, before, beyond, advance]
  | cons x v => simp [past, before, beyond, advance, Nat.add_assoc]

theorem Read.Crosses.skip_blankLine {near far : List Char} (hb : Break near far) :
    Crosses near far (Read.skip Grammar.blankLine) := by
  apply carries_of
  rintro c _ _ ⟨⟩
  refine ⟨_, rfl, ?_⟩
  rcases Pattern.run_blankLine c.rest with h | h
  · have hs : ∀ u : List Char, (∀ x ∈ u.head?, x = '\n') →
        (c.before u).skip Grammar.blankLine = (c.skip Grammar.blankLine).before u := by
      intro u hu
      simp only [Cursor.skip, Cursor.rest_before, h u hu]
      cases Grammar.blankLine.run c.rest with
      | none => rfl
      | some m => rfl
    dsimp only
    rw [hs near hb.near_head, hs far hb.far_head]
    exact .within _
  · have hs : ∀ u : List Char, (∀ x ∈ u.head?, x = '\n') →
        (c.before u).skip Grammar.blankLine = (c.advance []).beyond u := by
      intro u hu
      simp only [Cursor.skip, Cursor.rest_before, h u hu, Cursor.past_beyond]
    dsimp only
    rw [hs near hb.near_head, hs far hb.far_head]
    exact .beyond trivial _ rfl

/-- A block comment that is closed. -/
theorem Read.blockComment_crosses {near far : List Char} (hb : Break near far) {c : Cursor}
    (hc : (Grammar.blockClose.search c.rest).isSome = true) :
    Carries (c.At near far) (Cursor.Meets True near far) Read.blockComment := by
  obtain ⟨found, hfound⟩ := Option.isSome_iff_exists.1 hc
  have hs : Carries (c.At near far) (Cursor.Meets False near far)
      (Read.skipThrough Grammar.blockClose) := by
    rintro _ _ ⟨rfl, rfl⟩ _ _ ⟨⟩
    refine ⟨_, rfl, ?_⟩
    dsimp only
    rw [Cursor.skipThrough_before rfl (fun x hx => hb.near_head x hx ▸ by decide) hfound,
      Cursor.skipThrough_before rfl (fun x hx => hb.far_head x hx ▸ by decide) hfound]
    exact .within _
  exact hs.bind fun _ => Crosses.skip_blankLine hb

theorem Read.lead_of_map {near far : List Char} {scope : Scope} {c d : Cursor} {l : Option Lead}
    (hr : ∀ u, u = near ∨ u = far → Pattern.firstOf scope.leads (c.rest ++ u) =
      (Pattern.firstOf scope.leads c.rest).map fun (a, m) => (a, m.before u))
    (h : Read.lead scope (c.before near) = .ok l d) :
    ∃ e : Cursor, d = e.before near ∧ Read.lead scope (c.before far) = .ok l (e.before far) := by
  simp only [Read.lead, Cursor.rest_before, hr near (.inl rfl), hr far (.inr rfl)] at h ⊢
  cases hl : Pattern.firstOf scope.leads c.rest with
  | none =>
    rw [hl] at h
    cases h
    exact ⟨c, rfl, rfl⟩
  | some p =>
    obtain ⟨lead, m⟩ := p
    rw [hl] at h
    by_cases hs : lead = .sigil
    · subst hs
      cases h
      exact ⟨c, rfl, rfl⟩
    · simp only [Option.map_some] at h ⊢
      cases h
      exact ⟨c.past m, rfl, rfl⟩

/-- What comes next in a scope is told by the text before the break. Only the blank
line that closes a section may take the break. -/
theorem Read.lead_meets {near far : List Char} (hb : Break near far) {scope : Scope}
    {c d : Cursor} (hc : c.rest ≠ []) {l : Option Lead}
    (h : Read.lead scope (c.before near) = .ok l d) :
    ∃ d', Read.lead scope (c.before far) = .ok l d' ∧
      Cursor.Meets (l = some .close) near far d d' := by
  have within : (∀ u, u = near ∨ u = far → Pattern.firstOf scope.leads (c.rest ++ u) =
      (Pattern.firstOf scope.leads c.rest).map fun (a, m) => (a, m.before u)) →
      ∃ d', Read.lead scope (c.before far) = .ok l d' ∧
        Cursor.Meets (l = some .close) near far d d' := by
    intro hr
    obtain ⟨e, rfl, he⟩ := lead_of_map hr h
    exact ⟨_, he, .within e⟩
  have hhead : ∀ u, u = near ∨ u = far → ∀ x ∈ u.head?, x = '\n' := by
    rintro u (rfl | rfl)
    · exact hb.near_head
    · exact hb.far_head
  cases scope with
  | top | item | modifier =>
    exact within fun u hu => Pattern.firstOf_append (fun x hx => hhead u hu x hx ▸ rfl) hc
  | lines heading =>
    rcases Pattern.run_blankLine c.rest with hr | hr
    · refine within fun u hu => Pattern.firstOf_map (g := (·.before u)) fun e he => ?_
      simp only [Scope.leads, List.mem_cons, List.not_mem_nil, or_false] at he
      rcases he with rfl | rfl | rfl
      · exact hr u (hhead u hu)
      · exact Pattern.run_append (fun x hx => hhead u hu x hx ▸ rfl) _
      · exact Pattern.run_append (fun x hx => hhead u hu x hx ▸ rfl) _
    · have hl : ∀ u, u = near ∨ u = far → Read.lead (.lines heading) (c.before u) =
          .ok (some .close) ((c.advance []).beyond u) := by
        intro u hu
        simp only [Read.lead, Scope.leads, Pattern.firstOf, List.findSome?_cons,
          Cursor.rest_before, hr u (hhead u hu), Option.map_some, Cursor.past_beyond]
      rw [hl near (.inl rfl)] at h
      cases h
      exact ⟨_, hl far (.inr rfl), .beyond rfl _ rfl⟩

end Gamebook
