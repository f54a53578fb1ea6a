import Gamebook.Proofs.Forms

/-!
What a record uses of its line. A reader takes tokens from the front and looks at no more than
one behind them, which it leaves; so on the tokens that it takes, it does the same when they
are all there is. The trees and ranges of a record are contents of its line.
-/
namespace Gamebook

def Definition.trees (v : Definition) : List Expr := v.change.value?.toList

def Command.trees : Command → List Expr
  | callMod _ cond => cond.toList
  | setVariable v => v.trees
  | _ => []

def Directive.trees (d : Directive) : List Expr := d.cond.toList ++ d.command.trees

def Action.trees (a : Action) : List Expr := a.trigger.cond?.toList

def Behavior.trees (b : Behavior) : List Expr := b.cond.toList

def Property.ranges (p : Property) : List Range := p.range.toList

namespace Record

def trees : Record → List Expr
  | action a => a.trees
  | behavior _ _ b => b.trees
  | directive _ d => d.trees
  | definition v => v.trees
  | _ => []

def ranges : Record → List Range
  | property _ p => p.ranges
  | _ => []

/-- What the record is made of has the property. -/
structure Over (Q : Content → Prop) (r : Record) : Prop where
  trees : ∀ e ∈ r.trees, Q (.expression e)
  ranges : ∀ x ∈ r.ranges, Q (.range x)

/-- A record without trees and ranges. -/
theorem Over.bare {Q : Content → Prop} {r : Record} (ht : r.trees = []) (hr : r.ranges = []) :
    r.Over Q := by
  constructor
  · rw [ht]
    exact List.forall_mem_nil _
  · rw [hr]
    exact List.forall_mem_nil _

end Record

namespace Line

theorem eatOne_used {slot : Slot} {line rest : Line} {content : Option Content}
    (h : line.eatOne slot = (content, rest)) :
    ∃ used : Line, line = used ++ rest ∧ (∀ x ∈ content, ∃ t ∈ used, t.content = x) ∧
      ∀ more : Line, more <+: rest → (used ++ more).eatOne slot = (content, more) := by
  cases line with
  | nil =>
    cases h
    refine ⟨[], rfl, by simp, fun more hmore => ?_⟩
    rw [List.prefix_nil.1 hmore]
    rfl
  | cons t line =>
    by_cases ht : slot.accepts t.content = true
    · rw [eatOne, if_pos ht] at h
      cases h
      refine ⟨[t], rfl, by simp, fun more _ => ?_⟩
      rw [List.singleton_append, eatOne, if_pos ht]
    · rw [eatOne, if_neg ht] at h
      cases h
      refine ⟨[], rfl, by simp, fun more hmore => ?_⟩
      rcases List.prefix_cons_iff.1 hmore with rfl | ⟨more, rfl, -⟩
      · rfl
      · rw [List.nil_append, eatOne, if_neg ht]

theorem eatAll_used (slot : Slot) (line : Line) :
    ∃ used : Line, line = used ++ (line.eatAll slot).2 ∧
      ∀ more : Line, more <+: (line.eatAll slot).2 →
        (used ++ more).eatAll slot = ((line.eatAll slot).1, more) := by
  induction line with
  | nil =>
    refine ⟨[], rfl, fun more hmore => ?_⟩
    rw [List.prefix_nil.1 hmore]
    rfl
  | cons t line ih =>
    by_cases ht : slot.accepts t.content = true
    · obtain ⟨used, hline, hmore⟩ := ih
      simp only [eatAll, ht, if_true]
      refine ⟨t :: used, by rw [List.cons_append, ← hline], fun more hm => ?_⟩
      rw [List.cons_append, eatAll, if_pos ht, hmore more hm]
    · simp only [eatAll, ht]
      refine ⟨[], rfl, fun more hm => ?_⟩
      rcases List.prefix_cons_iff.1 hm with rfl | ⟨more, rfl, -⟩
      · rfl
      · simp [eatAll, ht]

end Line

namespace Entry

/-- From a line of which every content has the first property the reader makes what has the
second. It uses tokens from the front, and if no more than a part of the others followed them,
it would do the same. -/
def Uses (Q : Content → Prop) (x : Entry α) (P : α → Prop) : Prop :=
  ∀ line : Line, (∀ t ∈ line, Q t.content) → ∀ a rest, x line = .ok (a, rest) →
    P a ∧ ∃ used : Line, line = used ++ rest ∧
      ∀ more : Line, more <+: rest → x (used ++ more) = .ok (a, more)

namespace Uses

variable {Q : Content → Prop} {P : α → Prop} {R : β → Prop}

theorem pure {a : α} (h : P a) : Uses Q (Pure.pure a) P := by
  intro line _ a' rest heq
  cases heq
  exact ⟨h, [], rfl, fun more _ => rfl⟩

theorem refuse (complaint : Complaint) : Uses Q (Entry.refuse complaint) P := by
  intro line _ a rest heq
  cases heq

/-- The second reader uses the tokens behind those of the first one. -/
theorem bind {x : Entry α} {k : α → Entry β} (hx : Uses Q x P)
    (hk : ∀ a, P a → Uses Q (k a) R) : Uses Q (x >>= k) R := by
  intro line hline b rest h
  obtain ⟨a, mid, ha, hb⟩ := bind_ok h
  obtain ⟨hp, used, rfl, hused⟩ := hx line hline a mid ha
  have hmid : ∀ t ∈ mid, Q t.content := fun t ht => hline t (List.mem_append_right used ht)
  obtain ⟨hr, used', rfl, hused'⟩ := hk a hp mid hmid b rest hb
  refine ⟨hr, used ++ used', (List.append_assoc ..).symm, fun more hmore => ?_⟩
  have hfront : used' ++ more <+: used' ++ rest := (List.prefix_append_right_inj used').2 hmore
  rw [List.append_assoc]
  change (x (used ++ (used' ++ more)) >>= fun p => k p.1 p.2) = _
  rw [hused _ hfront]
  exact hused' more hmore

theorem ite {b : Bool} {x y : Entry α} (hx : Uses Q x P) (hy : Uses Q y P) :
    Uses Q (if b then x else y) P := by
  cases b
  · exact hy
  · exact hx

theorem take? (kind : TokenKind) {value? : Content → Option α}
    (h : ∀ content a, Q content → value? content = some a → P a) :
    Uses Q (Entry.take? kind value?) fun o => ∀ a ∈ o, P a := by
  intro line hline o rest heq
  cases heq
  obtain ⟨used, hused, hcontent, hmore⟩ :=
    Line.eatOne_used (rfl : line.eatOne (.kind kind) = _)
  refine ⟨fun a ha => ?_, used, hused, fun more hm => ?_⟩
  · obtain ⟨content, hc, hvalue⟩ := Option.bind_eq_some_iff.1 ha
    obtain ⟨t, ht, rfl⟩ := hcontent content hc
    exact h _ a (hline t (hused ▸ List.mem_append_left _ ht)) hvalue
  · simp only [Entry.take?, hmore more hm]

theorem any (kind : TokenKind) (value? : Content → Option α) :
    Uses Q (Entry.take? kind value?) fun _ => True := by
  intro line hline o rest h
  exact ⟨trivial, (take? (P := fun _ => True) kind (fun _ _ _ _ => trivial) line hline o rest h).2⟩

theorem keyword (name : String) : Uses Q (Entry.keyword name) fun _ => True := by
  intro line _ b rest heq
  cases heq
  obtain ⟨used, hused, -, hmore⟩ := Line.eatOne_used (rfl : line.eatOne (.word name) = _)
  refine ⟨trivial, used, hused, fun more hm => ?_⟩
  simp only [Entry.keyword, hmore more hm]

theorem words : Uses Q Entry.words fun _ => True := by
  intro line _ names rest heq
  cases heq
  obtain ⟨used, hused, hmore⟩ := Line.eatAll_used (.kind .word) line
  refine ⟨trivial, used, hused, fun more hm => ?_⟩
  simp only [Entry.words, hmore more hm]

theorem expression? : Uses Q Entry.expression? fun o => ∀ e ∈ o.toList, Q (.expression e) := by
  intro line hline o rest h
  have hvalue : ∀ content e, Q content → Content.expression? content = some e →
      Q (.expression e) := by
    intro content e hq he
    cases content <;> cases he
    exact hq
  obtain ⟨ho, hused⟩ := take? .expression hvalue line hline o rest h
  exact ⟨fun e he => ho e (Option.mem_toList.1 he), hused⟩

theorem range? : Uses Q Entry.range? fun o => ∀ x ∈ o.toList, Q (.range x) := by
  intro line hline o rest h
  have hvalue : ∀ content x, Q content → Content.range? content = some x → Q (.range x) := by
    intro content x hq hx
    cases content <;> cases hx
    exact hq
  obtain ⟨ho, hused⟩ := take? .range hvalue line hline o rest h
  exact ⟨fun x hx => ho x (Option.mem_toList.1 hx), hused⟩

theorem need {x : Entry (Option α)} (hx : Uses Q x fun _ => True) (wanted : Wanted) :
    Uses Q (Entry.need x wanted) fun _ => True := by
  refine .bind hx fun o _ => ?_
  split
  · exact .pure trivial
  · exact .refuse _

theorem text (wanted : Wanted) : Uses Q (Entry.need Entry.string? wanted) fun _ => True :=
  .need (.any _ _) wanted

theorem name (wanted : Wanted) : Uses Q (Entry.need Entry.word? wanted) fun _ => True :=
  .need (.any _ _) wanted

theorem itemOr (item : Option String) : Uses Q (Entry.itemOr item) fun _ => True := by
  cases item with
  | some id => exact .pure trivial
  | none => exact .name _

theorem propertyName : Uses Q Entry.propertyName fun _ => True := by
  refine .bind (.any _ _) fun name _ => ?_
  split
  · exact .pure trivial
  · exact .name _

theorem trigger : Uses Q Entry.trigger fun t => ∀ e ∈ t.cond?.toList, Q (.expression e) := by
  refine .bind .expression? fun cond hcond => ?_
  split
  · exact .pure hcond
  · exact .bind (.name _) fun _ _ => .pure (List.forall_mem_nil _)

theorem action (ref : Nat) : Uses Q (Entry.action ref) (Record.Over Q) := by
  refine .bind .trigger fun trigger htrigger => .bind (.text _) fun label _ =>
    .bind (.any _ _) fun message _ => .bind .words fun mods _ => ?_
  have hover : ∀ label message mods, (Record.action ⟨trigger, label, message, mods, ref⟩).Over Q :=
    fun _ _ _ => ⟨htrigger, List.forall_mem_nil _⟩
  cases trigger with
  | node id => exact .pure (hover _ _ _)
  | condition cond =>
    by_cases hnone : (message.isNone && mods.isEmpty) = true
    · simp only [hnone, if_true]
      exact .bind (.refuse (P := fun _ => True) _) fun _ _ => .pure (hover _ _ _)
    · simp only [hnone]
      exact .pure (hover _ _ _)

theorem target (category : Category) : Uses Q (Entry.target category) fun _ => True := by
  cases category with
  | use =>
    exact .bind (.keyword _) fun _ _ => .ite (.bind (.name _) fun _ _ => .pure trivial)
      (.pure trivial)
  | _ => exact .pure trivial

theorem behavior (category : Category) (item : Option String) (count : Option Nat) (ref : Nat) :
    Uses Q (Entry.behavior category item count ref) (Record.Over Q) :=
  .bind (.keyword _) fun _ _ => .bind (.itemOr item) fun _ _ =>
    .bind (.target category) fun _ _ => .bind .expression? fun _ hcond =>
      .bind (.any _ _) fun _ _ => .bind .words fun _ _ => .pure ⟨hcond, List.forall_mem_nil _⟩

theorem place : Uses Q Entry.place fun _ => True :=
  .bind (.keyword _) fun _ _ => .ite (.pure trivial) <|
    .bind (.keyword _) fun _ _ => .ite (.pure trivial) <|
      .bind (.name _) fun _ _ => .pure trivial

theorem boringCase : Uses Q Entry.boringCase fun _ => True :=
  .bind (.keyword _) fun _ _ => .ite (.bind (.keyword _) fun _ _ => .pure trivial) <|
    .bind (.keyword _) fun _ _ => .ite (.pure trivial) <|
    .bind (.keyword _) fun _ _ => .ite (.pure trivial) <|
    .bind (.keyword _) fun _ _ => .ite (.bind (.keyword _) fun _ _ => .pure trivial) (.refuse _)

/-- Every form of record. -/
theorem form (block : Option String) (ref : Nat) (f : Form) :
    Uses Q (f.reader block ref) (Record.Over Q) := by
  have hbare : ∀ {r : Record}, r.trees = [] → r.ranges = [] →
      Uses Q (Pure.pure r) (Record.Over Q) :=
    fun ht hr => .pure (.bare ht hr)
  cases f with
  | start => exact .bind (.text _) fun _ _ => .bind (.name _) fun _ _ => hbare rfl rfl
  | node =>
    exact .bind (.keyword _) fun _ _ => .bind (.name _) fun _ _ => .bind (.text _) fun _ _ =>
      hbare rfl rfl
  | property =>
    exact .bind .propertyName fun _ _ => .bind (.text _) fun _ _ => .bind .range? fun _ hrange =>
      .pure ⟨List.forall_mem_nil _, hrange⟩
  | path =>
    exact .bind (.name _) fun _ _ => .bind (.text _) fun _ _ => .bind (.name _) fun _ _ =>
      .bind .words fun _ _ => hbare rfl rfl
  | action => exact action ref
  | boring => exact .bind .boringCase fun _ _ => .bind (.text _) fun _ _ => hbare rfl rfl
  | item =>
    exact .bind (.name _) fun _ _ => .bind (.text _) fun _ _ => .bind (.any _ _) fun _ _ =>
      hbare rfl rfl
  | modifier => exact .bind (.name _) fun _ _ => hbare rfl rfl
  | behavior category count => exact behavior category block count ref
  | location => exact .bind (.itemOr _) fun _ _ => .bind .place fun _ _ => hbare rfl rfl
  | resources => exact .bind (.itemOr _) fun _ _ => .bind .words fun _ _ => hbare rfl rfl

/-- The trees of the command are contents with the property. -/
abbrev Commands (Q : Content → Prop) (x : Entry Command) : Prop :=
  Uses Q x fun c => ∀ e ∈ c.trees, Q (.expression e)

theorem addItem : Commands Q Entry.addItem := by
  refine .bind (.name _) fun first _ => .bind (.any _ _) fun item _ => ?_
  split <;> exact .pure (List.forall_mem_nil _)

theorem pairOf (make : String → String → Command) (hm : ∀ a b, (make a b).trees = [])
    (wanted : Wanted) : Commands Q (Entry.pairOf make wanted) :=
  .bind (.name _) fun a _ => .bind (.name _) fun b _ => .pure (hm a b ▸ List.forall_mem_nil _)

theorem skip : Commands Q Entry.skip := by
  refine .bind (.any _ _) fun count _ => ?_
  split
  · exact .pure (List.forall_mem_nil _)
  · exact .refuse _

theorem arguments {keyword : String} {x : Entry Command} (h : arguments? keyword = some x) :
    Commands Q x := by
  have hbare : ∀ {c : Command}, c.trees = [] → Commands Q (Pure.pure c) :=
    fun hc => .pure (hc ▸ List.forall_mem_nil _)
  unfold arguments? at h
  split at h <;> cases h
  · exact .bind (.text _) fun _ _ => hbare rfl
  · exact addItem
  · exact .bind (.name _) fun _ _ => hbare rfl
  · exact .bind (.name _) fun _ _ => .bind (.text _) fun _ _ => .bind (.any _ _) fun _ _ =>
      hbare rfl
  · exact pairOf .addResource (fun _ _ => rfl) _
  · exact pairOf .delResource (fun _ _ => rfl) _
  · exact .bind (.name _) fun _ _ => .bind (.text _) fun _ _ => hbare rfl
  · exact .bind (.name _) fun _ _ => .bind (.text _) fun _ _ => .bind (.name _) fun _ _ =>
      hbare rfl
  · exact pairOf .delPath (fun _ _ => rfl) _
  · exact .bind (.name _) fun _ _ => hbare rfl
  · exact .bind .expression? fun _ hcond => .bind (.name _) fun _ _ => .pure hcond
  · exact skip
  · exact hbare rfl

theorem command : Commands Q Entry.command := by
  refine .bind (.any _ _) fun word _ => ?_
  split
  · rename_i x hx
    obtain ⟨w, -, hw⟩ := Option.bind_eq_some_iff.1 hx
    exact arguments hw
  · exact .refuse _

end Uses
end Entry
end Gamebook
