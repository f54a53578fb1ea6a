import Gamebook.Proofs.Extent
import Gamebook.Proofs.Provenance

/-!
A registry of functions only filters. Whoever reads an expression with a registry reads what is
read without one, or is stopped at a call that the registry does not know. So an expression is
read with the registry exactly if it is read without one and all its calls are allowed.
-/
namespace Gamebook

open Grammar

namespace Expr

theorem callsAll_eq (es : List Expr) : callsAll es = es.flatMap calls := by
  induction es with
  | nil => rfl
  | cons e es ih => rw [callsAll, ih, List.flatMap_cons]

theorem calls_of_isAtom {e : Expr} (h : e.isAtom = true) : e.calls = [] := by
  cases e with
  | property | call | unary | binary => cases h
  | _ => rfl

theorem gathers_calls : Gathers calls fun name n => [(name, n)] where
  property _ _ := rfl
  unary _ _ := rfl
  binary _ _ _ := rfl
  call name args := by rw [calls, callsAll_eq]

end Expr

namespace Registry

/-- The function is known, and where its number of arguments is told it is this one. -/
def Allows (registry : Registry) (name : String) (given : Nat) : Prop :=
  ∃ arity, registry.lookup name = some arity ∧ ∀ n ∈ arity, n = given

theorem complaint?_eq_none {registry : Registry} {name : String} {given : Nat} :
    registry.complaint? name given = none ↔ registry.Allows name given := by
  unfold complaint? Allows
  rcases registry.lookup name with - | - | n
  · simp
  · simp
  · simp

end Registry

/-- All calls in the tree are allowed. -/
def Expr.Conforms (registry : Registry) (e : Expr) : Prop :=
  ∀ k ∈ e.calls, registry.Allows k.1 k.2

/-- The calls of an expression are those that were let through. -/
theorem Read.expr_calls {setting : Setting} {goal : Goal} {c d : Cursor} {e : Expr}
    (h : Read.expr setting goal c = .ok e d) :
    ∀ k ∈ e.calls, setting.complaint? k.1 k.2 = none := by
  refine Read.expr_gathers Expr.gathers_calls ?_ ?_ h
  · intro name n hn
    exact List.forall_mem_singleton.2 hn
  · intro b _ l t hl
    refine (Found.ofLexeme_atom b.pos hl).mono fun e he => ?_
    rw [Expr.calls_of_isAtom he.1]
    exact List.forall_mem_nil _

/-- With the registry the step is the same, or it is stopped where a call that is not allowed
was taken. -/
def Step.Screens (registry : Registry) (free screened : Step) : Prop :=
  screened = free ∨ (∃ fault d, screened = .stop fault d) ∧
    ∃ m c k, free = .more m c ∧ k ∈ m.gather Expr.calls ∧ ¬ registry.Allows k.1 k.2

namespace Machine

variable {registry : Registry} {limit : Int} {goal : Goal} {m : Machine} {c d : Cursor} {e : Expr}

theorem mem_gather_fill {w : Expr → List β} {x : β} (h : x ∈ w e) (m : Machine)
    (chainable : Bool) : x ∈ (m.fill e chainable).gather w := by
  simp [gather, fill, Level.gather, Level.fill, Condition.gather, Condition.fill, h]

theorem finishCall_screens (m : Machine) (name : String) (place : Nat) (args : List Expr)
    (c : Cursor) : Step.Screens registry (m.finishCall { limit } name place args c)
      (m.finishCall { registry := some registry, limit } name place args c) := by
  cases hr : registry.complaint? name args.length with
  | none => exact .inl (by simp [finishCall, Setting.complaint?, hr])
  | some complaint =>
    have hbarred : ¬ registry.Allows name args.length := by
      rw [← Registry.complaint?_eq_none, hr]
      simp
    refine .inr ⟨⟨.refused complaint place, c, ?_⟩, m.fill (.call name args.reverse) true, c,
      (name, args.length), rfl, mem_gather_fill ?_ m true, hbarred⟩
    · simp [finishCall, Setting.complaint?, hr, refuse]
    · simp [Expr.calls]

theorem accept_screens (m : Machine) (here : Nat) (found : Found) :
    Step.Screens registry (m.accept { limit } goal here found)
      (m.accept { registry := some registry, limit } goal here found) := by
  cases found with
  | emptyCall name place c => exact finishCall_screens m name place [] c
  | _ => exact .inl rfl

theorem lexemeStep_screens (m : Machine) (c : Cursor) :
    Step.Screens registry (m.lexemeStep { limit } goal c)
      (m.lexemeStep { registry := some registry, limit } goal c) := by
  unfold lexemeStep
  split
  · split
    · rw [operandStep_eq, operandStep_eq]
      exact accept_screens ..
    · exact .inl rfl
  · exact .inl rfl

theorem step_screens (m : Machine) (c : Cursor) :
    Step.Screens registry (m.step { limit } goal c)
      (m.step { registry := some registry, limit } goal c) := by
  have hlexeme : Step.Screens registry (m.lexemeStep { limit } goal c)
      (m.lexemeStep { registry := some registry, limit } goal c) := lexemeStep_screens m c
  unfold step
  split
  · split
    · exact .inl rfl
    · split
      · exact .inl rfl
      · exact hlexeme
  · split
    · exact .inl rfl
    · exact hlexeme
  · split
    · split
      · simp only
        split
        · exact finishCall_screens ..
        · exact .inl rfl
      · exact .inl rfl
    · exact hlexeme

/-- What is read with the registry is read without it. -/
theorem run_of_screened (h : m.run { registry := some registry, limit } goal c = .ok e d) :
    m.run { limit } goal c = .ok e d := by
  fun_induction run { registry := some registry, limit } goal m c with
  | case1 m c m' c' hs ih =>
    rcases step_screens m c with heq | ⟨⟨fault, d, hstop⟩, -⟩
    · rw [run_of_more (heq.symm.trans hs)]
      exact ih h
    · rw [hs] at hstop
      cases hstop
  | case2 m c e' c' hs =>
    rcases step_screens m c with heq | ⟨⟨fault, d, hstop⟩, -⟩
    · rw [run_of_done (heq.symm.trans hs)]
      exact h
    · rw [hs] at hstop
      cases hstop
  | case3 m c fault c' hs => cases h

/-- What is read without the registry and conforms to it is read with it. -/
theorem run_screened (hp : m.Proper) (he : e.Conforms registry)
    (h : m.run { limit } goal c = .ok e d) :
    m.run { registry := some registry, limit } goal c = .ok e d := by
  fun_induction run { limit } goal m c with
  | case1 m c m' c' hs ih =>
    have hm : Step.Proper (.more m' c') := hs ▸ step_proper hp c
    rcases step_screens m c with heq | ⟨-, m₁, c₁, k, hmore, hk, hbarred⟩
    · rw [run_of_more (heq.trans hs)]
      exact ih hm h
    · -- the call is still there at the end, so it is allowed
      rw [hs] at hmore
      cases hmore
      obtain ⟨new, hnew, -⟩ := run_gathers (Q := fun _ => True) Expr.gathers_calls
        (fun _ _ _ _ _ => trivial) hm (fun b _ l t hl =>
          (Found.ofLexeme_atom b.pos hl).mono fun _ _ _ _ => trivial) h
      exact absurd (he k (hnew ▸ List.mem_append_left _ hk)) hbarred
  | case2 m c e' c' hs =>
    rcases step_screens m c with heq | ⟨-, m₁, c₁, k, hmore, -⟩
    · rw [run_of_done (heq.trans hs)]
      exact h
    · rw [hs] at hmore
      cases hmore
  | case3 m c fault c' hs => cases h

end Machine

/-- An expression is read with the registry exactly if it is read without one and conforms. -/
theorem Read.expr_screened (registry : Registry) (limit : Int) (goal : Goal) (c d : Cursor)
    (e : Expr) : Read.expr { registry := some registry, limit } goal c = .ok e d ↔
      Read.expr { limit } goal c = .ok e d ∧ e.Conforms registry := by
  constructor
  · intro h
    refine ⟨?_, fun k hk => Registry.complaint?_eq_none.1 (Read.expr_calls h k hk)⟩
    unfold Read.expr at h ⊢
    split at h
    · cases h
    · rename_i hd
      rw [if_neg hd]
      exact Machine.run_of_screened h
  · rintro ⟨h, he⟩
    unfold Read.expr at h ⊢
    split at h
    · cases h
    · rename_i hd
      rw [if_neg hd]
      exact Machine.run_screened ⟨.new _, by simp⟩ he h

/-- With a registry a probe reads what it reads without one if that conforms, and nothing else.
So all expressions of a document that was read with a registry conform to it. -/
theorem Registry.filters (registry : Registry) (limit : Int) :
    (∀ (p : Probe) (goal : Goal) (e : Expr) (pos : Int) (held : List Char),
      p.expr { registry := some registry, limit } goal = (.ok e, pos, held) ↔
        p.expr { limit } goal = (.ok e, pos, held) ∧ e.Conforms registry) ∧
    ∀ source, ∀ e ∈ (Script.read { registry := some registry, limit } source).document.trees,
      e.Conforms registry := by
  constructor
  · intro p goal e pos held
    simp only [Probe.expr_eq_ok, Read.expr_screened]
    constructor
    · rintro ⟨c, ⟨hr, he⟩, hpos, hheld⟩
      exact ⟨⟨c, hr, hpos, hheld⟩, he⟩
    · rintro ⟨⟨c, hr, hpos, hheld⟩, he⟩
      exact ⟨c, ⟨hr, he⟩, hpos, hheld⟩
  · intro source e he
    have hall := Setting.supplies_of_expr (P := Expr.Conforms registry)
      (fun goal c e d h => ((Read.expr_screened registry limit goal c d e).1 h).2) source
    exact (Script.document_supplied hall).trees e he e rfl

/-- One call that the registry allows, and one with an argument missing that it stops. -/
theorem Registry.filters_arity :
    let registry : Registry := [("f", some 2), ("g", none)]
    let p : Probe := { source := "f(g(), 1) + f(2)".toList, filename := "" }
    let script := Script.read { registry := some registry, limit := 64 } "var x := f(g(), 1)".toList
    (p.expr { limit := 64 } .line).1.isOk = true ∧
      (p.expr { registry := some registry, limit := 64 } .line).1.isOk = false ∧
      (∀ e pos held, p.expr { limit := 64 } .line = (.ok e, pos, held) → ¬ e.Conforms registry) ∧
      script.document.trees.map Expr.calls = [[("g", 0), ("f", 2)]] ∧
      ∀ e ∈ script.document.trees, e.Conforms registry := by
  intro registry p script
  have hstopped : (p.expr { registry := some registry, limit := 64 } .line).1.isOk = false := by
    decide +kernel
  refine ⟨by decide +kernel, hstopped, ?_, by decide +kernel, ?_⟩
  · intro e pos held hfree hconforms
    rw [((filters registry 64).1 p .line e pos held).2 ⟨hfree, hconforms⟩] at hstopped
    cases hstopped
  · exact (filters registry 64).2 _

end Gamebook
