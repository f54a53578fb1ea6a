import Gamebook.Proofs.Composition

/-!
A script is read passage by passage. A passage is one statement at the top together with
the section or the block that it opens; reading goes on with the next one until the source
ends or a passage fails.
-/
namespace Gamebook

theorem Read.Advances.of_ok {x : Read α} (hx : Advances x) {c d : Cursor} {a : α}
    (h : x c = .ok a d) : c.Reaches d := by
  have hr := hx c
  rwa [h] at hr

namespace Parse

theorem Advances.of_ok {x : Parse α} (hx : Advances x) {s t : Progress} {a : α}
    (h : x s = .ok a t) : s.cursor.Reaches t.cursor := by
  have hr := hx s
  rwa [h] at hr

theorem Advances.of_error {x : Parse α} (hx : Advances x) {s t : Progress} {fault : Fault}
    (h : x s = .error fault t) : s.cursor.Reaches t.cursor := by
  have hr := hx s
  rwa [h] at hr

/-- Read on to the end of a section or a block. -/
def finish (setting : Setting) (scope : Scope) (s : Progress) :
    EStateM.Result Fault Progress Unit :=
  if _hs : scope = .top ∨ s.cursor.rest = [] then .ok () s
  else
    match _h : Parse.step setting scope s with
    | .ok next t => finish setting next t
    | .error fault t => .error fault t
termination_by s.cursor.rest.length
decreasing_by exact (Takes.step setting scope).lt _h (not_or.1 _hs).2

/-- Read one statement at the top and what it opens. -/
def passage (setting : Setting) : Parse Unit := fun s =>
  match Parse.step setting .top s with
  | .ok next t => finish setting next t
  | .error fault t => .error fault t

theorem finish_reaches (setting : Setting) (scope : Scope) (s : Progress) :
    s.cursor.Reaches (reached (finish setting scope s)).cursor := by
  fun_induction finish setting scope s with
  | case1 => exact .refl _
  | case2 scope s hs next t h ih => exact ((Advances.step setting scope).of_ok h).trans ih
  | case3 scope s hs fault t h => exact (Advances.step setting scope).of_error h

/-- A passage only takes text, and takes some where there is any. -/
theorem Takes.passage (setting : Setting) : Takes (Parse.passage setting) := by
  constructor
  · intro s
    unfold Parse.passage
    split
    · rename_i next t h
      exact ((Advances.step setting .top).of_ok h).trans (finish_reaches setting next t)
    · rename_i fault t h
      exact (Advances.step setting .top).of_error h
  · intro s a u h hs
    unfold Parse.passage at h
    split at h
    · rename_i next t hstep
      have hr := (finish_reaches setting next t).length_le
      rw [h] at hr
      exact Nat.lt_of_le_of_lt hr ((Takes.step setting .top).lt hstep hs)
    · simp at h

/-- Behind a section or a block reading goes on at the top. -/
theorem run_eq_finish (setting : Setting) (scope : Scope) (s : Progress) :
    run setting scope s =
      match finish setting scope s with
      | .ok _ t => run setting .top t
      | .error fault t => .error fault t := by
  fun_induction finish setting scope s with
  | case1 scope s hs =>
    rcases hs with rfl | hs
    · rfl
    · simp only [run_of_nil hs]
  | case2 scope s hs next t h ih => rw [run_of_ok (not_or.1 hs).2 h, ih]
  | case3 scope s hs fault t h => rw [run_of_error (not_or.1 hs).2 h]

theorem run_eq_passage {setting : Setting} {s : Progress} (hs : s.cursor.rest ≠ []) :
    run setting .top s =
      match passage setting s with
      | .ok _ t => run setting .top t
      | .error fault t => .error fault t := by
  unfold passage
  cases h : Parse.step setting .top s with
  | ok next t => rw [run_of_ok hs h, run_eq_finish]
  | error fault t => rw [run_of_error hs h]

/-- From the first state the second is got to by whole passages. -/
inductive Passages (setting : Setting) : Progress → Progress → Prop
  | refl (s : Progress) : Passages setting s s
  | next {s t u : Progress} (hs : s.cursor.rest ≠ []) (h : passage setting s = .ok () t)
    (rest : Passages setting t u) : Passages setting s u

theorem Passages.reaches {setting : Setting} {s t : Progress} (h : Passages setting s t) :
    s.cursor.Reaches t.cursor := by
  induction h with
  | refl s => exact .refl _
  | @next s t u _ h _ ih => exact ((Takes.passage setting).advances.of_ok h).trans ih

/-- How reading ends: at the end of the source, or in the first passage that fails. -/
inductive Outcome (setting : Setting) (s : Progress) : EStateM.Result Fault Progress Unit → Prop
  | finished {t : Progress} (h : Passages setting s t) (ht : t.cursor.rest = []) :
    Outcome setting s (.ok () t)
  | failed {t u : Progress} {fault : Fault} (h : Passages setting s t) (ht : t.cursor.rest ≠ [])
    (hu : passage setting t = .error fault u) : Outcome setting s (.error fault u)

theorem run_outcome (setting : Setting) (s : Progress) :
    Outcome setting s (run setting .top s) := by
  by_cases hs : s.cursor.rest = []
  · rw [run_of_nil hs]
    exact .finished (.refl s) hs
  · rw [run_eq_passage hs]
    cases h : passage setting s with
    | error fault u => exact .failed (.refl s) hs h
    | ok a t =>
      have hlt := (Takes.passage setting).lt h hs
      have ho := run_outcome setting t
      simp only
      generalize run setting .top t = r at ho
      cases ho with
      | finished hp ht => exact .finished (.next hs h hp) ht
      | failed hp ht hu => exact .failed (.next hs h hp) ht hu
termination_by s.cursor.rest.length

end Parse
end Gamebook
