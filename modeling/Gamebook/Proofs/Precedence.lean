import Gamebook.Proofs.Grouping
import Gamebook.Proofs.Operand

/-!
Precedence and associativity of the whole infix language. Operands, each under signs of
its own, are written with an operator between any two and blanks around the operators;
the text is read as the one tree that groups them as the precedences say.
-/
namespace Gamebook

open Grammar

/-- The operators from the loosest to the tightest, those that bind alike together. -/
def BinaryOp.tiers : List (List BinaryOp) :=
  [[.or], [.and], [.eq, .ne], [.lt, .le, .gt, .ge], [.add, .sub], [.mul, .div]]

/-- The ways to write a sign. -/
inductive UnaryOp.Written : UnaryOp → List Char → Prop
  | minus : Written .minus ['-']
  | bang : Written .not ['!']
  | not {w : List Char} (h : Spells "not" w) : Written .not (w ++ [' '])

/-- An operand under its signs, the first written outermost. -/
inductive Signed (setting : Setting) (depth : Int) : List Char → Expr → Prop
  | plain {t : List Char} {o : Operand} (h : o.Written setting depth t) :
    Signed setting depth t o.expr
  | sign {op : UnaryOp} {w t : List Char} {e : Expr} (h : op.Written w)
    (rest : Signed setting depth t e) : Signed setting depth (w ++ t) (.unary op e)

/-- An operator and the operand after it, each with its text. -/
structure Link where
  sign : List Char
  op : BinaryOp
  text : List Char
  operand : Expr

def Link.Written (setting : Setting) (depth : Int) (l : Link) : Prop :=
  l.op.Written l.sign ∧ Signed setting depth l.text l.operand

/-- The text of operators and operands with single blanks between. -/
def Link.texts : List Link → List Char
  | [] => []
  | l :: ls => ' ' :: (l.sign ++ ' ' :: (l.text ++ texts ls))

namespace Signed

open Machine

variable {setting : Setting} {goal : Goal} {depth : Int} {t u : List Char} {e : Expr}

theorem not_first {w : List Char} (h : Spells "not" w) :
    ∃ x s, w = x :: s ∧ isFirst x = true := by
  obtain ⟨x, s, rfl, hx⟩ := Lexeme.spells_head 'n' h rfl (by decide)
  refine ⟨x, s, rfl, ?_⟩
  rcases hx with rfl | rfl <;> decide

theorem exists_first (h : Signed setting depth t e) : ∃ x s, t = x :: s ∧ isFirst x = true := by
  cases h with
  | plain h => exact h.exists_first
  | sign h rest =>
    cases h with
    | minus | bang => exact ⟨_, _, rfl, by decide⟩
    | not h =>
      obtain ⟨x, s, rfl, hx⟩ := not_first h
      exact ⟨x, _, rfl, hx⟩

theorem free_isBlank (h : Signed setting depth t e) (u : List Char) : Free isBlank (t ++ u) := by
  obtain ⟨x, s, rfl, hx⟩ := h.exists_first
  simp only [isFirst, Bool.and_eq_true, Bool.not_eq_true'] at hx
  simpa [Free] using hx.1.2

/-- A sign is read and waits for its operand. -/
theorem reads_sign (hg : goal.Plain) {m : Machine} (hm : m.level.condition.operand = none)
    {op : UnaryOp} {w s : List Char} (h : op.Written w) (hs : Free (!isFirst ·) s) :
    Reads setting goal m (w ++ s) (m.withCondition (m.level.condition.sign op)) s := by
  cases h with
  | minus =>
    exact .operand hg hm (l := .arithmetic .sub) (t := ⟨['-'], [], s⟩) rfl (by simp [Free, isEnd])
      fun here c hc => ⟨c.release, hc, rfl⟩
  | bang =>
    exact .operand hg hm (Lexeme.next?_bang (hs.mono (by simp [isFirst]))) (by simp [Free, isEnd])
      fun here c hc => ⟨c, hc, rfl⟩
  | @not w h =>
    have hn := Lexeme.next?_not h (u := ' ' :: s) (by simp [Apart, Free]; decide)
    have hx : Free isEnd (w ++ ' ' :: s) := by
      obtain ⟨x, w, rfl, hx⟩ := not_first h
      simp only [isFirst, Bool.and_eq_true, Bool.not_eq_true'] at hx
      simpa [Free] using hx.1.1
    rw [List.append_assoc, List.singleton_append]
    refine Reads.trans (.operand hg hm hn hx fun here c hc => ⟨c, hc, rfl⟩) ?_
    exact .blanks hg _ (w := [' ']) (by simp [isBlank]) (hs.mono (by simp_all [isFirst]))

/-- An operand is read together with its signs. -/
theorem reads (hg : goal.Plain) {m : Machine} (hm : m.level.condition.operand = none)
    (hd : goal.depth + (m.stack.length + 1 : Nat) = depth) (h : Signed setting depth t e)
    (hu : Ends u) : ∃ signs o,
      Reads setting goal m (t ++ u)
        (m.withCondition { m.level.condition with signs, operand := some o }) u ∧
      Condition.signed { signs } o.expr = m.level.condition.signed e := by
  induction h generalizing m with
  | @plain t o h => exact ⟨_, o, (hd ▸ h).reads hg hm (o.bounded hu), rfl⟩
  | @sign op w t e h rest ih =>
    have hs : Free (!isFirst ·) (t ++ u) := by
      obtain ⟨x, s, rfl, hx⟩ := rest.exists_first
      simpa [Free] using hx
    obtain ⟨signs, o, hr, he⟩ := ih (m := m.withCondition (m.level.condition.sign op)) hm hd
    rw [List.append_assoc]
    exact ⟨signs, o, (reads_sign hg hm h hs).trans hr, he⟩

end Signed

/-- All operands but the last, each with the operator after it, and the last one. -/
def Link.chain (e : Expr) : List Link → List (Expr × BinaryOp) × Expr
  | [] => ([], e)
  | l :: ls => ((e, l.op) :: (chain l.operand ls).1, (chain l.operand ls).2)

theorem Link.operands_chain (e : Expr) (ls : List Link) :
    (Link.chain e ls).1.map Prod.fst ++ [(Link.chain e ls).2] = e :: ls.map operand := by
  induction ls generalizing e with
  | nil => rfl
  | cons l ls ih => simp [chain, ih]

theorem Link.operators_chain (e : Expr) (ls : List Link) :
    (Link.chain e ls).1.map Prod.snd = ls.map op := by
  induction ls generalizing e with
  | nil => rfl
  | cons l ls ih => simp [chain, ih]

theorem BinaryOp.Written.exists_first {op : BinaryOp} {w : List Char} (h : op.Written w) :
    ∃ x s, w = x :: s ∧ isEnd x = false ∧ isBlank x = false ∧ x ≠ 't' := by
  cases h with
  | symbol h =>
    simp only [all, List.mem_cons, List.not_mem_nil, or_false] at h
    rcases h with rfl | rfl | rfl | rfl | rfl | rfl | rfl | rfl | rfl | rfl | rfl | rfl <;>
      exact ⟨_, _, rfl, by decide, by decide, by decide⟩
  | equal => exact ⟨_, _, rfl, by decide, by decide, by decide⟩
  | and h =>
    obtain ⟨x, s, rfl, hx⟩ := Lexeme.spells_head 'a' h rfl (by decide)
    refine ⟨x, s, rfl, ?_⟩
    rcases hx with rfl | rfl <;> decide
  | or h =>
    obtain ⟨x, s, rfl, hx⟩ := Lexeme.spells_head 'o' h rfl (by decide)
    refine ⟨x, s, rfl, ?_⟩
    rcases hx with rfl | rfl <;> decide

namespace Machine

variable {setting : Setting} {goal : Goal} {m m' : Machine} {u : List Char}

/-- The machine holds a chain, latest first, and its last operand. Beyond its
condition it is as `m` is. -/
def Holding (m : Machine) (chain : List (Expr × BinaryOp)) (last : Expr) (m' : Machine) : Prop :=
  ∃ signs o, m' = m.withCondition { chain, signs, operand := some o } ∧
    Condition.signed { signs } o.expr = last

/-- The operator is read, and an operand is expected. -/
theorem Holding.reads_operator (hg : goal.Plain) {chain : List (Expr × BinaryOp)} {last : Expr}
    (h : m.Holding chain last m') {op : BinaryOp} {w s : List Char} (hw : op.Written w)
    (hs : Free isBlank s) :
    Reads setting goal m' (' ' :: (w ++ ' ' :: s))
      (m.withCondition { chain := (last, op) :: chain }) s := by
  obtain ⟨signs, o, rfl, rfl⟩ := h
  obtain ⟨x, v, hx, hend, hblank, -⟩ := hw.exists_first
  obtain ⟨l, t, hn, hl, ht⟩ := hw.next? s
  have hstep : ∀ here c, operatorStep (m.withCondition { chain, signs, operand := some o }) o here
      c l = .more (m.withCondition { chain := (Condition.signed { signs } o.expr, op) :: chain })
        c.release := by
    intro here c
    rcases hl with rfl | rfl | rfl <;> rfl
  refine Reads.trans (.blanks hg _ (w := [' ']) (u := w ++ ' ' :: s) (by simp [isBlank]) ?_) ?_
  · simpa [hx, Free] using hblank
  refine Reads.trans (.operator hg (o := o) rfl hn ?_
    fun here c hc => ⟨c.release, hc.trans ht, hstep here c⟩) ?_
  · simpa [hx, Free] using hend
  exact .blanks hg _ (w := [' ']) (by simp [isBlank]) hs

theorem ends_texts {depth : Int} {ls : List Link} (hls : ∀ l ∈ ls, l.Written setting depth)
    (hu : Ends u) : Ends (Link.texts ls ++ u) := by
  cases ls with
  | nil => exact hu
  | cons l ls =>
    obtain ⟨x, v, hx, -, hblank, ht⟩ := (hls l (by simp)).1.exists_first
    simp only [Link.texts, hx, List.cons_append]
    exact .blank hblank ht _

/-- A whole chain is read. -/
theorem Holding.reads_links (hg : goal.Plain) {chain : List (Expr × BinaryOp)} {last : Expr}
    (h : m.Holding chain last m') {ls : List Link}
    (hls : ∀ l ∈ ls, l.Written setting (goal.depth + (m.stack.length + 1 : Nat))) (hu : Ends u) :
    ∃ m'', Reads setting goal m' (Link.texts ls ++ u) m'' u ∧
      m.Holding ((Link.chain last ls).1.reverse ++ chain) (Link.chain last ls).2 m'' := by
  induction ls generalizing chain last m' with
  | nil => exact ⟨m', .refl m' u, h⟩
  | cons l ls ih =>
    have hl := hls l (by simp)
    have hls : ∀ l ∈ ls, l.Written setting _ := fun k hk => hls k (by simp [hk])
    have hb : Free isBlank (l.text ++ (Link.texts ls ++ u)) := by
      obtain ⟨x, s, hx, hfirst⟩ := hl.2.exists_first
      simp only [isFirst, Bool.and_eq_true, Bool.not_eq_true'] at hfirst
      simpa [hx, Free] using hfirst.1.2
    have hop : Reads setting goal m' _ _ _ := h.reads_operator hg hl.1 hb
    obtain ⟨signs, o, hr, he⟩ := hl.2.reads hg
      (m := m.withCondition { chain := (last, l.op) :: chain }) rfl rfl (ends_texts hls hu)
    have hm : m.Holding ((last, l.op) :: chain) l.operand _ := ⟨signs, o, rfl, he⟩
    obtain ⟨m'', hr', hh⟩ := ih hm hls
    refine ⟨m'', ?_, by simpa [Link.chain] using hh⟩
    simp only [Link.texts, List.cons_append, List.append_assoc]
    exact (hop.trans hr).trans hr'

/-- The expression of a level that holds a chain. -/
theorem Holding.finish {start : Nat} {stack : List (Frame × Level)}
    {chain : List (Expr × BinaryOp)} {last : Expr}
    (h : Holding ⟨{ start }, stack⟩ chain last m) (here : Nat) :
    m.level.finish here = .ok (Infix.tree chain.reverse last) ∧ m.stack = stack := by
  obtain ⟨signs, o, rfl, rfl⟩ := h
  exact ⟨by simp [Level.finish, withCondition, Condition.isEmpty, Condition.close, conjoin,
    Condition.signed], rfl⟩

/-- A chain that fills a level is read up to what stands behind it. -/
theorem reads_chain (hg : goal.Plain) {first : List Char} {e : Expr} {ls : List Link}
    (start : Nat) (stack : List (Frame × Level))
    (hfirst : Signed setting (goal.depth + (stack.length + 1 : Nat)) first e)
    (hls : ∀ l ∈ ls, l.Written setting (goal.depth + (stack.length + 1 : Nat))) (hu : Ends u) :
    ∃ m', Reads setting goal ⟨{ start }, stack⟩ (first ++ (Link.texts ls ++ u)) m' u ∧
      Holding ⟨{ start }, stack⟩ (Link.chain e ls).1.reverse (Link.chain e ls).2 m' := by
  obtain ⟨signs, o, hr, he⟩ := hfirst.reads hg (m := ⟨{ start }, stack⟩) rfl rfl
    (ends_texts hls hu)
  have hm : Holding ⟨{ start }, stack⟩ [] e _ := ⟨signs, o, rfl, he⟩
  obtain ⟨m', hr', hh⟩ := hm.reads_links hg hls hu
  exact ⟨m', hr.trans hr', by simpa using hh⟩

end Machine

/-- The tree that a chain stands for. -/
def Link.tree (e : Expr) (ls : List Link) : Expr :=
  Infix.tree (Link.chain e ls).1 (Link.chain e ls).2

theorem Link.groups_iff (e : Expr) (ls : List Link) (tree : Expr) :
    Infix.Groups (e :: ls.map operand) (ls.map op) tree ↔ tree = Link.tree e ls := by
  rw [← operands_chain, ← operators_chain e ls, Infix.groups_iff]
  rfl

/-- A chain on its own is read to its end, with blanks before it. -/
theorem Expr.ofText_chain {setting : Setting} (hlimit : 0 ≤ setting.limit) {w first : List Char}
    {e : Expr} {ls : List Link} (hw : ∀ c ∈ w, isBlank c = true)
    (hfirst : Signed setting 1 first e) (hls : ∀ l ∈ ls, l.Written setting 1) :
    ∃ c, Expr.ofText setting (w ++ (first ++ Link.texts ls)) = .ok (Link.tree e ls) c ∧
      c.rest = [] := by
  obtain ⟨m, hr, hh⟩ := Machine.reads_chain Goal.plain_line 0 [] hfirst hls .nil
  rw [List.append_nil] at hr
  have hr := (Machine.Reads.blanks Goal.plain_line _ hw (hfirst.free_isBlank _)).trans hr
  obtain ⟨c, hc, hl⟩ := hr ((Cursor.ofText (w ++ (first ++ Link.texts ls))).note "expression") rfl
  obtain ⟨hf, hstack⟩ := hh.finish c.pos
  rw [List.reverse_reverse] at hf
  have hstep : m.step setting .line c = .done (Link.tree e ls) c := by
    unfold Machine.step
    rw [hstack, hc]
    simp only [Goal.line, Grammar.expressionEnd, Pattern.run, List.isEmpty_nil, Bool.and_true,
      if_true, Machine.conclude, hf]
    rfl
  refine ⟨c, ?_, hc⟩
  have hd : ¬ setting.limit < Goal.line.depth := by
    change ¬ setting.limit < 0
    omega
  rw [Expr.ofText, Read.expr, if_neg hd]
  exact hl.run_eq.trans (Machine.run_of_done hstep)

/-- A chain in parentheses, or as an argument, is read up to its end. -/
theorem Frame.holds_chain {setting : Setting} {depth : Int} (hlimit : depth ≤ setting.limit)
    {first : List Char} {e : Expr} {ls : List Link} (hfirst : Signed setting (depth + 1) first e)
    (hls : ∀ l ∈ ls, l.Written setting (depth + 1)) (frame : Frame) :
    frame.Holds setting depth (first ++ Link.texts ls) (Link.tree e ls) := by
  have hdepth : (frame.goal depth).depth + ((0 : Nat) + 1 : Nat) = depth + 1 := by
    rw [Frame.depth_goal]
    rfl
  obtain ⟨m, hr, hh⟩ := Machine.reads_chain (frame.plain_goal depth) 0 [] (hdepth ▸ hfirst)
    (fun l hl => hdepth ▸ hls l hl) (.stop (x := ')') rfl [])
  obtain ⟨c, hc, hl⟩ := hr ((Cursor.ofText (first ++ (Link.texts ls ++ [')']))).note "expression")
    rfl
  obtain ⟨hf, hstack⟩ := hh.finish c.pos
  rw [List.reverse_reverse] at hf
  obtain ⟨d, hstep, hd⟩ : ∃ d, m.step setting (frame.goal depth) c = .done (Link.tree e ls) d ∧
      d.rest = frame.after [')'] := by
    unfold Machine.step
    rw [hstack, hc]
    cases frame with
    | group =>
      refine ⟨c.past ⟨[')'], [], []⟩, ?_, rfl⟩
      simp [Frame.goal, Goal.parens, Grammar.parenClose, Pattern.char, Pattern.run,
        Machine.conclude, hf, Link.tree]
    | call =>
      refine ⟨c, ?_, hc⟩
      simp [Frame.goal, Goal.argument, Grammar.argumentEnd, Pattern.run, Machine.conclude, hf,
        Link.tree]
  refine ⟨.ofText (first ++ (Link.texts ls ++ [')'])), d, by simp [Cursor.ofText], ?_, hd⟩
  rw [Read.expr, Frame.depth_goal, if_neg (by omega)]
  exact hl.run_eq.trans (Machine.run_of_done hstep)

/-- Precedence and associativity of the whole infix language: operands with operators
between them are read as the only tree that has them in this order and that groups them
by the tiers of the operators, those of one tier to the left. -/
theorem Expr.ofText_infix {setting : Setting} (hlimit : 0 ≤ setting.limit) {first : List Char}
    {e : Expr} {ls : List Link} (hfirst : Signed setting 1 first e)
    (hls : ∀ l ∈ ls, l.Written setting 1) :
    (∃ tree c, Expr.ofText setting (first ++ Link.texts ls) = .ok tree c ∧ c.rest = [] ∧
      ∀ tree', Infix.Groups (e :: ls.map Link.operand) (ls.map Link.op) tree' ↔ tree' = tree) ∧
    BinaryOp.tiers.Pairwise (fun as bs => ∀ a ∈ as, ∀ b ∈ bs, a.precedence < b.precedence) ∧
    ∀ as ∈ BinaryOp.tiers, ∀ a ∈ as, ∀ b ∈ as, a.precedence = b.precedence := by
  refine ⟨?_, by decide, by decide⟩
  obtain ⟨c, hr, hc⟩ := ofText_chain (w := []) hlimit (by simp) hfirst hls
  exact ⟨Link.tree e ls, c, hr, hc, Link.groups_iff e ls⟩

theorem Expr.ofText_infix_signs_and_group :
    ∃ tree c, Expr.ofText {} "-2 + !(3 - $hp) AND true".toList = .ok tree c ∧ c.rest = [] ∧
      ∀ tree', Infix.Groups
        [.unary .minus (.number (.int 2)),
          .unary .not (.binary .sub (.number (.int 3)) (.localVar "hp")), .constant "true"]
        [.add, .and] tree' ↔ tree' = tree := by
  have hword : Made isWordChar "hp".toList := ⟨by simp, by simp [isWordChar]⟩
  have hthree : Signed {} 2 ['3'] (.number (.int 3)) :=
    .plain (.number (.inl ⟨by simp, by simp⟩) rfl)
  have hless : ∀ l ∈ [Link.mk ['-'] .sub "$hp".toList (.localVar "hp")], l.Written {} 2 := by
    simp only [List.mem_singleton, forall_eq]
    exact ⟨BinaryOp.Written.symbol (by decide : BinaryOp.sub ∈ BinaryOp.all),
      .plain (.localName hword)⟩
  have hgroup : Frame.group.Holds {} 1 "3 - $hp".toList
      (.binary .sub (.number (.int 3)) (.localVar "hp")) :=
    Frame.holds_chain (by decide : (1 : Int) ≤ Setting.limit {}) hthree hless .group
  have htwo : Signed {} 1 ['2'] (.number (.int 2)) := .plain (.number (.inl ⟨by simp, by simp⟩) rfl)
  have hfirst : Signed {} 1 "-2".toList (.unary .minus (.number (.int 2))) := .sign .minus htwo
  have htrue : Operand.Written {} 1 "true".toList ⟨.constant "true", false⟩ :=
    .constant (by decide : "true" ∈ ["true", "false", "null"]) (by decide)
  have hls : ∀ l ∈ [Link.mk ['+'] .add "!(3 - $hp)".toList
        (.unary .not (.binary .sub (.number (.int 3)) (.localVar "hp"))),
      Link.mk "AND".toList .and "true".toList (.constant "true")], l.Written {} 1 := by
    simp only [List.mem_cons, List.not_mem_nil, or_false]
    rintro l (rfl | rfl)
    · exact ⟨BinaryOp.Written.symbol (by decide : BinaryOp.add ∈ BinaryOp.all),
        .sign .bang (.plain (.group hgroup))⟩
    · exact ⟨.and (by decide), .plain htrue⟩
  exact (Expr.ofText_infix (by decide) hfirst hls).1

end Gamebook
