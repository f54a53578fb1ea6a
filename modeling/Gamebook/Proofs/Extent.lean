import Gamebook.Expr.Probe
import Gamebook.Proofs.Definedness
import Gamebook.Proofs.Operand

/-!
How far an expression goes. A scan that knows of strings and parentheses only tells where a
text stands: whether inside of a string, and under how many open parentheses. The machine has
as many levels waiting as the scan has parentheses open. So an expression takes a balanced
text, and it ends at the first place outside of strings and parentheses where its end is found.
-/
namespace Gamebook

open Grammar

/-- Outside of strings, in one, or behind a backslash in one. -/
inductive Mode where
  | plain
  | quoted
  | escaped
  deriving DecidableEq, Repr

/-- How a text stands where a scan has got to. -/
structure Scan where
  mode : Mode := .plain
  level : Int := 0
  deriving DecidableEq, Repr

namespace Scan

def next (s : Scan) (x : Char) : Scan :=
  match s.mode with
  | .plain =>
    if x = '"' then { s with mode := .quoted }
    else if x = '(' then { s with level := s.level + 1 }
    else if x = ')' then { s with level := s.level - 1 }
    else s
  | .quoted =>
    if x = '"' then { s with mode := .plain }
    else if x = '\\' then { s with mode := .escaped }
    else s
  | .escaped => { s with mode := .quoted }

def after (s : Scan) (text : List Char) : Scan := text.foldl next s

/-- Outside of strings, under so many open parentheses. A text begins under none. -/
def under (n : Nat) : Scan := ⟨.plain, n⟩

@[simp] theorem after_nil (s : Scan) : s.after [] = s := rfl

@[simp] theorem after_cons (s : Scan) (x : Char) (t : List Char) :
    s.after (x :: t) = (s.next x).after t := rfl

theorem after_append (s : Scan) (t w : List Char) : s.after (t ++ w) = (s.after t).after w :=
  List.foldl_append

/-- The character may stand here in an expression that the characters `ends` end. -/
def Admits (ends : Char → Bool) (s : Scan) (x : Char) : Prop :=
  s.mode = .plain →
    x ≠ '\n' ∧ x ≠ '#' ∧ (x = ')' → 0 < s.level) ∧ (s.level = 0 → ends x = false)

/-- Under an open parenthesis an expression may hold what would end it. -/
theorem admits_under {ends : Char → Bool} {x : Char} (n : Nat) (hn : x ≠ '\n') (hc : x ≠ '#') :
    (under (n + 1)).Admits ends x := by
  intro _
  have hlevel : (under (n + 1)).level = n + 1 := rfl
  refine ⟨hn, hc, fun _ => ?_, fun h => ?_⟩ <;> omega

@[simp] theorem next_under_open (n : Nat) : (under n).next '(' = under (n + 1) := rfl

@[simp] theorem next_under_close (n : Nat) : (under (n + 1)).next ')' = under n := by
  simp [under, next]

@[simp] theorem next_under_comma (n : Nat) : (under n).next ',' = under n := rfl

/-- The text leads from one scan to the other over characters that may stand there. -/
inductive Walk (ok : Scan → Char → Prop) : Scan → List Char → Scan → Prop
  | nil (s : Scan) : Walk ok s [] s
  | cons {s u : Scan} {x : Char} {t : List Char} (hx : ok s x) (ht : Walk ok (s.next x) t u) :
      Walk ok s (x :: t) u

variable {ok : Scan → Char → Prop} {ends : Char → Bool} {s u v : Scan} {t w : List Char}

namespace Walk

theorem append (h : Walk ok s t u) (h' : Walk ok u w v) : Walk ok s (t ++ w) v := by
  induction h with
  | nil s => exact h'
  | cons hx _ ih => exact .cons hx (ih h')

theorem after_eq (h : Walk ok s t u) : s.after t = u := by
  induction h with
  | nil s => rfl
  | cons _ _ ih => exact ih

/-- Every character may stand where it does. -/
theorem ok_of_eq (h : Walk ok s t u) {p q : List Char} {x : Char} (ht : t = p ++ x :: q) :
    ok (s.after p) x := by
  induction p generalizing s t with
  | nil =>
    subst ht
    cases h with
    | cons hx _ => exact hx
  | cons y p ih =>
    subst ht
    cases h with
    | cons _ h => exact ih h rfl

end Walk

theorem level_next_nonneg {x : Char} (hs : 0 ≤ s.level) (hx : s.Admits ends x) :
    0 ≤ (s.next x).level := by
  unfold next
  split
  · rename_i hm
    have hclose := (hx hm).2.2.1
    split
    · exact hs
    · split
      · simp only
        omega
      · split
        · rename_i hp
          have := hclose hp
          simp only
          omega
        · exact hs
  · split
    · exact hs
    · split <;> exact hs
  · exact hs

/-- No parenthesis is closed that was not opened. -/
theorem Walk.level_nonneg (h : Walk (Admits ends) s t u) (hs : 0 ≤ s.level) {p : List Char}
    (hp : p <+: t) : 0 ≤ (s.after p).level := by
  induction h generalizing p with
  | nil s =>
    obtain rfl : p = [] := List.prefix_nil.1 hp
    exact hs
  | cons hx _ ih =>
    cases p with
    | nil => exact hs
    | cons y p =>
      obtain ⟨rfl, hrest⟩ := List.cons_prefix_cons.1 hp
      exact ih (level_next_nonneg hs hx) hrest

end Scan

/-- The characters that a scan looks at, and those that can end an expression. -/
def isMark (x : Char) : Bool := isEnd x || x == '"' || x == '('

theorem isEnd_of_isMark {x : Char} (h : isMark x = false) : isEnd x = false := by
  simp only [isMark, Bool.or_eq_false_iff] at h
  exact h.1.1

theorem isMark_of_isWordChar {x : Char} (h : isWordChar x = true) : isMark x = false := by
  have hx : isEnd x = false := isEnd_of_isWordChar h
  have hq : x ≠ '"' := by rintro rfl; simp [isWordChar] at h
  have hp : x ≠ '(' := by rintro rfl; simp [isWordChar] at h
  simp [isMark, hx, hq, hp]

theorem isMark_of_isBlank {x : Char} (h : isBlank x = true) : isMark x = false := by
  simp only [isBlank, Bool.or_eq_true, beq_iff_eq] at h
  rcases h with rfl | rfl <;> decide

theorem Pattern.not_mem_of_ignores {p : Pattern} {x : Char} (hp : p.ignores x = true)
    {t : List Char} {g : List (List Char)} (h : p.Shape t g) : x ∉ t := by
  induction p generalizing t g with
  | empty | absent | finish => simp [h.1]
  | one p =>
    obtain ⟨⟨y, hy, rfl⟩, -⟩ := h
    have hx : p x = false := by simpa [ignores] using hp
    rintro hm
    rw [List.mem_singleton.1 hm, hy] at hx
    cases hx
  | many p =>
    intro hm
    have hx : p x = false := by simpa [ignores] using hp
    rw [h.1 x hm] at hx
    cases hx
  | seq a b iha ihb =>
    obtain ⟨t₁, g₁, t₂, g₂, ha, hb, rfl, -⟩ := h
    simp only [ignores, Bool.and_eq_true] at hp
    simp [iha hp.1 ha, ihb hp.2 hb]
  | choice a b iha ihb =>
    simp only [ignores, Bool.and_eq_true] at hp
    rcases h with h | h
    · exact iha hp.1 h
    · exact ihb hp.2 h
  | capture a iha =>
    obtain ⟨g', h, -⟩ := h
    exact iha hp h

/-- The marks are not known to the pattern. -/
def Pattern.isUnmarked (p : Pattern) : Bool :=
  ['\n', '#', ')', ',', '"', '('].all (p.ignores ·)

theorem Pattern.text_unmarked {p : Pattern} (hp : p.isUnmarked = true) {s : List Char} {m : Match}
    (h : p.run s = some m) : ∀ x ∈ m.text, isMark x = false := by
  intro x hx
  rw [← Bool.not_eq_true]
  intro hmark
  have hmem : x ∈ ['\n', '#', ')', ',', '"', '('] := by
    simpa [isMark, isEnd, or_assoc] using hmark
  exact not_mem_of_ignores (List.all_eq_true.1 hp x hmem) (run_shape h) hx

namespace Lexeme

/-- A mark stands alone, but for the one behind the name of a call. -/
def Marked (m : Match) : Lexeme → Prop
  | comma => m.text = [',']
  | quote => m.text = ['"']
  | parenOpen => m.text = ['(']
  | callOpen _ => ∃ w, m.text = w ++ ['('] ∧ ∀ x ∈ w, isMark x = false
  | _ => ∀ x ∈ m.text, isMark x = false

theorem rules_marked (b : Bool) : ∀ r ∈ rules b, ∀ {s : List Char} {m : Match},
    r.pattern.run s = some m → (r.make m).Marked m := by
  intro r hr s m hm
  have hs := Pattern.run_shape hm
  have bare : r.pattern.isUnmarked = true → ∀ x ∈ m.text, isMark x = false :=
    fun hp => Pattern.text_unmarked hp hm
  have hr : r ∈ rules true := by
    cases b with
    | true => exact hr
    | false => exact (((List.Sublist.refl _).cons _).cons_cons _).subset hr
  simp only [rules, if_true, List.cons_append, List.nil_append, List.mem_cons, List.not_mem_nil,
    or_false] at hr
  rcases hr with rfl | rfl | rfl | rfl | rfl | rfl | rfl | rfl | rfl | rfl | rfl | rfl | rfl |
    rfl | rfl | rfl | rfl | rfl | rfl | rfl
  any_goals exact bare (by decide)
  · exact (Pattern.shape_char.1 hs).1
  · obtain ⟨w, -, hw, ht⟩ := shape_closed (fun _ _ => shape_word) hs
    exact ⟨w, ht, fun x hx => isMark_of_isWordChar (hw.2 x hx)⟩
  · exact (Pattern.shape_char.1 hs).1
  · exact (Pattern.shape_char.1 hs).1

theorem next?_marked {b : Bool} {s : List Char} {l : Lexeme} {m : Match}
    (h : next? b s = some (l, m)) : l.Marked m := by
  obtain ⟨r, hr, h⟩ := List.exists_of_findSome?_eq_some h
  simp only [Option.map_eq_some_iff, Prod.mk.injEq] at h
  obtain ⟨m', hm, rfl, rfl⟩ := h
  exact rules_marked b r hr hm

end Lexeme

namespace Scan

variable {ends : Char → Bool}

theorem admits_of_isEnd (hends : ∀ x, ends x = true → isEnd x = true) {x : Char}
    (hx : isEnd x = false) (s : Scan) : s.Admits ends x := by
  intro _
  have hfree : ends x = false := by
    cases he : ends x with
    | false => rfl
    | true =>
      rw [hends x he] at hx
      cases hx
  simp only [isEnd, Bool.or_eq_false_iff, beq_eq_false_iff_ne] at hx
  obtain ⟨⟨⟨hn, hc⟩, hp⟩, -⟩ := hx
  exact ⟨hn, hc, fun h => absurd h hp, fun _ => hfree⟩

/-- What a lexeme takes may stand under so many open parentheses: all that is no end, the inside
of a string, and blanks in the parentheses of a call. -/
structure Allows (ok : Scan → Char → Prop) (n : Nat) : Prop where
  bare : ∀ x, isEnd x = false → ok (under n) x
  quoted : ∀ mode x, mode ≠ .plain → ok ⟨mode, n⟩ x
  blank : ∀ x, isBlank x = true → ok (under (n + 1)) x
  close : ok (under (n + 1)) ')'
  inner : 0 < n → ok (under n) ',' ∧ ok (under n) ')'

theorem allows_admits (hends : ∀ x, ends x = true → isEnd x = true) (n : Nat) :
    Allows (Admits ends) n where
  bare _ hx := admits_of_isEnd hends hx _
  quoted _ _ hmode hplain := absurd hplain hmode
  blank _ hx := admits_of_isEnd hends (Machine.isEnd_of_isBlank hx) _
  close := admits_under n (by decide) (by decide)
  inner hn := by
    obtain ⟨k, rfl⟩ := Nat.exists_eq_add_one.2 hn
    exact ⟨admits_under k (by decide) (by decide), admits_under k (by decide) (by decide)⟩

variable {ok : Scan → Char → Prop}

namespace Walk

theorem unmarked {n : Nat} {w : List Char} (hw : ∀ x ∈ w, isMark x = false)
    (hok : ∀ x ∈ w, ok (under n) x) : Walk ok (under n) w (under n) := by
  induction w with
  | nil => exact .nil _
  | cons x w ih =>
    have hstay : (under n).next x = under n := by
      have hx : isMark x = false := hw x (by simp)
      simp only [isMark, isEnd, Bool.or_eq_false_iff, beq_eq_false_iff_ne] at hx
      simp [under, next, hx]
    refine .cons (hok x (by simp)) ?_
    rw [hstay]
    exact ih (fun y hy => hw y (by simp [hy])) fun y hy => hok y (by simp [hy])

/-- A string goes through its closing quote. -/
theorem string {n : Nat} (hok : ∀ mode x, mode ≠ .plain → ok ⟨mode, n⟩ x) {s rest : List Char}
    (h : (stringBody s).2 = some rest) :
    ∃ body, s = body ++ rest ∧ Walk ok ⟨.quoted, n⟩ body (under n) := by
  have inside : ∀ {mode : Mode} {x : Char}, mode ≠ .plain → ok ⟨mode, n⟩ x := hok _ _
  fun_induction stringBody s with
  | case1 => cases h
  | case2 s =>
    cases h
    exact ⟨['"'], rfl, .cons (inside (by simp)) (.nil _)⟩
  | case3 => cases h
  | case4 c s r ih =>
    obtain ⟨body, rfl, hw⟩ := ih h
    exact ⟨'\\' :: c :: body, rfl, .cons (inside (by simp)) (.cons (inside (by simp)) hw)⟩
  | case5 c s hq hlast hmore r ih =>
    have hb : c ≠ '\\' := by
      rintro rfl
      cases s with
      | nil => exact hlast rfl rfl
      | cons y s => exact hmore y s rfl rfl
    obtain ⟨body, rfl, hw⟩ := ih h
    refine ⟨c :: body, rfl, .cons (inside (by simp)) ?_⟩
    have hstay : (⟨.quoted, n⟩ : Scan).next c = ⟨.quoted, n⟩ := by
      have hq : c ≠ '"' := hq
      simp [next, hq, hb]
    rw [hstay]
    exact hw

end Walk
end Scan

theorem Pattern.eq_cons_of_run {p : Pattern} {s : List Char} {t : Match} {x : Char}
    (h : p.run s = some t) (ht : t.text = [x]) : s = x :: t.rest := by
  rw [← run_split h, ht]
  rfl

theorem rest_of_parenClose {s : List Char} {t : Match} (h : parenClose.run s = some t) :
    s = ')' :: t.rest :=
  Pattern.eq_cons_of_run h (Pattern.shape_char.1 (Pattern.run_shape h)).1

/-- What stands between two cursors is walked over, outside of strings. -/
def Cursor.Walks (ok : Scan → Char → Prop) (c : Cursor) (n : Nat) (d : Cursor) (k : Nat) : Prop :=
  ∃ w, c.rest = w ++ d.rest ∧ Scan.Walk ok (.under n) w (.under k)

namespace Cursor.Walks

variable {ok : Scan → Char → Prop} {c d e : Cursor} {n k l : Nat}

theorem refl (c : Cursor) (n : Nat) : c.Walks ok n c n := ⟨[], rfl, .nil _⟩

theorem trans (h : c.Walks ok n d k) (h' : d.Walks ok k e l) : c.Walks ok n e l := by
  obtain ⟨w, hw, hwalk⟩ := h
  obtain ⟨v, hv, hwalk'⟩ := h'
  exact ⟨w ++ v, by simp [hw, hv], hwalk.append hwalk'⟩

/-- Past the parenthesis that closes a level. -/
theorem closing (hok : ok (.under (n + 1)) ')') (h : c.rest = ')' :: d.rest) :
    c.Walks ok (n + 1) d n :=
  ⟨[')'], h, .cons hok (by simpa using .nil _)⟩

/-- Past a comma. -/
theorem comma (hok : ok (.under n) ',') (h : c.rest = ',' :: d.rest) : c.Walks ok n d n :=
  ⟨[','], h, .cons hok (.nil _)⟩

theorem skip_blanks (hok : ∀ x, isBlank x = true → ok (.under n) x) (c : Cursor) :
    c.Walks ok n (c.skip blanks) n := by
  unfold Cursor.skip
  split
  · rename_i m h
    have hm : ∀ x ∈ m.text, isBlank x = true := (Pattern.shape_span.1 (Pattern.run_shape h)).1.2
    exact ⟨m.text, (Pattern.run_split h).symm,
      .unmarked (fun x hx => isMark_of_isBlank (hm x hx)) fun x hx => hok x (hm x hx)⟩
  · exact refl c n

variable (hok : Scan.Allows ok n)
include hok

theorem past {p : Pattern} {m : Match} (h : p.run c.rest = some m)
    (hm : ∀ x ∈ m.text, isMark x = false) : c.Walks ok n (c.past m) n :=
  ⟨m.text, (Pattern.run_split h).symm,
    .unmarked hm fun x hx => hok.bare x (isEnd_of_isMark (hm x hx))⟩

/-- Past the parenthesis that opens a level. -/
theorem opening {w : List Char} (hw : ∀ x ∈ w, isMark x = false)
    (h : c.rest = w ++ '(' :: d.rest) : c.Walks ok n d (n + 1) := by
  refine ⟨w ++ ['('], by simp [h], ?_⟩
  exact (Scan.Walk.unmarked hw fun x hx => hok.bare x (isEnd_of_isMark (hw x hx))).append
    (.cons (hok.bare '(' (by decide)) (.nil _))

end Cursor.Walks

namespace Found

/-- Up to where something was found the text is walked over. A level that was opened stands one
higher. -/
def Walks (ok : Scan → Char → Prop) (c : Cursor) (n : Nat) : Found → Prop
  | operand _ _ d | sign _ d | nothing d | emptyCall _ _ d => c.Walks ok n d n
  | level _ d => c.Walks ok n d (n + 1)
  | comma _ | fault .. => True

variable {ok : Scan → Char → Prop} {c d : Cursor} {n : Nat}

theorem Walks.behind (h : c.Walks ok n d n) {found : Found} (hf : found.Walks ok d n) :
    found.Walks ok c n := by
  cases found with
  | operand | sign | nothing | emptyCall | level => exact h.trans hf
  | comma | fault => trivial

theorem numeral_walks (value : Except Nat Expr) (h : c.Walks ok n d n) :
    (numeral value d).Walks ok c n := by
  cases value with
  | ok e => exact h
  | error digits => trivial

variable (hok : Scan.Allows ok n)
include hok

theorem word_walks (make : String → Expr) (chainable : Bool) (wanted : Wanted) (c : Cursor) :
    (word make chainable wanted c).Walks ok c n := by
  unfold word
  split
  · rename_i w h
    exact .past hok h (Pattern.text_unmarked (by decide) h)
  · trivial

theorem subject_walks (make : String → Bool → Expr) (wanted : Wanted) (c : Cursor) :
    (subject make wanted c).Walks ok c n := by
  unfold subject
  split
  · rename_i t h
    have hno : c.Walks ok n (c.past t) n := .past hok h (Pattern.text_unmarked (by decide) h)
    have hblanks : (c.past t).Walks ok n ((c.past t).skip blanks) n :=
      .skip_blanks (fun x hx => hok.bare x (Machine.isEnd_of_isBlank hx)) _
    exact Walks.behind (hno.trans hblanks) (word_walks hok ..)
  · exact word_walks hok ..

theorem ofLexeme_walks {l : Lexeme} {t : Match} (h : Lexeme.next? true c.rest = some (l, t))
    (here : Nat) : (ofLexeme here ((c.past t).hold t.text) l).Walks ok c n := by
  obtain ⟨p, hp⟩ := Lexeme.next?_run h
  have hrest : t.text ++ t.rest = c.rest := Pattern.run_split hp
  have hm : l.Marked t := Lexeme.next?_marked h
  have bare : (∀ x ∈ t.text, isMark x = false) → c.Walks ok n ((c.past t).hold t.text) n :=
    fun hm => .past hok hp hm
  cases l with
  | arithmetic op =>
    simp only [ofLexeme]
    split
    · exact bare hm
    · trivial
  | callOpen name =>
    obtain ⟨w, ht, hw⟩ := hm
    have hopen : c.Walks ok n ((c.past t).hold t.text) (n + 1) :=
      .opening hok hw (by simp [← hrest, ht])
    have hskip := hopen.trans (.skip_blanks hok.blank _)
    simp only [ofLexeme]
    split
    · rename_i t' h'
      exact hskip.trans (.closing hok.close (rest_of_parenClose h'))
    · exact hskip
  | parenOpen =>
    have ht : t.text = ['('] := hm
    exact .opening hok (w := []) (by simp) (by simp [← hrest, ht])
  | quote =>
    simp only [ofLexeme]
    split
    · rename_i content rest hbody
      have ht : t.text = ['"'] := hm
      obtain ⟨body, hb, hstring⟩ : ∃ body, t.rest = body ++ rest ∧
          Scan.Walk ok ⟨.quoted, n⟩ body (.under n) :=
        Scan.Walk.string hok.quoted (congrArg Prod.snd hbody)
      refine ⟨'"' :: body, by simp [← hrest, ht, hb], ?_⟩
      exact .cons (hok.bare '"' (by decide)) hstring
    · trivial
  | negation | constant | called | localName | globalName | blanks => exact bare hm
  | range | percent | number => exact numeral_walks _ (bare hm)
  | hasItem | atNode => exact Walks.behind (bare hm) (subject_walks hok ..)
  | varName => exact Walks.behind (bare hm) (word_walks hok ..)
  | comparison | logical | comma | property => trivial

end Found

/-- A step that goes on walks over the text to its new state. -/
def Step.Walks (ok : Scan → Char → Prop) (c : Cursor) (n : Nat) : Step → Prop
  | more m d => c.Walks ok n d m.stack.length
  | _ => True

namespace Machine

variable {setting : Setting} {goal : Goal} {ok : Scan → Char → Prop} {m : Machine} {c d : Cursor}

theorem descend_walks {n : Nat} (h : c.Walks ok n d (m.stack.length + 1)) (frame : Frame) :
    (m.descend setting goal frame d).Walks ok c n := by
  unfold descend
  split
  · trivial
  · exact h

theorem finishCall_walks {n : Nat} (h : c.Walks ok n d m.stack.length) (name : String)
    (place : Nat) (args : List Expr) :
    (m.finishCall setting name place args d).Walks ok c n := by
  unfold finishCall
  split
  · trivial
  · exact h

theorem accept_walks {found : Found} (h : found.Walks ok c m.stack.length) (here : Nat) :
    (m.accept setting goal here found).Walks ok c m.stack.length := by
  cases found with
  | operand | sign | nothing => exact h
  | level frame d => exact descend_walks h frame
  | emptyCall name place d => exact finishCall_walks h name place []
  | comma d =>
    simp only [accept]
    split <;> trivial
  | fault => trivial

theorem conclude_walks (here n : Nat) : (m.conclude here d).Walks ok c n := by
  unfold conclude
  split <;> trivial

variable (hok : Scan.Allows ok m.stack.length)
include hok

theorem operatorStep_walks (hcomma : ∀ rest, c.rest = ',' :: rest → ok (.under m.stack.length) ',')
    {l : Lexeme} {t : Match} (h : Lexeme.next? false c.rest = some (l, t)) (o : Operand)
    (here : Nat) :
    (m.operatorStep o here ((c.past t).hold t.text) l).Walks ok c m.stack.length := by
  obtain ⟨p, hp⟩ := Lexeme.next?_run h
  have hm : l.Marked t := Lexeme.next?_marked h
  have bare : (∀ x ∈ t.text, isMark x = false) →
      c.Walks ok m.stack.length ((c.past t).hold t.text) m.stack.length :=
    fun hm => .past hok hp hm
  cases l with
  | arithmetic | comparison | logical | blanks => exact bare hm
  | property name =>
    simp only [operatorStep]
    split
    · exact bare hm
    · trivial
  | comma =>
    have hrest : c.rest = ',' :: t.rest := Pattern.eq_cons_of_run hp hm
    exact .comma (hcomma _ hrest) hrest
  | _ => trivial

theorem lexemeStep_walks (hcomma : ∀ rest, c.rest = ',' :: rest → ok (.under m.stack.length) ',') :
    (m.lexemeStep setting goal c).Walks ok c m.stack.length := by
  unfold lexemeStep
  split
  · split
    · rename_i l t h
      rw [operandStep_eq]
      exact accept_walks (Found.ofLexeme_walks hok h _) _
    · trivial
  · split
    · rename_i l t h
      exact operatorStep_walks hok hcomma h _ _
    · trivial

/-- As many parentheses are open as levels wait. A comma at the outermost level is passed over
where it does not end the expression. -/
theorem step_walks (hcomma : m.stack = [] → ∀ rest, goal.terminator.run (',' :: rest) = none →
    ok (.under 0) ',') (setting : Setting) (c : Cursor) :
    (m.step setting goal c).Walks ok c m.stack.length := by
  unfold step
  split
  · rename_i hs
    split
    · exact conclude_walks ..
    · rename_i hnone
      split
      · exact conclude_walks ..
      · refine lexemeStep_walks hok fun rest hrest => ?_
        rw [hs]
        exact hcomma hs rest (hrest ▸ hnone)
  · rename_i outer stack hs
    obtain ⟨hcomma, hclose⟩ := hok.inner (by simp [hs])
    split
    · rename_i t ht
      split
      · rw [hs] at hclose ⊢
        exact .closing hclose (rest_of_parenClose ht)
      · trivial
    · exact lexemeStep_walks hok fun _ _ => hcomma
  · rename_i name place args outer stack hs
    obtain ⟨hcomma, hclose⟩ := hok.inner (by simp [hs])
    split
    · rename_i t ht
      obtain ⟨⟨x, hx, htext⟩, -⟩ := Pattern.run_shape ht
      have hrest : c.rest = x :: t.rest := Pattern.eq_cons_of_run ht htext
      split
      · simp only
        rw [hs] at hcomma hclose ⊢
        split
        · rename_i htext'
          obtain rfl : x = ')' := by simpa [htext] using htext'
          exact finishCall_walks (.closing hclose hrest) ..
        · rename_i htext'
          obtain rfl : x = ',' := by
            simp only [htext, List.cons.injEq, and_true] at htext'
            simpa [htext'] using hx
          exact descend_walks (.comma hcomma hrest) _
      · trivial
    · exact lexemeStep_walks hok fun _ _ => hcomma

omit hok in
/-- Nothing is passed over that would end the expression. -/
theorem step_admits {ends : Char → Bool} (hends : ∀ x, ends x = true → isEnd x = true)
    (hg : goal.terminator = .one ends) (setting : Setting) (m : Machine) (c : Cursor) :
    (m.step setting goal c).Walks (Scan.Admits ends) c m.stack.length := by
  refine step_walks (Scan.allows_admits hends _) (fun _ rest hnone _ => ?_) setting c
  have hcomma : ends ',' = false := by simpa [hg, Pattern.run] using hnone
  exact ⟨by decide, by decide, by simp, fun _ => hcomma⟩

end Machine

/-- An expression that has come to `c` ends there, and leaves the cursor at `d`. -/
def Goal.Met (goal : Goal) (c d : Cursor) : Prop :=
  (∃ t, goal.terminator.run c.rest = some t ∧ d = if goal.consume then c.past t else c) ∨
    goal.terminator.run c.rest = none ∧ goal.allowEnd = true ∧ c.rest = [] ∧ d = c

/-- Is the expression read? -/
def Step.isDone : Step → Bool
  | done .. => true
  | _ => false

theorem Step.ne_done {s : Step} (h : s.isDone = false) (e : Expr) (c : Cursor) :
    s ≠ .done e c := by
  rintro rfl
  cases h

namespace Machine

section

variable (setting : Setting) (goal : Goal) (m : Machine) (c : Cursor)

theorem isDone_descend (frame : Frame) : (m.descend setting goal frame c).isDone = false := by
  unfold descend
  split <;> rfl

theorem isDone_finishCall (name : String) (place : Nat) (args : List Expr) :
    (m.finishCall setting name place args c).isDone = false := by
  unfold finishCall
  split <;> rfl

theorem isDone_accept (here : Nat) (found : Found) :
    (m.accept setting goal here found).isDone = false := by
  cases found with
  | level frame d => exact isDone_descend ..
  | emptyCall name place d => exact isDone_finishCall ..
  | comma d =>
    simp only [accept]
    split <;> rfl
  | _ => rfl

theorem isDone_operatorStep (o : Operand) (here : Nat) (lexeme : Lexeme) :
    (m.operatorStep o here c lexeme).isDone = false := by
  cases lexeme with
  | property name =>
    simp only [operatorStep]
    split <;> rfl
  | _ => rfl

/-- No lexeme ends the outermost expression. -/
theorem isDone_lexemeStep : (m.lexemeStep setting goal c).isDone = false := by
  unfold lexemeStep
  split
  · split
    · rw [operandStep_eq]
      exact isDone_accept ..
    · rfl
  · split
    · exact isDone_operatorStep ..
    · rfl

end

variable {setting : Setting} {goal : Goal} {m : Machine} {c d : Cursor} {e : Expr}

theorem conclude_done {here : Nat} (h : m.conclude here c = .done e d) :
    m.level.finish here = .ok e ∧ d = c := by
  unfold conclude at h
  split at h
  · rename_i e' he
    cases h
    exact ⟨he, rfl⟩
  · cases h

/-- An expression is done when no level waits, where its goal is met. -/
theorem step_done (h : m.step setting goal c = .done e d) :
    m.stack = [] ∧ m.level.finish c.pos = .ok e ∧ goal.Met c d := by
  have hlexeme := Step.ne_done (isDone_lexemeStep setting goal m c) e d
  unfold step at h
  split at h
  · rename_i hs
    split at h
    · rename_i t ht
      obtain ⟨he, hd⟩ := conclude_done h
      exact ⟨hs, he, .inl ⟨t, ht, hd⟩⟩
    · rename_i ht
      split at h
      · rename_i hend
        obtain ⟨he, hd⟩ := conclude_done h
        simp only [Bool.and_eq_true, List.isEmpty_iff] at hend
        exact ⟨hs, he, .inr ⟨ht, hend.1, hend.2, hd⟩⟩
      · exact absurd h hlexeme
  · split at h
    · split at h <;> cases h
    · exact absurd h hlexeme
  · split at h
    · split at h
      · simp only at h
        split at h
        · exact absurd h (Step.ne_done (isDone_finishCall ..) e d)
        · exact absurd h (Step.ne_done (isDone_descend ..) e d)
      · cases h
    · exact absurd h hlexeme

/-- A run walks to the place where its goal is met. -/
theorem run_walks {ends : Char → Bool} (hends : ∀ x, ends x = true → isEnd x = true)
    (hg : goal.terminator = .one ends) (h : m.run setting goal c = .ok e d) :
    ∃ b, c.Reaches b ∧ c.Walks (Scan.Admits ends) m.stack.length b 0 ∧ goal.Met b d := by
  fun_induction run setting goal m c with
  | case1 m c m' c' hs ih =>
    obtain ⟨b, hreach, hwalk, hmet⟩ := ih h
    have hstep := step_reaches setting goal m c
    have hsteps := step_admits hends hg setting m c
    rw [hs] at hstep hsteps
    exact ⟨b, hstep.trans hreach, Cursor.Walks.trans hsteps hwalk, hmet⟩
  | case2 m c e' c' hs =>
    cases h
    obtain ⟨hstack, -, hmet⟩ := step_done hs
    rw [hstack]
    exact ⟨c, .refl c, .refl c 0, hmet⟩
  | case3 m c fault c' hs => cases h

/-- Nothing was read yet, so the expression is not over. -/
theorem run_fresh {start : Nat} (h : run setting goal { level := { start } } c = .ok e d) :
    ∃ m' c', step setting goal { level := { start } } c = .more m' c' ∧
      m'.run setting goal c' = .ok e d := by
  cases hs : step setting goal { level := { start } } c with
  | more m' c' =>
    rw [run_of_more hs] at h
    exact ⟨m', c', rfl, h⟩
  | done e' c' =>
    obtain ⟨-, hf, -⟩ := step_done hs
    simp [Level.finish, Condition.isEmpty] at hf
  | stop fault c' =>
    rw [run_of_stop hs] at h
    cases h

end Machine

namespace Goal

/-- How much is taken of the text in which the goal is met. -/
def taken (goal : Goal) (rest : List Char) : Nat :=
  if goal.consume && (goal.terminator.run rest).isSome then 1 else 0

/-- The text of an expression, and the text behind it, in which its goal is met. -/
structure Extent (goal : Goal) (text rest : List Char) : Prop where
  /-- Every parenthesis is closed, and every string. -/
  balanced : (Scan.under 0).after text = .under 0
  nonneg : ∀ p, p <+: text → 0 ≤ ((Scan.under 0).after p).level
  inline : ∀ p x q, text = p ++ x :: q → ((Scan.under 0).after p).mode = .plain →
    x ≠ '\n' ∧ x ≠ '#'
  met : (goal.terminator.run rest).isSome = true ∨ goal.allowEnd = true ∧ rest = []
  /-- There is no end before. -/
  first : ∀ p q, text = p ++ q → q ≠ [] → (Scan.under 0).after p = .under 0 →
    goal.terminator.run (q ++ rest) = none

variable {goal : Goal} {ends : Char → Bool} {text rest : List Char}

theorem Extent.of_walk (hg : goal.terminator = .one ends)
    (hw : Scan.Walk (Scan.Admits ends) (.under 0) text (.under 0))
    (hm : (goal.terminator.run rest).isSome = true ∨ goal.allowEnd = true ∧ rest = []) :
    goal.Extent text rest where
  balanced := hw.after_eq
  nonneg p hp := hw.level_nonneg (Int.le_refl 0) hp
  inline p x q ht hp := ⟨(hw.ok_of_eq ht hp).1, (hw.ok_of_eq ht hp).2.1⟩
  met := hm
  first p q ht hq hp := by
    cases q with
    | nil => exact absurd rfl hq
    | cons x q =>
      have hx := hw.ok_of_eq ht
      rw [hp] at hx
      simp [hg, Pattern.run, (hx rfl).2.2.2 rfl]

/-- The terminators there are end an expression at one character. -/
theorem exists_ends (h : goal.terminator ∈ [parenClose, argumentEnd, expressionEnd]) :
    ∃ ends, goal.terminator = .one ends ∧ ∀ x, ends x = true → isEnd x = true := by
  simp only [List.mem_cons, List.not_mem_nil, or_false] at h
  rcases h with h | h | h
  · refine ⟨_, h, fun x hx => ?_⟩
    simp_all [isEnd]
  · refine ⟨_, h, fun x hx => ?_⟩
    simp only [isEnd, Bool.or_eq_true] at hx ⊢
    tauto
  · refine ⟨_, h, fun x hx => ?_⟩
    simp only [isEnd, Bool.or_eq_true] at hx ⊢
    tauto

/-- Where a goal is met, its end is taken if there is one and the goal asks for it. -/
theorem Met.cursor {b d : Cursor} (hg : goal.terminator = .one ends) (h : goal.Met b d) :
    ((goal.terminator.run b.rest).isSome = true ∨ goal.allowEnd = true ∧ b.rest = []) ∧
      d.pos = b.pos + goal.taken b.rest ∧ d.rest = b.rest.drop (goal.taken b.rest) := by
  rcases h with ⟨t, ht, rfl⟩ | ⟨ht, hend, hrest, rfl⟩
  · refine ⟨.inl (by simp [ht]), ?_⟩
    obtain ⟨⟨x, -, htext⟩, -⟩ := hg ▸ Pattern.run_shape ht
    have hrest : b.rest = x :: t.rest := Pattern.eq_cons_of_run ht htext
    have htaken : goal.taken b.rest = if goal.consume then 1 else 0 := by simp [taken, ht]
    rw [htaken]
    cases goal.consume with
    | true => simp [Cursor.past, htext, hrest]
    | false => simp
  · exact ⟨.inr ⟨hend, hrest⟩, by simp [taken, ht], by simp [taken, ht]⟩

end Goal

variable {setting : Setting} {goal : Goal} {e : Expr}

/-- An expression takes some text, and ends behind it. -/
theorem Read.expr_extent {c d : Cursor}
    (ht : goal.terminator ∈ [parenClose, argumentEnd, expressionEnd])
    (h : Read.expr setting goal c = .ok e d) :
    ∃ text rest, text ≠ [] ∧ c.rest = text ++ rest ∧ goal.Extent text rest ∧
      d.pos = c.pos + text.length + goal.taken rest ∧ d.rest = rest.drop (goal.taken rest) := by
  obtain ⟨ends, hg, hends⟩ := Goal.exists_ends ht
  unfold Read.expr at h
  split at h
  · cases h
  · -- the first step goes on, so some text is taken before the end is looked for
    obtain ⟨m, c₁, hs, hr⟩ := Machine.run_fresh h
    obtain ⟨b, hreach, hwalk, hmet⟩ := Machine.run_walks hends hg hr
    have hfirst := Machine.step_reaches setting goal { level := { start := c.pos } }
      (c.note "expression")
    have hfirsts := Machine.step_admits hends hg setting { level := { start := c.pos } }
      (c.note "expression")
    rw [hs] at hfirst hfirsts
    obtain ⟨text, htext, hpos⟩ := hfirst.trans hreach
    obtain ⟨w, hw, hwalk⟩ := Cursor.Walks.trans hfirsts hwalk
    obtain rfl : text = w := List.append_cancel_right (htext.symm.trans hw)
    obtain ⟨hend, hdpos, hdrest⟩ := hmet.cursor hg
    refine ⟨text, b.rest, ?_, htext, .of_walk hg hwalk hend, ?_, hdrest⟩
    · rintro rfl
      have hlt := Machine.step_lt hs
      have hle := hreach.length_le
      have heq : (c.note "expression").rest.length = b.rest.length := by rw [htext]; rfl
      omega
    · rw [hdpos, hpos]
      rfl

/-- What a probe reads is what a cursor reads at its start. -/
theorem Probe.expr_eq_ok {p : Probe} {pos : Int} {held : List Char} :
    p.expr setting goal = (.ok e, pos, held) ↔
      ∃ c, Read.expr setting { goal with allowEnd := goal.allowEnd && !p.isBeforeNothing }
        ⟨p.start, p.rest, p.held, []⟩ = .ok e c ∧ pos = p.offset c.pos ∧ held = c.held := by
  unfold Probe.expr
  simp only
  split
  · rename_i e' c hr
    rw [hr]
    constructor
    · intro h
      cases h
      exact ⟨c, rfl, rfl, rfl⟩
    · rintro ⟨d, h, rfl, rfl⟩
      cases h
      rfl
  all_goals
    rename_i hr
    rw [hr]
    constructor
    · intro h
      cases h
    · rintro ⟨d, h, -, -⟩
      cases h

/-- An expression ends at the first place where it can. -/
theorem Probe.expr_ends_first {p : Probe} {pos : Int} {held : List Char}
    (ht : goal.terminator ∈ [parenClose, argumentEnd, expressionEnd])
    (h : p.expr setting goal = (.ok e, pos, held)) :
    ∃ text rest, p.rest = text ++ rest ∧ goal.Extent text rest ∧
      pos = p.start + text.length + goal.taken rest := by
  obtain ⟨c, hr, rfl, -⟩ := Probe.expr_eq_ok.1 h
  obtain ⟨text, rest, hne, hrest, hextent, hpos, -⟩ := Read.expr_extent (by exact ht) hr
  refine ⟨text, rest, hrest, ?_, ?_⟩
  · refine { hextent with met := hextent.met.imp_right fun hend => ?_ }
    simp only [Bool.and_eq_true] at hend
    exact ⟨hend.1.1, hend.2⟩
  · have hlen : 0 < text.length := List.length_pos_of_ne_nil hne
    have hpos : c.pos = p.start + text.length + goal.taken rest := hpos
    have hmoved : c.pos ≠ p.start := by omega
    rw [Probe.offset, if_neg hmoved, hpos]
    simp

/-- A string with a parenthesis, a comment sign and a quote in it, a comma, and a second end. -/
theorem Probe.expr_ends_first_string :
    let p : Probe :=
      { source := "if (f(\"a)#\\\"\", ($x)) , 1) ) ".toList, filename := "", pos := 4 }
    Goal.parens.terminator ∈ [parenClose, argumentEnd, expressionEnd] ∧
      ∃ e held text rest, p.expr {} .parens = (.ok e, 25, held) ∧ p.rest = text ++ rest ∧
        Goal.parens.Extent text rest ∧ 25 = p.start + text.length + Goal.parens.taken rest := by
  intro p
  have ht : Goal.parens.terminator ∈ [parenClose, argumentEnd, expressionEnd] := by
    simp [Goal.parens]
  have hok : (p.expr {} .parens).1.isOk = true := by decide +kernel
  have hpos : (p.expr {} .parens).2.1 = 25 := by decide +kernel
  rcases hx : p.expr {} .parens with ⟨r, pos, held⟩
  rw [hx] at hok hpos
  cases r with
  | error => cases hok
  | ok e =>
    obtain rfl : pos = 25 := hpos
    obtain ⟨text, rest, hrest, hextent, hend⟩ := expr_ends_first ht hx
    exact ⟨ht, e, held, text, rest, rfl, hrest, hextent, by exact_mod_cast hend⟩

end Gamebook
