import Gamebook.Proofs.Printing
import Gamebook.Proofs.Proper

/-!
The exact image of reading. Only proper trees are read, and every proper tree over integers
that are not too long is read from some text: the one that puts every operator with its
operands in parentheses and writes the names of calls in capitals, so that nothing in it can
be taken for anything else.
-/
namespace Gamebook

open Grammar

namespace Expr

mutual

/-- A tree as one operand, with all its parentheses. -/
def spell : Expr → List Char
  | number (.int n) => Numeral.digitsOf n.toNat
  | percent (.int n) => Numeral.digitsOf n.toNat ++ ['%']
  | range low high =>
    Numeral.digitsOf low.toNat ++ ' ' :: 't' :: 'o' :: ' ' :: Numeral.digitsOf high.toNat
  | string s => '"' :: (escaped s.toList ++ ['"'])
  | constant name => name.toList
  | localVar name => '$' :: name.toList
  | globalVar name => '@' :: name.toList
  | hasItem item negated => test "hasitem" item negated
  | atNode node negated => test "atnode" node negated
  | property target name => spell target ++ '.' :: name.toList
  | call name args => capitals name ++ '(' :: (spellAll args ++ [')'])
  | unary op e => '(' :: (op.symbol.toList ++ spell e ++ [')'])
  | binary op l r => '(' :: (spell l ++ ' ' :: (op.symbol.toList ++ ' ' :: spell r) ++ [')'])
  | number (.real _) | percent (.real _) | blank => []

def spellAll : List Expr → List Char
  | [] => []
  | [e] => spell e
  | e :: es => spell e ++ ',' :: spellAll es

end

mutual

/-- How deep the parentheses of the text nest. -/
def levels : Expr → Nat
  | property target _ => levels target
  | call _ args => levelsAll args
  | unary _ e => levels e + 1
  | binary _ l r => max (levels l) (levels r) + 1
  | number _ | percent _ | range .. | string _ | constant _ | localVar _ | globalVar _
  | hasItem .. | atNode .. | blank => 0

def levelsAll : List Expr → Nat
  | [] => 0
  | e :: es => max (levels e + 1) (levelsAll es)

end

variable {setting : Setting}

/-- An operand alone is read as an expression of its own. -/
theorem holds_signed {depth : Int} (hlimit : depth ≤ setting.limit) {text : List Char} {e : Expr}
    (h : Signed setting (depth + 1) text e) (frame : Frame) : frame.Holds setting depth text e := by
  have hnone : ∀ l ∈ ([] : List Link), l.Written setting (depth + 1) := by simp
  have hholds := Frame.holds_chain hlimit h hnone frame
  rwa [Link.texts, List.append_nil] at hholds

/-- Two operands in parentheses. -/
theorem binary_spell {depth : Int} (hlimit : depth ≤ setting.limit) {op : BinaryOp}
    (hop : op ∈ BinaryOp.all) {s t : List Char} {l r : Expr} (hl : Signed setting (depth + 1) s l)
    (hr : Signed setting (depth + 1) t r) :
    Operand.Written setting depth
      ('(' :: (s ++ ' ' :: (op.symbol.toList ++ ' ' :: t) ++ [')'])) ⟨.binary op l r, false⟩ := by
  have hls : ∀ k ∈ [Link.mk op.symbol.toList op t r], k.Written setting (depth + 1) := by
    intro k hk
    rw [List.mem_singleton.1 hk]
    exact ⟨.symbol hop, hr⟩
  have hholds := Frame.holds_chain hlimit hl hls .group
  simp only [Link.texts, List.append_nil] at hholds
  exact .group hholds

mutual

/-- A proper tree is written as one operand. -/
theorem written_spell (e : Expr) {depth : Int} (hr : setting.registry = none) (hp : e.Proper)
    (hn : e.Plain) (hd : depth + e.levels ≤ setting.limit + 1) :
    Operand.Written setting depth e.spell ⟨e, e.isChainable⟩ := by
  cases e with
  | number n =>
    cases n with
    | real x => exact hn.elim
    | int n =>
      rw [spell]
      exact number_print (Number.nonneg_int.1 hp) hn
  | percent n =>
    cases n with
    | real x => exact hn.elim
    | int n =>
      rw [spell]
      exact percent_print (Number.nonneg_int.1 hp) hn
  | range low high =>
    rw [spell]
    exact range_print hp.1 hn.1 hp.2 hn.2
  | string s =>
    rw [spell]
    exact string_print s
  | constant name =>
    rw [spell]
    exact constant_print hp
  | localVar name =>
    rw [spell]
    exact localVar_print hp
  | globalVar name =>
    rw [spell]
    exact globalVar_print hp
  | hasItem item negated =>
    rw [spell]
    exact hasItem_print hp.1 hp.2
  | atNode node negated =>
    rw [spell]
    exact atNode_print hp.1 hp.2
  | property target name =>
    obtain ⟨hc, hname, hp⟩ := hp
    rw [levels] at hd
    have ht := written_spell target hr hp hn hd
    rw [hc] at ht
    rw [spell]
    exact property_print ht hname
  | call name args =>
    obtain ⟨hname, hp⟩ := hp
    rw [levels] at hd
    have hcall : setting.complaint? (Lexeme.lowered (capitals name)) args.length = none := by
      simp [Setting.complaint?, hr]
    have hlow := hname.lowered_capitals
    rw [spell]
    by_cases hargs : args = []
    · subst hargs
      have h : Operand.Written setting depth _ _ :=
        .emptyCall hname.callName_capitals (s := []) (by simp) hcall
      rwa [hlow] at h
    · obtain ⟨ha, hfree⟩ := arguments_spell args hargs hr hp hn hd
      have h : Operand.Written setting depth _ _ :=
        .call hname.callName_capitals (s := []) (by simp) ha hfree hcall
      rwa [hlow] at h
  | unary op e =>
    rw [levels] at hd
    have he : Operand.Written setting (depth + 1) e.spell _ :=
      written_spell e hr hp.2 hn (by omega)
    rw [spell]
    exact .group (holds_signed (by omega) (.sign (sign_print hp.1) (.plain he)) .group)
  | binary op l r =>
    obtain ⟨hop, hpl, hpr⟩ := hp
    rw [levels] at hd
    have hl : Operand.Written setting (depth + 1) l.spell _ :=
      written_spell l hr hpl hn.1 (by omega)
    have hr : Operand.Written setting (depth + 1) r.spell _ :=
      written_spell r hr hpr hn.2 (by omega)
    rw [spell]
    exact binary_spell (by omega) hop (.plain hl) (.plain hr)
  | blank => exact hp.elim

theorem arguments_spell (es : List Expr) {depth : Int} (hne : es ≠ [])
    (hr : setting.registry = none) (hp : ProperAll es) (hn : PlainAll es)
    (hd : depth + levelsAll es ≤ setting.limit + 1) :
    Arguments setting depth (spellAll es) es ∧ Free isBlank (spellAll es) := by
  cases es with
  | nil => exact absurd rfl hne
  | cons e es =>
    rw [levelsAll] at hd
    have he : Operand.Written setting (depth + 1) e.spell _ :=
      written_spell e hr hp.1 hn.1 (by omega)
    have hs : Signed setting (depth + 1) e.spell e := .plain he
    have hholds := holds_signed (by omega) hs
    cases es with
    | nil =>
      rw [spellAll]
      exact ⟨.last fun _ _ _ => hholds _, by simpa using hs.free_isBlank []⟩
    | cons e' es =>
      have hlevels : depth + (levelsAll (e' :: es) : Nat) ≤ setting.limit + 1 := by omega
      have hmore := arguments_spell (e' :: es) (by simp) hr hp.2 hn.2 hlevels
      rw [spellAll.eq_3 _ _ (by simp)]
      exact ⟨.more (fun _ _ _ => hholds _) hmore.1, hs.free_isBlank _⟩

end

/-- Read again, the text gives the tree. -/
theorem ofText_spell {e : Expr} (hr : setting.registry = none) (hp : e.Proper) (hn : e.Plain)
    (hd : e.levels ≤ setting.limit) :
    ∃ c, Expr.ofText setting e.spell = .ok e c ∧ c.rest = [] := by
  have hw : Operand.Written setting 1 e.spell _ := written_spell e hr hp hn (by omega)
  have hnone : ∀ l ∈ ([] : List Link), l.Written setting 1 := by simp
  have h := ofText_chain (w := []) (by omega) (by simp) (.plain hw) hnone
  rwa [Link.texts, List.append_nil] at h

/-- The exact image of reading: whatever the registry and the limit, only proper trees are
read; and without a registry every proper tree over integers of a length that may be read is
read from its spelling, wherever the limit allows as many levels as the spelling has. -/
theorem ofText_image (e : Expr) :
    (∀ (setting : Setting) (text : List Char) (c : Cursor),
      Expr.ofText setting text = .ok e c → e.Proper) ∧
    (e.Proper → e.Plain → ∀ setting : Setting, setting.registry = none →
      e.levels ≤ setting.limit →
      ∃ c, Expr.ofText setting e.spell = .ok e c ∧ c.rest = []) :=
  ⟨fun _ _ _ h => Read.expr_proper h, fun hp hn _ hr hd => ofText_spell hr hp hn hd⟩

/-- A call that is named like a range, an item called `no` and a constant with a long s. -/
theorem ofText_image_overlapping :
    let e : Expr := .binary .ge
      (.property (.call "3to4" [.unary .not (.hasItem "no" true), .range 1 6]) "x")
      (.constant "fal\u017fe")
    ∃ c, Expr.ofText {} "(3TO4((!hasitem no no),1 to 6).x >= fal\u017fe)".toList = .ok e c ∧
      c.rest = [] ∧ e.Proper := by
  intro e
  have hcall : IsCallName "3to4" := by decide
  have hno : IsWord "no" := by decide
  have hx : IsWord "x" := by decide
  have hp : e.Proper := by
    simp [e, Proper, ProperAll, isChainable, hcall, hno, hx, BinaryOp.all, Lexeme.constantNames]
  have hone : Numeral.Fits 1 := by decide
  have hsix : Numeral.Fits 6 := by decide
  have hn : e.Plain := by simp [e, Plain, PlainAll, hone, hsix]
  have hlevels : (e.levels : Int) ≤ Setting.limit {} := by
    simp [e, levels, levelsAll]
  obtain ⟨c, hc, hrest⟩ := (ofText_image e).2 hp hn {} rfl hlevels
  have htext : e.spell = "(3TO4((!hasitem no no),1 to 6).x >= fal\u017fe)".toList := by
    simp [e, spell, spellAll, capitals, test, Numeral.digitsOf, Nat.toDigits]
    decide
  rw [htext] at hc
  exact ⟨c, hc, hrest, (ofText_image e).1 {} _ c hc⟩

end Expr

end Gamebook
