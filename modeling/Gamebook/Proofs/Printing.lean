import Gamebook.Proofs.Extension
import Gamebook.Proofs.Precedence
import Gamebook.Proofs.Shapes
import Gamebook.Proofs.Trees

/-!
Printing of expressions. A tree is printed with blanks around its operators and with
parentheses only where the precedences would group it otherwise. The names of calls are in
capitals, where they cannot be taken for anything else. Read again, the text gives the tree back.
-/
namespace Gamebook

open Grammar

/-- The content of a string with what has a meaning in it made literal. -/
def escaped : List Char → List Char
  | [] => []
  | c :: s => if c = '"' ∨ c = '\\' then '\\' :: c :: escaped s else c :: escaped s

theorem stringBody_escaped (s u : List Char) :
    stringBody (escaped s ++ '"' :: u) = (s, some u) := by
  induction s with
  | nil => rfl
  | cons c s ih =>
    by_cases hc : c = '"' ∨ c = '\\'
    · simp [escaped, hc, stringBody, ih]
    · obtain ⟨hq, hb⟩ := not_or.1 hc
      rw [escaped, if_neg hc, List.cons_append, stringBody.eq_5 _ _ hq (fun h => absurd h hb)
        (fun _ _ h => absurd h hb), ih]

namespace Expr

/-- Above the precedence of all operators. -/
def tight : Nat := 7

/-- A test and its subject. -/
def test (keyword name : String) (negated : Bool) : List Char :=
  keyword.toList ++ ' ' :: if negated then "no".toList ++ ' ' :: name.toList else name.toList

mutual

/-- The text of a tree where an operator that binds less tightly than `p` is put in
parentheses. -/
def print : Nat → Expr → List Char
  | _, number (.int n) => Numeral.digitsOf n.toNat
  | _, percent (.int n) => Numeral.digitsOf n.toNat ++ ['%']
  | _, range low high =>
    Numeral.digitsOf low.toNat ++ ' ' :: 't' :: 'o' :: ' ' :: Numeral.digitsOf high.toNat
  | _, string s => '"' :: (escaped s.toList ++ ['"'])
  | _, constant name => name.toList
  | _, localVar name => '$' :: name.toList
  | _, globalVar name => '@' :: name.toList
  | _, hasItem item negated => test "hasitem" item negated
  | _, atNode node negated => test "atnode" node negated
  | _, property target name => print tight target ++ '.' :: name.toList
  | _, call name args => capitals name ++ '(' :: (printAll args ++ [')'])
  | _, unary op e => op.symbol.toList ++ print tight e
  | p, binary op l r =>
    let text := print op.precedence l ++
      ' ' :: (op.symbol.toList ++ ' ' :: print (op.precedence + 1) r)
    if op.precedence < p then '(' :: (text ++ [')']) else text
  | _, number (.real _) | _, percent (.real _) | _, blank => []

def printAll : List Expr → List Char
  | [] => []
  | [e] => print 0 e
  | e :: es => print 0 e ++ ',' :: printAll es

end

mutual

/-- How many levels of parentheses the text has. -/
def nesting : Nat → Expr → Nat
  | _, property target _ => nesting tight target
  | _, call _ args => nestingAll args
  | _, unary _ e => nesting tight e
  | p, binary op l r =>
    let levels := max (nesting op.precedence l) (nesting (op.precedence + 1) r)
    if op.precedence < p then levels + 1 else levels
  | _, number _ | _, percent _ | _, range .. | _, string _ | _, constant _ | _, localVar _
  | _, globalVar _ | _, hasItem .. | _, atNode .. | _, blank => 0

def nestingAll : List Expr → Nat
  | [] => 0
  | e :: es => max (nesting 0 e + 1) (nestingAll es)

end

end Expr

/-- The text is a chain of operands whose tree, ordered by the precedences, is the
expression; none of its operators binds less tightly than `p`. -/
def Spread (setting : Setting) (depth : Int) (p : Nat) (text : List Char) (e : Expr) : Prop :=
  ∃ first e₀ ls, ∃ g : Infix.Grouping, text = first ++ Link.texts ls ∧
    Signed setting depth first e₀ ∧ (∀ l ∈ ls, l.Written setting depth) ∧
    Link.chain e₀ ls = (g.links, g.last) ∧ g.Ordered ∧ g.Binds p ∧ g.expr = e

theorem Link.texts_append (ls ks : List Link) :
    Link.texts (ls ++ ks) = Link.texts ls ++ Link.texts ks := by
  induction ls with
  | nil => rfl
  | cons l ls ih => simp [texts, ih]

theorem Link.chain_append (e : Expr) (ls : List Link) (l : Link) (ks : List Link) :
    Link.chain e (ls ++ l :: ks) =
      ((chain e ls).1 ++ ((chain e ls).2, l.op) :: (chain l.operand ks).1,
        (chain l.operand ks).2) := by
  induction ls generalizing e with
  | nil => rfl
  | cons k ls ih => simp [chain, ih]

namespace Spread

variable {setting : Setting} {depth : Int} {p : Nat} {text : List Char} {e : Expr}

theorem of_signed (h : Signed setting depth text e) : Spread setting depth p text e :=
  ⟨text, e, [], .operand e, by simp [Link.texts], h, by simp, rfl, trivial, trivial, rfl⟩

theorem of_written {chainable : Bool} (h : Operand.Written setting depth text ⟨e, chainable⟩) :
    Spread setting depth p text e :=
  of_signed (.plain h)

theorem exists_chain (h : Spread setting depth p text e) :
    ∃ first e₀ ls, text = first ++ Link.texts ls ∧ Signed setting depth first e₀ ∧
      (∀ l ∈ ls, l.Written setting depth) ∧ Link.tree e₀ ls = e := by
  obtain ⟨first, e₀, ls, g, htext, hfirst, hls, hchain, ho, -, rfl⟩ := h
  refine ⟨first, e₀, ls, htext, hfirst, hls, ?_⟩
  rw [Link.tree, hchain]
  exact Infix.Grouping.tree_links ho

/-- What stands at one level is read as an expression of its own. -/
theorem holds (h : Spread setting (depth + 1) p text e) (hlimit : depth ≤ setting.limit)
    (frame : Frame) : frame.Holds setting depth text e := by
  obtain ⟨first, e₀, ls, rfl, hfirst, hls, rfl⟩ := h.exists_chain
  exact Frame.holds_chain hlimit hfirst hls frame

theorem binary {op : BinaryOp} (hop : op ∈ BinaryOp.all) (hp : p ≤ op.precedence)
    {s t : List Char} {l r : Expr} (hl : Spread setting depth op.precedence s l)
    (hr : Spread setting depth (op.precedence + 1) t r) :
    Spread setting depth p (s ++ ' ' :: (op.symbol.toList ++ ' ' :: t)) (.binary op l r) := by
  obtain ⟨first, e₀, ls, g, rfl, hfirst, hls, hchain, ho, hb, rfl⟩ := hl
  obtain ⟨second, e₁, ks, k, rfl, hsecond, hks, hchain', ho', hb', rfl⟩ := hr
  refine ⟨first, e₀, ls ++ ⟨op.symbol.toList, op, second, e₁⟩ :: ks, .node op g k, ?_, hfirst,
    ?_, ?_, ⟨hb, hb', ho, ho'⟩, hp, rfl⟩
  · simp [Link.texts_append, Link.texts]
  · intro l hl
    rcases List.mem_append.1 hl with hl | hl
    · exact hls l hl
    · rcases List.mem_cons.1 hl with rfl | hl
      · exact ⟨.symbol hop, hsecond⟩
      · exact hks l hl
  · rw [Link.chain_append, hchain, hchain']
    rfl

end Spread

/-- A word that goes on behind a match is not finished there. -/
theorem run_unfinished_none {w : List Char} (hw : ∀ c ∈ w, isWordChar c = true) {p : Pattern}
    (hp : ∀ m, p.run w = some m → m.text ≠ w) : (Pattern.seq p unfinished).run w = none := by
  cases hr : p.run w with
  | none => simp only [Pattern.run, hr]
  | some m =>
    have hsplit := Pattern.run_split hr
    cases hrest : m.rest with
    | nil =>
      rw [hrest, List.append_nil] at hsplit
      exact absurd hsplit (hp m hr)
    | cons x r =>
      have hx : isWordChar x = true := hw x (by rw [← hsplit, hrest]; simp)
      simp [Pattern.run, hr, hrest, unfinished, isFoldedWordChar, hx]

/-- A word names a call if it spells no operator as a whole and begins no range. -/
theorem callName_of_word {w : List Char} (hw : Made isWordChar w)
    (hne : ∀ word ∈ ["not", "and", "or"], ∀ m, (caseless word).run w = some m → m.text ≠ w)
    (hrange : drawRange.run w = none) : CallName w := by
  obtain ⟨x, s, rfl, hx, -⟩ := hw.exists_cons
  have hsign : ∀ y, isWordChar y = false → x ≠ y := by
    rintro y hy rfl
    simp [hx] at hy
  have hnone : ∀ p : Pattern, p.consumes = true → p.starts x = false → p.run (x :: s) = none :=
    fun p hp hs => Pattern.run_of_starts hp hs s
  refine ⟨hw, ?_, ?_, hrange⟩
  · rw [negation, Pattern.run_choice_of_none (hnone _ rfl ?_)]
    · exact run_unfinished_none hw.2 (hne "not" (by simp))
    · simp [Pattern.starts, Pattern.char, Pattern.consumes, hsign '!' rfl]
  · rw [logical, Pattern.run_choice_of_none (hnone _ rfl ?_),
      Pattern.run_choice_of_none (hnone _ rfl ?_)]
    · refine run_unfinished_none hw.2 fun m hm => ?_
      cases ho : (caseless "or").run (x :: s) with
      | some m' =>
        rw [Pattern.run_choice_of_some ho] at hm
        cases hm
        exact hne "or" (by simp) m ho
      | none =>
        rw [Pattern.run_choice_of_none ho] at hm
        exact hne "and" (by simp) m hm
    · simp [Pattern.starts, Pattern.literal, Pattern.spell, Pattern.consumes, hsign '|' rfl]
    · simp [Pattern.starts, Pattern.literal, Pattern.spell, Pattern.consumes, hsign '&' rfl]

namespace IsCallName

variable {name : String}

/-- What the name spells out in any letter case it spells as a whole. -/
theorem text_ne_capitals (h : IsCallName name) {word : String} (hw : word ∈ ["not", "and", "or"])
    {m : Match} (hr : (caseless word).run (capitals name) = some m) : m.text ≠ capitals name := by
  intro heq
  have hk : ∀ c ∈ word.toList, c ∉ ['s', 'k', 'i'] := by
    simp only [List.mem_cons, List.not_mem_nil, or_false] at hw
    rcases hw with rfl | rfl | rfl <;> simp
  have hlow := congrArg String.ofList (Lexeme.map_toLower_of_folds (Pattern.spell_text hr) hk)
  rw [heq, String.ofList_toList] at hlow
  have hname : name = word := h.lowered_capitals.symm.trans hlow
  exact h.noOperator (hname ▸ hw)

theorem callName_capitals (h : IsCallName name) : CallName (capitals name) := by
  refine callName_of_word h.made_capitals (fun word hw m hm => h.text_ne_capitals hw hm) ?_
  cases hr : drawRange.run (capitals name) with
  | none => rfl
  | some m =>
    -- the word between the bounds of a range is written in small letters
    obtain ⟨_, _, -, -, -, _, _, -, -, ht⟩ :=
      shape_between (fun _ _ => shape_digits) (Pattern.run_shape hr)
    have ht : 't' ∈ capitals name := by
      rw [← Pattern.run_split hr, ht]
      simp
    exact absurd (isLower_of_mem_capitals ht) (by decide)

end IsCallName

theorem BinaryOp.precedence_lt_tight (op : BinaryOp) : op.precedence < Expr.tight := by
  cases op <;> simp [precedence, Expr.tight]

/-- A chain whose operators would have to bind tighter than all is a single operand. -/
theorem Spread.signed {setting : Setting} {depth : Int} {text : List Char} {e : Expr}
    (h : Spread setting depth Expr.tight text e) : Signed setting depth text e := by
  obtain ⟨first, e₀, ls, g, rfl, hfirst, -, hchain, -, hb, rfl⟩ := h
  cases g with
  | node op l r =>
    have hb : Expr.tight ≤ op.precedence := hb
    have := op.precedence_lt_tight
    omega
  | operand e =>
    cases ls with
    | nil =>
      cases hchain
      simpa [Link.texts, Infix.Grouping.last, Infix.Grouping.expr] using hfirst
    | cons l ls => simp [Link.chain, Infix.Grouping.links] at hchain

theorem Spread.free_isBlank {setting : Setting} {depth : Int} {p : Nat} {text : List Char}
    {e : Expr} (h : Spread setting depth p text e) (u : List Char) : Free isBlank (text ++ u) := by
  obtain ⟨first, e₀, ls, g, rfl, hfirst, -⟩ := h
  rw [List.append_assoc]
  exact hfirst.free_isBlank _

namespace Expr

variable {setting : Setting}

theorem number_print {depth n : Int} (hpos : 0 ≤ n) (hfits : Numeral.Fits n.toNat) :
    Operand.Written setting depth (Numeral.digitsOf n.toNat) ⟨.number (.int n), false⟩ := by
  refine .number (.inl (Numeral.made_digitsOf _)) ?_
  rw [Numeral.number?_digitsOf hfits, Int.toNat_of_nonneg hpos]

theorem percent_print {depth n : Int} (hpos : 0 ≤ n) (hfits : Numeral.Fits n.toNat) :
    Operand.Written setting depth (Numeral.digitsOf n.toNat ++ ['%'])
      ⟨.percent (.int n), false⟩ := by
  refine .percent (.inl (Numeral.made_digitsOf _)) ?_
  rw [Numeral.number?_digitsOf hfits, Int.toNat_of_nonneg hpos]

theorem range_print {depth low high : Int} (hlow : 0 ≤ low) (hlfits : Numeral.Fits low.toNat)
    (hhigh : 0 ≤ high) (hhfits : Numeral.Fits high.toNat) :
    Operand.Written setting depth
      (Numeral.digitsOf low.toNat ++ ' ' :: 't' :: 'o' :: ' ' :: Numeral.digitsOf high.toNat)
      ⟨.range low high, false⟩ := by
  have hblank : ∀ c ∈ [' '], isBlank c = true := by simp [isBlank]
  have h : Operand.Written setting depth _ _ := .range (Numeral.made_digitsOf low.toNat)
    (Numeral.made_digitsOf high.toNat) hblank hblank (Numeral.integer?_digitsOf hlfits)
    (Numeral.integer?_digitsOf hhfits)
  rw [Int.toNat_of_nonneg hlow, Int.toNat_of_nonneg hhigh] at h
  exact h

theorem string_print {depth : Int} (s : String) :
    Operand.Written setting depth ('"' :: (escaped s.toList ++ ['"'])) ⟨.string s, false⟩ := by
  have h : Operand.Written setting depth _ _ := .string (stringBody_escaped s.toList [])
  rwa [String.ofList_toList] at h

theorem localVar_print {depth : Int} {name : String} (hn : Made isWordChar name.toList) :
    Operand.Written setting depth ('$' :: name.toList) ⟨.localVar name, true⟩ := by
  have h : Operand.Written setting depth _ _ := .localName hn
  rwa [String.ofList_toList] at h

theorem globalVar_print {depth : Int} {name : String} (hn : Made isWordChar name.toList) :
    Operand.Written setting depth ('@' :: name.toList) ⟨.globalVar name, true⟩ := by
  have h : Operand.Written setting depth _ _ := .globalName hn
  rwa [String.ofList_toList] at h

theorem property_print {depth : Int} {text : List Char} {target : Expr} {name : String}
    (ht : Operand.Written setting depth text ⟨target, true⟩) (hn : Made isWordChar name.toList) :
    Operand.Written setting depth (text ++ '.' :: name.toList) ⟨.property target name, true⟩ := by
  have h : Operand.Written setting depth _ _ := .property ht (s := []) (by simp) hn
  rwa [String.ofList_toList] at h

theorem subject_print {name : String} {negated : Bool} (hn : Made isWordChar name.toList)
    (hno : name = "no" → negated = true) :
    Subject (if negated then "no".toList ++ ' ' :: name.toList else name.toList) name negated := by
  cases negated with
  | true =>
    have h := Subject.negated (s := [' ']) ⟨by simp, by simp [isBlank]⟩ hn
    rwa [String.ofList_toList] at h
  | false =>
    have h := Subject.plain hn fun h => absurd (hno (String.toList_inj.1 h)) (by decide)
    rwa [String.ofList_toList] at h

theorem hasItem_print {depth : Int} {item : String} {negated : Bool}
    (hn : Made isWordChar item.toList) (hno : item = "no" → negated = true) :
    Operand.Written setting depth (test "hasitem" item negated) ⟨.hasItem item negated, false⟩ :=
  .hasItem (s := [' ']) ⟨by simp, by simp [isBlank]⟩ (subject_print hn hno)

theorem atNode_print {depth : Int} {node : String} {negated : Bool}
    (hn : Made isWordChar node.toList) (hno : node = "no" → negated = true) :
    Operand.Written setting depth (test "atnode" node negated) ⟨.atNode node negated, false⟩ :=
  .atNode (s := [' ']) ⟨by simp, by simp [isBlank]⟩ (subject_print hn hno)

theorem constant_print {depth : Int} {name : String} (h : name ∈ Lexeme.constantNames) :
    Operand.Written setting depth name.toList ⟨.constant name, false⟩ := by
  have hspells : ∃ word ∈ ["true", "false", "null"], Spells word name.toList := by
    simp only [Lexeme.constantNames, List.mem_cons, List.not_mem_nil, or_false] at h
    rcases h with rfl | rfl | rfl | rfl
    · exact ⟨"true", by simp, by decide⟩
    · exact ⟨"false", by simp, by decide⟩
    · exact ⟨"null", by simp, by decide⟩
    · exact ⟨"false", by simp, by decide⟩
  have hlowered : Lexeme.lowered name.toList = name := by
    simp only [Lexeme.constantNames, List.mem_cons, List.not_mem_nil, or_false] at h
    rcases h with rfl | rfl | rfl | rfl <;> decide
  obtain ⟨word, hword, hs⟩ := hspells
  have hw : Operand.Written setting depth name.toList
      ⟨.constant (Lexeme.lowered name.toList), false⟩ := .constant hword hs
  rwa [hlowered] at hw

theorem sign_print {op : UnaryOp} (h : op ∈ [UnaryOp.minus, .not]) :
    op.Written op.symbol.toList := by
  simp only [List.mem_cons, List.not_mem_nil, or_false] at h
  rcases h with rfl | rfl
  · exact .minus
  · exact .bang

/-- The text is a chain that stands for the tree, and one operand if a property can be read
off it. -/
structure Prints (setting : Setting) (depth : Int) (p : Nat) (text : List Char) (e : Expr) :
    Prop where
  spread : Spread setting depth p text e
  written : e.isChainable = true → Operand.Written setting depth text ⟨e, true⟩

/-- The text is that of the arguments of a call. -/
def PrintsAll (setting : Setting) (depth : Int) (text : List Char) (es : List Expr) : Prop :=
  es = [] ∧ text = [] ∨ Arguments setting depth text es ∧ Free isBlank text

section Steps

variable {depth : Int} {p : Nat} {text behind : List Char} {e : Expr} {es : List Expr}

theorem Prints.of_chain (h : Spread setting depth p text e) (hc : e.isChainable = false) :
    Prints setting depth p text e :=
  ⟨h, fun hc' => absurd (hc.symm.trans hc') (by decide)⟩

theorem Prints.of_operand {chainable : Bool} (h : Operand.Written setting depth text ⟨e, chainable⟩)
    (hc : e.isChainable = chainable) : Prints setting depth p text e :=
  ⟨.of_written h, fun hc' => hc.symm.trans hc' ▸ h⟩

theorem Prints.property (h : Prints setting depth tight text e) (hc : e.isChainable = true)
    {name : String} (hn : Made isWordChar name.toList) :
    Prints setting depth p (text ++ '.' :: name.toList) (.property e name) :=
  .of_operand (property_print (h.written hc) hn) rfl

/-- A call by a word that stands for its name. -/
theorem Prints.call {w : List Char} {name : String} (hw : CallName w)
    (hlow : Lexeme.lowered w = name) (hcall : setting.complaint? name es.length = none)
    (h : PrintsAll setting depth text es) :
    Prints setting depth p (w ++ '(' :: (text ++ [')'])) (.call name es) := by
  subst hlow
  refine .of_operand ?_ rfl
  rcases h with ⟨rfl, rfl⟩ | ⟨ha, hfree⟩
  · exact .emptyCall hw (s := []) (by simp) hcall
  · exact .call hw (s := []) (by simp) ha hfree hcall

theorem Prints.unary {op : UnaryOp} (hop : op ∈ [UnaryOp.minus, .not])
    (h : Prints setting depth tight text e) :
    Prints setting depth p (op.symbol.toList ++ text) (.unary op e) :=
  .of_chain (.of_signed (.sign (sign_print hop) h.spread.signed)) rfl

/-- A chain in parentheses. -/
theorem Prints.group {q : Nat} (h : Spread setting (depth + 1) q text e)
    (hlimit : depth ≤ setting.limit) (hc : e.isChainable = false) :
    Prints setting depth p ('(' :: (text ++ [')'])) e :=
  .of_chain (.of_written (.group (h.holds hlimit .group))) hc

theorem PrintsAll.last (h : Spread setting (depth + 1) 0 text e) (hlimit : depth ≤ setting.limit) :
    PrintsAll setting depth text [e] :=
  .inr ⟨.last fun _ _ _ => h.holds hlimit _, by simpa using h.free_isBlank []⟩

theorem PrintsAll.more (h : Spread setting (depth + 1) 0 text e) (hlimit : depth ≤ setting.limit)
    (hne : es ≠ []) (hbehind : PrintsAll setting depth behind es) :
    PrintsAll setting depth (text ++ ',' :: behind) (e :: es) := by
  rcases hbehind with ⟨hnil, -⟩ | ⟨ha, -⟩
  · exact absurd hnil hne
  · exact .inr ⟨.more (fun _ _ _ => h.holds hlimit _) ha, h.free_isBlank _⟩

end Steps

mutual

theorem prints (e : Expr) {depth : Int} (p : Nat) (hp : e.Proper) (hi : e.Plain)
    (hk : ∀ k ∈ e.calls, setting.complaint? k.1 k.2 = none)
    (hn : depth + e.nesting p ≤ setting.limit + 1) : Prints setting depth p (e.print p) e := by
  cases e with
  | number n =>
    cases n with
    | real x => exact hi.elim
    | int n =>
      rw [print]
      exact .of_operand (number_print (Number.nonneg_int.1 hp) hi) rfl
  | percent n =>
    cases n with
    | real x => exact hi.elim
    | int n =>
      rw [print]
      exact .of_operand (percent_print (Number.nonneg_int.1 hp) hi) rfl
  | range low high =>
    rw [print]
    exact .of_operand (range_print hp.1 hi.1 hp.2 hi.2) rfl
  | string s =>
    rw [print]
    exact .of_operand (string_print s) rfl
  | constant name =>
    rw [print]
    exact .of_operand (constant_print hp) rfl
  | localVar name =>
    rw [print]
    exact .of_operand (localVar_print hp) rfl
  | globalVar name =>
    rw [print]
    exact .of_operand (globalVar_print hp) rfl
  | hasItem item negated =>
    rw [print]
    exact .of_operand (hasItem_print hp.1 hp.2) rfl
  | atNode node negated =>
    rw [print]
    exact .of_operand (atNode_print hp.1 hp.2) rfl
  | property target name =>
    obtain ⟨hc, hname, hp⟩ := hp
    rw [nesting] at hn
    rw [print]
    exact (prints target tight hp hi hk hn).property hc hname
  | call name args =>
    obtain ⟨hname, hp⟩ := hp
    rw [nesting] at hn
    rw [print]
    have hcall : setting.complaint? name args.length = none :=
      hk (name, args.length) (by simp [calls])
    exact .call hname.callName_capitals hname.lowered_capitals hcall
      (arguments_print args hp hi (fun k h => hk k (by simp [calls, h])) hn)
  | unary op e =>
    rw [nesting] at hn
    rw [print]
    exact (prints e tight hp.2 hi hk hn).unary hp.1
  | binary op l r =>
    obtain ⟨hop, hpl, hpr⟩ := hp
    have hkl : ∀ k ∈ l.calls, setting.complaint? k.1 k.2 = none :=
      fun k h => hk k (by simp [calls, h])
    have hkr : ∀ k ∈ r.calls, setting.complaint? k.1 k.2 = none :=
      fun k h => hk k (by simp [calls, h])
    by_cases hprec : op.precedence < p
    · simp only [nesting, hprec, if_true] at hn
      have hl : Spread setting (depth + 1) op.precedence _ l :=
        (prints l _ hpl hi.1 hkl (by omega)).spread
      have hr : Spread setting (depth + 1) (op.precedence + 1) _ r :=
        (prints r _ hpr hi.2 hkr (by omega)).spread
      simp only [print, hprec, if_true]
      exact .group (.binary hop (Nat.le_refl _) hl hr) (by omega) rfl
    · simp only [nesting, hprec, if_false] at hn
      simp only [print, hprec, if_false]
      exact .of_chain (.binary hop (by omega) (prints l _ hpl hi.1 hkl (by omega)).spread
        (prints r _ hpr hi.2 hkr (by omega)).spread) rfl
  | blank => exact hp.elim

/-- The arguments of a call are printed one after another. -/
theorem arguments_print (es : List Expr) {depth : Int} (hp : ProperAll es) (hi : PlainAll es)
    (hk : ∀ k ∈ callsAll es, setting.complaint? k.1 k.2 = none)
    (hn : depth + nestingAll es ≤ setting.limit + 1) :
    PrintsAll setting depth (printAll es) es := by
  cases es with
  | nil => exact .inl ⟨rfl, rfl⟩
  | cons e es =>
    rw [nestingAll] at hn
    have hs : Spread setting (depth + 1) 0 (e.print 0) e :=
      (prints e 0 hp.1 hi.1 (fun k h => hk k (by simp [callsAll, h])) (by omega)).spread
    cases es with
    | nil => exact .last hs (by omega)
    | cons e' es =>
      rw [printAll.eq_3 _ _ (by simp)]
      exact .more hs (by omega) (by simp) (arguments_print (e' :: es) hp.2 hi.2
        (fun k h => hk k (by rw [callsAll]; exact List.mem_append_right _ h)) (by omega))

end

/-- Proper trees over integers that may be read, with calls that are known, and with no more
levels of parentheses than there may be. -/
structure Printable (setting : Setting) (e : Expr) : Prop where
  proper : e.Proper
  plain : e.Plain
  known : ∀ k ∈ e.calls, setting.complaint? k.1 k.2 = none
  nesting : (e.nesting 0 : Int) ≤ setting.limit

theorem Printable.spread {e : Expr} (h : e.Printable setting) :
    Spread setting (0 + 1) 0 (e.print 0) e := by
  have hn := h.nesting
  exact (prints e 0 h.proper h.plain h.known (by omega)).spread

theorem Printable.limit {e : Expr} (h : e.Printable setting) : 0 ≤ setting.limit := by
  have hn := h.nesting
  omega

end Expr

namespace Read

variable {setting : Setting} {e : Expr} {u : List Char} {c : Cursor}

/-- A printed tree is read back between parentheses. -/
theorem expr_parens_print (h : e.Printable setting) (hc : c.rest = e.print 0 ++ ')' :: u) :
    ∃ d, Read.expr setting .parens c = .ok e d ∧ d.rest = u :=
  (h.spread.holds h.limit .group).expr rfl hc

/-- A printed tree is read back behind a blank, up to the end of its line. -/
theorem expr_line_print (h : e.Printable setting)
    (hc : c.rest = ' ' :: (e.print 0 ++ '\n' :: u)) :
    ∃ d, Read.expr setting .line c = .ok e d ∧ d.rest = '\n' :: u := by
  obtain ⟨first, e₀, ls, htext, hfirst, hls, htree⟩ := h.spread.exists_chain
  obtain ⟨b, hb, hrest⟩ :=
    Expr.ofText_chain (w := [' ']) h.limit (by simp [isBlank]) hfirst hls
  rw [← htext, htree] at hb
  have hbreak : Break [] ('\n' :: u) := .mk (.inl rfl) u
  -- first to the place of the cursor, then on to the text that follows there
  have hm := Read.Moves.expr (v := .blind) setting .line (.ofText (' ' :: e.print 0))
    (Cursor.before { c with rest := ' ' :: e.print 0 } []) (.blind (List.append_nil _).symm)
  have hb : Read.expr setting .line (.ofText (' ' :: e.print 0)) = .ok e b := hb
  rw [hb] at hm
  generalize hr : Read.expr setting .line (Cursor.before { c with rest := ' ' :: e.print 0 } []) = r
    at hm
  cases hm with
  | @ok _ e' _ d he hd =>
    cases he
    obtain ⟨d', hd', hmeets⟩ := Keeps.expr hbreak hbreak.line setting (.within _) hr
    have hcursor : Cursor.before { c with rest := ' ' :: e.print 0 } ('\n' :: u) = c := by
      rw [Cursor.before, List.cons_append, ← hc]
    rw [hcursor] at hd'
    refine ⟨d', hd', ?_⟩
    have hnil : d.rest = [] := hd.rest.symm.trans hrest
    cases hmeets with
    | within x =>
      have hx : x.rest = [] := by simpa using hnil
      simp [hx]
    | beyond hf => exact hf.elim

end Read
end Gamebook
