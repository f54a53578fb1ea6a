import Gamebook.Proofs.Accounts

/-!
A record about an item reads alike in the block of the item and outside of it, where its line
names the item. The name comes first, but in a behavior behind the word that denies it.
-/
namespace Gamebook

namespace Line

/-- The tokens of a line without their places. -/
def contents (line : Line) : List Content := line.map (·.content)

/-- To the blind a line is what it holds. -/
theorem moved_blind {l k : Line} : Line.Moved .blind l k ↔ l.contents = k.contents := by
  have hrelocate : ∀ l : Line, l.relocate (fun _ => 0) = l.contents.map (⟨·, 0⟩) := by
    intro l
    simp [relocate, contents, Token.relocate]
  have hinjective : Function.Injective fun content : Content => (⟨content, 0⟩ : Token) :=
    fun _ _ h => congrArg Token.content h
  change l.relocate (fun _ => 0) = k.relocate (fun _ => 0) ↔ _
  rw [hrelocate, hrelocate, (List.map_injective_iff.2 hinjective).eq_iff]

theorem eq_cons_of_contents {line : Line} {content : Content} {rest : List Content}
    (h : line.contents = content :: rest) :
    ∃ t l, line = t :: l ∧ t.content = content ∧ Line.contents l = rest :=
  List.map_eq_cons_iff.1 h

end Line

/-- A line about an item with the item named in it, behind a `no` if that leads the line. -/
def Content.naming (item : String) : List Content → List Content
  | .word "no" :: rest => .word "no" :: .word item :: rest
  | line => .word item :: line

/-- What the line at the beginning of a text holds, if it can be read. -/
def Read.contents? (setting : Setting) (text : List Char) : Option (List Content) :=
  match Read.line setting (.ofText text) with
  | .ok line _ => some line.contents
  | .error .. => none

/-- A line holds the same wherever its text stands. -/
theorem Read.line_of_contents {setting : Setting} {c : Cursor} {contents : List Content}
    (h : contents? setting c.rest = some contents) :
    ∃ line d, Read.line setting c = .ok line d ∧ line.contents = contents := by
  have hm : Agrees (Cursor.Moved .blind) (Fault.Moved .blind) (Line.Moved .blind)
      (Read.line setting c) (Read.line setting (.ofText c.rest)) :=
    Moves.line setting c (.ofText c.rest) (.blind rfl)
  unfold contents? at h
  cases hk : Read.line setting (.ofText c.rest) with
  | error fault d =>
    rw [hk] at h
    cases h
  | ok k d =>
    rw [hk] at h hm
    cases h
    cases hl : Read.line setting c with
    | error fault e =>
      rw [hl] at hm
      cases hm
    | ok line e =>
      rw [hl] at hm
      cases hm with
      | ok hline => exact ⟨line, e, rfl, Line.moved_blind.1 hline⟩

namespace Entry

theorem bind_of_ok {x : Entry α} {k : α → Entry β} {line rest : Line} {a : α}
    (h : x line = .ok (a, rest)) : (x >>= k) line = k a rest := by
  change (x line >>= fun p => k p.1 p.2) = k a rest
  rw [h]
  rfl

theorem itemOr_of_word {item : String} {t : Token} (h : t.content = .word item) (rest : Line) :
    itemOr none (t :: rest) = .ok (item, rest) := by
  have hword : word? (t :: rest) = .ok (some item, rest) := by
    simp [word?, take?, Line.eatOne, h, Slot.accepts, Content.kind, Content.word?]
  exact bind_of_ok hword

theorem itemOr_some (item : String) (line : Line) :
    itemOr (some item) line = .ok (item, line) := rfl

/-- Told the item, the reader does with the first contents what it does with the second, which
name the item, when it is not told. -/
def Names (reader : Option String → Nat → Entry Record) (item : String)
    (inside outside : List Content) : Prop :=
  ∀ line : Line, line.contents = outside → ∃ k : Line, k.contents = inside ∧
    ∀ ref, reader none ref line = reader (some item) ref k

/-- A reader that begins with the item takes its name from the front of the line. -/
theorem names_front {reader : Option String → Nat → Entry Record}
    {rest : Nat → String → Entry Record}
    (h : ∀ block ref, reader block ref = itemOr block >>= rest ref) (item : String)
    (line : List Content) : Names reader item line (.word item :: line) := by
  intro l hl
  obtain ⟨t, k, rfl, ht, hk⟩ := Line.eq_cons_of_contents hl
  refine ⟨k, hk, fun ref => ?_⟩
  rw [h, h, bind_of_ok (itemOr_of_word ht k), bind_of_ok (itemOr_some item k)]

theorem names_behavior (category : Category) (count : Option Nat) {item : String}
    (hi : item ≠ "no") (line : List Content) :
    Names (behavior category · count) item line (Content.naming item line) := by
  intro l hl
  unfold Content.naming at hl
  split at hl
  · -- the name is the second word, and both readers take the first
    obtain ⟨t, l, rfl, ht, hl⟩ := Line.eq_cons_of_contents hl
    obtain ⟨u, k, rfl, hu, hk⟩ := Line.eq_cons_of_contents hl
    refine ⟨t :: k, congrArg₂ List.cons ht hk, fun ref => ?_⟩
    simp only [behavior]
    rw [bind_of_ok (keyword_of_eq ht _), bind_of_ok (keyword_of_eq ht _),
      bind_of_ok (itemOr_of_word hu k), bind_of_ok (itemOr_some item k)]
  · -- neither the name nor the line behind it begins with `no`
    rename_i hno
    obtain ⟨u, k, rfl, hu, hk⟩ := Line.eq_cons_of_contents hl
    have hname : keyword "no" (u :: k) = .ok (false, u :: k) := by
      refine keyword_of_ne fun t ht => ?_
      cases ht
      rw [hu]
      simpa using hi
    have hrest : keyword "no" k = .ok (false, k) := by
      refine keyword_of_ne fun t ht hc => ?_
      obtain ⟨rest, rfl⟩ := List.head?_eq_some_iff.1 ht
      exact hno (Line.contents rest) (hk.symm.trans (congrArg (· :: _) hc))
    refine ⟨k, hk, fun ref => ?_⟩
    simp only [behavior]
    rw [bind_of_ok hname, bind_of_ok hrest, bind_of_ok (itemOr_of_word hu k),
      bind_of_ok (itemOr_some item k)]

end Entry

/-- Two steps come to the same. Either the documents behind them are the same but for places,
and both have given the same new warnings; or both are refused with the same complaint, and
have done nothing. -/
inductive Parse.SameOutcome (s t : Progress) :
    EStateM.Result Fault Progress α → EStateM.Result Fault Progress β → Prop
  | ok {a b} {s' t' : Progress} (new : List String)
    (document : s'.document.relocate (fun _ => 0) = t'.document.relocate (fun _ => 0))
    (left : s'.warnings.map Warning.text = s.warnings.map Warning.text ++ new)
    (right : t'.warnings.map Warning.text = t.warnings.map Warning.text ++ new) :
    SameOutcome s t (.ok a s') (.ok b t')
  | error (complaint : Complaint) {s' t' : Progress}
    (left : s'.document = s.document ∧ s'.warnings = s.warnings)
    (right : t'.document = t.document ∧ t'.warnings = t.warnings) :
    SameOutcome s t (.error (.refused complaint s.cursor.pos) s')
      (.error (.refused complaint t.cursor.pos) t')

namespace Progress

theorem document_moveTo (s : Progress) (c : Cursor) :
    (s.moveTo c).document = s.document := rfl

theorem warnings_moveTo (s : Progress) (c : Cursor) :
    (s.moveTo c).warnings = s.warnings :=
  (Adds.moveTo s c).warnings (List.forall_mem_nil _)

/-- The texts of the warnings about a record hang on no place. -/
theorem warnings_commit_relocate (s : Progress) (f : Nat → Nat) (r : Record) (unused : Line) :
    (s.commit r unused).warnings.map Warning.text = s.warnings.map Warning.text ++
      (((s.document.relocate f).warning? (r.relocate f)).toList ++
        ((r.relocate f).trailing? (unused.relocate f)).toList).map Warning.text := by
  have htrailing : ((r.relocate f).trailing? (unused.relocate f)).toList.map Warning.text =
      (r.trailing? unused).toList.map Warning.text := by
    rw [Record.trailing?_relocate]
    cases r.trailing? unused with
    | none => rfl
    | some w => exact congrArg ([·]) w.text_relocate
  simp only [warnings_commit, Document.replaced_cons, Document.warning?_relocate,
    List.map_append, htrailing]
  simp [Document.replaced, Document.log]

end Progress

namespace Parse

variable {setting : Setting} {s t : Progress} {item : String} {inside outside : List Content}

theorem statement_sameOutcome {reader : Option String → Nat → Entry Record}
    (hn : Entry.Names reader item inside outside)
    (hr : ∀ f ref, Entry.Natural f (Record.relocate f) (reader (some item) ref)
      (reader (some item) (f ref)))
    (hd : t.document = s.document)
    (hs : Read.contents? setting s.cursor.rest = some inside)
    (ht : Read.contents? setting t.cursor.rest = some outside)
    (scope scope' : Scope) (subject : String) :
    SameOutcome s t (statement setting scope subject (reader (some item)) s)
      (statement setting scope' subject (reader none) t) := by
  obtain ⟨l, c, hl, hc⟩ := Read.line_of_contents (c := s.cursor.note subject) hs
  obtain ⟨l', d, hl', hc'⟩ := Read.line_of_contents (c := t.cursor.note subject) ht
  obtain ⟨k, hk, hreader⟩ := hn l' hc'
  have hlk : Line.Moved .blind l k := Line.moved_blind.2 (hc.trans hk.symm)
  rw [statement_of_line hl, statement_of_line hl', hreader]
  have h := Entry.Natural.moved (v := .blind) (hr _ s.cursor.pos) (hr _ t.cursor.pos) rfl hlk
  rcases h with ⟨p, q, hp, hq, hrecord, hunused⟩ | ⟨complaint, hp, hq⟩
  · simp only [hp, hq]
    change p.1.relocate (fun _ => 0) = q.1.relocate (fun _ => 0) at hrecord
    change p.2.relocate (fun _ => 0) = q.2.relocate (fun _ => 0) at hunused
    have hleft := (s.moveTo c).warnings_commit_relocate (fun _ => 0) p.1 p.2
    have hright := (t.moveTo d).warnings_commit_relocate (fun _ => 0) q.1 q.2
    rw [Progress.document_moveTo, Progress.warnings_moveTo, hrecord, hunused] at hleft
    rw [Progress.document_moveTo, Progress.warnings_moveTo, hd] at hright
    refine .ok _ ?_ hleft hright
    change (s.document.add p.1).relocate _ = (t.document.add q.1).relocate _
    rw [Document.add_relocate, Document.add_relocate, hrecord, hd]
  · simp only [hp, hq]
    exact .error complaint ⟨rfl, s.warnings_moveTo c⟩ ⟨rfl, t.warnings_moveTo d⟩

/-- A record in the block of an item and the record outside that names the item in its line
come to the same. -/
theorem sameOutcome_naming (item : String) (hd : t.document = s.document) {line : List Content}
    (hs : Read.contents? setting s.cursor.rest = some line) :
    (∀ category count, item ≠ "no" →
      Read.contents? setting t.cursor.rest = some (Content.naming item line) →
      SameOutcome s t (behavior setting (.item item) category count s)
        (behavior setting .top category count t)) ∧
    (Read.contents? setting t.cursor.rest = some (.word item :: line) →
      SameOutcome s t (follow setting (.item item) .location s) (follow setting .top .location t) ∧
      SameOutcome s t (follow setting (.item item) .resources s)
        (follow setting .top .resources t)) := by
  refine ⟨fun category count hi ht => ?_, fun ht => ⟨?_, ?_⟩⟩
  · exact statement_sameOutcome (Entry.names_behavior category count hi line)
      (fun _ ref => .behavior category _ count ref) hd hs ht _ _ _
  · exact statement_sameOutcome (Entry.names_front (fun _ _ => rfl) item line)
      (fun _ ref => .location _ ref) hd hs ht _ _ _
  · exact statement_sameOutcome (Entry.names_front (fun _ _ => rfl) item line)
      (fun _ ref => .resources _ ref) hd hs ht _ _ _

/-- The text at the end is of no use to either record, and both warn of it. -/
theorem sameOutcome_naming_lamp :
    Read.contents? {} "no glad \"Off.\"".toList =
        some [.word "no", .word "glad", .string "Off."] ∧
      SameOutcome (.ofText "no glad \"Off.\"".toList) (.ofText "no lamp glad \"Off.\"".toList)
        (behavior {} (.item "lamp") .use none (.ofText "no glad \"Off.\"".toList))
        (behavior {} .top .use none (.ofText "no lamp glad \"Off.\"".toList)) ∧
      SameOutcome (.ofText "no glad \"Off.\"".toList) (.ofText "lamp no glad \"Off.\"".toList)
        (follow {} (.item "lamp") .location (.ofText "no glad \"Off.\"".toList))
        (follow {} .top .location (.ofText "lamp no glad \"Off.\"".toList)) := by
  have hs : Read.contents? {} (Progress.ofText "no glad \"Off.\"".toList).cursor.rest =
      some [.word "no", .word "glad", .string "Off."] := by with_unfolding_all rfl
  have ht : Read.contents? {} (Progress.ofText "no lamp glad \"Off.\"".toList).cursor.rest =
      some (Content.naming "lamp" [.word "no", .word "glad", .string "Off."]) := by with_unfolding_all rfl
  have hu : Read.contents? {} (Progress.ofText "lamp no glad \"Off.\"".toList).cursor.rest =
      some [.word "lamp", .word "no", .word "glad", .string "Off."] := by with_unfolding_all rfl
  have hd : ∀ u v, (Progress.ofText u).document = (Progress.ofText v).document := fun _ _ => rfl
  exact ⟨hs, (sameOutcome_naming "lamp" (hd _ _) hs).1 .use none (by decide) ht,
    ((sameOutcome_naming "lamp" (hd _ _) hs).2 hu).1⟩

end Parse
end Gamebook
