import Gamebook.Proofs.Faults
import Gamebook.Proofs.Invariant

/-!
Reading keeps documents sound. The tokens of a line are sound, so are the records that are
made of them, and the scopes that records open name what they are about; so every record that
is put into the document is sound, and the document is sound from the first record to the
last, whether reading gets to the end or not.
-/
namespace Gamebook

/-- Words are names and numbers are not negative. -/
def Content.Sound : Content → Prop
  | word name => IsName name
  | number x => x.Nonneg
  | _ => True

def Line.Sound (line : Line) : Prop := ∀ t ∈ line, t.content.Sound

namespace Line

theorem ofResult_sound {make : α → Content} {offset : Nat} {r : EStateM.Result Fault Cursor α}
    {t : Token} {d : Cursor} (h : Part.ofResult make offset r = .token t d)
    (hr : ∀ a c, r = .ok a c → (make a).Sound) : t.content.Sound := by
  cases r with
  | ok a c =>
    cases h
    exact hr a d rfl
  | error fault c => cases h

theorem follow_sound {setting : Setting} {offset : Nat} {m : Match} {c d : Cursor} {lead : Lead}
    {t : Token} (hm : lead.MadeOf m) (h : follow setting offset m c lead = .token t d) :
    t.content.Sound := by
  cases lead with
  | number =>
    refine ofResult_sound h fun x c' hx => ?_
    cases hn : Numeral.number? m.text with
    | error digits =>
      rw [hn] at hx
      cases hx
    | ok y =>
      rw [hn] at hx
      cases hx
      exact Numeral.nonneg_of_number? hn
  | word =>
    cases h
    exact hm
  | variableName =>
    cases h
    trivial
  | quote | range | paren => exact ofResult_sound h fun _ _ _ => trivial
  | gap | lineEnd | comment => cases h

theorem readFrom_sound {setting : Setting} {c d : Cursor} {tokens : List Token} {line : Line}
    (ht : Line.Sound tokens) (h : readFrom setting c tokens = .ok line d) : line.Sound := by
  fun_induction readFrom setting c tokens with
  | case1 c tokens c' hn ih => exact ih ht h
  | case2 c tokens t c' hn ih =>
    refine ih (List.forall_mem_cons.2 ⟨?_, ht⟩) h
    unfold next at hn
    split at hn
    · rename_i hm
      exact follow_sound (lead?_madeOf hm) hn
    · split at hn <;> cases hn
  | case3 c tokens c' hn =>
    cases h
    exact fun t hmem => ht t (List.mem_reverse.1 hmem)
  | case4 => cases h

end Line

namespace Entry

theorem bind_ok {x : Entry α} {k : α → Entry β} {line rest : Line} {b : β}
    (h : (x >>= k) line = .ok (b, rest)) :
    ∃ a mid, x line = .ok (a, mid) ∧ k a mid = .ok (b, rest) := by
  change (x line >>= fun p => k p.1 p.2) = .ok (b, rest) at h
  cases hp : x line with
  | error complaint =>
    rw [hp] at h
    cases h
  | ok p =>
    rw [hp] at h
    exact ⟨p.1, p.2, rfl, h⟩

theorem content_of_word? {content : Content} {name : String} (h : content.word? = some name) :
    content = .word name := by
  cases content <;> cases h
  rfl

theorem content_of_number? {content : Content} {x : Number} (h : content.number? = some x) :
    content = .number x := by
  cases content <;> cases h
  rfl

theorem cons_of_take? {kind : TokenKind} {value? : Content → Option α} {line rest : Line} {a : α}
    (h : take? kind value? line = .ok (some a, rest)) :
    ∃ t, line = t :: rest ∧ value? t.content = some a := by
  cases line with
  | nil => cases h
  | cons t line =>
    unfold take? Line.eatOne at h
    by_cases ha : (Slot.kind kind).accepts t.content = true
    · simp only [ha, if_true, Except.ok.injEq, Prod.mk.injEq] at h
      exact ⟨t, by rw [h.2], h.1⟩
    · simp [ha] at h

/-- From a sound line the reader makes what has the property, and it leaves a sound line. -/
def Ensures (x : Entry α) (P : α → Prop) : Prop :=
  ∀ line : Line, line.Sound → ∀ a rest, x line = .ok (a, rest) → P a ∧ rest.Sound

namespace Ensures

variable {P : α → Prop} {Q : β → Prop} {n ref : Nat}

theorem pure {a : α} (h : P a) : Ensures (Pure.pure a) P := by
  intro line hl a' rest heq
  cases heq
  exact ⟨h, hl⟩

theorem refuse (complaint : Complaint) : Ensures (Entry.refuse complaint) P := by
  intro line hl a rest heq
  cases heq

theorem bind {x : Entry α} {k : α → Entry β} (hx : Ensures x P) (hk : ∀ a, P a → Ensures (k a) Q) :
    Ensures (x >>= k) Q := by
  intro line hl b rest h
  obtain ⟨a, mid, ha, hb⟩ := bind_ok h
  obtain ⟨hp, hmid⟩ := hx line hl a mid ha
  exact hk a hp mid hmid b rest hb

theorem ite {b : Bool} {x y : Entry α} (hx : Ensures x P) (hy : Ensures y P) :
    Ensures (if b then x else y) P := by
  cases b
  · exact hy
  · exact hx

/-- What is taken from a line was there, and the rest is what it was. -/
theorem eatOne {slot : Slot} {line rest : Line} {content : Option Content} (hl : line.Sound)
    (h : line.eatOne slot = (content, rest)) :
    (∀ x, content = some x → x.Sound) ∧ rest.Sound := by
  cases line with
  | nil =>
    cases h
    exact ⟨fun x hx => (nomatch hx), hl⟩
  | cons t line =>
    obtain ⟨ht, hline⟩ := List.forall_mem_cons.1 hl
    by_cases ha : slot.accepts t.content = true
    · rw [Line.eatOne, if_pos ha] at h
      cases h
      exact ⟨fun x hx => Option.some.inj hx ▸ ht, hline⟩
    · rw [Line.eatOne, if_neg ha] at h
      cases h
      exact ⟨fun x hx => (nomatch hx), hl⟩

theorem eatAll (slot : Slot) {line : Line} (hl : line.Sound) :
    (∀ x ∈ (line.eatAll slot).1, x.Sound) ∧ (line.eatAll slot).2.Sound := by
  induction line with
  | nil => exact ⟨List.forall_mem_nil _, hl⟩
  | cons t line ih =>
    obtain ⟨ht, hline⟩ := List.forall_mem_cons.1 hl
    unfold Line.eatAll
    split
    · exact ⟨List.forall_mem_cons.2 ⟨ht, (ih hline).1⟩, (ih hline).2⟩
    · exact ⟨List.forall_mem_nil _, hl⟩

theorem take? (kind : TokenKind) {value? : Content → Option α}
    (h : ∀ content a, content.Sound → value? content = some a → P a) :
    Ensures (Entry.take? kind value?) fun o => ∀ a, o = some a → P a := by
  intro line hl o rest heq
  cases heq
  obtain ⟨hc, hrest⟩ := eatOne hl (rfl : line.eatOne (.kind kind) = _)
  refine ⟨fun a ha => ?_, hrest⟩
  obtain ⟨content, hcontent, hvalue⟩ := Option.bind_eq_some_iff.1 ha
  exact h content a (hc content hcontent) hvalue

theorem keyword (name : String) : Ensures (Entry.keyword name) fun _ => True := by
  intro line hl b rest heq
  cases heq
  exact ⟨trivial, (eatOne hl (rfl : line.eatOne (.word name) = _)).2⟩

theorem isName_of_word? {content : Content} {name : String} (hc : content.Sound)
    (h : content.word? = some name) : IsName name := by
  obtain rfl := content_of_word? h
  exact hc

theorem words : Ensures Entry.words AreNames := by
  intro line hl names rest heq
  cases heq
  obtain ⟨hc, hrest⟩ := eatAll (.kind .word) hl
  refine ⟨fun name hname => ?_, hrest⟩
  obtain ⟨content, hcontent, hw⟩ := List.mem_filterMap.1 hname
  exact isName_of_word? (hc content hcontent) hw

theorem need {x : Entry (Option α)} (hx : Ensures x fun o => ∀ a, o = some a → P a)
    (wanted : Wanted) : Ensures (Entry.need x wanted) P := by
  refine .bind hx fun o ho => ?_
  split
  · exact .pure (ho _ rfl)
  · exact .refuse _

/-- A token that no name is taken from. -/
theorem any (kind : TokenKind) (value? : Content → Option α) :
    Ensures (Entry.take? kind value?) fun o => ∀ a, o = some a → True :=
  .take? kind fun _ _ _ _ => trivial

theorem word? : Ensures Entry.word? fun o => ∀ name, o = some name → IsName name :=
  .take? .word fun _ _ hc h => isName_of_word? hc h

theorem text (wanted : Wanted) : Ensures (Entry.need Entry.string? wanted) fun _ => True :=
  .need (.any _ _) wanted

theorem name (wanted : Wanted) : Ensures (Entry.need Entry.word? wanted) IsName :=
  .need .word? wanted

theorem itemOr {item : Option String} (hi : ∀ id, item = some id → IsName id) :
    Ensures (Entry.itemOr item) IsName := by
  cases item with
  | some id => exact .pure (hi id rfl)
  | none => exact .name _

theorem start (hr : ref ≤ n) : Ensures (Entry.start ref) (Record.Sound n) :=
  .bind (.text _) fun _ _ => .bind (.name _) fun _ hnode => .pure ⟨hnode, hr⟩

theorem node (hr : ref ≤ n) : Ensures (Entry.node ref) (Record.Sound n) :=
  .bind (.keyword _) fun _ _ => .bind (.name _) fun _ hid => .bind (.text _) fun _ _ =>
    .pure ⟨hid, hr⟩

theorem propertyName : Ensures Entry.propertyName fun _ => True := by
  refine .bind (.any _ _) fun name _ => ?_
  split
  · exact .pure trivial
  · exact .need (.any _ _) _

theorem property (hr : ref ≤ n) : Ensures (Entry.property ref) (Record.Sound n) :=
  .bind .propertyName fun _ _ => .bind (.text _) fun _ _ => .bind (.any _ _) fun _ _ => .pure hr

theorem path (hr : ref ≤ n) : Ensures (Entry.path ref) (Record.Sound n) :=
  .bind (.name _) fun _ hsource => .bind (.text _) fun _ _ => .bind (.name _) fun _ htarget =>
    .bind .words fun _ hmods => .pure ⟨hsource, htarget, hmods, hr⟩

theorem trigger : Ensures Entry.trigger fun t => AreNames t.node?.toList := by
  refine .bind (.any _ _) fun cond _ => ?_
  split
  · exact .pure .nil
  · exact .bind (.name _) fun id hid => .pure (.one hid)

/-- An action that is chosen by a condition and does nothing is refused. -/
theorem action (hr : ref ≤ n) : Ensures (Entry.action ref) (Record.Sound n) := by
  refine .bind .trigger fun trigger htrigger => .bind (.text _) fun label _ =>
    .bind (.any _ _) fun message _ => .bind .words fun mods hmods => ?_
  cases trigger with
  | node id =>
    refine .pure ⟨?_, htrigger, fun h => (nomatch h), hmods, hr⟩
    simp [Trigger.cond?, Trigger.node?]
  | condition cond =>
    by_cases h : (message.isNone && mods.isEmpty) = true
    · simp only [h, if_true]
      exact .refuse _
    · simp only [h]
      refine .pure ⟨?_, htrigger, fun _ => ?_, hmods, hr⟩
      · simp [Trigger.cond?, Trigger.node?]
      · rw [Bool.and_eq_true, not_and_or] at h
        simpa [Option.isSome_iff_ne_none] using h

theorem target (category : Category) : Ensures (Entry.target category) fun target =>
    (target.isSome → category = .use) ∧ AreNames target.toList := by
  cases category with
  | use =>
    refine .bind (.keyword _) fun _ _ => .ite ?_ (.pure ⟨fun _ => rfl, .nil⟩)
    exact .bind (.name _) fun id hid => .pure ⟨fun _ => rfl, .one hid⟩
  | _ => exact .pure ⟨fun h => (nomatch h), .nil⟩

theorem behavior (category : Category) {item : Option String}
    (hi : ∀ id, item = some id → IsName id) (count : Option Nat) (hr : ref ≤ n) :
    Ensures (Entry.behavior category item count ref) (Record.Sound n) :=
  .bind (.keyword _) fun _ _ => .bind (.itemOr hi) fun _ hid =>
    .bind (.target category) fun _ htarget => .bind (.any _ _) fun _ _ =>
      .bind (.any _ _) fun _ _ => .bind .words fun _ hmods =>
        .pure ⟨hid, htarget.1, htarget.2.append hmods, ref, rfl, hr⟩

theorem resources {item : Option String} (hi : ∀ id, item = some id → IsName id) :
    Ensures (Entry.resources item ref) (Record.Sound n) :=
  .bind (.itemOr hi) fun _ hid => .bind .words fun _ hnodes => .pure ⟨hid, hnodes⟩

theorem place : Ensures Entry.place fun p => AreNames p.node?.toList :=
  .bind (.keyword _) fun _ _ => .ite (.pure .nil) <|
    .bind (.keyword _) fun _ _ => .ite (.pure .nil) <|
      .bind (.name _) fun _ hid => .pure (.one hid)

theorem location {item : Option String} (hi : ∀ id, item = some id → IsName id) (hr : ref ≤ n) :
    Ensures (Entry.location item ref) (Record.Sound n) := by
  refine .bind (.itemOr hi) fun _ hid => .bind .place fun place hplace =>
    .pure ⟨hid, ?_, hplace, hr⟩
  cases place <;> simp [Place.node?, Place.code]

theorem boringCase : Ensures Entry.boringCase fun _ => True :=
  .bind (.keyword _) fun _ _ => .ite (.bind (.keyword _) fun _ _ => .pure trivial) <|
    .bind (.keyword _) fun _ _ => .ite (.pure trivial) <|
    .bind (.keyword _) fun _ _ => .ite (.pure trivial) <|
    .bind (.keyword _) fun _ _ => .ite (.bind (.keyword _) fun _ _ => .pure trivial) (.refuse _)

theorem boring : Ensures (Entry.boring ref) (Record.Sound n) :=
  .bind .boringCase fun _ _ => .bind (.text _) fun _ _ => .pure trivial

theorem item : Ensures (Entry.item ref) (Record.Sound n) :=
  .bind (.name _) fun _ hid => .bind (.text _) fun _ _ => .bind (.any _ _) fun _ _ => .pure hid

theorem modifier : Ensures (Entry.modifier ref) (Record.Sound n) :=
  .bind (.name _) fun _ hname => .pure hname

theorem pairOf (make : String → String → Command) {keyword : String}
    (hk : ∀ a b, (make a b).keyword = keyword) (hn : ∀ a b, (make a b).names = [a, b])
    (wanted : Wanted) :
    Ensures (Entry.pairOf make wanted) fun c => c.keyword = keyword ∧ AreNames c.names :=
  .bind (.name _) fun a ha => .bind (.name _) fun b hb =>
    .pure ⟨hk a b, (hn a b).symm ▸ AreNames.two ha hb⟩

theorem addItem : Ensures Entry.addItem fun c => c.keyword = "additem" ∧ AreNames c.names := by
  refine .bind (.name _) fun first hfirst => .bind .word? fun item hitem => ?_
  split
  · exact .pure ⟨rfl, .one hfirst⟩
  · exact .pure ⟨rfl, .two (hitem _ rfl) hfirst⟩

theorem skip : Ensures Entry.skip fun c => c.keyword = "skip" ∧ AreNames c.names := by
  refine .bind (.any _ _) fun count _ => ?_
  split
  · exact .pure ⟨rfl, .nil⟩
  · exact .refuse _

/-- A command is called by its keyword. -/
theorem arguments {keyword : String} {x : Entry Command} (h : arguments? keyword = some x) :
    Ensures x fun c => c.keyword = keyword ∧ AreNames c.names := by
  unfold arguments? at h
  split at h <;> cases h
  · exact .bind (.text _) fun _ _ => .pure ⟨rfl, .nil⟩
  · exact addItem
  · exact .bind (.name _) fun _ hi => .pure ⟨rfl, .one hi⟩
  · exact .bind (.name _) fun _ hi => .bind (.text _) fun _ _ => .bind (.any _ _) fun _ _ =>
      .pure ⟨rfl, .one hi⟩
  · exact pairOf .addResource (fun _ _ => rfl) (fun _ _ => rfl) _
  · exact pairOf .delResource (fun _ _ => rfl) (fun _ _ => rfl) _
  · exact .bind (.name _) fun _ hn => .bind (.text _) fun _ _ =>
      .pure ⟨rfl, .one hn⟩
  · exact .bind (.name _) fun _ hs => .bind (.text _) fun _ _ => .bind (.name _) fun _ ht =>
      .pure ⟨rfl, .two hs ht⟩
  · exact pairOf .delPath (fun _ _ => rfl) (fun _ _ => rfl) _
  · exact .bind (.name _) fun _ hn => .pure ⟨rfl, .one hn⟩
  · exact .bind (.any _ _) fun _ _ => .bind (.name _) fun _ hm =>
      .pure ⟨rfl, .one hm⟩
  · exact skip
  · exact .pure ⟨rfl, .nil⟩

end Ensures

/-- A command with its keyword in front of its arguments. -/
theorem line_of_command {line rest : Line} {c : Command}
    (h : command line = .ok (c, rest)) :
    ∃ w a args x, line = ⟨.word w, a⟩ :: args ∧ arguments? w = some x ∧ x args = .ok (c, rest) := by
  obtain ⟨o, args, hword, hargs⟩ := bind_ok h
  cases hx : o.bind arguments? with
  | none =>
    simp only [hx] at hargs
    cases hargs
  | some x =>
    simp only [hx] at hargs
    obtain ⟨w, rfl, hw⟩ := Option.bind_eq_some_iff.1 hx
    obtain ⟨⟨content, a⟩, rfl, hcontent⟩ := cons_of_take? hword
    obtain rfl := content_of_word? hcontent
    exact ⟨w, a, args, x, rfl, hw, hargs⟩

/-- No command of a line sets a variable. -/
theorem command_sound {n : Nat} {line rest : Line} {c : Command} (hl : line.Sound)
    (h : command line = .ok (c, rest)) : c.Sound n := by
  obtain ⟨w, a, args, x, rfl, hw, hx⟩ := line_of_command h
  obtain ⟨-, hargs⟩ := List.forall_mem_cons.1 hl
  obtain ⟨⟨hkeyword, hnames⟩, -⟩ := Ensures.arguments hw args hargs c rest hx
  -- The keyword of a definition calls no reader of arguments.
  refine ⟨hnames, fun v hv => ?_⟩
  subst hv
  cases hkeyword
  cases hw

/-- How much a command skips is the number that stands behind its keyword. -/
theorem line_of_skip {line rest : Line} {count : Nat} (hl : line.Sound)
    (h : command line = .ok (.skip count, rest)) :
    ∃ a b, line = ⟨.word "skip", a⟩ :: ⟨.number (.int count), b⟩ :: rest := by
  obtain ⟨w, a, args, x, rfl, hw, hx⟩ := line_of_command h
  obtain ⟨-, hargs⟩ := List.forall_mem_cons.1 hl
  obtain rfl : "skip" = w := (Ensures.arguments hw args hargs _ _ hx).1.1
  obtain rfl : Entry.skip = x := Option.some.inj hw
  obtain ⟨number, mid, hnumber, hx⟩ := bind_ok hx
  split at hx
  · rename_i k
    cases hx
    obtain ⟨⟨content, b⟩, rfl, hcontent⟩ := cons_of_take? hnumber
    obtain rfl := content_of_number? hcontent
    -- The number has no sign, so taking it for a natural number loses nothing.
    have hk : 0 ≤ k := Number.nonneg_int.1 (List.forall_mem_cons.1 hargs).1
    exact ⟨a, b, by rw [Int.toNat_of_nonneg hk]⟩
  · cases hx

/-- The reactions of a boring line are marked as such. -/
theorem reactions_sound {id : String} (hid : IsName id) {n ref ref' : Nat} (hr : ref ≤ n)
    {line rest : Line} {records : List Record}
    (h : reactions id ref line = .ok ((records, ref'), rest)) :
    ∀ r ∈ records, r.Sound n := by
  cases h
  intro r hmem
  obtain ⟨⟨category, negated⟩, -, rfl⟩ := List.mem_map.1 hmem
  refine ⟨hid, fun h => (nomatch h), List.forall_mem_singleton.2 ?_, ref, rfl, hr⟩
  decide

end Entry

namespace Read

/-- Reading a source of `n` characters gives what has the property. -/
def Ensures (n : Nat) (x : Read α) (P : α → Prop) : Prop :=
  ∀ c a d, c.pos + c.rest.length = n → x c = .ok a d → P a

namespace Ensures

variable {n : Nat} {P : α → Prop} {Q : β → Prop}

theorem any (n : Nat) (x : Read α) : Ensures n x fun _ => True := fun _ _ _ _ _ => trivial

theorem pure {a : α} (h : P a) : Ensures n (Pure.pure a) P := by
  intro c a' d _ heq
  cases heq
  exact h

theorem fail (complaint : Complaint) (pos : Nat) : Ensures n (Read.fail complaint pos) P := by
  intro c a d _ heq
  cases heq

theorem bind {x : Read α} {f : α → Read β} (hx : Ensures n x P) (ha : Advances x)
    (hf : ∀ a, P a → Ensures n (f a) Q) : Ensures n (x >>= f) Q := by
  intro c b e hc h
  obtain ⟨a, d, hd, h⟩ := bind_eq_ok.1 h
  exact hf a (hx c a d hc hd) d b e ((ha.of_ok hd).pos_add ▸ hc) h

theorem ite {b : Bool} {x y : Read α} (hx : Ensures n x P) (hy : Ensures n y P) :
    Ensures n (if b then x else y) P := by
  cases b
  · exact hy
  · exact hx

/-- What begins does so in the source. -/
theorem begin (subject : String) : Ensures n (Read.begin subject) (· ≤ n) := by
  intro c ref d hc h
  cases h
  omega

theorem line (setting : Setting) : Ensures n (Read.line setting) Line.Sound :=
  fun _ _ _ _ h => Line.readFrom_sound (List.forall_mem_nil _) h

theorem entry (setting : Setting) (subject : String) {reader : Nat → Entry α}
    (h : ∀ ref ≤ n, ∀ tokens : Line, tokens.Sound → ∀ a rest,
      reader ref tokens = .ok (a, rest) → P a) :
    Ensures n (Read.entry setting subject reader) fun p => P p.1 := by
  refine bind (begin subject) (.begin subject) fun ref href =>
    bind (line setting) (.line setting) fun tokens ht => ?_
  split
  · rename_i result hresult
    exact pure (h ref href tokens ht result.1 result.2 hresult)
  · exact fail _ _

theorem definition (setting : Setting) :
    Ensures n (Read.definition setting) (Definition.Sound n) := by
  refine bind (begin _) (.begin _) fun ref href => bind (any n _) (.skip _) fun _ _ =>
    bind (any n _) (.skip _) fun _ _ => bind (any n _) (.require _ _) fun _ _ =>
      bind (any n _) (.skip _) fun _ _ => bind (any n _) (.change setting) fun change _ =>
        pure ⟨?_, href⟩
  cases change with
  | declare => simp [Change.value?, Change.code]
  | assign how e => cases how <;> simp [Change.value?, Change.code, Assignment.code]

theorem command (setting : Setting) (ref : Nat) :
    Ensures n (Read.command setting ref) fun p => p.1.Sound n := by
  refine bind (any n _) .definitionAhead fun _ _ => ite
    (bind (definition setting) (Takes.definition setting).advances fun v hv =>
      bind (any n _) (.lineEnd _) fun _ _ => pure ⟨.nil, fun v' h => ?_⟩)
    (bind (line setting) (.line setting) fun tokens ht => ?_)
  · cases h
    exact hv
  · split
    · rename_i result hresult
      exact pure (Entry.command_sound ht hresult)
    · exact fail _ _

theorem directive (setting : Setting) :
    Ensures n (Read.directive setting) fun p => p.1.Sound n :=
  bind (begin _) (.begin _) fun ref href => bind (any n _) (.condition setting) fun _ _ =>
    bind (command setting ref) (Takes.command setting ref).advances fun _ hc => pure ⟨hc, href⟩

end Ensures
end Read

/-- A block knows by name what it is about. -/
def Scope.Sound : Scope → Prop
  | item id => IsName id
  | modifier name => IsName name
  | _ => True

theorem Scope.Sound.item? {scope : Scope} (h : scope.Sound) :
    ∀ id, scope.item? = some id → IsName id := by
  intro id hid
  cases scope with
  | item id' =>
    cases hid
    exact h
  | _ => cases hid

theorem Record.Sound.opens? {n : Nat} {r : Record} (h : r.Sound n) {scope : Scope}
    (hs : scope.Sound) : (r.opens?.getD scope).Sound := by
  cases r with
  | item | modifier => exact h
  | _ => exact hs

/-- A lead that names an item is only looked for in the block of that item. -/
def Lead.Sound : Lead → Prop
  | boring id => IsName id
  | _ => True

theorem Scope.Sound.lead {scope : Scope} (hs : scope.Sound) {lead : Lead} {p : Pattern}
    (h : (lead, p) ∈ scope.leads) : lead.Sound := by
  cases lead with
  | boring id =>
    cases scope with
    | item id' =>
      have hid : id = id' ∧ p = Grammar.keyword "boring" := by
        simpa [Scope.leads, Scope.blockLeads, Scope.itemLeads] using h
      exact hid.1 ▸ hs
    | _ => simp [Scope.leads, Scope.blockLeads, Scope.itemLeads] at h
  | _ => trivial

/-- Only sound records have been put into the document. -/
structure Progress.Sound (n : Nat) (s : Progress) : Prop where
  length : s.cursor.pos + s.cursor.rest.length = n
  document : s.document = Event.document {} s.events
  records : ∀ r, .record r ∈ s.events → r.Sound n

/-- A document that is made from sound records is sound. -/
theorem Event.document_sound {n : Nat} {events : List Event}
    (h : ∀ r, .record r ∈ events → r.Sound n) : (Event.document {} events).Sound n := by
  induction events with
  | nil => exact .empty
  | cons e events ih =>
    have hrest := ih fun r hr => h r (List.mem_cons_of_mem e hr)
    cases e with
    | record r => exact hrest.add (h r List.mem_cons_self)
    | note | warning => exact hrest

namespace Progress.Sound

variable {n : Nat} {s : Progress}

theorem moveTo (h : s.Sound n) {c : Cursor} (hc : s.cursor.Reaches c) : (s.moveTo c).Sound n := by
  constructor
  · exact hc.pos_add ▸ h.length
  · exact h.document.trans (Event.document_notes ..).symm
  · intro r hr
    exact h.records r (by simpa [Progress.moveTo] using hr)

theorem commit (h : s.Sound n) {r : Record} (hr : r.Sound n) (unused : Line) :
    (s.commit r unused).Sound n := by
  have hevents : (s.commit r unused).events =
      Event.ofCommit (s.document.warning? r) r unused ++ s.events := by
    simp [Progress.commit, Event.ofCommit]
  refine ⟨h.length, ?_, fun r' hr' => ?_⟩
  · rw [hevents, Event.document_ofCommit, ← h.document]
    rfl
  · rw [hevents, List.mem_append] at hr'
    rcases hr' with hr' | hr'
    · obtain rfl : r' = r := by simpa [Event.ofCommit] using hr'
      exact hr
    · exact h.records r' hr'

end Progress.Sound

namespace Parse

/-- The step keeps records sound, and its result has the property. -/
def Keeps (n : Nat) (x : Parse α) (P : α → Prop) : Prop :=
  ∀ s : Progress, s.Sound n → (reached (x s)).Sound n ∧ ∀ a t, x s = .ok a t → P a

namespace Keeps

variable {n : Nat} {P : α → Prop} {Q : β → Prop}

theorem pure {a : α} (h : P a) : Keeps n (Pure.pure a) P := by
  intro s hs
  refine ⟨hs, fun a' t heq => ?_⟩
  cases heq
  exact h

theorem fail (complaint : Complaint) (pos : Nat) : Keeps n (Parse.fail complaint pos) P :=
  fun _ hs => ⟨hs, fun _ _ h => nomatch h⟩

theorem bind {x : Parse α} {f : α → Parse β} (hx : Keeps n x P)
    (hf : ∀ a, P a → Keeps n (f a) Q) : Keeps n (x >>= f) Q := by
  intro s hs
  obtain ⟨hreached, hp⟩ := hx s hs
  change (reached (EStateM.bind x f s)).Sound n ∧ ∀ b u, EStateM.bind x f s = .ok b u → Q b
  unfold EStateM.bind
  cases h : x s with
  | ok a t =>
    rw [h] at hreached
    exact hf a (hp a t h) t hreached
  | error fault t =>
    rw [h] at hreached
    exact ⟨hreached, fun _ _ h => nomatch h⟩

theorem read {x : Read α} (hx : x.Ensures n P) (ha : x.Advances) : Keeps n (Parse.read x) P := by
  intro s hs
  have hr := ha s.cursor
  unfold Parse.read
  cases h : x s.cursor with
  | ok a c =>
    rw [h] at hr
    refine ⟨hs.moveTo hr, fun a' t heq => ?_⟩
    cases heq
    exact hx s.cursor a c hs.length h
  | error fault c =>
    rw [h] at hr
    exact ⟨hs.moveTo hr, fun _ _ h => nomatch h⟩

theorem commit (r : Record) (hr : r.Sound n) (unused : Line) :
    Keeps n (Parse.commit r unused) fun _ => True :=
  fun _ hs => ⟨hs.commit hr unused, fun _ _ _ => trivial⟩

theorem commitAll {rs : List Record} (h : ∀ r ∈ rs, r.Sound n) :
    Keeps n (Parse.commitAll rs) fun _ => True := by
  induction rs with
  | nil => exact pure trivial
  | cons r rs ih =>
    obtain ⟨hr, hrs⟩ := List.forall_mem_cons.1 h
    exact bind (commit r hr []) fun _ _ => ih hrs

variable {scope : Scope}

theorem statement (setting : Setting) (hs : scope.Sound) (subject : String)
    {reader : Nat → Entry Record} (hr : ∀ ref ≤ n, (reader ref).Ensures (Record.Sound n)) :
    Keeps n (Parse.statement setting scope subject reader) Scope.Sound := by
  have hentry : (Read.entry setting subject reader).Ensures n fun p => p.1.Sound n :=
    .entry setting subject fun ref href tokens ht r rest h => (hr ref href tokens ht r rest h).1
  exact bind (read hentry (Read.Takes.entry ..).advances) fun p hp =>
    bind (commit p.1 hp p.2) fun _ _ => pure (hp.opens? hs)

theorem definition (setting : Setting) : Keeps n (Parse.definition setting) fun _ => True :=
  bind (read (.definition setting) (Read.Takes.definition setting).advances) fun v hv =>
    bind (commit (.definition v) hv []) fun _ _ => read (.any n _) (.lineEnd _)

theorem directive (setting : Setting) {modifier : String} (hm : IsName modifier) :
    Keeps n (Parse.directive setting modifier) fun _ => True :=
  bind (read (.directive setting) (Read.Takes.directive setting).advances) fun p hd =>
    commit (.directive modifier p.1) ⟨hm, hd⟩ p.2

theorem reactions (setting : Setting) {id : String} (hid : IsName id) :
    Keeps n (Parse.reactions setting id) fun _ => True := by
  have hentry : (Read.entry setting "boring" (Entry.reactions id)).Ensures n
      fun p => ∀ r ∈ p.1.1, r.Sound n :=
    .entry setting "boring" fun ref href tokens _ p rest h => Entry.reactions_sound hid href h
  refine bind (read hentry (Read.Takes.entry ..).advances) fun p hp =>
    bind (commitAll hp) fun _ _ => ?_
  split
  · exact pure trivial
  · exact fail _ _

theorem start (setting : Setting) (hs : scope.Sound) :
    Keeps n (Parse.start setting scope) Scope.Sound := by
  have hget : Keeps n get fun _ : Progress => True := fun _ h => ⟨h, fun _ _ _ => trivial⟩
  refine bind hget fun s _ => ?_
  split
  · intro t ht
    exact ⟨ht.moveTo (.refl t.cursor), fun _ _ h => nomatch h⟩
  · exact statement setting hs _ fun _ href => .start href

theorem behavior (setting : Setting) (hs : scope.Sound) (category : Category)
    (count : Option Nat) : Keeps n (Parse.behavior setting scope category count) Scope.Sound :=
  statement setting hs _ fun _ href => .behavior category hs.item? count href

theorem follow (setting : Setting) (hs : scope.Sound) {lead : Lead} (hl : lead.Sound) :
    Keeps n (Parse.follow setting scope lead) Scope.Sound := by
  cases lead with
  | gap => exact pure hs
  | close => exact pure trivial
  | comment => exact bind (read (.any n _) (.skipThrough _)) fun _ _ => pure hs
  | block => exact bind (read (.any n _) .blockComment) fun _ _ => pure hs
  | heading h => exact bind (read (.any n _) (.heading _)) fun _ _ => pure trivial
  | item => exact statement setting hs _ fun _ _ => .item
  | modifier => exact statement setting hs _ fun _ _ => .modifier
  | start => exact start setting hs
  | node => exact statement setting hs _ fun _ href => .node href
  | property => exact statement setting hs _ fun _ href => .property href
  | path => exact statement setting hs _ fun _ href => .path href
  | action => exact statement setting hs _ fun _ href => .action href
  | first => exact bind (read (.any n _) .first) fun p _ => behavior setting hs p.2 (some p.1)
  | behavior category => exact behavior setting hs category none
  | location => exact statement setting hs _ fun _ href => .location hs.item? href
  | resources => exact statement setting hs _ fun _ _ => .resources hs.item?
  | boring id => exact bind (reactions setting hl) fun _ _ => pure hs
  | sigil => exact bind (definition setting) fun _ _ => pure hs
  | var => exact bind (definition setting) fun _ _ => pure hs

theorem sectionLine (setting : Setting) (hs : scope.Sound) (heading : Heading) :
    Keeps n (Parse.sectionLine setting scope heading) Scope.Sound := by
  cases heading with
  | nodes => exact statement setting hs _ fun _ href => .node href
  | vars => exact bind (definition setting) fun _ _ => pure hs
  | properties => exact statement setting hs _ fun _ href => .property href
  | actions => exact statement setting hs _ fun _ href => .action href
  | map => exact statement setting hs _ fun _ href => .path href
  | boring => exact statement setting hs _ fun _ _ => .boring

theorem plainLine (setting : Setting) (hs : scope.Sound) :
    Keeps n (Parse.plainLine setting scope) Scope.Sound := by
  have refused : Keeps n (Parse.read (Read.failHere .unexpectedToken)) Scope.Sound :=
    fun s h => ⟨h.moveTo (.refl s.cursor), fun _ _ h => nomatch h⟩
  cases scope with
  | top => exact refused
  | item => exact refused
  | lines heading => exact sectionLine setting hs heading
  | modifier name => exact bind (directive setting hs) fun _ _ => pure hs

/-- One step of reading puts only sound records into the document. -/
theorem step (setting : Setting) (hs : scope.Sound) :
    Keeps n (Parse.step setting scope) Scope.Sound := by
  have hlead : (Read.lead scope).Ensures n fun lead => ∀ l, lead = some l → l.Sound := by
    intro c lead d _ h l hl
    subst hl
    unfold Read.lead at h
    split at h
    · cases h
      trivial
    · rename_i l' m _ hfirst
      cases h
      obtain ⟨p, hp, -⟩ := Pattern.run_of_firstOf hfirst
      exact hs.lead hp
    · cases h
  refine bind (read hlead (Advances.lead scope)) fun lead hl => ?_
  cases lead with
  | none => exact plainLine setting hs
  | some l => exact follow setting hs (hl l rfl)

end Keeps

/-- However far reading gets, all records are sound. -/
theorem run_sound {setting : Setting} {scope : Scope} {s : Progress} {n : Nat}
    (hscope : scope.Sound) (hs : s.Sound n) : (reached (run setting scope s)).Sound n := by
  fun_induction run setting scope s with
  | case1 => exact hs
  | case2 scope s _ next t h ih =>
    obtain ⟨ht, hnext⟩ := Keeps.step setting hscope s hs
    rw [h] at ht
    exact ih (hnext next t h) ht
  | case3 scope s _ fault t h =>
    have ht := (Keeps.step setting hscope s hs).1
    rw [h] at ht
    exact ht

theorem Leads.sound {setting : Setting} {scope final : Scope} {s t : Progress} {n : Nat}
    (h : Leads setting scope s final t) (hscope : scope.Sound) (hs : s.Sound n) : t.Sound n := by
  induction h with
  | refl => exact hs
  | @step scope next final s t u _ h _ ih =>
    obtain ⟨ht, hnext⟩ := Keeps.step setting hscope s hs
    rw [h] at ht
    exact ih (hnext next t h) ht

end Parse

theorem Progress.sound_ofText (source : List Char) :
    (Progress.ofText source).Sound source.length where
  length := Nat.zero_add _
  document := rfl
  records _ h := nomatch h

theorem Progress.Sound.document_sound {n : Nat} {s : Progress} (h : s.Sound n) :
    s.document.Sound n :=
  h.document ▸ Event.document_sound h.records

namespace Script

theorem ofResult_eq (r : EStateM.Result Fault Progress Unit) :
    (ofResult r).document = (Parse.reached r).document ∧
      (ofResult r).events = (Parse.reached r).events.reverse := by
  cases r <;> exact ⟨rfl, rfl⟩

/-- However far a source is read, its document is sound: after each record, in each state that
reading goes through, and where it stops. No count is cut off on its way there. -/
theorem read_sound (setting : Setting) (source : List Char) :
    (read setting source).document = Event.document {} (read setting source).events.reverse ∧
    (∀ past, past <+: (read setting source).events →
      (Event.document {} past.reverse).Sound source.length) ∧
    (∀ scope s, Parse.Leads setting .top (.ofText source) scope s →
      s.document.Sound source.length) ∧
    ∀ c line d count rest, Read.line setting c = .ok line d →
      Entry.command line = .ok (.skip count, rest) →
      ∃ a b, line = ⟨.word "skip", a⟩ :: ⟨.number (.int count), b⟩ :: rest := by
  have htop : Scope.Sound .top := trivial
  have hfirst := Progress.sound_ofText source
  have hlast : (Parse.reached (Parse.run setting .top (.ofText source))).Sound source.length :=
    Parse.run_sound htop hfirst
  obtain ⟨hdocument, hevents⟩ := ofResult_eq (Parse.run setting .top (.ofText source))
  refine ⟨?_, fun past hpast => ?_, fun scope s h => ?_, fun c line d count rest hl hc => ?_⟩
  · rw [read, hdocument, hevents, List.reverse_reverse]
    exact hlast.document
  · rw [read, hevents] at hpast
    refine Event.document_sound fun r hr => hlast.records r ?_
    exact List.mem_reverse.1 (hpast.subset (List.mem_reverse.1 hr))
  · exact (h.sound htop hfirst).document_sound
  · exact Entry.line_of_skip (Line.readFrom_sound (List.forall_mem_nil _) hl) hc

/-- A resource that is named twice, and a count behind its keyword. -/
theorem read_sound_repeated :
    let source := "resources k x y x".toList
    let line : Line := [⟨.word "skip", 0⟩, ⟨.number (.int 3), 5⟩]
    Read.line {} (.ofText "skip 3".toList) = .ok line ⟨6, [], [], []⟩ ∧
      Entry.command line = .ok (.skip 3, []) ∧
      (∃ a b, line = [⟨.word "skip", a⟩, ⟨.number (.int (3 : Nat)), b⟩]) ∧
      (∀ id item, (id, item) ∈ (read {} source).document.items.entries →
        IsName id ∧ item.resources.Nodup) ∧
      ({} : Document).Sound source.length := by
  intro source line
  obtain ⟨hdocument, hpast, hleads, hskip⟩ := read_sound {} source
  have hline : Read.line {} (.ofText "skip 3".toList) = .ok line ⟨6, [], [], []⟩ := by
    have hword : Line.next {} (.ofText "skip 3".toList) =
        .token ⟨.word "skip", 0⟩ ⟨4, [' ', '3'], [], []⟩ := rfl
    have hgap : Line.next {} ⟨4, [' ', '3'], [], []⟩ = .gap ⟨5, ['3'], [], []⟩ := rfl
    have hnumber : Line.next {} ⟨5, ['3'], [], []⟩ =
        .token ⟨.number (.int 3), 5⟩ ⟨6, [], [], []⟩ := rfl
    rw [Read.line, Line.readFrom_of_token hword, Line.readFrom_of_gap hgap,
      Line.readFrom_of_token hnumber, Line.readFrom_of_finish rfl]
    rfl
  have hcommand : Entry.command line = .ok (.skip 3, []) := rfl
  refine ⟨hline, hcommand, hskip _ line _ 3 [] hline hcommand, fun id item h => ?_, ?_⟩
  · rw [hdocument] at h
    obtain ⟨hid, hitem⟩ := (hpast _ (List.prefix_refl _)).items id item h
    exact ⟨hid, hitem.nodup⟩
  · exact hleads .top _ (.refl _ _)

end Script
end Gamebook
