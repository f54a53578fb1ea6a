import Mathlib.Algebra.Ring.Nat
import Gamebook.Proofs.Atomicity
import Gamebook.Proofs.Usage

/-!
The warnings of a script account for all that it says in vain. Nodes, properties, paths and the
labels of items are kept once for each key, and every record of these kinds either brings a new
key or is warned of; so there are as many warnings as there are records more than keys. Every
line is used from its front, and what is left of it is warned of once.
-/
namespace Gamebook

namespace Table

variable {κ α : Type} [DecidableEq κ] {t : Table κ α} {k : κ}

/-- The sum of what the values of a table count for. -/
def total (w : α → Nat) (t : Table κ α) : Nat := (t.entries.map fun e => w e.2).sum

theorem total_put (w : α → Nat) (k : κ) (v : α) (entries : List (κ × α)) :
    ((put k v entries).map fun e => w e.2).sum + (entries.lookup k).elim 0 w =
      (entries.map fun e => w e.2).sum + w v := by
  induction entries with
  | nil => simp [put]
  | cons e entries ih =>
    obtain ⟨k', v'⟩ := e
    by_cases h : k' = k
    · simp only [put, h, if_true, List.map_cons, List.sum_cons, List.lookup_cons_self,
        Option.elim_some]
      omega
    · have hne : (k == k') = false := beq_eq_false_iff_ne.2 fun he => h he.symm
      simp only [put, h, if_false, List.map_cons, List.sum_cons, List.lookup_cons, hne]
      omega

/-- What is put in counts, and what it replaces does no longer. -/
theorem total_insert (w : α → Nat) (v : α) :
    (t.insert k v).total w + (t.get? k).elim 0 w = t.total w + w v :=
  total_put w k v t.entries

theorem total_update (w : α → Nat) {fallback : α} (f : α → α) (hw : w fallback = 0) :
    (t.update k fallback f).total w + w ((t.get? k).getD fallback) =
      t.total w + w (f ((t.get? k).getD fallback)) := by
  have h := t.total_insert (k := k) w (f ((t.get? k).getD fallback))
  cases hv : t.get? k with
  | none =>
    rw [hv] at h
    simpa [update, hv, hw] using h
  | some v =>
    rw [hv] at h
    simpa [update, hv] using h

omit [DecidableEq κ] in
theorem size_eq_total : t.size = t.total fun _ => 1 := by
  simp [size, total]

theorem size_insert (v : α) :
    (t.insert k v).size + (if t.contains k then 1 else 0) = t.size + 1 := by
  have h := t.total_insert (k := k) (fun _ => 1) v
  rw [size_eq_total, size_eq_total, ← h, contains]
  cases t.get? k <;> rfl

end Table

/-- The kinds of record that are kept once for each key. -/
inductive Keyed where
  | node | property | path | item
  deriving DecidableEq, Repr

def Record.keyed? : Record → Option Keyed
  | node .. => some .node
  | property .. => some .property
  | path .. => some .path
  | item .. => some .item
  | _ => none

/-- The kind of record that a warning says is replaced. -/
def Warning.keyed? : Warning → Option Keyed
  | nodeRedefined _ => some .node
  | propertyRedefined _ => some .property
  | pathRedefined .. => some .path
  | itemRedefined .. => some .item
  | _ => none

/-- Does an item have a label? -/
def Item.labels (item : Item) : Nat := if item.label.isSome then 1 else 0

namespace Document

/-- How many keys of the kind a document has: paths count by both ends, and of the items those
with a label. -/
def keyCount (d : Document) : Keyed → Nat
  | .node => d.nodes.size
  | .property => d.properties.size
  | .path => d.edges.total Table.size
  | .item => d.items.total Item.labels

/-- The warnings about what the records replace when they are added one after the other. -/
def replaced (d : Document) (rs : List Record) : List Warning :=
  (d.log rs).filterMap Event.warning?

theorem replaced_cons (d : Document) (r : Record) (rs : List Record) :
    d.replaced (r :: rs) = (d.warning? r).toList ++ (d.add r).replaced rs := by
  rw [replaced, log, List.filterMap_append]
  cases d.warning? r <;> rfl

theorem replaced_append (d : Document) (rs ks : List Record) :
    d.replaced (rs ++ ks) = d.replaced rs ++ (rs.foldl add d).replaced ks := by
  rw [replaced, log_append, List.filterMap_append]
  rfl

theorem keyCount_updateItem (d : Document) (id : String) (f : Item → Item) :
    (d.updateItem id f).keyCount .item + (d.item id).labels =
      d.keyCount .item + (f (d.item id)).labels :=
  Table.total_update Item.labels f rfl

theorem keyCount_updateItem_of_ne (d : Document) (id : String) (f : Item → Item) {k : Keyed}
    (h : k ≠ .item) : (d.updateItem id f).keyCount k = d.keyCount k := by
  cases k with
  | item => exact absurd rfl h
  | _ => rfl

/-- A change that keeps the label. -/
theorem keyCount_updateItem_of_label (d : Document) (id : String) {f : Item → Item}
    (hf : ∀ item, (f item).label = item.label) (k : Keyed) :
    (d.updateItem id f).keyCount k = d.keyCount k := by
  by_cases hk : k = .item
  · subst hk
    have h := d.keyCount_updateItem id f
    rw [Item.labels, Item.labels, hf] at h
    omega
  · exact d.keyCount_updateItem_of_ne id f hk

theorem hasPath_eq (d : Document) (source target : String) :
    d.hasPath source target = ((d.edges.get? source).getD .empty).contains target := by
  rw [hasPath]
  cases d.edges.get? source <;> rfl

/-- A path brings a new pair of ends, or it is warned of. -/
theorem keyCount_addPath (d : Document) (source target : String) (p : Path) :
    (if d.hasPath source target then 1 else 0) + (d.add (.path source target p)).keyCount .path =
      d.keyCount .path + 1 := by
  have hinner := ((d.edges.get? source).getD .empty).size_insert (k := target) p
  have houter : (d.edges.update source .empty (·.insert target p)).total Table.size +
      ((d.edges.get? source).getD .empty).size =
        d.edges.total Table.size + (((d.edges.get? source).getD .empty).insert target p).size :=
    Table.total_update Table.size _ rfl
  rw [hasPath_eq]
  simp only [add, keyCount]
  omega

/-- A header gives a label to an item without one, or it is warned of. -/
theorem keyCount_addItem (d : Document) (id label : String) (appendix : Option String) :
    (d.item id).labels + (d.add (.item id label appendix)).keyCount .item =
      d.keyCount .item + 1 := by
  have h := d.keyCount_updateItem id fun item =>
    { item with label := some label, appendix := appendix }
  rw [Nat.add_comm]
  exact h

/-- What a record replaces is of its own kind. -/
theorem keyed?_of_warning? {d : Document} {r : Record} {w : Warning}
    (h : d.warning? r = some w) : ∃ k, r.keyed? = some k ∧ w.keyed? = some k := by
  unfold warning? at h
  split at h
  · split at h <;> cases h
    exact ⟨.node, rfl, rfl⟩
  · split at h <;> cases h
    exact ⟨.property, rfl, rfl⟩
  · split at h <;> cases h
    exact ⟨.path, rfl, rfl⟩
  · obtain ⟨label, -, rfl⟩ := Option.map_eq_some_iff.1 h
    exact ⟨.item, rfl, rfl⟩
  · cases h

/-- A record brings a new key of its kind, or it is warned of. -/
theorem keyCount_add_self (d : Document) {r : Record} {k : Keyed} (hr : r.keyed? = some k) :
    (d.warning? r).toList.length + (d.add r).keyCount k = d.keyCount k + 1 := by
  cases r with
  | node id n =>
    cases hr
    have h := d.nodes.size_insert (k := id) n
    rw [warning?]
    cases hc : d.nodes.contains id <;> simp [add, keyCount, hc] at h ⊢ <;> omega
  | property name p =>
    cases hr
    have h := d.properties.size_insert (k := name) p
    rw [warning?]
    cases hc : d.properties.contains name <;> simp [add, keyCount, hc] at h ⊢ <;> omega
  | path source target p =>
    cases hr
    rw [← d.keyCount_addPath source target p, warning?]
    cases d.hasPath source target <;> rfl
  | item id label appendix =>
    cases hr
    have hlabel : (d.items.get? id).bind (·.label) = (d.item id).label := by
      rw [item]
      cases d.items.get? id <;> rfl
    rw [← d.keyCount_addItem id label appendix, warning?, hlabel, Item.labels]
    cases (d.item id).label <;> rfl
  | _ => cases hr

/-- A record leaves the keys of the other kinds as they are. -/
theorem keyCount_add_of_ne (d : Document) {r : Record} {k : Keyed} (hr : r.keyed? ≠ some k) :
    (d.add r).keyCount k = d.keyCount k := by
  cases r with
  | node =>
    cases k with
    | node => exact absurd rfl hr
    | _ => rfl
  | property =>
    cases k with
    | property => exact absurd rfl hr
    | _ => rfl
  | path =>
    cases k with
    | path => exact absurd rfl hr
    | _ => rfl
  | item id => exact d.keyCount_updateItem_of_ne id _ fun hk => hr (hk ▸ rfl)
  | behavior id | resources id | location id =>
    exact d.keyCount_updateItem_of_label id (fun item => by simp) k
  | start | action | boring | modifier | directive | definition => cases k <;> rfl

theorem keyCount_add (d : Document) (r : Record) (k : Keyed) :
    (d.warning? r).toList.countP (·.keyed? == some k) + (d.add r).keyCount k =
      d.keyCount k + if r.keyed? == some k then 1 else 0 := by
  by_cases hr : r.keyed? = some k
  · -- a warning is about a record of this kind, so it counts
    have hall : ∀ w ∈ (d.warning? r).toList, (w.keyed? == some k) = true := by
      intro w hw
      obtain ⟨k', hk', hw⟩ := keyed?_of_warning? (Option.mem_toList.1 hw)
      rw [hw, ← hk', hr, beq_self_eq_true]
    rw [List.countP_eq_length.2 hall, d.keyCount_add_self hr, hr, if_pos (beq_self_eq_true _)]
  · have hnone : ∀ w ∈ (d.warning? r).toList, ¬ (w.keyed? == some k) = true := by
      intro w hw
      obtain ⟨k', hk', hw⟩ := keyed?_of_warning? (Option.mem_toList.1 hw)
      rwa [hw, ← hk', beq_iff_eq]
    rw [List.countP_eq_zero.2 hnone, d.keyCount_add_of_ne hr, if_neg (by rwa [beq_iff_eq]),
      Nat.zero_add, Nat.add_zero]

/-- Of records that are added one after the other, as many are warned of as there are more of
them than new keys. -/
theorem keyCount_foldl (d : Document) (rs : List Record) (k : Keyed) :
    (d.replaced rs).countP (·.keyed? == some k) + (rs.foldl add d).keyCount k =
      d.keyCount k + rs.countP (·.keyed? == some k) := by
  induction rs generalizing d with
  | nil => exact Nat.add_comm ..
  | cons r rs ih =>
    have hstep := d.keyCount_add r k
    have hrest := ih (d.add r)
    rw [replaced_cons, List.countP_append, List.foldl_cons, List.countP_cons]
    omega

end Document

namespace Progress

/-- Adding records warns of what they replace. -/
theorem Adds.warnings_append {s t : Progress} {rs : List Record} (h : s.Adds rs t) :
    t.warnings = s.warnings ++ s.document.replaced rs := by
  rw [warnings_eq, warnings_eq, h.events, List.filterMap_append, List.reverse_append,
    List.filterMap_reverse, List.reverse_reverse]
  rfl

/-- Committing a record warns of what it replaces, and then of what it does not use. -/
theorem warnings_commit (s : Progress) (r : Record) (unused : Line) :
    (s.commit r unused).warnings =
      s.warnings ++ (s.document.replaced [r] ++ (r.trailing? unused).toList) := by
  have hnone : (s.commit r []).warnings = s.warnings ++ s.document.replaced [r] :=
    (Adds.commit s r).warnings_append
  cases unused with
  | nil => rw [hnone, Record.trailing?, Option.toList_none, List.append_nil]
  | cons t unused =>
    -- the warning about the tokens comes last, behind all that is there without them
    have hlast : (s.commit r (t :: unused)).warnings =
        (s.commit r []).warnings ++ [.trailing r.label (t :: unused)] := by
      rw [warnings_eq, warnings_eq, ← List.reverse_cons]
      rfl
    rw [hlast, hnone, List.append_assoc]
    rfl

end Progress

/-- What is read where a step begins: records, from the tokens of a line if they have one, and
what is warned of. -/
structure Account where
  records : List Record
  used : Line
  unused : Line
  warnings : List Warning

namespace Account

/-- Where there is no line of tokens, nothing is left over. -/
def plain (records : List Record) : Account := ⟨records, [], [], []⟩

/-- The warning about tokens that are not used, if there are any. -/
def leftover (label : String) (unused : Line) : List Warning :=
  if unused = [] then [] else [.trailing label unused]

/-- The account of a step, by what comes first where it begins. The tokens that a record uses
are the first ones of its line: on them alone it is read just the same. -/
inductive Of (setting : Setting) : Scope × Progress → Account → Prop
  | pass {scope : Scope} {s : Progress} {lead : Option Lead} {c : Cursor}
      (hl : Read.lead scope s.cursor = .ok lead c) (h : scope.turn lead = .pass) :
      Of setting (scope, s) (plain [])
  | record {scope : Scope} {s t : Progress} {lead : Option Lead} {c d : Cursor} {f : Form}
      {used unused : Line} {r : Record} (hl : Read.lead scope s.cursor = .ok lead c)
      (hb : Parse.Begins (s.moveTo c) (scope.turn lead) f t)
      (hline : Read.line setting (t.cursor.note f.subject) = .ok (used ++ unused) d)
      (hr : f.reader scope.item? t.cursor.pos (used ++ unused) = .ok (r, unused))
      (hused : f.reader scope.item? t.cursor.pos used = .ok (r, [])) :
      Of setting (scope, s)
        ⟨[r], used, unused, s.document.replaced [r] ++ leftover r.label unused⟩
  | definition {scope : Scope} {s : Progress} {lead : Option Lead} {c d : Cursor} {v : Definition}
      (hl : Read.lead scope s.cursor = .ok lead c) (h : scope.turn lead = .definition)
      (hv : Read.definition setting (s.moveTo c).cursor = .ok v d) :
      Of setting (scope, s) (plain [.definition v])
  | directive {scope : Scope} {s : Progress} {lead : Option Lead} {c d d' : Cursor}
      {name : String} {x : Directive} {used unused : Line}
      (hl : Read.lead scope s.cursor = .ok lead c) (h : scope.turn lead = .directive name)
      (hx : Read.directive setting (s.moveTo c).cursor = .ok (x, unused) d)
      (hline : Read.line setting d' = .ok (used ++ unused) d)
      (hr : Entry.command (used ++ unused) = .ok (x.command, unused))
      (hused : Entry.command used = .ok (x.command, [])) :
      Of setting (scope, s)
        ⟨[.directive name x], used, unused, leftover x.command.keyword unused⟩
  | setting {scope : Scope} {s : Progress} {lead : Option Lead} {c d : Cursor} {name : String}
      {x : Directive} {v : Definition} (hl : Read.lead scope s.cursor = .ok lead c)
      (h : scope.turn lead = .directive name)
      (hx : Read.directive setting (s.moveTo c).cursor = .ok (x, []) d)
      (hv : x.command = .setVariable v) :
      Of setting (scope, s) (plain [.directive name x])
  | reactions {scope : Scope} {s : Progress} {lead : Option Lead} {c d : Cursor} {id : String}
      {line : Line} {rs : List Record} {ref : Nat} (hl : Read.lead scope s.cursor = .ok lead c)
      (h : scope.turn lead = .reactions id)
      (hline : Read.line setting ((s.moveTo c).cursor.note "boring") = .ok line d)
      (hr : Entry.reactions id (s.moveTo c).cursor.pos line = .ok ((rs, ref), [])) :
      Of setting (scope, s) ⟨rs, line, [], []⟩

end Account

namespace Read

/-- A command is a definition, or it is read from the tokens of a line. -/
theorem line_of_command {setting : Setting} {ref : Nat} {c d : Cursor} {x : Command}
    {unused : Line} (h : Read.command setting ref c = .ok (x, unused) d) :
    (∃ v, x = .setVariable v ∧ unused = []) ∨
      ∃ c' line, Read.line setting c' = .ok line d ∧ Entry.command line = .ok (x, unused) := by
  obtain ⟨ahead, c', -, h⟩ := bind_eq_ok.1 h
  cases ahead with
  | true =>
    obtain ⟨v, _, -, h⟩ := bind_eq_ok.1 h
    obtain ⟨_, _, -, h⟩ := bind_eq_ok.1 h
    cases h
    exact .inl ⟨v, rfl, rfl⟩
  | false =>
    obtain ⟨line, d', hline, h⟩ := bind_eq_ok.1 h
    cases hr : Entry.command line with
    | error complaint =>
      simp only [hr] at h
      cases h
    | ok p =>
      simp only [hr] at h
      cases h
      exact .inr ⟨c', line, hline, hr⟩

theorem command_of_directive {setting : Setting} {c d : Cursor} {x : Directive} {unused : Line}
    (h : Read.directive setting c = .ok (x, unused) d) :
    ∃ c', Read.command setting c.pos c' = .ok (x.command, unused) d := by
  obtain ⟨ref, c₁, hbegin, h⟩ := bind_eq_ok.1 h
  cases hbegin
  obtain ⟨cond, c₂, -, h⟩ := bind_eq_ok.1 h
  obtain ⟨p, c₃, hp, h⟩ := bind_eq_ok.1 h
  cases h
  exact ⟨c₂, hp⟩

end Read

/-- The tokens that a reader does not leave are all that it needs. -/
theorem Entry.Uses.split {x : Entry α} {P : α → Prop} (hx : Uses (fun _ => True) x P) {line : Line}
    {a : α} {unused : Line} (h : x line = .ok (a, unused)) :
    ∃ used, line = used ++ unused ∧ x used = .ok (a, []) := by
  obtain ⟨-, used, hline, hmore⟩ := hx line (fun _ _ => trivial) a unused h
  have hused := hmore [] List.nil_prefix
  rw [List.append_nil] at hused
  exact ⟨used, hline, hused⟩

theorem Document.replaced_eq_nil {rs : List Record} (d : Document)
    (h : ∀ r ∈ rs, ∀ d : Document, d.warning? r = none) : d.replaced rs = [] :=
  Progress.filterMap_log h d

/-- Reactions replace nothing. -/
theorem Entry.silent_of_reactions {id : String} {ref ref' : Nat} {line unused : Line}
    {rs : List Record} (h : Entry.reactions id ref line = .ok ((rs, ref'), unused)) :
    ∀ r ∈ rs, ∀ d : Document, d.warning? r = none := by
  rw [reactions_eq, Except.ok.injEq, Prod.mk.injEq, Prod.mk.injEq] at h
  obtain ⟨⟨rfl, -⟩, -⟩ := h
  intro r hr d
  obtain ⟨word, -, rfl⟩ := List.mem_map.1 hr
  rfl

namespace Account

variable {setting : Setting} {scope : Scope} {s : Progress} {a : Account}

/-- All warnings of a step are about what its records replace, and about what is left over. -/
theorem Of.warnings_eq (h : Of setting (scope, s) a) :
    ∃ label, a.warnings = s.document.replaced a.records ++ leftover label a.unused := by
  have hnone : ∀ {rs : List Record}, (∀ r ∈ rs, ∀ d : Document, d.warning? r = none) →
      ∃ label, ([] : List Warning) = s.document.replaced rs ++ leftover label [] :=
    fun hrs => ⟨"", by rw [Document.replaced_eq_nil _ hrs]; rfl⟩
  cases h with
  | pass => exact hnone (List.forall_mem_nil _)
  | record => exact ⟨_, rfl⟩
  | definition => exact hnone (List.forall_mem_singleton.2 fun _ => rfl)
  | directive =>
    refine ⟨_, (congrArg (· ++ leftover _ _) (Document.replaced_eq_nil _ ?_)).symm⟩
    exact List.forall_mem_singleton.2 fun _ => rfl
  | setting => exact hnone (List.forall_mem_singleton.2 fun _ => rfl)
  | reactions _ _ _ hr => exact hnone (Entry.silent_of_reactions hr)

/-- What is left over replaces nothing. -/
theorem countP_leftover (label : String) (unused : Line) (k : Keyed) :
    (leftover label unused).countP (·.keyed? == some k) = 0 := by
  unfold leftover
  split <;> rfl

theorem leftover_eq (r : Record) (unused : Line) :
    (r.trailing? unused).toList = leftover r.label unused := by
  cases unused <;> rfl

end Account

namespace Parse

variable {setting : Setting} {scope next : Scope} {s t u : Progress}

/-- Every step that goes on has its account. -/
theorem step_account (h : step setting scope s = .ok next t) :
    ∃ a, Account.Of setting (scope, s) a ∧ t.document = a.records.foldl Document.add s.document ∧
      t.warnings = s.warnings ++ a.warnings := by
  obtain ⟨lead, c, rs, hl, hturned⟩ := step_turned setting scope s
  have hs := Progress.Adds.moveTo s c
  rw [h] at hturned
  have hplain : ∀ {rs : List Record}, (∀ r ∈ rs, ∀ d : Document, d.warning? r = none) →
      s.Adds rs t → t.document = rs.foldl Document.add s.document ∧ t.warnings = s.warnings ++ [] :=
    fun hrs ht => ⟨ht.document, by rw [ht.warnings hrs, List.append_nil]⟩
  cases hturned with
  | pass hturn ht =>
    exact ⟨_, .pass hl hturn, hplain (List.forall_mem_nil _) (hs.trans ht)⟩
  | @record f t' r unused d hb hr =>
    obtain ⟨line, hline, hreader⟩ := Read.line_of_entry hr
    obtain ⟨used, rfl, hused⟩ := (Entry.Uses.form scope.item? t'.cursor.pos f).split hreader
    have ht : s.Adds [] (t'.moveTo d) := (hs.trans hb.adds).trans (.moveTo t' d)
    refine ⟨_, .record hl hb hline hreader hused, ?_, ?_⟩
    · exact congrArg (Document.add · r) ht.document
    · rw [Progress.warnings_commit, ht.warnings (List.forall_mem_nil _), ht.document,
        Account.leftover_eq]
      rfl
  | definition hturn hv hd =>
    refine ⟨_, .definition hl hturn hv, hplain (List.forall_mem_singleton.2 fun _ => rfl) ?_⟩
    exact (hs.trans (.moveTo _ _)).trans ((Progress.Adds.commit _ _).trans (.moveTo _ _))
  | @directive name x unused d hturn hx =>
    obtain ⟨c', hcommand⟩ := Read.command_of_directive hx
    have ht : s.Adds [] ((s.moveTo c).moveTo d) := hs.trans (.moveTo _ d)
    rcases Read.line_of_command hcommand with ⟨v, hv, rfl⟩ | ⟨d', line, hline, hentry⟩
    · refine ⟨_, .setting hl hturn hx hv, hplain (List.forall_mem_singleton.2 fun _ => rfl) ?_⟩
      exact ht.trans (.commit _ _)
    · obtain ⟨used, rfl, hused⟩ := Entry.Uses.command.split hentry
      refine ⟨_, .directive hl hturn hx hline hentry hused, ?_, ?_⟩
      · exact congrArg (Document.add · (.directive name x)) ht.document
      · rw [Progress.warnings_commit, ht.warnings (List.forall_mem_nil _), Account.leftover_eq,
          Document.replaced_eq_nil _ (List.forall_mem_singleton.2 fun _ => rfl), List.nil_append]
        rfl
  | @reactions id rs ref d hturn hr =>
    obtain ⟨line, hline, hreader⟩ := Read.line_of_entry hr
    refine ⟨_, .reactions hl hturn hline hreader, hplain (Entry.silent_of_reactions hreader) ?_⟩
    exact (hs.trans (.moveTo _ _)).trans (.commitAll _ _)

/-- Every run that comes to the end has an account of each of its steps, and its warnings are
theirs. -/
theorem run_accounts (h : run setting scope s = .ok () u) :
    ∃ accounts : List Account,
      List.Forall₂ (Account.Of setting) (stops setting scope s) accounts ∧
      u.document = (accounts.flatMap (·.records)).foldl Document.add s.document ∧
      u.warnings = s.warnings ++ accounts.flatMap (·.warnings) ∧
      ∀ k, (accounts.flatMap (·.warnings)).countP (·.keyed? == some k) =
        (s.document.replaced (accounts.flatMap (·.records))).countP (·.keyed? == some k) := by
  fun_induction run setting scope s with
  | case1 scope s hs =>
    cases h
    rw [stops_of_nil hs]
    exact ⟨[], .nil, rfl, (List.append_nil _).symm, fun _ => rfl⟩
  | case2 scope s hs next t hstep ih =>
    obtain ⟨accounts, hall, hdocument, hwarnings, hcount⟩ := ih h
    obtain ⟨a, ha, hd, hw⟩ := step_account hstep
    obtain ⟨label, hlabel⟩ := ha.warnings_eq
    rw [stops_of_ok hs hstep]
    refine ⟨a :: accounts, .cons ha hall, ?_, ?_, fun k => ?_⟩
    · rw [hdocument, hd, List.flatMap_cons, List.foldl_append]
    · rw [hwarnings, hw, List.flatMap_cons, List.append_assoc]
    · rw [List.flatMap_cons, List.flatMap_cons, List.countP_append, hcount, hlabel,
        List.countP_append, Account.countP_leftover, Document.replaced_append,
        List.countP_append, hd, Nat.add_zero]
  | case3 => cases h

end Parse

namespace Warning

/-- The warnings that reading gives: those about a record that is replaced, and those about
tokens. -/
def IsOwn : Warning → Prop
  | other .. => False
  | _ => True

theorem isOwn_of_keyed? {w : Warning} (h : w.keyed?.isSome = true) :
    w.IsOwn ∧ w.code ≠ "TXG0103" := by
  cases w with
  | trailing | other => cases h
  | _ => exact ⟨trivial, by simp [code]⟩

theorem IsOwn.code_mem {w : Warning} (h : w.IsOwn) :
    w.code ∈ ["TXG0101", "TXG0102", "TXG0103"] := by
  cases w with
  | other => exact h.elim
  | _ => simp [code]

/-- Nodes, properties and paths have one code between them. -/
theorem text_trailing (label : String) (line : Line) :
    (trailing label line).text = "TXG0103: " ++ label ++ ": ignoring trailing tokens " ++
      ", ".intercalate (line.map (·.content.describe)) := by
  have hcode : "TXG0103: " = "TXG0103" ++ ": " := rfl
  change "TXG0103" ++ ": " ++ (label ++ ": ignoring trailing tokens " ++ line.values) = _
  rw [hcode, ← String.append_assoc, ← String.append_assoc]
  rfl

theorem countP_redefined {ws : List Warning} (h : ∀ w ∈ ws, w.IsOwn) :
    ws.countP (·.code == "TXG0102") = ws.countP (·.keyed? == some .node) +
      ws.countP (·.keyed? == some .property) + ws.countP (·.keyed? == some .path) := by
  induction ws with
  | nil => rfl
  | cons w ws ih =>
    obtain ⟨hw, hws⟩ := List.forall_mem_cons.1 h
    simp only [List.countP_cons, ih hws]
    cases w with
    | other => exact hw.elim
    | _ =>
      simp only [code, keyed?]
      grind

theorem countP_relabelled {ws : List Warning} (h : ∀ w ∈ ws, w.IsOwn) :
    ws.countP (·.code == "TXG0101") = ws.countP (·.keyed? == some .item) := by
  refine List.countP_congr fun w hw => ?_
  have hown := h w hw
  cases w with
  | other => exact hown.elim
  | _ => simp [code, keyed?]

end Warning

/-- A warning about what is replaced says what kind of record it is. -/
theorem Document.keyed?_of_replaced {d : Document} {rs : List Record} {w : Warning}
    (h : w ∈ d.replaced rs) : w.keyed?.isSome = true := by
  induction rs generalizing d with
  | nil => cases h
  | cons r rs ih =>
    rw [replaced_cons, List.mem_append] at h
    rcases h with h | h
    · obtain ⟨k, -, hw⟩ := keyed?_of_warning? (Option.mem_toList.1 h)
      rw [hw, Option.isSome_some]
    · exact ih h

namespace Account

variable {setting : Setting} {stop : Scope × Progress} {a : Account}

theorem Of.isOwn (h : Of setting stop a) : ∀ w ∈ a.warnings, w.IsOwn := by
  obtain ⟨label, hlabel⟩ := h.warnings_eq
  intro w hw
  rw [hlabel, List.mem_append] at hw
  rcases hw with hw | hw
  · exact (Warning.isOwn_of_keyed? (Document.keyed?_of_replaced hw)).1
  · unfold leftover at hw
    split at hw
    · cases hw
    · rw [List.mem_singleton.1 hw]
      trivial

/-- Of the tokens of a line there is one warning if any are left over, and none if not. It lists
their values. -/
theorem Of.filter_trailing (h : Of setting stop a) :
    let trailing := a.warnings.filter (·.code == "TXG0103")
    ∃ label, trailing = (if a.unused = [] then [] else [.trailing label a.unused]) ∧
      trailing.map Warning.text = if a.unused = [] then [] else
        ["TXG0103: " ++ label ++ ": ignoring trailing tokens " ++
          ", ".intercalate (a.unused.map (·.content.describe))] := by
  intro trailing
  obtain ⟨label, hlabel⟩ := h.warnings_eq
  have hreplaced : (stop.2.document.replaced a.records).filter (·.code == "TXG0103") = [] := by
    rw [List.filter_eq_nil_iff]
    intro w hw
    simpa using (Warning.isOwn_of_keyed? (Document.keyed?_of_replaced hw)).2
  have htrailing : trailing = if a.unused = [] then [] else [.trailing label a.unused] := by
    simp only [trailing, hlabel, List.filter_append, hreplaced, List.nil_append, leftover]
    split <;> rfl
  refine ⟨label, htrailing, ?_⟩
  rw [htrailing]
  split
  · rfl
  · rw [List.map_singleton, Warning.text_trailing]

end Account

theorem exists_of_forall₂ {R : α → β → Prop} {as : List α} {bs : List β}
    (h : List.Forall₂ R as bs) {b : β} (hb : b ∈ bs) : ∃ a, R a b := by
  induction h with
  | nil => cases hb
  | cons hab _ ih =>
    rcases List.mem_cons.1 hb with rfl | hb
    · exact ⟨_, hab⟩
    · exact ih hb

namespace Script

/-- In a script that is read to its end every step has an account, and the warnings are those of
the accounts. As many nodes, properties and paths are warned of as there are more records of them
than keys, as many items as there are more headers than labels, and each line with tokens left
over once. -/
theorem read_accounts {setting : Setting} {source : List Char}
    (h : (read setting source).fault? = none) :
    ∃ accounts : List Account,
      List.Forall₂ (Account.Of setting) (Parse.stops setting .top (.ofText source)) accounts ∧
      (read setting source).warnings = accounts.flatMap (·.warnings) ∧
      let records := accounts.flatMap (·.records)
      let count (k : Keyed) := records.countP (·.keyed? == some k)
      let kept (k : Keyed) := (read setting source).document.keyCount k
      (read setting source).document = records.foldl Document.add {} ∧
      (∀ k, kept k ≤ count k) ∧
      (read setting source).warnings.countP (·.code == "TXG0102") =
        (count .node - kept .node) + (count .property - kept .property) +
          (count .path - kept .path) ∧
      (read setting source).warnings.countP (·.code == "TXG0101") = count .item - kept .item ∧
      (∀ a ∈ accounts,
        let trailing := a.warnings.filter (·.code == "TXG0103")
        ∃ label, trailing = (if a.unused = [] then [] else [.trailing label a.unused]) ∧
          trailing.map Warning.text = if a.unused = [] then [] else
            ["TXG0103: " ++ label ++ ": ignoring trailing tokens " ++
              ", ".intercalate (a.unused.map (·.content.describe))]) ∧
      ∀ w ∈ (read setting source).warnings, w.code ∈ ["TXG0101", "TXG0102", "TXG0103"] := by
  cases hrun : Parse.run setting .top (.ofText source) with
  | error fault u =>
    rw [read, hrun] at h
    cases h
  | ok _ u =>
    obtain ⟨accounts, hall, hdocument, hwarnings, hcount⟩ := Parse.run_accounts hrun
    have hread : read setting source = ofResult (.ok () u) := by rw [read, hrun]
    have hof : ∀ a ∈ accounts, ∃ stop, Account.Of setting stop a :=
      fun a ha => exists_of_forall₂ hall ha
    have hown : ∀ w ∈ accounts.flatMap (·.warnings), w.IsOwn := by
      intro w hw
      obtain ⟨a, ha, hw⟩ := List.mem_flatMap.1 hw
      obtain ⟨stop, hstop⟩ := hof a ha
      exact hstop.isOwn w hw
    have hbalance : ∀ k, (accounts.flatMap (·.warnings)).countP (·.keyed? == some k) +
        u.document.keyCount k = (accounts.flatMap (·.records)).countP (·.keyed? == some k) := by
      intro k
      have hk := Document.keyCount_foldl {} (accounts.flatMap (·.records)) k
      have hzero : ({} : Document).keyCount k = 0 := by cases k <;> rfl
      have hdocument' : u.document = (accounts.flatMap (·.records)).foldl Document.add {} :=
        hdocument
      rw [hcount k, hdocument']
      rw [hzero, Nat.zero_add] at hk
      exact hk
    have hsaid : (read setting source).warnings = accounts.flatMap (·.warnings) := by
      rw [hread]
      exact hwarnings
    refine ⟨accounts, hall, hsaid, ?_⟩
    rw [hsaid, hread]
    intro records count kept
    have hnode : _ + kept .node = count .node := hbalance .node
    have hproperty : _ + kept .property = count .property := hbalance .property
    have hpath : _ + kept .path = count .path := hbalance .path
    have hitem : _ + kept .item = count .item := hbalance .item
    refine ⟨hdocument, fun k => ?_, ?_, ?_, fun a ha => ?_, fun w hw => (hown w hw).code_mem⟩
    · exact Nat.le.intro ((Nat.add_comm ..).trans (hbalance k))
    · rw [Warning.countP_redefined hown]
      omega
    · rw [Warning.countP_relabelled hown]
      omega
    · obtain ⟨stop, hstop⟩ := hof a ha
      exact hstop.filter_trailing

/-- A node with two tokens too many, the same node again, and an item with a reaction between its
two headers. -/
theorem read_accounts_repeated :
    let source := ("node a \"1\" x 7\nnode a \"2\"\n" ++
      "item k \"K\"\nuse \"ok\"\n\nitem k \"L\"\n").toList
    (read {} source).fault? = none ∧
      (read {} source).warnings.map Warning.text =
        ["TXG0103: node: ignoring trailing tokens 'x', 7", "TXG0102: node 'a' redefined",
          "TXG0101: item 'k' redefined, label 'K' replaced"] ∧
      ∃ accounts : List Account,
        List.Forall₂ (Account.Of {}) (Parse.stops {} .top (.ofText source)) accounts ∧
        (accounts.flatMap (·.records)).countP (·.keyed? == some .item) = 2 := by
  intro source
  have hfault : (read {} source).fault? = none := by
    rw [← Option.isNone_iff_eq_none]
    decide +kernel
  have hcode : (read {} source).warnings.countP (·.code == "TXG0101") = 1 := by decide +kernel
  have hkept : (read {} source).document.keyCount .item = 1 := by decide +kernel
  obtain ⟨accounts, hall, -, -, -, -, hitem, -⟩ := read_accounts hfault
  refine ⟨hfault, by decide +kernel, accounts, hall, ?_⟩
  simp only [hcode, hkept] at hitem
  omega

end Script
end Gamebook
