import Gamebook.Compiler
import Gamebook.Proofs.Disks
import Gamebook.Proofs.Turns

/-!
How compiling a file ends. The output is opened when nothing is left that could fail: every
trouble finds the disk as it was before, and from the opening on the file only grows to its full
text. The courses that compiling can take are listed once, and what it leaves is read off them.
-/
namespace Gamebook

/-- The result that leaves the state behind. -/
def ended (s : σ) : Except ε α → EStateM.Result ε σ α
  | .ok a => .ok a s
  | .error e => .error e s

/-- Begun in a state of which the view is `n`, the computation comes to `r` and leaves a state of
which it is `n'`. What the view does not show is left open. -/
def Comes (view : σ → ν) (x : EStateM ε σ α) (n : ν) (r : Except ε α) (n' : ν) : Prop :=
  ∀ s, view s = n → ∃ s', view s' = n' ∧ x s = ended s' r

namespace Comes

variable {view : σ → ν} {n n' n'' : ν}

theorem pure (a : α) : Comes view (Pure.pure a : EStateM ε σ α) n (.ok a) n :=
  fun s hs => ⟨s, hs, rfl⟩

theorem throw (e : ε) : Comes view (MonadExcept.throw e : EStateM ε σ α) n (.error e) n :=
  fun s hs => ⟨s, hs, rfl⟩

theorem modify {f : σ → σ} (h : ∀ s, view s = n → view (f s) = n') :
    Comes view (modify f : EStateM ε σ PUnit) n (.ok ⟨⟩) n' :=
  fun s hs => ⟨f s, h s hs, rfl⟩

theorem get_bind {f : σ → EStateM ε σ β} {r : Except ε β}
    (hf : ∀ s, view s = n → Comes view (f s) n r n') : Comes view (get >>= f) n r n' :=
  fun s hs => hf s hs s hs

theorem bind {x : EStateM ε σ α} {f : α → EStateM ε σ β} {a : α} {r : Except ε β}
    (hx : Comes view x n (.ok a) n') (hf : Comes view (f a) n' r n'') :
    Comes view (x >>= f) n r n'' := by
  intro s hs
  obtain ⟨t, ht, hxt⟩ := hx s hs
  rw [bind_of_ok hxt]
  exact hf t ht

theorem bind_error {x : EStateM ε σ α} {e : ε} (hx : Comes view x n (.error e) n')
    (f : α → EStateM ε σ β) : Comes view (x >>= f) n (.error e) n' := by
  intro s hs
  obtain ⟨t, ht, hxt⟩ := hx s hs
  exact ⟨t, ht, bind_of_error hxt⟩

theorem tryCatch_ok {x : EStateM ε σ α} {a : α} (hx : Comes view x n (.ok a) n')
    (f : ε → EStateM ε σ α) : Comes view (tryCatch x f) n (.ok a) n' := by
  intro s hs
  obtain ⟨t, ht, hxt⟩ := hx s hs
  refine ⟨t, ht, ?_⟩
  change EStateM.tryCatch x f s = _
  simp only [EStateM.tryCatch, hxt, ended]

/-- What was done before the error stays done. -/
theorem tryCatch_error {x : EStateM ε σ α} {f : ε → EStateM ε σ α} {e : ε} {r : Except ε α}
    (hx : Comes view x n (.error e) n') (hf : Comes view (f e) n' r n'') :
    Comes view (tryCatch x f) n r n'' := by
  intro s hs
  obtain ⟨t, ht, hxt⟩ := hx s hs
  obtain ⟨u, hu, hfu⟩ := hf t ht
  refine ⟨u, hu, ?_⟩
  change EStateM.tryCatch x f s = _
  simp only [EStateM.tryCatch, hxt, ended]
  exact hfu

end Comes

namespace Compiler

/-- The compiler after a script that it has read to the end, if there is one. -/
def keep? (c : Compiler) : Option Script → Compiler
  | none => c
  | some script => c.keep script.warnings

end Compiler

/-- The troubles that are reported: a file that is missing, and a complaint. -/
def Trouble.reported : Trouble → Bool
  | refused _ .missing | complaint _ => true
  | _ => false

namespace Compile

open Session (compiler)

variable {c : Compiler} {source : List Char}

/-- Printing leaves the compiler alone. -/
theorem comes_print (text : String) : Comes compiler (print text) c (.ok ()) c :=
  .modify fun _ hs => hs

theorem comes_trace (text : String) : Comes compiler (trace text) c (.ok ()) c := by
  refine .get_bind fun s _ => ?_
  split
  · exact comes_print text
  · exact .pure ()

theorem comes_log (text : String) : Comes compiler (log text) c (.ok ()) c := comes_trace _

theorem comes_keep (ws : List Warning) : Comes compiler (keep ws) c (.ok ()) (c.keep ws) :=
  .modify fun _ hs => congrArg (Compiler.keep · ws) hs

/-- A script that is not read to its end leaves no warnings. -/
theorem comes_script_fault {fault : Fault}
    (h : (Script.read { registry := c.functions } source).fault? = some fault)
    (filename : String) :
    Comes compiler (script source filename) c (.error (.ofFault source filename fault)) c := by
  refine .bind (comes_log _) (.get_bind ?_)
  rintro s rfl
  refine .bind (comes_trace _) ?_
  rw [h]
  exact .throw _

/-- A script that is read to its end leaves its warnings, also if the document has no form. -/
theorem comes_script {r : Except FormError Data}
    (h : (Script.read { registry := c.functions } source).fault? = none)
    (hr : (Script.read { registry := c.functions } source).document.form = r)
    (filename : String) :
    Comes compiler (script source filename) c
      ((r.map ((Script.read { registry := c.functions } source).document, ·)).mapError .form)
      (c.keep (Script.read { registry := c.functions } source).warnings) := by
  refine .bind (comes_log _) (.get_bind ?_)
  rintro s rfl
  refine .bind (comes_trace _) ?_
  rw [h]
  refine .bind (comes_keep _) (.bind (comes_log _) ?_)
  rw [hr]
  cases r with
  | error e => exact .bind_error (.throw _) _
  | ok form => exact .bind (.pure form) (.pure _)

theorem comes_report (input : String) (trouble : Trouble) :
    Comes compiler (report input trouble) c
      (if trouble.reported then .ok false else .error trouble) c := by
  unfold report
  split
  · exact .bind (comes_print _) (.pure false)
  · exact .bind (comes_print _) (.pure false)
  · rename_i hmissing hcomplaint
    have hr : trouble.reported = false := by
      unfold Trouble.reported
      split
      · exact absurd rfl (hmissing _)
      · exact absurd rfl (hcomplaint _)
      · rfl
    rw [hr]
    exact .throw trouble

end Compile

namespace Workspace

/-- The compiler of a workspace and its disk. -/
def view (w : Workspace) : Compiler × Disk := (w.session.compiler, w.disk)

end Workspace

/-- The script in a file. -/
def Disk.source? (d : Disk) (path : String) : Option (List Char) := do
  let bytes ← (d.read path).toOption
  return plainBreaks (← (Utf8.decode bytes).toOption)

/-- Where an output is put. -/
def Disk.opening (d : Disk) (name : String) : Output → Except Refused (List String)
  | .nameless => .error .noName
  | _ => d.target name

namespace Work

open Workspace (view)

variable {c c' : Compiler} {d : Disk} {input name : String} {output : Output}

theorem comes_lift {x : Compile α} {r : Except Trouble α} (hx : Comes Session.compiler x c r c') :
    Comes view (liftM x : Work α) (c, d) r (c', d) := by
  rintro ⟨s, d⟩ ⟨⟩
  obtain ⟨s', rfl, hs'⟩ := hx s rfl
  refine ⟨⟨s', d⟩, rfl, ?_⟩
  change ofCompile x ⟨s, d⟩ = _
  rw [ofCompile, hs']
  cases r <;> rfl

theorem comes_read {r : Except Refused (List UInt8)} (h : d.read input = r) :
    Comes view (files.read input) (c, d) (r.mapError (.refused input)) (c, d) := by
  rintro ⟨s, d⟩ ⟨⟩
  refine ⟨⟨s, d⟩, rfl, ?_⟩
  change read input _ = _
  rw [read, h]
  cases r <;> rfl

theorem comes_append (route : List String) (text : String) :
    Comes view (files.append route text) (c, d) (.ok ()) (c, d.append route (Utf8.encode text)) :=
  .modify fun w hw => by
    cases hw
    rfl

/-- A file is empty when it is opened. -/
theorem comes_create {route : List String} (h : d.target name = .ok route) :
    Comes view (create name) (c, d) (.ok route) (c, d.put route []) := by
  rintro ⟨s, d⟩ ⟨⟩
  refine ⟨⟨s, d.put route []⟩, rfl, ?_⟩
  rw [create, h]
  rfl

theorem comes_create_error {why : Refused} (h : d.target name = .error why) :
    Comes view (create name) (c, d) (.error (.refused name why)) (c, d) := by
  rintro ⟨s, d⟩ ⟨⟩
  refine ⟨⟨s, d⟩, rfl, ?_⟩
  rw [create, h]
  rfl

theorem comes_open {route : List String} (h : d.opening name output = .ok route) :
    Comes view (files.openOutput name output) (c, d) (.ok route) (c, d.put route []) := by
  cases output with
  | nameless => cases h
  | beside => exact comes_create h
  | named _ => exact comes_create h

theorem comes_open_error {why : Refused} (h : d.opening name output = .error why) :
    Comes view (files.openOutput name output) (c, d) (.error (.refused name why)) (c, d) := by
  cases output with
  | nameless =>
    cases h
    exact .throw _
  | beside => exact comes_create_error h
  | named _ => exact comes_create_error h

theorem comes_load {source : List Char} (h : d.source? input = some source) :
    Comes view (files.load input) (c, d) (.ok source) (c, d) := by
  obtain ⟨bytes, hbytes, text, htext, rfl⟩ : ∃ bytes, d.read input = .ok bytes ∧
      ∃ text, Utf8.decode bytes = .ok text ∧ plainBreaks text = source := by
    simpa [Disk.source?, Option.bind_eq_some_iff, ← eq_ok_iff_toOption] using h
  refine .bind (comes_lift (Compile.comes_log _)) (.bind (comes_read hbytes) ?_)
  rw [htext]
  exact .bind (comes_lift (.pure text)) (.pure _)

theorem comes_load_refused {why : Refused} (h : d.read input = .error why) :
    Comes view (files.load input) (c, d) (.error (.refused input why)) (c, d) :=
  .bind (comes_lift (Compile.comes_log _)) (.bind_error (comes_read h) _)

theorem comes_load_undecodable {bytes : List UInt8} {e : Utf8.Error}
    (h : d.read input = .ok bytes) (he : Utf8.decode bytes = .error e) :
    Comes view (files.load input) (c, d) (.error (.undecodable e)) (c, d) := by
  refine .bind (comes_lift (Compile.comes_log _)) (.bind (comes_read h) ?_)
  rw [he]
  exact .bind_error (comes_lift (.throw _)) _

theorem comes_save_refused {why : Refused} (h : d.opening name output = .error why)
    (document : Document) (form : Data) :
    Comes view (files.save name output document form) (c, d) (.error (.refused name why)) (c, d) :=
  .bind (comes_lift (Compile.comes_log _)) (.bind_error (comes_open_error h) _)

/-- Nothing can fail once the output is open, and the file holds the JSON text in the end. -/
theorem comes_save {route : List String} (h : d.opening name output = .ok route)
    (document : Document) (form : Data) :
    Comes view (files.save name output document form) (c, d) (.ok ())
      (c, d.put route (Utf8.encode (form.json c.indent ++ "\n"))) := by
  have hjson : Comes Session.compiler (Compile.jsonText form) c (.ok (form.json c.indent)) c :=
    .get_bind fun s hs => hs ▸ .pure _
  refine .bind (comes_lift (Compile.comes_log _)) (.bind (comes_open h) ?_)
  refine .bind (comes_lift hjson) (.bind (comes_append _ _) (.bind (comes_append _ _) ?_))
  rw [Disk.append_put, Disk.append_put, List.nil_append, ← Utf8.encode_append]
  exact comes_lift (Compile.comes_log _)

end Work

/-- How the compiler `c` gets on with a file: the script that it reads to the end, if it gets so
far, and the first trouble, or else the place and the bytes of the output. -/
inductive Course (c : Compiler) (d : Disk) (input : String) (output : Output) :
    Option Script → Except Trouble (List String × List UInt8) → Prop
  | unnamed (hname : output.name? input = none) :
    Course c d input output none (.error (.unnamed (FileName.ofText input).text))
  | unread {name why} (hname : output.name? input = some name)
    (hread : d.read input = .error why) :
    Course c d input output none (.error (.refused input why))
  | undecodable {name bytes e} (hname : output.name? input = some name)
    (hread : d.read input = .ok bytes) (hdecode : Utf8.decode bytes = .error e) :
    Course c d input output none (.error (.undecodable e))
  | faulty {name source fault} (hname : output.name? input = some name)
    (hsource : d.source? input = some source)
    (hfault : (Script.read { registry := c.functions } source).fault? = some fault) :
    Course c d input output none (.error (.ofFault source input fault))
  | formless {name source e} (hname : output.name? input = some name)
    (hsource : d.source? input = some source)
    (hfault : (Script.read { registry := c.functions } source).fault? = none)
    (hform : (Script.read { registry := c.functions } source).document.form = .error e) :
    Course c d input output (some (Script.read { registry := c.functions } source))
      (.error (.form e))
  | unopened {name source form why} (hname : output.name? input = some name)
    (hsource : d.source? input = some source)
    (hfault : (Script.read { registry := c.functions } source).fault? = none)
    (hform : (Script.read { registry := c.functions } source).document.form = .ok form)
    (hopen : d.opening name output = .error why) :
    Course c d input output (some (Script.read { registry := c.functions } source))
      (.error (.refused name why))
  | written {name source form route} (hname : output.name? input = some name)
    (hsource : d.source? input = some source)
    (hfault : (Script.read { registry := c.functions } source).fault? = none)
    (hform : (Script.read { registry := c.functions } source).document.form = .ok form)
    (hopen : d.opening name output = .ok route) :
    Course c d input output (some (Script.read { registry := c.functions } source))
      (.ok (route, Utf8.encode (form.json c.indent ++ "\n")))

namespace Course

open Workspace (view)

variable {c : Compiler} {d : Disk} {input name : String} {output : Output} {parsed : Option Script}

theorem total (c : Compiler) (d : Disk) (input : String) (output : Output) :
    ∃ parsed ending, Course c d input output parsed ending := by
  cases hname : output.name? input with
  | none => exact ⟨_, _, .unnamed hname⟩
  | some name =>
    cases hread : d.read input with
    | error why => exact ⟨_, _, .unread hname hread⟩
    | ok bytes =>
      cases hdecode : Utf8.decode bytes with
      | error e => exact ⟨_, _, .undecodable hname hread hdecode⟩
      | ok text =>
        have hsource : d.source? input = some (plainBreaks text) := by
          simp [Disk.source?, hread, hdecode, Except.toOption]
        let script := Script.read { registry := c.functions } (plainBreaks text)
        cases hfault : script.fault? with
        | some fault => exact ⟨_, _, .faulty hname hsource hfault⟩
        | none =>
          cases hform : script.document.form with
          | error e => exact ⟨_, _, .formless hname hsource hfault hform⟩
          | ok form =>
            cases hopen : d.opening name output with
            | error why => exact ⟨_, _, .unopened hname hsource hfault hform hopen⟩
            | ok route => exact ⟨_, _, .written hname hsource hfault hform hopen⟩

theorem comes_named (hname : output.name? input = some name) :
    Comes view (liftM (Compile.outputName input output) : Work String) (c, d) (.ok name)
      (c, d) := by
  refine Work.comes_lift ?_
  unfold Compile.outputName
  rw [hname]
  exact .pure name

theorem comes_unnamed (hname : output.name? input = none) :
    Comes view (liftM (Compile.outputName input output) : Work String) (c, d)
      (.error (.unnamed (FileName.ofText input).text)) (c, d) := by
  refine Work.comes_lift ?_
  unfold Compile.outputName
  rw [hname]
  exact .throw _

/-- A trouble is reported or passed on, and the disk stays as the trouble found it. -/
theorem comes_caught {trouble : Trouble} {c' : Compiler} {d' : Disk}
    (hname : output.name? input = some name)
    (h : Comes view (Work.files.translate input name output) (c, d) (.error trouble) (c', d')) :
    Comes view (Work.files.compile input output) (c, d)
      (if trouble.reported then .ok false else .error trouble) (c', d') := by
  refine .bind (comes_named hname) (.tryCatch_error (.bind_error h _) ?_)
  exact Work.comes_lift (Compile.comes_report input trouble)

/-- Every trouble comes before the output is open, and leaves the disk as it was. -/
theorem comes_error {trouble : Trouble} (h : Course c d input output parsed (.error trouble)) :
    Comes view (Work.files.compile input output) (c, d)
      (if trouble.reported then .ok false else .error trouble) (c.keep? parsed, d) := by
  cases h with
  | unnamed hname => exact .bind_error (comes_unnamed hname) _
  | unread hname hread => exact comes_caught hname (.bind_error (Work.comes_load_refused hread) _)
  | undecodable hname hread hdecode =>
    exact comes_caught hname (.bind_error (Work.comes_load_undecodable hread hdecode) _)
  | faulty hname hsource hfault =>
    refine comes_caught hname (.bind (Work.comes_load hsource) ?_)
    exact .bind_error (Work.comes_lift (Compile.comes_script_fault hfault _)) _
  | formless hname hsource hfault hform =>
    refine comes_caught hname (.bind (Work.comes_load hsource) ?_)
    exact .bind_error (Work.comes_lift (Compile.comes_script hfault hform _)) _
  | unopened hname hsource hfault hform hopen =>
    refine comes_caught hname (.bind (Work.comes_load hsource) ?_)
    refine .bind (Work.comes_lift (Compile.comes_script hfault hform _)) ?_
    exact Work.comes_save_refused hopen _ _

theorem comes_ok {route : List String} {bytes : List UInt8}
    (h : Course c d input output parsed (.ok (route, bytes))) :
    Comes view (Work.files.compile input output) (c, d) (.ok true)
      (c.keep? parsed, d.put route bytes) := by
  cases h with
  | @written name source form _ hname hsource hfault hform hopen =>
    have htranslate : Comes view (Work.files.translate input name output) (c, d) (.ok ())
        (c.keep (Script.read { registry := c.functions } source).warnings,
          d.put route (Utf8.encode (form.json c.indent ++ "\n"))) := by
      refine .bind (Work.comes_load hsource) ?_
      refine .bind (Work.comes_lift (Compile.comes_script hfault hform _)) ?_
      exact Work.comes_save hopen _ _
    refine .bind (comes_named hname) (.tryCatch_ok ?_ _)
    exact .bind htranslate (.pure true)

end Course

/-- All that a file must have to be compiled: the output has a name, the input is there and is
text, the text is a script, its document has an engine form, and the output can be opened. -/
structure Compilable (c : Compiler) (d : Disk) (input : String) (output : Output) (name : String)
    (source : List Char) (form : Data) : Prop where
  named : output.name? input = some name
  readable : d.source? input = some source
  parses : (Script.read { registry := c.functions } source).fault? = none
  formed : (Script.read { registry := c.functions } source).document.form = .ok form
  opens : ∃ route, d.opening name output = .ok route

/-- The input is missing, or the script violates the grammar, or all is well but for the folder of
the output, which is missing. -/
inductive Reported (c : Compiler) (d : Disk) (input : String) (output : Output) : Prop
  | noInput {name} (hname : output.name? input = some name)
    (hread : d.read input = .error .missing)
  | violation {name source what pos} (hname : output.name? input = some name)
    (hsource : d.source? input = some source)
    (hfault : (Script.read { registry := c.functions } source).fault? = some (.refused what pos))
  | noFolder {name source form} (hname : output.name? input = some name)
    (hsource : d.source? input = some source)
    (hfault : (Script.read { registry := c.functions } source).fault? = none)
    (hform : (Script.read { registry := c.functions } source).document.form = .ok form)
    (hopen : d.opening name output = .error .missing)

theorem Disk.target_of_opening {d : Disk} {name : String} {output : Output} {route : List String}
    (h : d.opening name output = .ok route) : d.target name = .ok route := by
  cases output with
  | nameless => cases h
  | beside => exact h
  | named _ => exact h

namespace Course

variable {c : Compiler} {d : Disk} {input name : String} {output : Output} {parsed : Option Script}

theorem compilable {place : List String × List UInt8}
    (h : Course c d input output parsed (.ok place)) :
    ∃ name source form, Compilable c d input output name source form := by
  cases h with
  | written hname hsource hfault hform hopen =>
    exact ⟨_, _, _, hname, hsource, hfault, hform, _, hopen⟩

theorem reported {trouble : Trouble} (h : Course c d input output parsed (.error trouble))
    (ht : trouble.reported = true) : Reported c d input output := by
  cases h with
  | unnamed | undecodable | formless => cases ht
  | @unread _ why hname hread =>
    cases why with
    | missing => exact .noInput hname hread
    | _ => cases ht
  | @faulty _ _ fault hname hsource hfault =>
    cases fault with
    | refused what pos => exact .violation hname hsource hfault
    | longNumeral => cases ht
  | @unopened _ _ _ why hname hsource hfault hform hopen =>
    cases why with
    | missing => exact .noFolder hname hsource hfault hform hopen
    | _ => cases ht

theorem of_reported (h : Reported c d input output) :
    ∃ parsed trouble, Course c d input output parsed (.error trouble) ∧
      trouble.reported = true := by
  cases h with
  | noInput hname hread => exact ⟨_, _, .unread hname hread, rfl⟩
  | violation hname hsource hfault => exact ⟨_, _, .faulty hname hsource hfault, rfl⟩
  | noFolder hname hsource hfault hform hopen =>
    exact ⟨_, _, .unopened hname hsource hfault hform hopen, rfl⟩

end Course

/-- What work comes to shows in the result of compiling, and in the disk. -/
theorem Disk.compile_of_comes {s : Session} {d d' : Disk} {input : String} {output : Output}
    {r : Except Trouble Bool} {c' : Compiler}
    (h : Comes Workspace.view (Work.files.compile input output) (s.compiler, d) r (c', d')) :
    ∃ s' : Session, d.compile input output s = (ended s' r, d') := by
  obtain ⟨⟨s', _⟩, hview, hw⟩ := h ⟨s, d⟩ rfl
  cases hview
  refine ⟨s', ?_⟩
  rw [Disk.compile, hw]
  cases r <;> rfl

section

variable {s : Session} {d : Disk} {input name : String} {output : Output} {source : List Char}
  {form : Data}

/-- The form that is written is the one that compiling the text gives. -/
theorem Compilable.script (h : Compilable s.compiler d input output name source form) :
    ∃ s', Compile.script source input s =
      .ok ((Script.read { registry := s.compiler.functions } source).document, form) s' := by
  obtain ⟨s', -, hs'⟩ := Compile.comes_script h.parses h.formed input s rfl
  exact ⟨s', hs'⟩

theorem Compilable.compile (h : Compilable s.compiler d input output name source form) :
    ∃ s' d', d.compile input output s = (.ok true s', d') ∧
      d.Rewrites name (Utf8.encode (form.json s.compiler.indent ++ "\n")) d' := by
  obtain ⟨route, hopen⟩ := h.opens
  have hcourse := Course.written h.named h.readable h.parses h.formed hopen
  obtain ⟨s', hs'⟩ := Disk.compile_of_comes hcourse.comes_ok
  exact ⟨s', _, hs', Disk.rewrites_put (Disk.target_of_opening hopen) _⟩

theorem Reported.compile (h : Reported s.compiler d input output) :
    ∃ s', d.compile input output s = (.ok false s', d) := by
  obtain ⟨parsed, trouble, hcourse, ht⟩ := Course.of_reported h
  obtain ⟨s', hs'⟩ := Disk.compile_of_comes hcourse.comes_error
  rw [if_pos ht] at hs'
  exact ⟨s', hs'⟩

theorem Disk.compile_error
    (hcompilable : ¬ ∃ name source form, Compilable s.compiler d input output name source form)
    (hreported : ¬ Reported s.compiler d input output) :
    ∃ trouble s', d.compile input output s = (.error trouble s', d) := by
  obtain ⟨parsed, ending, hcourse⟩ := Course.total s.compiler d input output
  cases ending with
  | ok place => exact absurd hcourse.compilable hcompilable
  | error trouble =>
    obtain ⟨s', hs'⟩ := Disk.compile_of_comes hcourse.comes_error
    rw [if_neg fun ht => hreported (hcourse.reported ht)] at hs'
    exact ⟨trouble, s', hs'⟩

end

end Gamebook
