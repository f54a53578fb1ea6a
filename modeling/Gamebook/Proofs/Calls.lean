import Gamebook.Proofs.Compiling

/-!
Compiling is all or nothing, call after call: a file that can be compiled changes the disk at the
output alone, and any other leaves the disk as it is. The warnings of a compiler are those of the
scripts that its calls have read to the end.
-/
namespace Gamebook

/-- A call compiles a text, or a file. -/
inductive Call where
  | script (source : List Char) (filename : String)
  | file (input : String) (output : Output)

/-- The script that is read with the functions of the compiler, if it is read to the end. -/
def Compiler.parsed? (c : Compiler) (source : List Char) : Option Script :=
  let script := Script.read { registry := c.functions } source
  if script.fault?.isNone then some script else none

/-- The script that a call reads to the end, if there is one. -/
def Call.parsed? (w : Workspace) : Call → Option Script
  | script source _ => w.session.compiler.parsed? source
  | file input output => do
    let _ ← output.name? input
    w.session.compiler.parsed? (← w.disk.source? input)

/-- The state that a result leaves behind. -/
def stateOf : EStateM.Result ε σ α → σ
  | .ok _ s => s
  | .error _ s => s

namespace Workspace

/-- The workspace after a call, however the call ended. -/
def after (w : Workspace) : Call → Workspace
  | .script source filename => stateOf (Work.ofCompile (Compile.script source filename) w)
  | .file input output => stateOf (Work.files.compile input output w)

/-- The workspace after some calls. -/
def run (w : Workspace) (calls : List Call) : Workspace := calls.foldl after w

/-- The calls, each with the workspace that it finds. -/
def history (w : Workspace) : List Call → List (Workspace × Call)
  | [] => []
  | call :: calls => (w, call) :: history (w.after call) calls

theorem view_of_comes {x : Work α} {w : Workspace} {r : Except Trouble α} {n : Compiler × Disk}
    (h : Comes view x w.view r n) : (stateOf (x w)).view = n := by
  obtain ⟨w', hview, hw⟩ := h w rfl
  rw [hw]
  cases r <;> exact hview

end Workspace

/-- The script of a file is read to the end if compiling gets so far. -/
theorem Course.parsed_eq {w : Workspace} {input : String} {output : Output}
    {parsed : Option Script} {ending : Except Trouble (List String × List UInt8)}
    (h : Course w.session.compiler w.disk input output parsed ending) :
    (Call.file input output).parsed? w = parsed := by
  cases h with
  | unnamed hname => simp [Call.parsed?, hname]
  | unread hname hread => simp [Call.parsed?, hname, Disk.source?, hread, Except.toOption]
  | undecodable hname hread hdecode =>
    simp [Call.parsed?, hname, Disk.source?, hread, hdecode, Except.toOption]
  | faulty hname hsource hfault
  | formless hname hsource hfault
  | unopened hname hsource hfault
  | written hname hsource hfault =>
    simp [Call.parsed?, hname, hsource, Compiler.parsed?, hfault]

namespace Workspace

/-- A call leaves the warnings of the script that it reads to the end, however it ends itself. -/
theorem compiler_after (w : Workspace) (call : Call) :
    (w.after call).session.compiler = w.session.compiler.keep? (call.parsed? w) := by
  cases call with
  | script source filename =>
    let parsed := Script.read { registry := w.session.compiler.functions } source
    cases hfault : parsed.fault? with
    | some fault =>
      have hparsed : (Call.script source filename).parsed? w = none := by
        simp [Call.parsed?, Compiler.parsed?, parsed, hfault]
      rw [hparsed]
      exact congrArg Prod.fst
        (view_of_comes (Work.comes_lift (Compile.comes_script_fault hfault filename)))
    | none =>
      have hparsed : (Call.script source filename).parsed? w = some parsed := by
        simp [Call.parsed?, Compiler.parsed?, parsed, hfault]
      rw [hparsed]
      exact congrArg Prod.fst
        (view_of_comes (Work.comes_lift (Compile.comes_script hfault rfl filename)))
  | file input output =>
    obtain ⟨parsed, ending, h⟩ := Course.total w.session.compiler w.disk input output
    rw [h.parsed_eq]
    cases ending with
    | error trouble => exact congrArg Prod.fst (view_of_comes h.comes_error)
    | ok place => exact congrArg Prod.fst (view_of_comes h.comes_ok)

/-- The scripts that a list of calls reads to the end. -/
def scripts (w : Workspace) (calls : List Call) : List Script :=
  (w.history calls).filterMap fun p => p.2.parsed? p.1

theorem compiler_run (w : Workspace) (calls : List Call) :
    (w.run calls).session.compiler =
      w.session.compiler.keep ((w.scripts calls).flatMap Script.warnings) := by
  induction calls generalizing w with
  | nil => simp [run, scripts, history, Compiler.keep]
  | cons call calls ih =>
    change ((w.after call).run calls).session.compiler = _
    rw [ih, compiler_after]
    cases hparsed : call.parsed? w with
    | none => simp [scripts, history, hparsed, Compiler.keep?]
    | some script => simp [scripts, history, hparsed, Compiler.keep?, Compiler.keep]

end Workspace

/-- Compiling is all or nothing. If the file can be compiled the result is true, and the only
change on the disk is that the output holds the JSON text of the document, with a line break at
its end; the document is the one that compiling the text gives. If the input is missing, if the
script violates the grammar, or if there is no folder for the output, the result is false, and in
all other cases there is a trouble; both leave the disk as it is. The warnings of a compiler are
those of the scripts that its calls have read to the end, in the order of the calls. -/
theorem compile_all_or_nothing (s : Session) (d : Disk) :
    (∀ input output name source form, Compilable s.compiler d input output name source form →
      (∃ s', Compile.script source input s =
        .ok ((Script.read { registry := s.compiler.functions } source).document, form) s') ∧
      ∃ s' d', d.compile input output s = (.ok true s', d') ∧
        d.Rewrites name (Utf8.encode (form.json s.compiler.indent ++ "\n")) d') ∧
    (∀ input output, Reported s.compiler d input output →
      ∃ s', d.compile input output s = (.ok false s', d)) ∧
    (∀ input output,
      (¬ ∃ name source form, Compilable s.compiler d input output name source form) →
      ¬ Reported s.compiler d input output →
      ∃ trouble s', d.compile input output s = (.error trouble s', d)) ∧
    ∀ calls, ((Workspace.mk s d).run calls).session.compiler.warnings =
      s.compiler.warnings ++ ((Workspace.mk s d).scripts calls).flatMap Script.warnings := by
  refine ⟨?_, ?_, ?_, ?_⟩
  · intro input output name source form h
    exact ⟨h.script, h.compile⟩
  · intro input output h
    exact h.compile
  · intro input output hcompilable hreported
    exact Disk.compile_error hcompilable hreported
  · intro calls
    exact congrArg Compiler.warnings (Workspace.compiler_run ⟨s, d⟩ calls)

/-- A disk with a script that gives a node twice, with one that violates the grammar and an output
of its last version, and with a file that is no text. -/
def Disk.sample : Disk :=
  let hall := Utf8.encode "node hall \"Hall.\"\r\nnode hall \"Again.\"\n"
  let broken := Utf8.encode "node hall \"Hall.\"\nnode hall\n"
  let disk := (Disk.put {} ["hall.txg"] hall).put ["broken.txg"] broken
  (disk.put ["broken.json"] (Utf8.encode "null\n")).put ["noise.txg"] [0xff]

/-- The first script is compiled to a file of its own, the second one is reported, as a missing
file is, and the bytes that are no text are trouble. Over all calls the compiler has the warnings
of the texts that it has read to the end, one of which is no file. -/
theorem compile_all_or_nothing_three_files :
    let s : Session := ⟨{ indent := none }, ""⟩
    let json := "\x7b\"variables\": \x7b\x7d, \"properties\": \x7b\x7d, \"actions\": [], " ++
      "\"nodes\": \x7b\"hall\": \x7b\"_ref\": 22, \"message\": \"Again.\", \"isFinal\": false" ++
      "\x7d\x7d, \"edges\": \x7b\x7d, \"items\": \x7b\x7d, \"boring\": \x7b\x7d, " ++
      "\"modifiers\": \x7b\x7d, \"start\": null\x7d"
    (∃ s' d', Disk.sample.compile "hall.txg" .beside s = (.ok true s', d') ∧
      Disk.sample.Rewrites "hall.json" (Utf8.encode (json ++ "\n")) d') ∧
    (∃ s', Disk.sample.compile "broken.txg" .beside s = (.ok false s', .sample)) ∧
    (∃ s', Disk.sample.compile "lost.txg" .beside s = (.ok false s', .sample)) ∧
    (∃ trouble s', Disk.sample.compile "noise.txg" .beside s = (.error trouble s', .sample)) ∧
    ((Workspace.mk s .sample).run [.file "hall.txg" .beside, .file "broken.txg" .beside,
        .script "node attic \"Dark.\" 7\n".toList "<input>", .file "noise.txg" .beside,
        .file "hall.txg" (.named "copy.json")]).session.compiler.warnings.map Warning.text =
      ["TXG0102: node 'hall' redefined", "TXG0103: node: ignoring trailing tokens 7",
        "TXG0102: node 'hall' redefined"] := by
  intro s json
  obtain ⟨hwritten, hreported, htrouble, hwarnings⟩ := compile_all_or_nothing s .sample
  refine ⟨?_, ?_, ?_, ?_, ?_⟩
  · let source := "node hall \"Hall.\"\nnode hall \"Again.\"\n".toList
    have hname : Output.beside.name? "hall.txg" = some "hall.json" := by decide +kernel
    have hsource : Disk.sample.source? "hall.txg" = some source := by decide +kernel
    have hfault : (Script.read {} source).fault? = none := by decide +kernel
    have hjson : (Script.read {} source).document.form.toOption.map (·.json none) = some json := by
      decide +kernel
    have hopen : Disk.sample.opening "hall.json" .beside = .ok ["hall.json"] := by decide +kernel
    obtain ⟨form, hform, hjson⟩ := Option.map_eq_some_iff.1 hjson
    have hcompilable : Compilable s.compiler .sample "hall.txg" .beside "hall.json" source form :=
      ⟨hname, hsource, hfault, eq_ok_iff_toOption.2 hform, _, hopen⟩
    exact hjson ▸ (hwritten _ _ _ _ _ hcompilable).2
  · have hname : Output.beside.name? "broken.txg" = some "broken.json" := by decide +kernel
    let source := "node hall \"Hall.\"\nnode hall\n".toList
    have hsource : Disk.sample.source? "broken.txg" = some source := by decide +kernel
    have hfault : (Script.read {} source).fault? =
        some (.refused (.expecting .nodeNameAndDescription) 22) := by decide +kernel
    exact hreported _ _ (.violation hname hsource hfault)
  · have hname : Output.beside.name? "lost.txg" = some "lost.json" := by decide +kernel
    have hread : Disk.sample.read "lost.txg" = .error .missing := by decide +kernel
    exact hreported _ _ (.noInput hname hread)
  · have hsource : Disk.sample.source? "noise.txg" = none := by decide +kernel
    have hread : Disk.sample.read "noise.txg" = .ok [0xff] := by decide +kernel
    refine htrouble _ _ ?_ ?_
    · rintro ⟨_, _, _, h⟩
      simpa [hsource] using h.readable
    · intro h
      cases h with
      | noInput _ h => simp [hread] at h
      | violation _ h => simp [hsource] at h
      | noFolder _ h => simp [hsource] at h
  · rw [hwarnings]
    decide +kernel

end Gamebook
