import CompiScript.Proofs.Compilation
import CompiScript.Workbench.Basic

namespace CompiScript

open Log

namespace TextArea

variable (a : TextArea)

theorem applyAll_append (calls more : List ConsoleCall) :
    a.applyAll (calls ++ more) = (a.applyAll calls).applyAll more :=
  List.foldl_append

theorem applyAll_output (s : String) : a.applyAll (output s) = ⟨a.text ++ s, true⟩ :=
  rfl

theorem applyAll_lines (r : Record) (rs : List Record) :
    a.applyAll ((r :: rs).flatMap fun r => output r.line) =
      ⟨a.text ++ String.join ((r :: rs).map Record.line), true⟩ := by
  induction rs generalizing a r with
  | nil =>
    simp only [List.flatMap_cons, List.flatMap_nil, List.append_nil, applyAll_output]
    simp
  | cons r' rs ih =>
    rw [List.flatMap_cons, applyAll_append, applyAll_output, ih]
    simp [String.append_assoc]

theorem applyAll_inserts (h : a.locked = true) (texts : List String) :
    a.applyAll (texts.map .insert ++ [.scroll, .lock]) = a := by
  obtain ⟨text, locked⟩ := a
  subst h
  rw [applyAll_append]
  have hinserts : applyAll ⟨text, true⟩ (texts.map .insert) = ⟨text, true⟩ := by
    induction texts with
    | nil => rfl
    | cons s texts ih => exact ih
  rw [hinserts]
  rfl

end TextArea

namespace Compile

theorem run_eq_start (logger : Logger) (path : String) (content : Except FileError Text.Bytes) (debug : Bool) :
    run logger path content debug = run .start path content debug := by
  simp only [run, setUp_eq]

theorem logger_run (logger : Logger) (path : String) (content : Except FileError Text.Bytes) (debug : Bool) :
    (run logger path content debug).logger = ⟨(lowest debug).number, [.console], true⟩ :=
  setUp_eq logger _

def lines (path : String) (content : Except FileError Text.Bytes) (debug : Bool) : List String :=
  (run .start path content debug).records.map Record.line

end Compile

namespace Workbench

def after (w : Workbench) (history : List Event) : Workbench :=
  history.foldl (fun w e => (w.step e).2) w

theorem after_append (w : Workbench) (history more : List Event) :
    w.after (history ++ more) = (w.after history).after more :=
  List.foldl_append

theorem compile_of_file {w : Workbench} {path : String} (h : w.file = some path) (debug : Bool) :
    (w.compile debug).console = ⟨String.join (Compile.lines path (w.files.read path) debug), true⟩ ∧
      (w.compile debug).logger = ⟨(Compile.lowest debug).number, [.console], true⟩ := by
  obtain ⟨rs, answer, hoffers, -⟩ := Compile.file_offers path (w.files.read path)
  obtain ⟨-, hrecords⟩ := Compile.run_of_offers hoffers .start debug
  have hopened : (w.console.apply .unlock).clear = ⟨"", false⟩ := rfl
  have hhand : (Compile.run .start path (w.files.read path) debug).logger.hand = fun r => output r.line :=
    funext fun r => Compile.hand_run ..
  simp only [compile, h, Compile.run_eq_start w.logger, hopened, hhand, Compile.lines]
  refine ⟨?_, Compile.logger_run ..⟩
  -- There is a first record, so the console is locked when the answer is to be shown.
  rw [hrecords, TextArea.applyAll_lines, TextArea.applyAll_inserts _ rfl, String.empty_append]

/-- The console after a compilation depends on nothing but the path, what the file holds, and `debug`: two workbenches
that agree on these show the same, whatever their histories. It shows the lines of the compilation, each once, and the
log is left with one handler. -/
theorem compile_forgets_history (files files' : Files) (history history' : List Event) (path : String) (debug : Bool)
    (hfile : ((start files).after history).file = some path)
    (hfile' : ((start files').after history').file = some path)
    (hread : ((start files).after history).files.read path = ((start files').after history').files.read path) :
    let last := (start files).after (history ++ [.compile debug])
    let last' := (start files').after (history' ++ [.compile debug])
    last.console = last'.console ∧ last.logger = last'.logger ∧
      last.console.text = String.join (Compile.lines path (((start files).after history).files.read path) debug) ∧
      last.logger.handlers = [.console] := by
  have hlast : ∀ (files : Files) (history : List Event), ((start files).after history).file = some path →
      ((start files).after (history ++ [.compile debug])).console =
          ⟨String.join (Compile.lines path (((start files).after history).files.read path) debug), true⟩ ∧
        ((start files).after (history ++ [.compile debug])).logger =
          ⟨(Compile.lowest debug).number, [.console], true⟩ := by
    intro files history h
    rw [after_append]
    exact compile_of_file (w := { (start files).after history with dialogs := [] }) h debug
  obtain ⟨hconsole, hlogger⟩ := hlast files history hfile
  obtain ⟨hconsole', hlogger'⟩ := hlast files' history' hfile'
  refine ⟨?_, hlogger.trans hlogger'.symm, congrArg TextArea.text hconsole, congrArg Logger.handlers hlogger⟩
  rw [hconsole, hconsole', hread]

theorem compile_forgets_history_two :
    let files : Files := ⟨[("a", .file [0x78, 0x3b]), ("p", .file [0x31, 0x3b])], []⟩
    let history : List Event := [.openFile "a", .compile true, .openFile "none", .openFile "p", .compile true,
      .type "1;", .save, .put "p" [0x32, 0x3b]]
    let files' : Files := ⟨[("p", .file [0x32, 0x3b])], []⟩
    let last := (start files).after (history ++ [.compile false])
    let last' := (start files').after ([.openFile "p"] ++ [.compile false])
    ((start files).after history).file = some "p" ∧
      ((start files).after history).files.read "p" = .ok [0x32, 0x3b] ∧
      last.console = last'.console ∧ last.logger = last'.logger ∧
      last.console.text = String.join ["INFO - Starting compilation for p...\n",
        "SUCCESS - Parsing completed: No syntax errors found.\n",
        "SUCCESS - Parse tree saved as src/Output/parse_tree_p.png\n",
        "SUCCESS - Compilation completed: No errors found.\n"] := by
  intro files history files' last last'
  have hfile : ((start files).after history).file = some "p" := by decide +kernel
  have hread : ((start files).after history).files.read "p" = .ok [0x32, 0x3b] := by decide +kernel
  have hread' : ((start files').after [.openFile "p"]).files.read "p" = .ok [0x32, 0x3b] := by decide +kernel
  obtain ⟨hconsole, hlogger, htext, -⟩ := compile_forgets_history files files' history [.openFile "p"] "p" false hfile
    (by decide +kernel) (hread.trans hread'.symm)
  refine ⟨hfile, hread, hconsole, hlogger, ?_⟩
  rw [htext, hread]
  decide +kernel

end Workbench

end CompiScript
