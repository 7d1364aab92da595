import CompiScript.Proofs.Histories

namespace CompiScript

open Log

namespace Log.Journal

theorem lowest_noteAll (j : Journal) (rs : List Record) : (j.noteAll rs).lowest = j.lowest := by
  induction rs generalizing j with
  | nil => rfl
  | cons r rs ih => exact (ih (j.note r)).trans (j.lowest_note r)

end Log.Journal

namespace Compile

inductive Closes : Record → Option String × Option String → Prop
  | completed : Closes ⟨.success, "Compilation completed: No errors found."⟩ (some "Compilation successful", none)
  | misspelt (reason : String) :
      Closes ⟨.error, "Syntax error: " ++ reason⟩ (none, some ("Syntax error: " ++ reason))
  | faulty (reason : String) : Closes ⟨.error, reason⟩ (none, some ("Error: " ++ reason))

def Ending.Closed (e : Ending) : Prop :=
  ∃ (j : Journal) (last : Record), e.log = j.note last ∧ Closes last e.answer

theorem closed_faulty (log : Journal) (message : String) : (faulty log message).Closed :=
  ⟨log, _, rfl, .faulty message⟩

theorem closed_misspelt (log : Journal) (e : SyntaxError) : (misspelt log e).Closed :=
  ⟨log, _, rfl, .misspelt e.message⟩

theorem closed_conclude (log : Journal) (outcome : Except AnalysisError Value) : (conclude log outcome).Closed := by
  cases outcome with
  | error e => exact closed_faulty log e.message
  | ok v => exact ⟨log, _, rfl, .completed⟩

theorem closed_text (path : String) (log : Journal) (source : String) : (text path log source).Closed := by
  unfold text
  split
  · exact closed_misspelt log _
  · exact closed_conclude _ _

theorem closed_file (path : String) (content : Except FileError Text.Bytes) (log : Journal) :
    (file path content log).Closed := by
  unfold file
  split
  · exact closed_faulty log _
  · split
    · exact closed_faulty log _
    · exact closed_text path log _

theorem Closes.level {last : Record} {answer : Option String × Option String} (h : Closes last answer) :
    last.level = .success ∧ answer.1.isSome = true ∨ last.level = .error ∧ answer.2.isSome = true := by
  cases h with
  | completed => exact .inl ⟨rfl, rfl⟩
  | misspelt reason => exact .inr ⟨rfl, rfl⟩
  | faulty reason => exact .inr ⟨rfl, rfl⟩

theorem Closes.kept {last : Record} {answer : Option String × Option String} (h : Closes last answer) (debug : Bool) :
    ((lowest debug).number : Int) ≤ (last.level.number : Int) := by
  rcases h.level with ⟨hlevel, -⟩ | ⟨hlevel, -⟩
  · rw [hlevel]
    cases debug <;> decide
  · rw [hlevel]
    cases debug <;> decide

theorem run_closes (logger : Logger) (path : String) (content : Except FileError Text.Bytes) (debug : Bool) :
    ∃ earlier last, (run logger path content debug).records = earlier ++ [last] ∧
      Closes last (run logger path content debug).answer := by
  let log := Journal.note ⟨(lowest debug).number, []⟩ (opening path debug)
  obtain ⟨j, last, hlog, hcloses⟩ := closed_file path content log
  obtain ⟨rs, answer, hoffers, -⟩ := file_offers path content
  have hlowest : j.lowest = (lowest debug).number := by
    rw [← j.lowest_note last, ← hlog, (hoffers log).1, Journal.lowest_noteAll, Journal.lowest_note]
  -- success and error lie above the threshold of either mode, so no log drops the last record
  have hkept : [last].filter (fun r => decide (j.lowest ≤ (r.level.number : Int))) = [last] := by
    refine List.filter_eq_self.mpr fun r hr => ?_
    rw [List.mem_singleton.mp hr, hlowest]
    exact decide_eq_true (hcloses.kept debug)
  refine ⟨j.records, last, ?_, hcloses⟩
  change (file path content log).log.records = _
  rw [hlog, Journal.records_note, hkept]

end Compile

def EndsWithLine (text line : String) : Prop :=
  ∃ earlier : String, text = earlier ++ (line ++ "\n") ∧ (earlier = "" ∨ earlier.toList.getLast? = some '\n')

theorem append_ne_append {s t : String} (hlength : t.toList.length ≤ s.toList.length) (ht : ¬t.toList <:+ s.toList)
    (earlier front : String) : earlier ++ s ≠ front ++ t := by
  intro h
  have hlist := congrArg String.toList h
  rw [String.toList_append, String.toList_append] at hlist
  exact ht (List.suffix_of_suffix_length_le ⟨front.toList, hlist.symm⟩ (List.suffix_append _ _) hlength)

theorem append_line_error (earlier message : String) :
    earlier ++ Record.line ⟨.error, message⟩ = earlier ++ "ERROR - " ++ (message ++ "\n") := by
  simp only [Record.line, Level.name, String.append_assoc]
  rfl

theorem not_endsWithLine_of_ne {text line : String} (hne : ∀ front, text ≠ front ++ (line ++ "\n"))
    (hhead : line.toList.head? ≠ some 'S') : ¬EndsWithLine text line ∧
      ((∃ front, text = front ++ (line ++ "\n")) ↔ ∃ reason, line = "Syntax error: " ++ reason) := by
  refine ⟨fun ⟨front, hfront, _⟩ => hne front hfront, fun ⟨front, hfront⟩ => absurd hfront (hne front), ?_⟩
  rintro ⟨reason, rfl⟩
  simp at hhead

theorem Compile.Closes.not_endsWithLine {last : Record} {answer : Option String × Option String}
    (h : Closes last answer) : ∃ line, (answer = (some line, none) ∨ answer = (none, some line)) ∧
      ∀ earlier : String, ¬EndsWithLine (earlier ++ last.line) line ∧
        ((∃ front, earlier ++ last.line = front ++ (line ++ "\n")) ↔ ∃ reason, line = "Syntax error: " ++ reason) := by
  cases h with
  | completed =>
    refine ⟨"Compilation successful", .inl rfl, fun earlier => ?_⟩
    apply not_endsWithLine_of_ne
    · exact append_ne_append (by decide +kernel) (by decide +kernel) earlier
    · simp
  | misspelt reason =>
    refine ⟨"Syntax error: " ++ reason, .inr rfl, fun earlier => ?_⟩
    have hline := append_line_error earlier ("Syntax error: " ++ reason)
    refine ⟨?_, fun _ => ⟨reason, rfl⟩, fun _ => ⟨earlier ++ "ERROR - ", hline⟩⟩
    rintro ⟨front, hfront, hbegin⟩
    rw [hline, String.append_left_inj] at hfront
    subst hfront
    rcases hbegin with hempty | hlast
    · simp at hempty
    · simp at hlast
  | faulty reason =>
    refine ⟨"Error: " ++ reason, .inr rfl, fun earlier => ?_⟩
    apply not_endsWithLine_of_ne
    · -- both end with the reason, and what stands before it differs
      intro front hfront
      have hanswer : front ++ ("Error: " ++ reason ++ "\n") = front ++ "Error: " ++ (reason ++ "\n") := by
        simp only [String.append_assoc]
      rw [append_line_error, hanswer, String.append_left_inj] at hfront
      exact append_ne_append (by decide +kernel) (by decide +kernel) earlier front hfront
    · simp

namespace Workbench

/-- After a compilation of the open file the console is locked and shows the lines of the records and nothing else. The
answer is no line of it; its characters stand at the end exactly if it is a syntax error, which the last record repeats.
The level of the last record tells whether there is a result or a problem. -/
theorem answer_not_shown (w : Workbench) (path : String) (debug : Bool) (hfile : w.file = some path) :
    let report := Compile.run w.logger path (w.files.read path) debug
    let console := (w.step (.compile debug)).2.console
    console.locked = true ∧ console.text = String.join (report.records.map Record.line) ∧
      (∃ line, (report.answer = (some line, none) ∨ report.answer = (none, some line)) ∧
        ¬EndsWithLine console.text line ∧
        ((∃ front, console.text = front ++ (line ++ "\n")) ↔ ∃ reason, line = "Syntax error: " ++ reason)) ∧
      ∃ last, report.records.getLast? = some last ∧
        (last.level = .success ∧ report.result.isSome = true ∨ last.level = .error ∧ report.problem.isSome = true) := by
  intro report console
  obtain ⟨hconsole, -⟩ := compile_of_file (w := { w with dialogs := [] }) hfile debug
  have hshown : console = ⟨String.join (report.records.map Record.line), true⟩ := by
    refine hconsole.trans ?_
    rw [Compile.lines, ← Compile.run_eq_start w.logger]
  obtain ⟨earlier, last, hrecords, hcloses⟩ := Compile.run_closes w.logger path (w.files.read path) debug
  have htext : console.text = String.join (earlier.map Record.line) ++ last.line := by
    rw [hshown]
    change String.join (report.records.map Record.line) = _
    rw [show report.records = _ from hrecords, List.map_append, String.join_append]
    simp
  obtain ⟨line, hanswer, hline⟩ := hcloses.not_endsWithLine
  refine ⟨congrArg TextArea.locked hshown, congrArg TextArea.text hshown, ⟨line, hanswer, ?_⟩, last, ?_, hcloses.level⟩
  · rw [htext]
    exact hline _
  · rw [show report.records = _ from hrecords, List.getLast?_concat]

theorem answer_not_shown_of_result :
    let w := (start ⟨[("p", .file [0x31, 0x3b])], []⟩).after [.openFile "p"]
    w.file = some "p" ∧
      (Compile.run w.logger "p" (w.files.read "p") false).answer = (some "Compilation successful", none) ∧
      ¬EndsWithLine (w.step (.compile false)).2.console.text "Compilation successful" := by
  intro w
  have hfile : w.file = some "p" := by decide +kernel
  have hanswer : (Compile.run w.logger "p" (w.files.read "p") false).answer = (some "Compilation successful", none) := by
    decide +kernel
  obtain ⟨-, -, ⟨line, hline, hnot, -⟩, -⟩ := answer_not_shown w "p" false hfile
  rw [hanswer] at hline
  obtain hline | hline := hline
  · cases hline
    exact ⟨hfile, hanswer, hnot⟩
  · cases hline

end Workbench

end CompiScript
