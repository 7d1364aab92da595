import CompiScript.Compile
import CompiScript.Proofs.Encoding
import CompiScript.Proofs.Remarks

namespace CompiScript

open Log

theorem AnalysisState.analyse_startWith (tree : Tree) :
    ∃ texts : List String, (start.analyse tree).2.log.records = texts.map (Record.mk .debug) ∧
      ∀ j, ((startWith j).analyse tree).1 = (start.analyse tree).1 ∧
        ((startWith j).analyse tree).2.log = j.remarkAll texts := by
  obtain ⟨r, g, texts, hrun⟩ := tree.visit_logBlind .alone start.standing
  have hstart : start.analyse tree = (r, g.withLog (start.log.remarkAll texts)) := hrun start.log
  refine ⟨texts, ?_, ?_⟩
  · rw [hstart]
    change (start.log.noteAll (texts.map (Record.mk .debug))).records = _
    rw [Journal.records_noteAll, List.filter_eq_self.mpr]
    · rfl
    · intro r hr
      obtain ⟨text, -, rfl⟩ := List.mem_map.mp hr
      rfl
  · intro j
    have hj : (startWith j).analyse tree = (r, g.withLog (j.remarkAll texts)) := hrun j
    rw [hj, hstart]
    exact ⟨rfl, rfl⟩

def Report.answer (r : Report) : Option String × Option String :=
  (r.result, r.problem)

namespace Compile

def Ending.answer (e : Ending) : Option String × Option String :=
  (e.result, e.problem)

def Offers (compilation : Journal → Ending) (rs : List Record) (answer : Option String × Option String) : Prop :=
  ∀ j, (compilation j).log = j.noteAll rs ∧ (compilation j).answer = answer

def judgement : Except AnalysisError Value → Option String × Option String
  | .error e => (none, some ("Error: " ++ e.message))
  | .ok _ => (some "Compilation successful", none)

/-- The answer to a text: whether it is a program without an error, or what is wrong with it. -/
def verdict (source : String) : Option String × Option String :=
  match parseText .program source with
  | .error e => (none, some ("Syntax error: " ++ e.message))
  | .ok d => judgement (AnalysisState.start.analyse d.tree).1

def tree? (content : Except FileError Text.Bytes) : Option Tree := do
  let bytes ← content.toOption
  let source ← (Text.decodeAscii bytes).toOption
  let d ← (parseText .program source).toOption
  return d.tree

def remarks (content : Except FileError Text.Bytes) : List Record :=
  (tree? content).elim [] fun tree => (AnalysisState.start.analyse tree).2.log.records

def debugOnly (rs : List Record) : List Record :=
  rs.filter fun r => r.level = .debug

section Offers

variable {compilation : Journal → Ending} {rs : List Record} {answer : Option String × Option String}

theorem Offers.note (h : Offers compilation rs answer) (r : Record) :
    Offers (fun j => compilation (j.note r)) (r :: rs) answer :=
  fun j => h (j.note r)

theorem Offers.remarkAll (h : Offers compilation rs answer) (texts : List String) :
    Offers (fun j => compilation (j.remarkAll texts)) (texts.map (Record.mk .debug) ++ rs) answer := by
  intro j
  obtain ⟨hlog, hanswer⟩ := h (j.remarkAll texts)
  refine ⟨?_, hanswer⟩
  rw [hlog, Journal.remarkAll, Journal.noteAll, Journal.noteAll, Journal.noteAll, List.foldl_append]

theorem faulty_offers (message : String) :
    Offers (faulty · message) [⟨.error, message⟩] (none, some ("Error: " ++ message)) :=
  fun _ => ⟨rfl, rfl⟩

theorem misspelt_offers (e : SyntaxError) :
    Offers (misspelt · e) [⟨.error, "Syntax error: " ++ e.message⟩] (none, some ("Syntax error: " ++ e.message)) :=
  fun _ => ⟨rfl, rfl⟩

theorem conclude_offers (outcome : Except AnalysisError Value) :
    ∃ last : Record, last.level ≠ .debug ∧ Offers (conclude · outcome) [last] (judgement outcome) := by
  cases outcome with
  | error e => exact ⟨⟨.error, e.message⟩, nofun, faulty_offers e.message⟩
  | ok v => exact ⟨⟨.success, "Compilation completed: No errors found."⟩, nofun, fun _ => ⟨rfl, rfl⟩⟩

theorem debugOnly_remarks (texts : List String) {last : Record} (hlast : last.level ≠ .debug) :
    debugOnly (texts.map (Record.mk .debug) ++ [last]) = texts.map (Record.mk .debug) := by
  rw [debugOnly, List.filter_append, List.filter_eq_self.mpr, List.filter_cons_of_neg (by simpa using hlast),
    List.filter_nil, List.append_nil]
  intro r hr
  obtain ⟨text, -, rfl⟩ := List.mem_map.mp hr
  rfl

theorem text_offers (path source : String) :
    ∃ rs, Offers (text path · source) rs (verdict source) ∧
      debugOnly rs =
        (parseText .program source).toOption.elim [] fun d => (AnalysisState.start.analyse d.tree).2.log.records := by
  cases hparse : parseText .program source with
  | error e =>
    refine ⟨[⟨.error, "Syntax error: " ++ e.message⟩], ?_, rfl⟩
    intro j
    simp only [text, verdict, hparse]
    exact misspelt_offers e j
  | ok d =>
    obtain ⟨texts, hrecords, hrun⟩ := AnalysisState.analyse_startWith d.tree
    obtain ⟨last, hlast, hoffers⟩ := conclude_offers (AnalysisState.start.analyse d.tree).1
    refine ⟨⟨.success, "Parsing completed: No syntax errors found."⟩ :: drawing path ::
      (texts.map (Record.mk .debug) ++ [last]), ?_, ?_⟩
    · intro j
      have htext : text path j source =
          conclude (((j.note ⟨.success, "Parsing completed: No syntax errors found."⟩).note
            (drawing path)).remarkAll texts) (AnalysisState.start.analyse d.tree).1 := by
        rw [← (hrun _).1, ← (hrun _).2]
        simp only [text, hparse]
        rfl
      simp only [htext, verdict, hparse]
      exact ((hoffers.remarkAll texts).note (drawing path)).note _ j
    · change debugOnly (texts.map (Record.mk .debug) ++ [last]) = (AnalysisState.start.analyse d.tree).2.log.records
      rw [debugOnly_remarks texts hlast, hrecords]

theorem file_offers (path : String) (content : Except FileError Text.Bytes) :
    ∃ rs answer, Offers (file path content) rs answer ∧ debugOnly rs = remarks content := by
  cases content with
  | error e => exact ⟨_, _, faulty_offers e.message, rfl⟩
  | ok bytes =>
    cases hread : Text.decodeAscii bytes with
    | error e =>
      refine ⟨[⟨.error, e.message⟩], (none, some ("Error: " ++ e.message)), ?_, ?_⟩
      · intro j
        simp only [file, hread]
        exact faulty_offers e.message j
      · simp [remarks, tree?, Except.toOption, hread, debugOnly]
    | ok source =>
      obtain ⟨rs, hoffers, hremarks⟩ := text_offers path source
      refine ⟨rs, verdict source, ?_, ?_⟩
      · intro j
        simp only [file, hread]
        exact hoffers j
      · rw [hremarks]
        cases hparse : parseText .program source with
        | error e => simp [remarks, tree?, Except.toOption, hread, hparse]
        | ok d => simp [remarks, tree?, Except.toOption, hread, hparse]

theorem run_of_offers {path : String} {content : Except FileError Text.Bytes} (h : Offers (file path content) rs answer)
    (logger : Logger) (debug : Bool) :
    (run logger path content debug).answer = answer ∧
      (run logger path content debug).records =
        opening path debug :: rs.filter fun r => debug || decide (r.level ≠ .debug) := by
  have hkept : ∀ r : Record, decide (((lowest debug).number : Int) ≤ (r.level.number : Int)) =
      (debug || decide (r.level ≠ .debug)) := by
    rintro ⟨level, message⟩
    cases debug <;> cases level <;> rfl
  obtain ⟨hlog, hanswer⟩ := h (Journal.note ⟨(lowest debug).number, []⟩ (opening path debug))
  refine ⟨hanswer, ?_⟩
  change (file path content (Journal.note ⟨(lowest debug).number, []⟩ (opening path debug))).log.records = _
  rw [hlog, Journal.records_noteAll, Journal.lowest_note, Journal.records_note]
  simp only [hkept]
  cases debug <;> rfl

end Offers

theorem setUp_eq (logger : Logger) (n : Int) : logger.setUp n = ⟨n, [.console], true⟩ := by
  have hclear : logger.clear.handlers = [] := by
    unfold Logger.clear
    split
    · next h => exact List.isEmpty_iff.mp h
    · rfl
  rw [Logger.setUp, hclear]
  rfl

theorem hand_run (logger : Logger) (path : String) (content : Except FileError Text.Bytes) (debug : Bool)
    (r : Record) : (run logger path content debug).logger.hand r = output r.line := by
  change (logger.setUp (lowest debug).number).hand r = _
  rw [setUp_eq]
  exact List.append_nil _

/-- With `debug` a file is answered as without it, and the console gets the same lines but for the remarks, and for one
word of the first line. The remarks are those of the analysis of the file. -/
theorem debug_only_observes (logger logger' : Logger) (path : String) (content : Except FileError Text.Bytes) :
    let quiet := run logger path content false
    let loud := run logger' path content true
    quiet.answer = loud.answer ∧
      (∃ rest, loud.records = ⟨.info, "Starting debug for " ++ path ++ "..."⟩ :: rest ∧
        quiet.records = ⟨.info, "Starting compilation for " ++ path ++ "..."⟩ ::
          rest.filter (fun r => r.level ≠ .debug) ∧
        rest.filter (fun r => r.level = .debug) = remarks content) ∧
      ∀ r, quiet.logger.hand r = output r.line ∧ loud.logger.hand r = output r.line := by
  obtain ⟨rs, answer, hoffers, hremarks⟩ := file_offers path content
  obtain ⟨hquiet, hkept⟩ := run_of_offers hoffers logger false
  obtain ⟨hloud, hall⟩ := run_of_offers hoffers logger' true
  refine ⟨hquiet.trans hloud.symm, ⟨rs, ?_, hkept, hremarks⟩, fun r => ⟨hand_run .., hand_run ..⟩⟩
  have hrest : rs.filter (fun r => true || decide (r.level ≠ .debug)) = rs :=
    List.filter_eq_self.mpr fun _ _ => rfl
  rw [hall, hrest]
  rfl

section Openings

def OtherOpening (s : String) : Prop :=
  2 ≤ s.toList.length ∧ s.toList.take 2 ≠ [Text.apostrophe, 'a']

theorem otherOpening_ofList {c d : Char} (cs : List Char) (h : [c, d] ≠ [Text.apostrophe, 'a']) :
    OtherOpening (String.ofList (c :: d :: cs)) := by
  rw [OtherOpening, String.toList_ofList]
  exact ⟨Nat.le_add_left 2 cs.length, h⟩

theorem OtherOpening.append {p : String} (hp : OtherOpening p) (s : String) : OtherOpening (p ++ s) := by
  obtain ⟨hlength, hne⟩ := hp
  rw [OtherOpening, String.toList_append, List.take_append_of_le_length hlength, List.length_append]
  exact ⟨by omega, hne⟩

theorem otherOpening_declared (what : Declared) : OtherOpening what.text := by
  cases what <;> exact otherOpening_ofList _ (by decide)

theorem otherOpening_symbolError (e : SymbolError) : OtherOpening e.message := by
  cases e with
  | duplicate name description =>
    have h : OtherOpening "Symbol " := otherOpening_ofList _ (by decide)
    exact (((h.append name).append _).append description).append _
  | notFound name =>
    have h : OtherOpening "Symbol '" := otherOpening_ofList _ (by decide)
    exact (h.append name).append _
  | taken | noParameters | unnamedClass => exact otherOpening_ofList _ (by decide)

theorem otherOpening_analysisError (e : AnalysisError) : OtherOpening e.message := by
  have hvariable : OtherOpening "Variable '" := otherOpening_ofList _ (by decide)
  have hoperator : OtherOpening "Type mismatch: Operator '" := otherOpening_ofList _ (by decide)
  cases e with
  | alreadyDeclared what name => exact (((otherOpening_declared what).append _).append name).append _
  | undeclared name => exact (hvariable.append name).append _
  | undeclaredTarget name scope => exact ((hvariable.append name).append _).append scope
  | needsBooleans op l r | needsNumbers op l r | needsNumbersOrStrings op l r =>
    exact ((hoperator.append op).append _).append _
  | notComparable op l r =>
    have h : OtherOpening "Type mismatch: Cannot compare '" := otherOpening_ofList _ (by decide)
    exact (((((h.append _).append _).append _).append _).append op).append _
  | expectedBoolean place =>
    have h : OtherOpening "Type mismatch: Expected boolean expression" := otherOpening_ofList _ (by decide)
    exact h.append place
  | expectedNumber place =>
    have h : OtherOpening "Type mismatch: Expected numeric expression" := otherOpening_ofList _ (by decide)
    exact h.append place
  | cannotAssign given name type =>
    have h : OtherOpening "Type mismatch: Cannot assign '" := otherOpening_ofList _ (by decide)
    exact (((((h.append _).append _).append name).append _).append _).append _
  | cannotReturn given name type =>
    have h : OtherOpening "Type mismatch: Cannot return '" := otherOpening_ofList _ (by decide)
    exact (((((h.append _).append _).append name).append _).append _).append _
  | functionMissing | ifConditionMissing | ifBodyMissing | whileConditionMissing =>
    exact otherOpening_ofList _ (by decide)
  | symbol e => exact otherOpening_symbolError e
  | absent asked =>
    have h : OtherOpening "'NoneType' object has no attribute '" := otherOpening_ofList _ (by decide)
    exact (h.append asked).append _

theorem message_notAscii (b : UInt8) (place : Nat) :
    Text.DecodeError.message ⟨.notAscii, b, place, 1⟩ =
      "'ascii' codec can't decode byte 0x" ++ (String.ofList (Text.hexadecimal 2 b.toNat) ++ " in position " ++
        toString place ++ ": ordinal not in range(128)") := by
  have hopening : "'" ++ "ascii" ++ "' codec can't decode " ++ "byte 0x" = "'ascii' codec can't decode byte 0x" := rfl
  have hreason : ": " ++ "ordinal not in range(128)" = ": ordinal not in range(128)" := rfl
  change "'" ++ "ascii" ++ "' codec can't decode " ++ ("byte 0x" ++ String.ofList (Text.hexadecimal 2 b.toNat) ++
    " in position " ++ toString place) ++ ": " ++ "ordinal not in range(128)" = _
  rw [← hopening, ← hreason]
  simp only [String.append_assoc]

theorem not_otherOpening (cs : List Char) (s : String) :
    ¬OtherOpening (String.ofList (Text.apostrophe :: 'a' :: cs) ++ s) := by
  intro h
  apply h.2
  rw [String.toList_append, String.toList_ofList]
  rfl

end Openings

theorem verdict_ne (source : String) (b : UInt8) (place : Nat) :
    verdict source ≠ (none, some ("Error: " ++ Text.DecodeError.message ⟨.notAscii, b, place, 1⟩)) := by
  intro h
  unfold verdict at h
  split at h
  · have hproblem := Option.some.inj (congrArg Prod.snd h)
    have hhead := congrArg (fun s : String => s.toList.head?) hproblem
    simp at hhead
  · unfold judgement at h
    split at h
    · next e _ =>
      have hmessage := (String.append_right_inj "Error: ").mp (Option.some.inj (congrArg Prod.snd h))
      have hopening := otherOpening_analysisError e
      rw [hmessage, message_notAscii] at hopening
      exact not_otherOpening _ _ hopening
    · cases h

theorem answer_ascii (logger : Logger) (path : String) {s : String} (debug : Bool)
    (h : ∀ c ∈ s.toList, Text.isAscii c = true) :
    (run logger path (.ok (Text.encode s)) debug).answer = verdict s := by
  obtain ⟨rs, hoffers, -⟩ := text_offers path s
  have hfile : file path (.ok (Text.encode s)) = (text path · s) := by
    funext j
    simp only [file, Text.decodeAscii_encode h]
  rw [← hfile] at hoffers
  exact (run_of_offers hoffers logger debug).1

theorem answer_notAscii (logger : Logger) (path : String) {s : String} (debug : Bool) {before after : List Char}
    {c : Char} (hs : s.toList = before ++ c :: after) (hbefore : ∀ d ∈ before, Text.isAscii d = true) {b : UInt8}
    {bs : Text.Bytes} (hbytes : String.utf8EncodeChar c = b :: bs) (hb : ¬b < 0x80) :
    (run logger path (.ok (Text.encode s)) debug).answer =
      (none, some ("Error: " ++ Text.DecodeError.message ⟨.notAscii, b, before.length, 1⟩)) := by
  have hfile : file path (.ok (Text.encode s)) =
      (faulty · (Text.DecodeError.message ⟨.notAscii, b, before.length, 1⟩)) := by
    funext j
    simp only [file, Text.decodeAscii_encode_error hs hbefore hbytes hb]
  have hoffers := faulty_offers (Text.DecodeError.message ⟨.notAscii, b, before.length, 1⟩)
  rw [← hfile] at hoffers
  exact (run_of_offers hoffers logger debug).1

theorem exists_first_notAscii {cs : List Char} (h : ¬∀ c ∈ cs, Text.isAscii c = true) :
    ∃ before c after, cs = before ++ c :: after ∧ (∀ d ∈ before, Text.isAscii d = true) ∧ Text.isAscii c = false := by
  cases hfind : cs.find? fun c => !Text.isAscii c with
  | none => exact absurd (by simpa using hfind) h
  | some c =>
    obtain ⟨hc, before, after, hcs, hbefore⟩ := List.find?_eq_some_iff_append.mp hfind
    exact ⟨before, c, after, hcs, by simpa using hbefore, by simpa using hc⟩

/-- A file that holds a text, in the form in which a text is saved and opened again, is answered as the text is exactly
where all its characters are ASCII ones. Otherwise the first that is not is the fault, whatever the text is. -/
theorem file_answer_eq_verdict_iff (logger : Logger) (path s : String) (debug : Bool) :
    let answer := (run logger path (.ok (Text.encode s)) debug).answer
    Text.decodeUtf8 (Text.encode s) = .ok s ∧
      (answer = verdict s ↔ ∀ c ∈ s.toList, Text.isAscii c = true) ∧
      ∀ before c after, s.toList = before ++ c :: after → (∀ d ∈ before, Text.isAscii d = true) →
        Text.isAscii c = false → ∃ b bs, String.utf8EncodeChar c = b :: bs ∧
          answer = (none, some ("Error: 'ascii' codec can't decode byte 0x" ++
            (String.ofList (Text.hexadecimal 2 b.toNat) ++ " in position " ++ toString before.length ++
              ": ordinal not in range(128)"))) := by
  refine ⟨Text.decodeUtf8_encode s, ⟨?_, answer_ascii logger path debug⟩, ?_⟩
  · intro hanswer
    by_contra hs
    obtain ⟨before, c, after, hsplit, hbefore, hc⟩ := exists_first_notAscii hs
    obtain ⟨b, bs, hbytes, hb⟩ := Text.exists_first_byte hc
    rw [answer_notAscii logger path debug hsplit hbefore hbytes hb] at hanswer
    exact verdict_ne s b before.length hanswer.symm
  · intro before c after hsplit hbefore hc
    obtain ⟨b, bs, hbytes, hb⟩ := Text.exists_first_byte hc
    refine ⟨b, bs, hbytes, ?_⟩
    rw [answer_notAscii logger path debug hsplit hbefore hbytes hb, message_notAscii, ← String.append_assoc]
    rfl

theorem file_answer_accented :
    let s := "var a = \"é\";"
    let answer := (run .start "p5.cspt" (.ok (Text.encode s)) false).answer
    verdict s = (some "Compilation successful", none) ∧ answer ≠ verdict s ∧
      answer = (none, some "Error: 'ascii' codec can't decode byte 0xc3 in position 9: ordinal not in range(128)") := by
  intro s answer
  obtain ⟨-, hiff, hfirst⟩ := file_answer_eq_verdict_iff .start "p5.cspt" s false
  refine ⟨by decide +kernel, ?_, ?_⟩
  · intro h
    have hall := hiff.mp h 'é' (by decide +kernel)
    exact absurd hall (by decide)
  · have hbefore : "var a = \"".toList.all Text.isAscii = true := by decide +kernel
    have hencode : String.utf8EncodeChar 'é' = [0xc3, 0xa9] := by decide
    obtain ⟨b, bs, hbytes, hanswer⟩ :=
      hfirst "var a = \"".toList 'é' "\";".toList (by decide +kernel) (List.all_eq_true.mp hbefore) (by decide)
    obtain ⟨rfl, -⟩ := List.cons.inj (hencode.symm.trans hbytes)
    refine hanswer.trans ?_
    decide +kernel

end Compile

end CompiScript
