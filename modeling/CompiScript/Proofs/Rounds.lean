import CompiScript.Proofs.Folders.Writing
import CompiScript.Proofs.Histories

namespace CompiScript

namespace Text

theorem unifyLineEnds_of_notMem {cs : List Char} (h : '\r' ∉ cs) : unifyLineEnds cs = cs := by
  fun_induction unifyLineEnds cs with
  | case1 => rfl
  | case2 cs ih => exact absurd (.head _) h
  | case3 cs _ ih => exact absurd (.head _) h
  | case4 c cs _ _ ih => rw [ih fun hmem => h (.tail _ hmem)]

theorem notMem_unifyLineEnds (cs : List Char) : '\r' ∉ unifyLineEnds cs := by
  fun_induction unifyLineEnds cs with
  | case1 => exact List.not_mem_nil
  | case2 cs ih => simp [ih]
  | case3 cs _ ih => simp [ih]
  | case4 c cs _ hc ih =>
    rw [List.mem_cons, not_or]
    exact ⟨fun h => hc h.symm, ih⟩

def lineFeeds (n : Nat) : String :=
  String.ofList (List.replicate n '\n')

theorem encode_append (s t : String) : encode (s ++ t) = encode s ++ encode t := by
  rw [encode_eq, encode_eq, encode_eq, String.toList_append, List.flatMap_append]

theorem encode_lineFeeds (n : Nat) : encode (lineFeeds n) = List.replicate n 0x0a := by
  rw [encode_eq, lineFeeds, String.toList_ofList]
  induction n with
  | zero => rfl
  | succ n ih => rw [List.replicate_succ, List.flatMap_cons, ih]; rfl

theorem encode_injective {s t : String} (h : encode s = encode t) : s = t := by
  have hread := decodeUtf8_encode s
  rw [h, decodeUtf8_encode] at hread
  exact (Except.ok.inj hread).symm

end Text

theorem Files.read_eq_ok_iff {files : Files} {path : String} {bytes : Text.Bytes} :
    files.read path = .ok bytes ↔ files.find path = .entry (.file bytes) := by
  cases h : files.find path with
  | entry e => cases e <;> simp [read, h]
  | missing => simp [read, h]
  | blocked => simp [read, h]

namespace Workbench

open Text

def shown (text : String) : String :=
  String.ofList (unifyLineEnds text.toList)

theorem shown_of_notMem {text : String} (h : '\r' ∉ text.toList) : shown text = text := by
  rw [shown, unifyLineEnds_of_notMem h, String.ofList_toList]

def rounds (path : String) (n : Nat) : List Event :=
  (List.replicate n [.openFile path, .save]).flatten

variable {w : Workbench} {path text : String}

theorem files_save {old : Bytes} (hfile : w.file = some path) (h : w.files.find path = .entry (.file old)) :
    (w.step .save).2.files = w.files.putEntry path (.file (encode (w.editor ++ "\n"))) := by
  simp only [step, save, hfile, Files.write, h]
  rfl

theorem openFile_step (h : w.files.read path = .ok (encode text)) :
    let opened := (w.step (.openFile path)).2
    opened.files = w.files ∧ opened.file = some path ∧ opened.editor = shown text := by
  have hpath : path.isEmpty = false := by simpa using (Files.search_of_find (Files.read_eq_ok_iff.mp h)).1
  have htext : readText w.files path = .ok (shown text) := by
    simp only [readText, h, decodeUtf8_encode, shown]
  simp only [step, openFile, hpath, Bool.false_eq_true, if_false, openPath, showDialog, htext, and_self]

theorem read_round (h : w.files.read path = .ok (encode text)) :
    (w.after [.openFile path, .save]).files.read path = .ok (encode (shown text ++ lineFeeds 1)) := by
  obtain ⟨hfiles, hfile, heditor⟩ := openFile_step h
  have hfind := Files.read_eq_ok_iff.mp h
  rw [← hfiles] at hfind
  change (((w.step (.openFile path)).2.step .save).2.files).read path = _
  rw [files_save hfile hfind, heditor, Files.read_eq_ok_iff]
  exact Files.find_put hfind _

theorem read_rounds (h : w.files.read path = .ok (encode text)) (n : Nat) :
    (w.after (rounds path (n + 1))).files.read path = .ok (encode (shown text ++ lineFeeds (n + 1))) := by
  induction n generalizing w text with
  | zero => exact read_round h
  | succ n ih =>
    -- after the first round there are line feeds only, and from then on the text is shown as it is
    have hfeeds : '\r' ∉ (shown text ++ lineFeeds 1).toList := by
      simp [shown, lineFeeds, notMem_unifyLineEnds]
    have hround := ih (read_round h)
    rw [shown_of_notMem hfeeds] at hround
    have hadd : lineFeeds 1 ++ lineFeeds (n + 1) = lineFeeds (n + 1 + 1) := by
      rw [lineFeeds, lineFeeds, ← String.ofList_append]
      rfl
    rw [rounds, List.replicate_succ, List.flatten_cons, after_append, ← hadd, ← String.append_assoc]
    exact hround

/-- However often a file of UTF-8 is opened and saved, it is no longer what it was. If it has line feeds for line ends,
so many line feeds have been added to it. -/
theorem rounds_add_line_feeds (w : Workbench) (path text : String) (bytes : Bytes)
    (hread : w.files.read path = .ok bytes) (htext : decodeUtf8 bytes = .ok text) (n : Nat) :
    let last := w.after (rounds path n)
    ('\r' ∉ text.toList → last.files.read path = .ok (bytes ++ List.replicate n 0x0a)) ∧
      (last.files.read path = .ok bytes ↔ n = 0) := by
  obtain rfl := decodeUtf8_eq_ok_iff.mp htext
  cases n with
  | zero =>
    rw [List.replicate_zero, List.append_nil]
    exact ⟨fun _ => hread, iff_of_true hread rfl⟩
  | succ n =>
    have hlast := read_rounds hread n
    refine ⟨fun hfeeds => ?_, iff_of_false ?_ n.succ_ne_zero⟩
    · rw [hlast, shown_of_notMem hfeeds, encode_append, encode_lineFeeds]
    · intro hsame
      rw [hlast] at hsame
      have hsame' := encode_injective (Except.ok.inj hsame)
      have hfeeds : '\r' ∉ text.toList := by
        rw [← hsame']
        simp [shown, lineFeeds, notMem_unifyLineEnds]
      have hlength := congrArg (fun s : String => s.toList.length) hsame'
      rw [shown_of_notMem hfeeds] at hlength
      simp [lineFeeds] at hlength

theorem rounds_add_line_feeds_twice :
    let w := start ⟨[("h", .folder [("d", .folder []), ("p", .file [0xc3, 0xa9])])], ["h"]⟩
    w.files.read "d/../p" = .ok [0xc3, 0xa9] ∧ decodeUtf8 [0xc3, 0xa9] = .ok "é" ∧
      (w.after (rounds "d/../p" 2)).files.read "d/../p" = .ok [0xc3, 0xa9, 0x0a, 0x0a] := by
  intro w
  have hread : w.files.read "d/../p" = .ok [0xc3, 0xa9] := by decide +kernel
  have htext : decodeUtf8 [0xc3, 0xa9] = .ok "é" := decodeUtf8_eq_ok_iff.mpr (by decide +kernel)
  have hlast := (rounds_add_line_feeds w "d/../p" "é" _ hread htext 2).1 (by decide)
  exact ⟨hread, htext, hlast⟩

end Workbench

end CompiScript
