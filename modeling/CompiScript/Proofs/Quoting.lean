import Mathlib.Data.List.TakeWhile
import CompiScript.Dot.Graph

namespace CompiScript.Dot

def unescapeMarks : List Char → List Char
  | [] => []
  | '\\' :: '\"' :: cs => '\"' :: unescapeMarks cs
  | c :: cs => c :: unescapeMarks cs

def unquote : List Char → List Char
  | '\"' :: cs => unescapeMarks cs.dropLast
  | cs => cs

theorem unescapeMarks_cons {c : Char} (hc : c ≠ '\\') (cs : List Char) :
    unescapeMarks (c :: cs) = c :: unescapeMarks cs := by
  rw [unescapeMarks]
  intro rest h
  exact absurd h hc

theorem unescapeMarks_escapeMarks {cs : List Char} (h : '\\' ∉ cs) : unescapeMarks (escapeMarks false cs) = cs := by
  induction cs with
  | nil => rfl
  | cons c cs ih =>
    have hc : c ≠ '\\' := fun hc => h (hc ▸ .head _)
    have hcs : '\\' ∉ cs := fun hcs => h (.tail _ hcs)
    rw [escapeMarks, if_neg hc]
    by_cases hmark : c = '\"'
    · subst hmark
      simp only [decide_true, Bool.not_false, Bool.and_self, if_true, unescapeMarks]
      rw [ih hcs]
    · simp only [hmark, decide_false, Bool.false_and, Bool.false_eq_true, if_false]
      rw [unescapeMarks_cons hc, ih hcs]

theorem trimmed_mark (cs : List Char) : ∃ cs', trimmed ('\"' :: cs) = '\"' :: cs' := by
  rw [trimmed]
  split
  · next h =>
    cases cs with
    | nil => cases h
    | cons d cs => exact ⟨_, rfl⟩
  · exact ⟨cs, rfl⟩

theorem not_raw_mark (cs : List Char) :
    (isBracketed ('\"' :: cs) || isBracketed (trimmed ('\"' :: cs)) || isPlain ('\"' :: cs)) = false := by
  obtain ⟨cs', hcs'⟩ := trimmed_mark cs
  simp only [hcs', isPlain, isNumeral]
  rfl

theorem unquote_quote {text : String} (h : '\\' ∉ text.toList) : unquote (quote text).toList = text.toList := by
  simp only [quote]
  split
  · next hraw =>
    cases hcs : text.toList with
    | nil => rfl
    | cons c cs =>
      have hc : c ≠ '\"' := by
        rintro rfl
        rw [hcs, not_raw_mark] at hraw
        cases hraw
      rw [unquote]
      intro rest hrest
      exact absurd (List.cons.inj hrest).1 hc
  · rw [String.toList_ofList, List.cons_append, unquote, List.dropLast_concat, unescapeMarks_escapeMarks h]

namespace Graph

theorem nodeName_toList (n : Nat) : (nodeName n).toList = ['n', 'o', 'd', 'e'] ++ Nat.toDigits 10 n := by
  simp [nodeName]

theorem nodeName_inj {m n : Nat} : nodeName m = nodeName n ↔ m = n := by
  refine ⟨fun h => ?_, fun h => h ▸ rfl⟩
  have hlist := congrArg String.toList h
  rw [nodeName_toList, nodeName_toList] at hlist
  have hnumber := congrArg (Nat.ofDigitChars 10 · 0) (List.append_cancel_left hlist)
  simpa only [Nat.ofDigitChars_ten_toDigits] using hnumber

theorem isDigit_of_mem_digits {n : Nat} {c : Char} (h : c ∈ Nat.toDigits 10 n) : c.isDigit = true :=
  Nat.isDigit_of_mem_toDigits (by omega) (by omega) h

theorem isAlphanum_nodeName {n : Nat} {c : Char} (h : c ∈ (nodeName n).toList) : c.isAlphanum = true := by
  rw [nodeName_toList, List.mem_append] at h
  rcases h with hletter | hdigit
  · have hall : (['n', 'o', 'd', 'e'].all Char.isAlphanum) = true := by decide
    exact List.all_eq_true.mp hall c hletter
  · simp [Char.isAlphanum, isDigit_of_mem_digits hdigit]

theorem notMem_nodeName {n : Nat} {c : Char} (hc : c.isAlphanum = false) : c ∉ (nodeName n).toList := by
  intro h
  rw [isAlphanum_nodeName h] at hc
  cases hc

theorem keywords_nodeName (n : Nat) :
    keywords.contains (String.ofList ((nodeName n).toList.map Char.toLower)) = false := by
  -- There is a digit in the name, and none in the words of DOT.
  obtain ⟨d, ds, hdigits⟩ := List.exists_cons_of_ne_nil (Nat.toDigits_ne_nil (b := 10) (n := n))
  have hd : d.isDigit = true := isDigit_of_mem_digits (n := n) (by rw [hdigits]; exact .head _)
  have hlower : d.toLower = d := by
    unfold Char.toLower
    grind [Char.isDigit]
  have hmem : d ∈ (nodeName n).toList.map Char.toLower := by
    rw [nodeName_toList, hdigits]
    simp [hlower]
  have hkeywords : (keywords.all fun word => word.toList.all fun c => !c.isDigit) = true := by decide +kernel
  rw [List.contains_eq_mem, decide_eq_false_iff_not]
  intro hword
  have hnot := List.all_eq_true.mp (List.all_eq_true.mp hkeywords _ hword) d (by rwa [String.toList_ofList])
  rw [hd] at hnot
  cases hnot

theorem trimmed_nodeName (n : Nat) : trimmed (nodeName n).toList = (nodeName n).toList := by
  rw [trimmed, if_neg]
  intro h
  exact notMem_nodeName (c := '\n') (by decide) (List.mem_of_getLast? (beq_iff_eq.mp h))

theorem quote_nodeName (n : Nat) : quote (nodeName n) = nodeName n := by
  have hword : isWord (nodeName n).toList = true := by
    have hall : ∀ c ∈ (nodeName n).toList, c.isAlphanum = true := fun c => isAlphanum_nodeName
    rw [nodeName_toList] at hall ⊢
    simp only [List.cons_append, List.nil_append, isWord, List.all_eq_true, Bool.and_eq_true, Bool.or_eq_true]
    exact ⟨.inl (by decide), fun c hc => .inl (hall c (.tail _ hc))⟩
  have hplain : isPlain (nodeName n).toList = true := by
    rw [isPlain, trimmed_nodeName, keywords_nodeName, hword]
    rfl
  simp [quote, hplain]

theorem quoteEnd_nodeName (n : Nat) : quoteEnd (nodeName n) = nodeName n := by
  have hcolon : ∀ c ∈ (nodeName n).toList, decide (c ≠ ':') = true := by
    intro c hc
    refine decide_eq_true ?_
    rintro rfl
    exact notMem_nodeName (by decide) hc
  have hsplit : splitColon (nodeName n).toList = ((nodeName n).toList, []) := by
    rw [splitColon, List.takeWhile_eq_self_iff.mpr hcolon, List.dropWhile_eq_nil_iff.mpr hcolon]
    rfl
  simp only [quoteEnd, hsplit, List.isEmpty_nil, if_true, String.ofList_toList, quote_nodeName]

end Graph

end CompiScript.Dot
