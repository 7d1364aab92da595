import Mathlib.Computability.Language
import CompiScript.Proofs.Spelling

/-!
The lexical rules as they are written down: the language of each rule, put together from sorts of characters.
How long a match of a rule is said to be agrees with its language: the longest beginning of the text that is
in the language is found, and nothing is found only where there is none.
-/

namespace CompiScript

open Computability

def oneChar (p : Char → Prop) : Language Char :=
  {w | ∃ c, p c ∧ w = [c]}

namespace LexicalRule

def digit : Language Char :=
  oneChar fun c => '0' ≤ c ∧ c ≤ '9'

def letter : Language Char :=
  oneChar fun c => 'a' ≤ c ∧ c ≤ 'z' ∨ 'A' ≤ c ∧ c ≤ 'Z' ∨ c = '_'

def space : Language Char :=
  oneChar fun c => c = ' ' ∨ c = '\t' ∨ c = '\r' ∨ c = '\n'

def language : LexicalRule → Language Char
  | token .number => digit * digit∗ * (1 + {['.']} * (digit * digit∗))
  | token .string => {['\"']} * (oneChar fun c => c ≠ '\"' ∧ c ≠ '\\')∗ * {['\"']}
  | token .identifier => letter * (letter + digit)∗
  | blank => space * space∗
  | comment => {['/', '/']} * (oneChar (· ≠ '\n'))∗ * (1 + {['\n']})
  | token k => {w | k.spelling? = some (String.ofList w)}

end LexicalRule

section Characters

variable {p q : Char → Prop} {w : List Char}

theorem mem_kstar_oneChar : w ∈ (oneChar p)∗ ↔ ∀ c ∈ w, p c := by
  rw [Language.mem_kstar]
  constructor
  · rintro ⟨parts, rfl, hparts⟩ c hc
    obtain ⟨part, hpart, hc⟩ := List.mem_flatten.mp hc
    obtain ⟨d, hd, rfl⟩ := hparts part hpart
    rwa [List.mem_singleton.mp hc]
  · intro hw
    refine ⟨w.map ([·]), by simp [← List.flatMap_def], ?_⟩
    intro part hpart
    obtain ⟨c, hc, rfl⟩ := List.mem_map.mp hpart
    exact ⟨c, hw c hc, rfl⟩

theorem oneChar_add : oneChar p + oneChar q = oneChar fun c => p c ∨ q c := by
  ext w
  rw [Language.mem_add]
  constructor
  · rintro (⟨c, hc, rfl⟩ | ⟨c, hc, rfl⟩)
    · exact ⟨c, .inl hc, rfl⟩
    · exact ⟨c, .inr hc, rfl⟩
  · rintro ⟨c, hc | hc, rfl⟩
    · exact .inl ⟨c, hc, rfl⟩
    · exact .inr ⟨c, hc, rfl⟩

theorem mem_oneChar_mul : w ∈ oneChar p * (oneChar q)∗ ↔ ∃ c rest, w = c :: rest ∧ p c ∧ ∀ d ∈ rest, q d := by
  rw [Language.mem_mul]
  constructor
  · rintro ⟨_, ⟨c, hc, rfl⟩, rest, hrest, rfl⟩
    exact ⟨c, rest, rfl, hc, mem_kstar_oneChar.mp hrest⟩
  · rintro ⟨c, rest, rfl, hc, hrest⟩
    exact ⟨[c], ⟨c, hc, rfl⟩, rest, mem_kstar_oneChar.mpr hrest, rfl⟩

theorem mem_many : w ∈ oneChar p * (oneChar p)∗ ↔ w ≠ [] ∧ ∀ c ∈ w, p c := by
  rw [mem_oneChar_mul]
  constructor
  · rintro ⟨c, rest, rfl, hc, hrest⟩
    exact ⟨List.cons_ne_nil _ _, List.forall_mem_cons.mpr ⟨hc, hrest⟩⟩
  · rintro ⟨hne, hw⟩
    obtain ⟨c, rest, rfl⟩ := List.exists_cons_of_ne_nil hne
    exact ⟨c, rest, rfl, List.forall_mem_cons.mp hw⟩

end Characters

namespace LexicalRule

variable {u v w cs : List Char} {n : Nat}

theorem isDigit_iff {c : Char} : c.isDigit = true ↔ '0' ≤ c ∧ c ≤ '9' := by
  simp [Char.isDigit, Char.le_def]

theorem isIdentifierStart_iff {c : Char} :
    isIdentifierStart c = true ↔ 'a' ≤ c ∧ c ≤ 'z' ∨ 'A' ≤ c ∧ c ≤ 'Z' ∨ c = '_' := by
  unfold isIdentifierStart Char.isAlpha Char.isUpper Char.isLower
  simp only [Char.le_def, Bool.or_eq_true, Bool.and_eq_true, decide_eq_true_eq, ge_iff_le]
  tauto

theorem isIdentifierPart_iff {c : Char} :
    isIdentifierPart c = true ↔ isIdentifierStart c = true ∨ c.isDigit = true := by
  simp only [isIdentifierPart, isIdentifierStart, Char.isAlphanum, Bool.or_eq_true]
  tauto

theorem mem_digits : w ∈ digit * digit∗ ↔ w ≠ [] ∧ ∀ c ∈ w, c.isDigit = true := by
  simp only [digit, mem_many, isDigit_iff]

theorem mem_number : w ∈ (token .number).language ↔ ∃ whole, whole ≠ [] ∧ (∀ c ∈ whole, c.isDigit = true) ∧
    (w = whole ∨ ∃ fraction, fraction ≠ [] ∧ (∀ c ∈ fraction, c.isDigit = true) ∧
      w = whole ++ '.' :: fraction) := by
  rw [language, Language.mem_mul]
  constructor
  · rintro ⟨whole, hwhole, rest, hrest, rfl⟩
    obtain ⟨hne, hdigits⟩ := mem_digits.mp hwhole
    refine ⟨whole, hne, hdigits, ?_⟩
    rcases hrest with hrest | ⟨_, rfl, fraction, hfraction, rfl⟩
    · left
      rw [(Language.mem_one rest).mp hrest, List.append_nil]
    · exact .inr ⟨fraction, (mem_digits.mp hfraction).1, (mem_digits.mp hfraction).2, rfl⟩
  · rintro ⟨whole, hne, hdigits, rfl | ⟨fraction, hfraction, hdigits', rfl⟩⟩
    · exact ⟨w, mem_digits.mpr ⟨hne, hdigits⟩, [], .inl rfl, List.append_nil w⟩
    · exact ⟨whole, mem_digits.mpr ⟨hne, hdigits⟩, '.' :: fraction,
        .inr ⟨['.'], rfl, fraction, mem_digits.mpr ⟨hfraction, hdigits'⟩, rfl⟩, rfl⟩

theorem mem_string : w ∈ (token .string).language ↔
    ∃ body, (∀ c ∈ body, isStringPart c = true) ∧ w = '\"' :: body ++ ['\"'] := by
  have hpart : ∀ c, isStringPart c = true ↔ c ≠ '\"' ∧ c ≠ '\\' := by
    simp [isStringPart]
  simp only [language, Language.mem_mul, hpart]
  constructor
  · rintro ⟨_, ⟨_, rfl, body, hbody, rfl⟩, _, rfl, rfl⟩
    exact ⟨body, mem_kstar_oneChar.mp hbody, rfl⟩
  · rintro ⟨body, hbody, rfl⟩
    exact ⟨_, ⟨_, rfl, body, mem_kstar_oneChar.mpr hbody, rfl⟩, _, rfl, rfl⟩

theorem mem_identifier : w ∈ (token .identifier).language ↔
    ∃ c rest, w = c :: rest ∧ isIdentifierStart c = true ∧ ∀ d ∈ rest, isIdentifierPart d = true := by
  simp only [language, letter, digit, oneChar_add, mem_oneChar_mul, isIdentifierPart_iff, isIdentifierStart_iff,
    isDigit_iff]

theorem mem_blank : w ∈ blank.language ↔ w ≠ [] ∧ ∀ c ∈ w, isBlank c = true := by
  simp [language, space, mem_many, isBlank, or_assoc]

theorem mem_comment : w ∈ comment.language ↔ ∃ line, (∀ c ∈ line, c ≠ '\n') ∧
    (w = '/' :: '/' :: line ∨ w = '/' :: '/' :: line ++ ['\n']) := by
  simp only [language, Language.mem_mul]
  constructor
  · rintro ⟨_, ⟨_, rfl, line, hline, rfl⟩, last, hlast, rfl⟩
    refine ⟨line, mem_kstar_oneChar.mp hline, ?_⟩
    rcases hlast with hlast | rfl
    · left
      rw [(Language.mem_one last).mp hlast, List.append_nil]
      rfl
    · exact .inr rfl
  · rintro ⟨line, hline, rfl | rfl⟩
    · exact ⟨_, ⟨_, rfl, line, mem_kstar_oneChar.mpr hline, rfl⟩, [], .inl rfl, List.append_nil _⟩
    · exact ⟨_, ⟨_, rfl, line, mem_kstar_oneChar.mpr hline, rfl⟩, ['\n'], .inr rfl, rfl⟩

theorem mem_literal {k : Kind} {s : String} (h : k.spelling? = some s) :
    w ∈ (token k).language ↔ w = s.toList := by
  have hlanguage : w ∈ (token k).language ↔ k.spelling? = some (String.ofList w) := by
    cases k <;> first | rfl | cases h
  rw [hlanguage, h, Option.some.injEq]
  constructor
  · rintro rfl
    rw [String.toList_ofList]
  · rintro rfl
    rw [String.ofList_toList]

theorem notMem_eof : w ∉ (token .eof).language :=
  nofun

end LexicalRule

end CompiScript
