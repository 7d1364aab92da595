import CompiScript.Number.Floating
import CompiScript.Text.Quoted

namespace CompiScript.Log

inductive Argument where
  | text (value : String)
  | whole (value : Int)
  | floating (value : Floating)
  | truth (value : Bool)
  | nothing
  | list (items : List Argument)
  | mapping (entries : List (String × Argument))
deriving Inhabited, Repr

namespace Argument

mutual

def exact (quote : String → String) : Argument → String
  | text s => quote s
  | whole n => toString n
  | floating x => x.text
  | truth true => "True"
  | truth false => "False"
  | nothing => "None"
  | list items => "[" ++ String.intercalate ", " (exactItems quote items) ++ "]"
  | mapping entries =>
    "\x7b" ++ String.intercalate ", " (exactEntries quote entries) ++ "\x7d"

def exactItems (quote : String → String) : List Argument → List String
  | [] => []
  | a :: items => exact quote a :: exactItems quote items

def exactEntries (quote : String → String) : List (String × Argument) → List String
  | [] => []
  | (key, a) :: entries => (quote key ++ ": " ++ exact quote a) :: exactEntries quote entries

end

def plain : Argument → String
  | text s => s
  | a => a.exact Text.quoted

def typeName : Argument → String
  | text _ => "str"
  | whole _ => "int"
  | floating _ => "float"
  | truth _ => "bool"
  | nothing => "NoneType"
  | list _ => "list"
  | mapping _ => "dict"

def whole? : Argument → Option Int
  | whole n => some n
  | truth b => some (if b then 1 else 0)
  | _ => none

end Argument

inductive FormatError where
  | tooFew
  | tooMany
  | incomplete
  | incompleteName
  | unknown (letter : Char) (index : Nat)
  | unnamed
  | noSuchName (name : String)
  | starNotNumber
  | widthTooLarge
  | precisionTooLarge
  | starWidthTooLarge
  | starPrecisionTooLarge
  | notReal (letter : Char) (type : String)
  | notInteger (letter : Char) (type : String)
  | notFraction (type : String)
  | infiniteInteger
  | undefinedInteger
  | tooLarge
  | notCharacter
  | noSuchCharacter
deriving DecidableEq, Repr

namespace FormatError

def shownLetter (c : Char) : Char :=
  if 31 ≤ c.toNat && c.toNat ≤ 126 then c else '?'

def message : FormatError → String
  | tooFew => "not enough arguments for format string"
  | tooMany => "not all arguments converted during string formatting"
  | incomplete => "incomplete format"
  | incompleteName => "incomplete format key"
  | unknown c i =>
    "unsupported format character '" ++ String.ofList [shownLetter c] ++ "' (0x"
      ++ String.ofList (Nat.toDigits 16 c.toNat) ++ ") at index " ++ toString i
  | unnamed => "format requires a mapping"
  | noSuchName name => Text.quoted name
  | starNotNumber => "* wants int"
  | widthTooLarge => "width too big"
  | precisionTooLarge => "precision too big"
  | starWidthTooLarge => "Python int too large to convert to C ssize_t"
  | starPrecisionTooLarge => "Python int too large to convert to C int"
  | notReal c type =>
    "%" ++ String.ofList [c] ++ " format: a real number is required, not " ++ type
  | notInteger c type =>
    "%" ++ String.ofList [c] ++ " format: an integer is required, not " ++ type
  | notFraction type => "must be real number, not " ++ type
  | infiniteInteger => "cannot convert float infinity to integer"
  | undefinedInteger => "cannot convert float NaN to integer"
  | tooLarge => "int too large to convert to float"
  | notCharacter => "%c requires int or char"
  | noSuchCharacter => "%c arg not in range(0x110000)"

end FormatError

end CompiScript.Log
