import CompiScript.Log.Argument

namespace CompiScript.Log

structure Place where
  left : Bool
  zeros : Bool
  plus : Bool
  blank : Bool
  alternate : Bool
  width : Nat
  precision : Option Nat
deriving DecidableEq, Repr

namespace Place

def bare : Place :=
  ⟨false, false, false, false, false, 0, none⟩

def pad (p : Place) (cs : List Char) : List Char :=
  let fill := List.replicate (p.width - cs.length) ' '
  if p.left then cs ++ fill else fill ++ cs

def textual (p : Place) (s : String) : List Char :=
  p.pad (match p.precision with
    | none => s.toList
    | some n => s.toList.take n)

def signed (p : Place) (negative : Bool) (mark digits : List Char) : List Char :=
  let sign := if negative then ['-'] else if p.plus then ['+'] else if p.blank then [' '] else []
  let head := sign ++ mark
  if p.zeros && !p.left then
    head ++ List.replicate (p.width - head.length - digits.length) '0' ++ digits
  else p.pad (head ++ digits)

def inBase (p : Place) (base : Nat) (mark : String) (upper : Bool) (n : Int) : List Char :=
  let digits := Nat.toDigits base n.natAbs
  let digits := if upper then digits.map Char.toUpper else digits
  let full := List.replicate (p.precision.getD 0 - digits.length) '0' ++ digits
  p.signed (n < 0) (if p.alternate then mark.toList else []) full

def integral (p : Place) (letter : Char) (a : Argument) : Except FormatError (List Char) :=
  match a.whole? with
  | some n =>
    if letter = 'x' then .ok (p.inBase 16 "0x" false n)
    else if letter = 'X' then .ok (p.inBase 16 "0X" true n)
    else .ok (p.inBase 8 "0o" false n)
  | none => .error (.notInteger letter a.typeName)

def truncate : Floating → Except FormatError Int
  | .finite negative b => .ok (if negative then -b.ratio.floor else b.ratio.floor)
  | .infinite _ => .error .infiniteInteger
  | .undefined => .error .undefinedInteger

def decimal (p : Place) (letter : Char) (a : Argument) : Except FormatError (List Char) :=
  match a, a.whole? with
  | .floating x, _ => (truncate x).map (p.inBase 10 "" false)
  | _, some n => .ok (p.inBase 10 "" false n)
  | _, none => .error (.notReal letter a.typeName)

def floatingOf (a : Argument) : Except FormatError Floating :=
  match a, a.whole? with
  | .floating x, _ => .ok x
  | _, some n =>
    match Floating.ofInt? n with
    | some x => .ok x
    | none => .error .tooLarge
  | _, none => .error (.notFraction a.typeName)

def writeBinary (p : Place) (letter : Char) (b : Binary) : List Char :=
  let precision := p.precision.getD 6
  if letter = 'f' then Written.fixed p.alternate precision b.ratio
  else if letter = 'e' then Written.scientific p.alternate precision b.ratio
  else Written.general p.alternate precision b.ratio

def fractional (p : Place) (letter : Char) (a : Argument) : Except FormatError (List Char) :=
  (floatingOf a).map fun x =>
    let cs := x.unsigned (p.writeBinary letter.toLower)
    p.signed x.isNegative [] (if letter.isUpper then cs.map Char.toUpper else cs)

def character (p : Place) (a : Argument) : Except FormatError (List Char) :=
  match a, a.whole? with
  | .text s, _ => if s.length = 1 then .ok (p.pad s.toList) else .error .notCharacter
  | _, some n =>
    if 0 ≤ n && n < 0x110000 then .ok (p.pad [Char.ofNat n.toNat]) else .error .noSuchCharacter
  | _, none => .error .notCharacter

def render (p : Place) (letter : Char) (index : Nat) (a : Argument) :
    Except FormatError (List Char) :=
  if letter = 's' then .ok (p.textual a.plain)
  else if letter = 'r' then .ok (p.textual (a.exact Text.quoted))
  else if letter = 'a' then .ok (p.textual (a.exact Text.quotedAscii))
  else if ['d', 'i', 'u'].contains letter then p.decimal letter a
  else if ['x', 'X', 'o'].contains letter then p.integral letter a
  else if ['e', 'f', 'g'].contains letter.toLower then p.fractional letter a
  else if letter = 'c' then p.character a
  else .error (.unknown letter index)

end Place

end CompiScript.Log
