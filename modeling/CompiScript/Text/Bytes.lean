import CompiScript.Text.Quoted

namespace CompiScript.Text

abbrev Bytes := List UInt8

def encode (text : String) : Bytes :=
  text.toUTF8.data.toList

inductive Fault where
  | notAscii
  | start
  | continuation
  | cut
deriving DecidableEq, Repr

structure DecodeError where
  fault : Fault
  first : UInt8
  place : Nat
  length : Nat
deriving DecidableEq, Repr

namespace DecodeError

def reason : Fault → String
  | .notAscii => "ordinal not in range(128)"
  | .start => "invalid start byte"
  | .continuation => "invalid continuation byte"
  | .cut => "unexpected end of data"

def codec : Fault → String
  | .notAscii => "ascii"
  | _ => "utf-8"

def message (e : DecodeError) : String :=
  let place :=
    if e.length = 1 then
      "byte 0x" ++ String.ofList (hexadecimal 2 e.first.toNat) ++ " in position "
        ++ toString e.place
    else
      "bytes in position " ++ toString e.place ++ "-" ++ toString (e.place + e.length - 1)
  "'" ++ codec e.fault ++ "' codec can't decode " ++ place ++ ": " ++ reason e.fault

end DecodeError

def decodeAsciiFrom (place : Nat) : Bytes → Except DecodeError (List Char)
  | [] => .ok []
  | b :: bs =>
    if b < 0x80 then (decodeAsciiFrom (place + 1) bs).map (Char.ofNat b.toNat :: ·)
    else .error ⟨.notAscii, b, place, 1⟩

def decodeAscii (bytes : Bytes) : Except DecodeError String :=
  (decodeAsciiFrom 0 bytes).map String.ofList

def isContinuation (b : UInt8) : Bool :=
  0x80 ≤ b && b < 0xc0

def isSecond (lead b : UInt8) : Bool :=
  isContinuation b
    && (lead != 0xe0 || 0xa0 ≤ b) && (lead != 0xed || b < 0xa0)
    && (lead != 0xf0 || 0x90 ≤ b) && (lead != 0xf4 || b < 0x90)

def announced (b : UInt8) : Option Nat :=
  if b < 0x80 then some 1
  else if b < 0xc2 then none
  else if b < 0xe0 then some 2
  else if b < 0xf0 then some 3
  else if b < 0xf5 then some 4
  else none

/-- The number of bytes behind the leading one that can belong to its character, of those that it
announces. -/
def goodLength (lead : UInt8) (count : Nat) (bs : Bytes) : Nat :=
  match bs.take (count - 1) with
  | [] => 0
  | b :: rest => if isSecond lead b then 1 + (rest.takeWhile isContinuation).length else 0

def leadBits (b : UInt8) : Nat :=
  if b < 0x80 then b.toNat
  else if b < 0xe0 then b.toNat % 0x20
  else if b < 0xf0 then b.toNat % 0x10
  else b.toNat % 0x8

def codePoint (lead : UInt8) (rest : Bytes) : Char :=
  Char.ofNat (rest.foldl (fun n b => n * 0x40 + b.toNat % 0x40) (leadBits lead))

def decodeUtf8From (place : Nat) : Bytes → Except DecodeError (List Char)
  | [] => .ok []
  | b :: bs =>
    match announced b with
    | none => .error ⟨.start, b, place, 1⟩
    | some count =>
      let good := goodLength b count bs
      if good + 1 = count then
        (decodeUtf8From (place + count) (bs.drop good)).map (codePoint b (bs.take good) :: ·)
      else if good = bs.length then .error ⟨.cut, b, place, good + 1⟩
      else .error ⟨.continuation, b, place, good + 1⟩
termination_by bytes => bytes.length
decreasing_by simp only [List.length_drop, List.length_cons]; omega

def decodeUtf8 (bytes : Bytes) : Except DecodeError String :=
  (decodeUtf8From 0 bytes).map String.ofList

def unifyLineEnds : List Char → List Char
  | [] => []
  | '\r' :: '\n' :: cs => '\n' :: unifyLineEnds cs
  | '\r' :: cs => '\n' :: unifyLineEnds cs
  | c :: cs => c :: unifyLineEnds cs

end CompiScript.Text
