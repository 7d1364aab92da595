import CompiScript.Text.Printed

namespace CompiScript.Text

def hexadecimal (width n : Nat) : List Char :=
  let digits := Nat.toDigits 16 n
  List.replicate (width - digits.length) '0' ++ digits

def apostrophe : Char :=
  Char.ofNat 39

def quotationMark : Char :=
  '\"'

def quoteOf (cs : List Char) : Char :=
  if cs.contains apostrophe && !cs.contains quotationMark then quotationMark else apostrophe

def quotedChar (shown : Char → Bool) (quote c : Char) : List Char :=
  if c = quote || c = '\\' then ['\\', c]
  else if c = '\n' then ['\\', 'n']
  else if c = '\r' then ['\\', 'r']
  else if c = '\t' then ['\\', 't']
  else if shown c then [c]
  else if c.toNat < 0x100 then '\\' :: 'x' :: hexadecimal 2 c.toNat
  else if c.toNat < 0x10000 then '\\' :: 'u' :: hexadecimal 4 c.toNat
  else '\\' :: 'U' :: hexadecimal 8 c.toNat

def quotedWith (shown : Char → Bool) (name : String) : String :=
  let cs := name.toList
  let quote := quoteOf cs
  String.ofList (quote :: cs.flatMap (quotedChar shown quote) ++ [quote])

def quoted (name : String) : String :=
  quotedWith isPrinted name

def quotedAscii (name : String) : String :=
  quotedWith (fun c => isPrinted c && c.toNat < 0x7f) name

end CompiScript.Text
