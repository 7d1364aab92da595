import CompiScript.Log.Place

/-!
Messages with arguments. `%` begins a place and a letter ends it; between them stand a name in
parentheses, flags, a least width and a precision, where a star takes the number from the arguments.
-/

namespace CompiScript.Log

structure Supply where
  args : List Argument
  entries : Option (List (String × Argument))

namespace Supply

def ofArguments : List Argument → Supply
  | [.mapping (e :: es)] => ⟨[.mapping (e :: es)], some (e :: es)⟩
  | args => ⟨args, none⟩

def next (s : Supply) : Except FormatError (Argument × Supply) :=
  match s.args with
  | [] => .error .tooFew
  | a :: args => .ok (a, { s with args := args })

def named (s : Supply) (name : String) : Except FormatError Supply :=
  match (s.entries.getD []).lookup name with
  | some a => .ok { s with args := [a] }
  | none => .error (.noSuchName name)

def finish (s : Supply) : Except FormatError Unit :=
  if s.args.isEmpty || s.entries.isSome then .ok () else .error .tooMany

end Supply

namespace Place

def readName : Nat → List Char → Option (List Char × List Char)
  | _, [] => none
  | depth, c :: cs =>
    if c = ')' && depth = 0 then some ([], cs)
    else
      let depth := if c = '(' then depth + 1 else if c = ')' then depth - 1 else depth
      (readName depth cs).map fun (name, rest) => (c :: name, rest)

def chooseNamed (cs : List Char) (s : Supply) : Except FormatError (List Char × Supply) :=
  match cs with
  | '(' :: rest =>
    if s.entries.isNone then .error .unnamed
    else
      match readName 0 rest with
      | none => .error .incompleteName
      | some (name, rest) => (s.named (String.ofList name)).map fun s => (rest, s)
  | cs => .ok (cs, s)

def readFlags (p : Place) : List Char → Place × List Char
  | [] => (p, [])
  | c :: cs =>
    if c = '-' then readFlags { p with left := true } cs
    else if c = '0' then readFlags { p with zeros := true } cs
    else if c = '+' then readFlags { p with plus := true } cs
    else if c = ' ' then readFlags { p with blank := true } cs
    else if c = '#' then readFlags { p with alternate := true } cs
    else (p, c :: cs)

structure Bound where
  limit : Nat
  written : FormatError
  given : FormatError

def widthBound : Bound :=
  ⟨Nat.pow 2 63, .widthTooLarge, .starWidthTooLarge⟩

def precisionBound : Bound :=
  ⟨Nat.pow 2 31, .precisionTooLarge, .starPrecisionTooLarge⟩

def readNumber (bound : Bound) (cs : List Char) (s : Supply) :
    Except FormatError (Int × List Char × Supply) :=
  match cs with
  | '*' :: rest => do
    let (a, s) ← s.next
    match a.whole? with
    | none => throw .starNotNumber
    | some n =>
      if n < -bound.limit || bound.limit ≤ n then throw bound.given
      return (n, rest, s)
  | cs =>
    let n := (cs.takeWhile Char.isDigit).foldl (fun n c => n * 10 + (c.toNat - 48)) 0
    if bound.limit ≤ n then .error bound.written else .ok (n, cs.dropWhile Char.isDigit, s)

def setWidth (p : Place) (n : Int) : Place :=
  { p with width := n.natAbs, left := p.left || n < 0 }

def readPrecision (p : Place) (cs : List Char) (s : Supply) :
    Except FormatError (Place × List Char × Supply) :=
  match cs with
  | '.' :: rest => do
    let (n, rest, s) ← readNumber precisionBound rest s
    return ({ p with precision := some n.toNat }, rest, s)
  | cs => .ok (p, cs, s)

def skipSize : List Char → List Char
  | [] => []
  | c :: cs => if ['h', 'l', 'L'].contains c then cs else c :: cs

def read (cs : List Char) (s : Supply) : Except FormatError (Place × List Char × Supply) := do
  let (cs, s) ← chooseNamed cs s
  let (p, cs) := bare.readFlags cs
  let (n, cs, s) ← readNumber widthBound cs s
  let (p, cs, s) ← (p.setWidth n).readPrecision cs s
  return (p, skipSize cs, s)

end Place

def fill (total : Nat) : Nat → List Char → Supply → Except FormatError (List Char)
  | _, [], s => s.finish.map fun _ => []
  | 0, _ :: _, _ => .error .incomplete
  | n + 1, '%' :: '%' :: cs, s => (fill total n cs s).map ('%' :: ·)
  | n + 1, '%' :: cs, s => do
    let (place, rest, s) ← Place.read cs s
    match rest with
    | [] => throw .incomplete
    | letter :: rest =>
      let (a, s) ← s.next
      let piece ← place.render letter (total - rest.length - 1) a
      let others ← fill total n rest s
      return piece ++ others
  | n + 1, c :: cs, s => (fill total n cs s).map (c :: ·)

def format (message : String) (args : List Argument) : Except FormatError String :=
  if args.isEmpty then .ok message
  else
    (fill message.length message.length message.toList (.ofArguments args)).map String.ofList

end CompiScript.Log
