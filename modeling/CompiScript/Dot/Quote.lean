namespace CompiScript.Dot

def keywords : List String :=
  ["node", "edge", "graph", "digraph", "subgraph", "strict"]

def isWord : List Char → Bool
  | [] => false
  | c :: cs => (c.isAlpha || c = '_') && cs.all fun d => d.isAlphanum || d = '_'

def isUnsignedNumeral (cs : List Char) : Bool :=
  match cs.takeWhile Char.isDigit, cs.dropWhile Char.isDigit with
  | [], '.' :: rest => !rest.isEmpty && rest.all Char.isDigit
  | [], _ => false
  | _, [] => true
  | _, '.' :: rest => rest.all Char.isDigit
  | _, _ => false

def isNumeral : List Char → Bool
  | '-' :: cs => isUnsignedNumeral cs
  | cs => isUnsignedNumeral cs

def isBracketed : List Char → Bool
  | '<' :: rest => rest.getLast? == some '>'
  | _ => false

def trimmed (cs : List Char) : List Char :=
  if cs.getLast? == some '\n' then cs.dropLast else cs

def isPlain (cs : List Char) : Bool :=
  (isWord (trimmed cs) || isNumeral (trimmed cs))
    && !keywords.contains (String.ofList (cs.map Char.toLower))

/-- Puts a backslash before each quotation mark, except for those that an odd number of
backslashes precedes; `odd` says whether the number before the head is odd. -/
def escapeMarks : Bool → List Char → List Char
  | _, [] => []
  | odd, c :: cs =>
    if c = '\\' then c :: escapeMarks (!odd) cs
    else if c = '\"' && !odd then '\\' :: c :: escapeMarks false cs
    else c :: escapeMarks false cs

def quote (text : String) : String :=
  let cs := text.toList
  if isBracketed cs || isBracketed (trimmed cs) || isPlain cs then text
  else String.ofList ('\"' :: escapeMarks false cs ++ ['\"'])

def splitColon (cs : List Char) : List Char × List Char :=
  (cs.takeWhile (· ≠ ':'), (cs.dropWhile (· ≠ ':')).drop 1)

def quoteEnd (text : String) : String :=
  let (node, rest) := splitColon text.toList
  if rest.isEmpty then quote (String.ofList node)
  else
    let (place, direction) := splitColon rest
    let base := quote (String.ofList node) ++ ":" ++ quote (String.ofList place)
    if direction.isEmpty then base else base ++ ":" ++ String.ofList direction

end CompiScript.Dot
