namespace CompiScript.Text.Path

def baseName (path : String) : String :=
  String.ofList (path.toList.reverse.takeWhile (· ≠ '/')).reverse

def stem (name : String) : String :=
  let cs := name.toList
  let beforeDot := ((cs.reverse.dropWhile (· ≠ '.')).drop 1).reverse
  if beforeDot.all (· = '.') then name else String.ofList beforeDot

def join (a b : String) : String :=
  if b.toList.head? = some '/' then b
  else if a.isEmpty || a.toList.getLast? = some '/' then a ++ b
  else a ++ "/" ++ b

def joinAll : List String → String
  | [] => ""
  | a :: rest => rest.foldl join a

end CompiScript.Text.Path
