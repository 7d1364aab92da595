namespace CompiScript.Text

def visibleChar (c : Char) : List Char :=
  if c = '\n' then ['\\', 'n']
  else if c = '\r' then ['\\', 'r']
  else if c = '\t' then ['\\', 't']
  else [c]

def visible (text : String) : String :=
  String.ofList (text.toList.flatMap visibleChar)

end CompiScript.Text
