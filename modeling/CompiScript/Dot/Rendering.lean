import CompiScript.Log.Record

namespace CompiScript.Dot

structure Rendering where
  file : String
  format : String
  folder : String
deriving DecidableEq, Repr

namespace Rendering

def usual : Rendering :=
  ⟨"parse_tree", "png", "."⟩

def path (r : Rendering) : String :=
  r.folder ++ "/" ++ r.file ++ "." ++ r.format

def record (r : Rendering) : Log.Record :=
  ⟨.success, "Parse tree saved as " ++ r.path⟩

end Rendering

end CompiScript.Dot
