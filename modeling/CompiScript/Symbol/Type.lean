/-!
The types of CompiScript. A type is usually one of the four; a loose type only carries the name of
one of them and passes for none. What has no type yet has `none`, written `None`.
-/

namespace CompiScript

inductive DataType where
  | num | boolean | string | nil
deriving DecidableEq, Repr

namespace DataType

def text : DataType → String
  | num => "num"
  | boolean => "boolean"
  | string => "string"
  | nil => "nil"

def number : DataType → Nat
  | num => 1
  | boolean => 2
  | string => 3
  | nil => 4

def all : List DataType :=
  [num, boolean, string, nil]

end DataType

inductive Ty where
  | proper (data : DataType)
  | loose (data : DataType)
deriving DecidableEq, Repr

namespace Ty

def data : Ty → DataType
  | proper d => d
  | loose d => d

def text (t : Ty) : String :=
  t.data.text

def num : Ty :=
  proper .num

def boolean : Ty :=
  proper .boolean

def string : Ty :=
  proper .string

def nil : Ty :=
  proper .nil

def show? : Option Ty → String
  | none => "None"
  | some t => t.text

end Ty

end CompiScript
