/-! # Descriptions

The text of records, lists and tables for people who look into a node.
-/

namespace MeshNode.Text

def commas (items : List String) : String := String.intercalate ", " items

def list (items : List String) : String := "[" ++ commas items ++ "]"

def table (entries : List (String × String)) : String :=
  "\x7b" ++ commas (entries.map fun e => e.1 ++ ": " ++ e.2) ++ "\x7d"

def fields (entries : List (String × String)) : List String :=
  entries.map fun e => e.1 ++ ": " ++ e.2

def record (name : String) (entries : List (String × String)) : String :=
  name ++ " \x7b " ++ commas (fields entries) ++ " \x7d"

/-- A record some of whose fields are left out. -/
def abridged (name : String) (entries : List (String × String)) : String :=
  name ++ " \x7b " ++ commas (fields entries ++ [".."]) ++ " \x7d"

def wrapped (name content : String) : String := name ++ "(" ++ content ++ ")"

def ofBool (b : Bool) : String := if b then "true" else "false"

end MeshNode.Text
