import MeshNode.Json.Basic
import MeshNode.Text.Decimal
import MeshNode.Text.Hex

/-! # Writing JSON

Values without blanks, and objects with one field on each line. Only quotes, backslashes and
control characters are escaped in a string.
-/

namespace MeshNode.Json

/-- The way a character is written in a string. -/
def escape (c : Char) : List Char :=
  if c = '"' then ['\\', '"']
  else if c = '\\' then ['\\', '\\']
  else if c = '\x08' then ['\\', 'b']
  else if c = '\x0c' then ['\\', 'f']
  else if c = '\n' then ['\\', 'n']
  else if c = '\r' then ['\\', 'r']
  else if c = '\t' then ['\\', 't']
  else if c.toNat < 0x20 then '\\' :: 'u' :: Text.hexPadded 4 c.toNat
  else [c]

def quote (s : String) : List Char := '"' :: s.toList.flatMap escape ++ ['"']

def quoteText : Option String → List Char
  | some s => quote s
  | none => ['"', '\\', 'u', 'd', '8', '0', '0', '"']

mutual

def render : Json → List Char
  | null => ['n', 'u', 'l', 'l']
  | bool true => ['t', 'r', 'u', 'e']
  | bool false => ['f', 'a', 'l', 's', 'e']
  | int i => Text.signed i
  | real => ['-', '0']
  | str s => quoteText s
  | arr items => '[' :: renderItems items ++ [']']
  | obj fields => '{' :: renderFields fields ++ ['}']

def renderItems : List Json → List Char
  | [] => []
  | [v] => render v
  | v :: vs => render v ++ ',' :: renderItems vs

def renderFields : List (Option String × Json) → List Char
  | [] => []
  | [(k, v)] => quoteText k ++ ':' :: render v
  | (k, v) :: fs => quoteText k ++ ':' :: (render v ++ ',' :: renderFields fs)

end

def compact (j : Json) : String := String.ofList (render j)

/-- The fields of an object on lines of their own, with commas between them. -/
def renderLines : List (String × Json) → List Char
  | [] => []
  | [(k, v)] => [' ', ' '] ++ quote k ++ [':', ' '] ++ render v ++ ['\n']
  | (k, v) :: fs => [' ', ' '] ++ quote k ++ [':', ' '] ++ render v ++ [',', '\n'] ++ renderLines fs

def layout (fields : List (String × Json)) : String :=
  String.ofList (['{', '\n'] ++ renderLines fields ++ ['}'])

end MeshNode.Json
