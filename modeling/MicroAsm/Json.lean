import MicroAsm.Text.Numeral
/-!
JSON documents and their layout over several lines with an indent of two blanks. Members keep
their order, and an array or object without members stands on one line.
-/
namespace MicroAsm
open Text

inductive Json where
  | null
  | bool (b : Bool)
  | int (z : Int)
  | str (s : Text)
  | arr (items : List Json)
  | obj (members : List (Text × Json))

namespace Json

/-- Quotes, backslashes and the controls below the blank are escaped, the latter by a letter where
they have one. -/
def escape (c : Char) : Text :=
  match c with
  | '"' => "\\\"".toList
  | '\\' => "\\\\".toList
  | '\n' => "\\n".toList
  | '\r' => "\\r".toList
  | '\t' => "\\t".toList
  | '\x08' => "\\b".toList
  | '\x0c' => "\\f".toList
  | c => if c.toNat < 0x20 then "\\u".toList ++ fixed 16 4 c.toNat else [c]

def quote (s : Text) : Text := '"' :: s.flatMap escape ++ ['"']

def newLine (depth : Nat) : Text := '\n' :: List.replicate (2 * depth) ' '

/-- Items between brackets, each on a line of its own. -/
def block (opening closing : Char) (depth : Nat) : List Text → Text
  | [] => [opening, closing]
  | items =>
    opening :: newLine (depth + 1) ++ (',' :: newLine (depth + 1)).intercalate items ++
      newLine depth ++ [closing]

mutual

def layOut (depth : Nat) : Json → Text
  | null => "null".toList
  | bool b => if b then "true".toList else "false".toList
  | int z => integer z
  | str s => quote s
  | arr items => block '[' ']' depth (layOutItems (depth + 1) items)
  | obj members => block '\x7b' '\x7d' depth (layOutMembers (depth + 1) members)

def layOutItems (depth : Nat) : List Json → List Text
  | [] => []
  | item :: items => layOut depth item :: layOutItems depth items

def layOutMembers (depth : Nat) : List (Text × Json) → List Text
  | [] => []
  | (key, item) :: members =>
    (quote key ++ ": ".toList ++ layOut depth item) :: layOutMembers depth members

end

def pretty (document : Json) : Text := document.layOut 0

end Json
end MicroAsm
