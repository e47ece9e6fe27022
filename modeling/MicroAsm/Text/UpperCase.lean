import MicroAsm.Text.Basic
import MicroAsm.Text.UpperTable
/-!
Upper-casing works character by character, by the full case mapping of Unicode without its
language and context rules, so a text may grow.
-/
namespace MicroAsm.Text

def upperCode (code : Nat) : List Nat :=
  match upperExpansions.find? fun e => e.1 == code with
  | some e => e.2
  | none =>
    match upperRuns.find? fun r => r.covers code with
    | some r => [r.target + (code - r.first)]
    | none => [code]

def upperChar (c : Char) : Text :=
  if c.toNat < 128 then [c.toUpper] else (upperCode c.toNat).map Char.ofNat

def upper (s : Text) : Text := s.flatMap upperChar

@[simp] theorem upper_nil : upper [] = [] := rfl

@[simp] theorem upper_cons (c : Char) (s : Text) : upper (c :: s) = upperChar c ++ upper s := rfl

@[simp] theorem upper_append (s t : Text) : upper (s ++ t) = upper s ++ upper t := by
  simp [upper]

theorem upperChar_ascii {c : Char} (h : c.toNat < 128) : upperChar c = [c.toUpper] := if_pos h

end MicroAsm.Text
