import MindScript.Text.Printable

/-!
# Quoted text

A text between double quotes, in which a quote, a backslash and every character that cannot be shown is
written as an escape.
-/

namespace MindScript.Text

/-- The characters with an escape of their own, and the letter of that escape. -/
def escapes : List (Char × Char) := [
  (Char.ofNat 0, '0'), ('\t', 't'), ('\r', 'r'), ('\n', 'n'), ('"', '"'), ('\\', '\\')]

/-- A character by its number, with base sixteen and in braces. -/
def numbered (c : Char) : List Char := "\\u\x7b".toList ++ Nat.toDigits 16 c.toNat ++ ['\x7d']

/-- A character as it stands in a quoted text. -/
def escape (c : Char) : List Char :=
  match escapes.lookup c with
  | some letter => ['\\', letter]
  | none => if isPrintable c then [c] else numbered c

/-- A text in quotes. -/
def quoted (s : String) : String := "\"" ++ String.ofList (s.toList.flatMap escape) ++ "\""

end MindScript.Text
