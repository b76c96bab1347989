/-
Quoted text: a string between double quotes, with an escape for every character that would end
the text, break the line or not be seen.

The escape of a character is decided by the character alone, so quoting is one map over the
characters of the string.
-/
import ConstNarrow.Text.Hidden

set_option autoImplicit false

namespace ConstNarrow.Text

/-- A code point in lower-case hexadecimal digits, without padding, between braces. -/
def codePoint (c : Char) : List Char :=
  ['\\', 'u', '\x7b'] ++ Nat.toDigits 16 c.toNat ++ ['\x7d']

/-- What stands for a character inside quotes. The single quote needs no escape. -/
def escape (c : Char) : List Char :=
  match c with
  | '"' => ['\\', '"']
  | '\\' => ['\\', '\\']
  | '\n' => ['\\', 'n']
  | '\r' => ['\\', 'r']
  | '\t' => ['\\', 't']
  | '\x00' => ['\\', '0']
  | c => if isHidden c then codePoint c else [c]

/-- The string in double quotes. -/
def quoted (s : String) : String :=
  String.ofList ('"' :: s.toList.flatMap escape ++ ['"'])

end ConstNarrow.Text
