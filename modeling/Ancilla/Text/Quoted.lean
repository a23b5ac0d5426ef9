import Ancilla.Text.Unprintable

/-!
A character between single quotes. The quote, the backslash and the common control characters
have short escapes; characters without a picture of their own are written by their code point in
hexadecimal.
-/

namespace Ancilla.Text

def hex (n : Nat) : String := String.ofList (Nat.toDigits 16 n)

def escape (c : Char) : String :=
  if c = '\x00' then "\\0"
  else if c = '\t' then "\\t"
  else if c = '\n' then "\\n"
  else if c = '\r' then "\\r"
  else if c = '\'' then "\\'"
  else if c = '\\' then "\\\\"
  else if isUnprintable c.toNat then "\\u\x7b" ++ hex c.toNat ++ "\x7d"
  else c.toString

def quoted (c : Char) : String := "'" ++ escape c ++ "'"

end Ancilla.Text
