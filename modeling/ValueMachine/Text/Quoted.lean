import ValueMachine.Text.Printable

/-! Characters and texts in quotes.

Inside quotes a backslash introduces the characters that cannot stand for
themselves: the quote, the backslash, five control characters with letters of
their own, and every character that is not printable, which is written by its
code point. -/
namespace ValueMachine

namespace Quoted

/-- The character as it stands inside the given quotes. -/
def escape (quote c : Char) : String :=
  if c = '\x00' then "\\0"
  else if c = '\t' then "\\t"
  else if c = '\r' then "\\r"
  else if c = '\n' then "\\n"
  else if c = '\\' then "\\\\"
  else if c = quote then "\\" ++ c.toString
  else if isPrintable c then c.toString
  else "\\u\x7b" ++ String.ofList (Nat.toDigits 16 c.toNat) ++ "\x7d"

/-- A character in single quotes. -/
def char (c : Char) : String := "'" ++ escape '\'' c ++ "'"

/-- A text in double quotes. -/
def text (s : String) : String := "\"" ++ String.join (s.toList.map (escape '"')) ++ "\""

end Quoted

end ValueMachine
