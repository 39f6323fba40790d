import RecordIndex.Text.Hex
import RecordIndex.Text.Unprintable

/-!
# Quoted strings

Messages show a string between double quotes, on one line and with every character visible:

* a double quote, a backslash, and the four control characters that have a letter of their own are
  written with a backslash;
* any other character of the class `isUnprintable` is written as its code point in braces;
* every other character stands for itself.
-/

namespace RecordIndex.Text

/-- A code point written out in hexadecimal. -/
def codePointEscape (c : Char) : String := "\\u\x7b" ++ hexDigits c.toNat ++ "\x7d"

/-- How a character is written inside double quotes. -/
def escape (c : Char) : String :=
  match c with
  | '\x00' => "\\0"
  | '\t' => "\\t"
  | '\n' => "\\n"
  | '\r' => "\\r"
  | '"' => "\\\""
  | '\\' => "\\\\"
  | c => if isUnprintable c then codePointEscape c else String.singleton c

/-- A string in double quotes, with every character visible. -/
def quote (s : String) : String :=
  "\"" ++ String.join (s.toList.map escape) ++ "\""

end RecordIndex.Text
