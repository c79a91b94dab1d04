import StepLisp.Report.Hidden

/-!
# Quoted texts

A text between double quotes, with escapes for the quote, the backslash and all characters that show
nothing by themselves.

* `escapeChar`, the written form of one character, and `quote`.
-/

namespace StepLisp

/-- A character inside quotes. -/
def escapeChar (c : Char) : String :=
  if c = '"' then "\\\""
  else if c = '\\' then "\\\\"
  else if c = '\n' then "\\n"
  else if c = '\r' then "\\r"
  else if c = '\t' then "\\t"
  else if c = '\x00' then "\\0"
  else if isHidden c then
    "\\u\x7b" ++ String.ofList (Nat.toDigits 16 c.toNat) ++ "\x7d"
  else c.toString

/-- A text between quotes. -/
def quote (s : String) : String := "\"" ++ String.join (s.toList.map escapeChar) ++ "\""

end StepLisp
