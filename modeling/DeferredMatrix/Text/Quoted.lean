import DeferredMatrix.Text.Hidden

/-!
# Quoted text

Text between double quotes, in which a quote, a backslash, the common controls and every
hidden character are written as escapes.
-/

namespace DeferredMatrix.Text

/-- One character inside quotes. -/
def quoteChar (c : Char) : String :=
  if c.toNat = 0 then "\\0"
  else if c = '\t' then "\\t"
  else if c = '\n' then "\\n"
  else if c = '\r' then "\\r"
  else if c = '"' then "\\\""
  else if c = '\\' then "\\\\"
  else if isHidden c then
    "\\u\x7b" ++ String.ofList (Nat.toDigits 16 c.toNat) ++ "\x7d"
  else c.toString

def quote (s : String) : String := "\"" ++ String.join (s.toList.map quoteChar) ++ "\""

end DeferredMatrix.Text
