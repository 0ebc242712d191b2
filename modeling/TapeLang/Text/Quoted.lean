import TapeLang.Text.Hex
import TapeLang.Text.Printable

/-!
# Quoted text

Text between double quotes, with escapes for what would be ambiguous or invisible.
-/

namespace TapeLang.Text.Quoted

def escape (c : Char) : String :=
  if c = '\x00' then "\\0"
  else if c = '\t' then "\\t"
  else if c = '\n' then "\\n"
  else if c = '\r' then "\\r"
  else if c = '"' then "\\\""
  else if c = '\\' then "\\\\"
  else if isPrintable c then c.toString
  else "\\u\x7b" ++ Hex.ofNat c.toNat ++ "\x7d"

def encode (text : String) : String :=
  text.toList.foldl (fun quoted c => quoted ++ escape c) "\"" ++ "\""

end TapeLang.Text.Quoted
