import CodeCache.Text.CharClass
import CodeCache.Text.Layout

/-!
# Quoted text

Listings put string constants between quotes. A quote, a backslash, the usual controls and every
character that a reader could not see on its own are written as escapes.
-/

namespace CodeCache.Quoted

def escape (c : Char) : String :=
  match c with
  | '\x00' => "\\0"
  | '\t' => "\\t"
  | '\r' => "\\r"
  | '\n' => "\\n"
  | '"' => "\\\""
  | '\\' => "\\\\"
  | c =>
    if 0x20 ≤ c.toNat && c.toNat ≤ 0x7E then c.toString
    else if CharClass.isExtender c || CharClass.isUnprintable c then
      "\\u\x7b" ++ Layout.hexDigits c.toNat ++ "\x7d"
    else c.toString

def quote (s : String) : String :=
  "\"" ++ String.join (s.toList.map escape) ++ "\""

end CodeCache.Quoted
