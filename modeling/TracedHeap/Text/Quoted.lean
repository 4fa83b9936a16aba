import TracedHeap.Text.GraphemeExtend
import TracedHeap.Text.Unprintable

/-!
# Quoted text

A text between quotation marks, with escapes for what could not be seen or would not stand by
itself.
-/

namespace TracedHeap.Text

def escapeCode (c : Char) : String :=
  "\\u\x7b" ++ String.ofList (Nat.toDigits 16 c.toNat) ++ "\x7d"

def escape (c : Char) : String :=
  match c with
  | '\x00' => "\\0"
  | '\t' => "\\t"
  | '\r' => "\\r"
  | '\n' => "\\n"
  | '"' => "\\\""
  | '\\' => "\\\\"
  | c => if extendsGrapheme c || isUnprintable c then escapeCode c else c.toString

def quote (s : String) : String := "\"" ++ String.join (s.toList.map escape) ++ "\""

end TracedHeap.Text
