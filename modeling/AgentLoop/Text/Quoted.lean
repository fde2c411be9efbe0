import AgentLoop.Text.Printable

/-!
# Quoted text

Text between quotation marks for a reader who has to see every character of it: what would not show, and what
would attach itself to the character before it, is written as a code.
-/

namespace AgentLoop.Text

def hexText (n : Nat) : List Char := Nat.toDigits 16 n

def escapeVisibly (c : Char) : List Char :=
  match c with
  | '\x00' => ['\\', '0']
  | '\t' => ['\\', 't']
  | '\n' => ['\\', 'n']
  | '\r' => ['\\', 'r']
  | '"' => ['\\', '"']
  | '\\' => ['\\', '\\']
  | c =>
    if extendsGrapheme c || !isPrintable c then ['\\', 'u', '\x7b'] ++ hexText c.toNat ++ ['\x7d'] else [c]

def quoted (s : String) : String := "\"" ++ String.ofList (s.toList.flatMap escapeVisibly) ++ "\""

end AgentLoop.Text
