namespace LiteralSieve.Text

/-!
# Quoted text

A text between double quotes, so that a message shows exactly what it holds: quotes and backslashes
are escaped, and so are the characters that leave no mark.
-/

/-- Controls, the no-break space and the soft hyphen. -/
def isInvisible (c : Char) : Bool :=
  c.val < 0x20 || (0x7F ≤ c.val && c.val ≤ 0xA0) || c.val == 0xAD

def quoteChar (c : Char) : String :=
  match c with
  | '"' => "\\\""
  | '\\' => "\\\\"
  | '\t' => "\\t"
  | '\r' => "\\r"
  | '\n' => "\\n"
  | '\x00' => "\\0"
  | _ =>
    if isInvisible c then
      "\\u\x7b" ++ String.ofList (Nat.toDigits 16 c.toNat) ++ "\x7d"
    else String.singleton c

def quote (s : String) : String := "\"" ++ String.join (s.toList.map quoteChar) ++ "\""

end LiteralSieve.Text
