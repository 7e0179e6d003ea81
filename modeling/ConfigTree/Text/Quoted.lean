import ConfigTree.Text.Hidden

/-!
# Quoted text

Two ways to write a text between double quotes.

* `quoted` is for messages: the double quote and the backslash get a backslash, the usual control
  characters their letters, and every other hidden character its code point in `\u` and braces.
* `jsonQuoted` is a JSON string: the double quote, the backslash and the characters below 32 are
  escaped, all else stands as it is.
-/

namespace ConfigTree.Text

/-- A natural number in lower-case hexadecimal. -/
def hexDigits (n : Nat) : List Char := Nat.toDigits 16 n

/-- A natural number in hexadecimal with at least `width` digits. -/
def paddedHex (width n : Nat) : List Char :=
  let digits := hexDigits n
  List.replicate (width - digits.length) '0' ++ digits

/-- How a message writes one character of a quoted text. -/
def quotedChar (c : Char) : List Char :=
  match c with
  | '\x00' => ['\\', '0']
  | '\t' => ['\\', 't']
  | '\n' => ['\\', 'n']
  | '\r' => ['\\', 'r']
  | '"' => ['\\', '"']
  | '\\' => ['\\', '\\']
  | c => if isHidden c then ['\\', 'u', '{'] ++ hexDigits c.toNat ++ ['}'] else [c]

/-- A text between double quotes, as messages show it. -/
def quoted (s : String) : String :=
  String.ofList ('"' :: s.toList.flatMap quotedChar ++ ['"'])

/-- How JSON writes one character of a string. -/
def jsonChar (c : Char) : List Char :=
  match c with
  | '"' => ['\\', '"']
  | '\\' => ['\\', '\\']
  | '\n' => ['\\', 'n']
  | '\r' => ['\\', 'r']
  | '\t' => ['\\', 't']
  | '\x08' => ['\\', 'b']
  | '\x0c' => ['\\', 'f']
  | c => if c.toNat < 32 then ['\\', 'u'] ++ paddedHex 4 c.toNat else [c]

/-- A text as a JSON string. -/
def jsonQuoted (s : String) : String :=
  String.ofList ('"' :: s.toList.flatMap jsonChar ++ ['"'])

example : quoted "a\"b\n" = "\"a\\\"b\\n\"" := by decide
example : quoted "\x1b" = "\"\\u\x7b1b\x7d\"" := by decide
example : jsonQuoted "\x1b/\x7f" = "\"\\u001b/\x7f\"" := by decide

end ConfigTree.Text
