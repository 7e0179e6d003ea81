import ConfigTree.Expression.Basic
import ConfigTree.Text.Basic
import ConfigTree.Text.Letter

/-!
# From text to the tokens of an expression

The text is read one character at a time.  What has been read but is not yet a token is kept as a
`Pending`: an asterisk that may be the first of two, a literal, or a name.  A character either
extends it or completes it and starts something new.

Everything that is not arithmetic is refused here, in the order in which it stands in the text and
before anything is computed.
-/

namespace ConfigTree.Expression

/-- What has been read and is not yet a token; characters are kept in reverse. -/
inductive Pending where
  | nothing
  | asterisk
  | literal (characters : List Char)
  | name (characters : List Char)
deriving DecidableEq, Repr

/-- The token of a literal.  A literal with a point or an exponent is a floating-point number. -/
def Token.ofLiteral (characters : List Char) : Except Fault Token :=
  let literal := String.ofList characters
  if characters.all Char.isDigit then
    match Text.readNat? characters with
    | some n =>
      if IntegerRange.signed64.contains n then .ok (.number (.int n))
      else .error (.integerLiteral literal)
    | none => .error (.integerLiteral literal)
  else
    match Floating.read? double characters with
    | some x =>
      if x.isFinite then .ok (.number (.float x)) else .error (.floatLiteral literal)
    | none => .error (.malformedNumber literal)

/-- Does the character introduce an exponent? -/
def isExponentMark (c : Char) : Bool :=
  c == 'e' || c == 'E'

/-- Does the character belong to a literal, of which the given characters have been read?  There is
one exponent mark at most, and a sign belongs to the literal only right behind that. -/
def extendsLiteral (characters : List Char) (c : Char) : Bool :=
  c.isDigit || c == '.' ||
    (isExponentMark c && !characters.any isExponentMark) ||
    ((c == '+' || c == '-') && (characters.head?.map isExponentMark).getD false)

namespace Pending

/-- The tokens of what is pending when it is complete. -/
def complete : Pending → Except Fault (List Token)
  | .nothing => .ok []
  | .asterisk => .ok [.operator .multiply]
  | .literal characters => (Token.ofLiteral characters.reverse).map ([·])
  | .name characters => .error (.name (String.ofList characters.reverse))

/-- What is pending when a character has been added to it, if it takes the character. -/
def extend? : Pending → Char → Option Pending
  | .literal characters, c =>
    if extendsLiteral characters c then some (.literal (c :: characters)) else none
  | .name characters, c => if Text.isNameChar c then some (.name (c :: characters)) else none
  | _, _ => none

/-- What a character starts: tokens that are complete with it, and what is pending then. -/
def start (c : Char) : Except Fault (List Token × Pending) :=
  if Text.isBlank c then .ok ([], .nothing)
  else if c = '+' then .ok ([.operator .add], .nothing)
  else if c = '-' then .ok ([.operator .subtract], .nothing)
  else if c = '/' then .ok ([.operator .divide], .nothing)
  else if c = '(' then .ok ([.opening], .nothing)
  else if c = ')' then .ok ([.closing], .nothing)
  else if c = '*' then .ok ([], .asterisk)
  else if c.isDigit || c == '.' then .ok ([], .literal [c])
  else if Text.isLetter c || c == '_' then .ok ([], .name [c])
  else if c = '\'' || c = '"' then .error .quote
  else .error (.character c)

/-- Reads one character: the tokens that are complete then, and what is pending. -/
def feed (pending : Pending) (c : Char) : Except Fault (List Token × Pending) :=
  if pending = .asterisk && c == '*' then .error .power
  else match pending.extend? c with
    | some extended => .ok ([], extended)
    | none => do
      let before ← pending.complete
      let (after, next) ← start c
      return (before ++ after, next)

end Pending

/-- The tokens of a text of which something is pending already. -/
def tokensFrom (pending : Pending) : List Char → Except Fault (List Token)
  | [] => pending.complete
  | c :: rest => do
    let (tokens, next) ← pending.feed c
    return tokens ++ (← tokensFrom next rest)

/-- The tokens of a text. -/
def tokens (text : List Char) : Except Fault (List Token) :=
  tokensFrom .nothing text

end ConfigTree.Expression
