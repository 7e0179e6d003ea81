import ConfigTree.Text.Quoted
import ConfigTree.Yaml.Chars
import ConfigTree.Yaml.Value

/-!
# How a string is written as a scalar

A string is written plain where its text allows that and reads back as a string; else between single
quotes where these can hold it; else between double quotes with escapes.  A string with a line feed
is written as a literal block if it can be.

Line and paragraph separators end a line wherever they stand.  Single quotes hold them as they are,
and what follows them is indented; the indentation is skipped by the reader.
-/

namespace ConfigTree.Yaml

/-- The ways to write a scalar. -/
inductive ScalarStyle where
  | plain
  | single
  | double
  | literal
deriving DecidableEq, Repr

/-- May the character be written as it is? -/
def isPrintable (c : Char) : Bool :=
  let n := c.toNat
  n == 0xa || (0x20 ≤ n && n ≤ 0x7e) || (0xa0 ≤ n && n ≤ 0xd7ff) ||
    (0xe000 ≤ n && n ≤ 0xfffd && n != 0xfeff) || 0x10000 ≤ n

/-- Does a text begin like something else than a plain scalar? -/
def startsLikeIndicator : List Char → Bool
  | [] => false
  | c :: rest =>
    "#,[]\x7b\x7d&*!|>'\"%@\x60".toList.contains c ||
      ("-?:".toList.contains c && startsGap rest) ||
      "---".toList.isPrefixOf (c :: rest) || "...".toList.isPrefixOf (c :: rest)

/-- Does a text contain the start of a value or of a comment?  `afterGap` tells whether a gap comes
before it. -/
def containsIndicator (afterGap : Bool) : List Char → Bool
  | [] => false
  | c :: rest =>
    (c == ':' && startsGap rest) || (c == '#' && afterGap) || containsIndicator (isGap c) rest

/-- Is there a space right after the end of a line? -/
def spaceAfterBreak : List Char → Bool
  | a :: b :: rest => (isBreak a && b == ' ') || spaceAfterBreak (b :: rest)
  | _ => false

/-- Is there a space right before the end of a line? -/
def spaceBeforeBreak : List Char → Bool
  | a :: b :: rest => (a == ' ' && isBreak b) || spaceBeforeBreak (b :: rest)
  | _ => false

/-- May the text be written without quotes? -/
def allowsPlain (cs : List Char) : Bool :=
  cs.all (fun c => isPrintable c && !isBreak c) && cs.head? != some ' ' &&
    cs.getLast? != some ' ' && !startsLikeIndicator cs &&
    !containsIndicator (cs.head?.any isGap) (cs.drop 1)

/-- May the text be written between single quotes? -/
def allowsSingle (cs : List Char) : Bool :=
  cs.all isPrintable && !spaceAfterBreak cs && !spaceBeforeBreak cs

/-- May the text be written as a literal block? -/
def allowsLiteral (cs : List Char) : Bool :=
  cs.all isPrintable && !spaceBeforeBreak cs && cs.getLast? != some ' '

/-- Would the text, written plain, be read as a string and not be taken for a number by anyone? -/
def readsAsString (text : String) : Bool :=
  match Value.ofPlain text with
  | .ok (.string _) => !Value.isPadded text.toList
  | _ => false

/-- The style in which a string is written. -/
def ScalarStyle.of (text : String) : ScalarStyle :=
  let cs := text.toList
  if cs.contains '\n' then if allowsLiteral cs then .literal else .double
  else if readsAsString text && allowsPlain cs then .plain
  else if allowsSingle cs then .single
  else .double

/-- Writes what stands between single quotes: a quote twice, and `indent` spaces after line ends. -/
def singleText (indent : Nat) : List Char → List Char
  | [] => []
  | c :: rest =>
    if isBreak c then
      c :: (if rest.head?.any isBreak then [] else List.replicate indent ' ') ++
        singleText indent rest
    else if c == '\'' then '\'' :: '\'' :: singleText indent rest
    else c :: singleText indent rest

/-- Writes one character between double quotes. -/
def doubleChar (c : Char) : List Char :=
  if isPrintable c && !isBreak c && c != '"' && c != '\\' then [c]
  else match ([('\x00', '0'), ('\x07', 'a'), ('\x08', 'b'), ('\t', 't'), ('\n', 'n'), ('\x0b', 'v'),
      ('\x0c', 'f'), ('\r', 'r'), ('\x1b', 'e'), ('"', '"'), ('\\', '\\'), ('\x85', 'N'),
      ('\xa0', '_'), ('\u2028', 'L'), ('\u2029', 'P')] : List (Char × Char)).lookup c with
    | some letter => ['\\', letter]
    | none =>
      let n := c.toNat
      let (letter, width) :=
        if n ≤ 0xff then ('x', 2) else if n ≤ 0xffff then ('u', 4) else ('U', 8)
      '\\' :: letter :: (Text.paddedHex width n).map Char.toUpper

/-- The header of a literal block: the indentation if the text begins with a space or line end, and
how many of the last line ends remain. -/
def literalHeader (cs : List Char) : List Char :=
  let hint := match cs with
    | c :: _ => if c == ' ' || isBreak c then ['2'] else []
    | [] => []
  let chomping := match cs.reverse with
    | [] => ['-']
    | [c] => if isBreak c then ['+'] else ['-']
    | c :: d :: _ => if !isBreak c then ['-'] else if isBreak d then ['+'] else []
  '|' :: hint ++ chomping

/-- Writes the lines of a literal block; `atStart` tells whether a line begins here. -/
def literalBody (indent : Nat) (atStart : Bool) : List Char → List Char
  | [] => []
  | c :: rest =>
    if isBreak c then c :: literalBody indent true rest
    else
      (if atStart then List.replicate indent ' ' else []) ++ c :: literalBody indent false rest

/-- Writes a string as a scalar whose further lines are indented by `indent`. -/
def scalarText (indent : Nat) (text : String) : List Char :=
  let cs := text.toList
  match ScalarStyle.of text with
  | .plain => cs
  | .single => '\'' :: singleText indent cs ++ ['\'']
  | .double => '"' :: cs.flatMap doubleChar ++ ['"']
  | .literal => literalHeader cs ++ '\n' :: literalBody indent true cs

example : scalarText 2 "a: b" = "'a: b'".toList := by decide +kernel
example : scalarText 2 "12" = "'12'".toList := by decide +kernel
example : scalarText 2 "a\tb" = "\"a\\tb\"".toList := by decide +kernel
example : scalarText 2 "a:b#c" = "a:b#c".toList := by decide +kernel

end ConfigTree.Yaml
