import ConfigTree.Text.Digits
import ConfigTree.Yaml.Cursor
import ConfigTree.Yaml.Token

/-!
# Scalars in a text

How the text of a scalar is read in its five styles.

Plain and quoted scalars may go over several lines.  They are read as chunks of characters with gaps
between them.  A gap inside a line stands for itself (`foldGap`); a gap with one line end is folded
to a space, and one with more line ends to the line ends after the first.

Block scalars are read line by line, as far as the indentation goes.  The end of a line is kept in
the literal style; in the folded style it becomes a space between two lines that do not begin with a
blank.  How many of the last line ends remain is told by the header.
-/

namespace ConfigTree.Yaml

open Text (ofDigits digitValue?)

/-! ## Gaps -/

/-- The blanks and line ends at the start of a text. -/
def leadingGap (rest : List Char) : List Char :=
  rest.takeWhile isGap

/-- What a gap between two chunks stands for. -/
def foldGap (gap : List Char) : List Char :=
  match gap.filter isBreak with
  | [] => gap
  | ['\n'] => [' ']
  | '\n' :: more => more
  | breaks => breaks

/-- Is there a tab below column `indent` on one of the lines after the first? -/
def hasLowTab (indent column : Int) (afterBreak : Bool) : List Char → Bool
  | [] => false
  | c :: rest =>
    if isBreak c then hasLowTab indent 0 true rest
    else
      (afterBreak && c == '\t' && column < indent) || hasLowTab indent (column + 1) afterBreak rest

/-! ## Plain scalars -/

/-- The characters that a plain scalar takes before the next gap or indicator. -/
def plainChunk (flow : Bool) : List Char → Except Error (List Char)
  | [] => .ok []
  | c :: rest =>
    if isGap c then .ok []
    else if c == ':' then
      if flow && rest.head?.any (",?[]\x7b\x7d".toList.contains ·) then .error .unexpectedColon
      else if startsGap rest then .ok []
      else (c :: ·) <$> plainChunk flow rest
    else if flow && ",[]\x7b\x7d".toList.contains c then .ok []
    else (c :: ·) <$> plainChunk flow rest

/-- A scalar that has been read. -/
structure ScannedScalar where
  text : List Char
  /-- Where the text goes on. -/
  after : Cursor
  /-- Was a line end passed after the last character that belongs to the scalar? -/
  endsLine : Bool

/-- Reads a plain scalar.  `indent` is the least column of its further lines, `gap` what has been
passed since the last chunk. -/
def scanPlain (flow : Bool) (indent : Int) : (fuel : Nat) → (gap : List Char) → Cursor →
    Except Error ScannedScalar
  | 0, _, _ => .error .outOfFuel
  | fuel + 1, gap, c => do
    let stop : ScannedScalar := ⟨[], c, gap.any isBreak⟩
    if c.atDocumentMark || c.at? '#' then return stop
    let chunk ← plainChunk flow c.rest
    if chunk.isEmpty then return stop
    let read := foldGap gap ++ chunk
    let c := c.advance chunk.length
    let gap := leadingGap c.rest
    if gap.isEmpty then return ⟨read, c, false⟩
    if hasLowTab indent c.column false gap then throw .tabIndentation
    let c := c.advance gap.length
    if !flow && c.column < indent then return ⟨read, c, gap.any isBreak⟩
    let more ← scanPlain flow indent fuel gap c
    return { more with text := read ++ more.text }

/-! ## Quoted scalars -/

/-- A chunk of a quoted scalar: its text, how many characters it is written with, and whether it
ends with an escaped line end. -/
structure QuotedChunk where
  text : List Char
  length : Nat
  escapedBreak : Bool

/-- A chunk between single quotes; a quote is written twice. -/
def singleChunk : List Char → QuotedChunk
  | '\'' :: '\'' :: rest =>
    let more := singleChunk rest
    { more with text := '\'' :: more.text, length := more.length + 2 }
  | '\'' :: _ => ⟨[], 0, false⟩
  | c :: rest =>
    if isGap c then ⟨[], 0, false⟩
    else
      let more := singleChunk rest
      { more with text := c :: more.text, length := more.length + 1 }
  | [] => ⟨[], 0, false⟩

/-- The characters that are written as a backslash and a letter. -/
def letterEscapes : List (Char × Char) :=
  [('0', '\x00'), ('a', '\x07'), ('b', '\x08'), ('t', '\t'), ('\t', '\t'), ('n', '\n'),
    ('v', '\x0b'), ('f', '\x0c'), ('r', '\r'), ('e', '\x1b'), (' ', ' '), ('"', '"'), ('/', '/'),
    ('\\', '\\'), ('N', '\x85'), ('_', '\xa0'), ('L', '\u2028'), ('P', '\u2029')]

/-- How many hexadecimal digits follow a letter after a backslash. -/
def codeLength? : Char → Option Nat
  | 'x' => some 2
  | 'u' => some 4
  | 'U' => some 8
  | _ => none

/-- Reads exactly `n` hexadecimal digits as a code point. -/
def readCode? (n : Nat) (cs : List Char) : Option Char := do
  let digits := cs.take n
  if digits.length < n then none
  let values ← digits.mapM fun c => (digitValue? c).filter (· < 16)
  let code := ofDigits 16 values
  if h : code.isValidChar then some (Char.ofNatAux code h) else none

/-- Reads what follows a backslash: the character meant, and how many characters it takes. -/
def readEscape : List Char → Except Error (Char × Nat)
  | [] => .error .badEscape
  | c :: rest => match letterEscapes.lookup c with
    | some meant => .ok (meant, 1)
    | none => match codeLength? c with
      | none => .error .badEscape
      | some n => match readCode? n rest with
        | some meant => .ok (meant, n + 1)
        | none => .error .badEscape

/-- A chunk between double quotes. -/
def doubleChunk : (fuel : Nat) → List Char → Except Error QuotedChunk
  | 0, _ => .error .outOfFuel
  | _ + 1, [] => .ok ⟨[], 0, false⟩
  | fuel + 1, c :: rest =>
    if isGap c || c == '"' then .ok ⟨[], 0, false⟩
    else if c == '\\' then
      if rest.head?.any isBreak then .ok ⟨[], 2, true⟩
      else do
        let (meant, n) ← readEscape rest
        let more ← doubleChunk fuel (rest.drop n)
        return { more with text := meant :: more.text, length := more.length + n + 1 }
    else do
      let more ← doubleChunk fuel rest
      return { more with text := c :: more.text, length := more.length + 1 }

/-- Reads a quoted scalar from behind its opening quote. -/
def scanQuoted (single : Bool) : (fuel : Nat) → Cursor → Except Error ScannedScalar
  | 0, _ => .error .outOfFuel
  | fuel + 1, c => do
    if c.atDocumentMark then throw .documentMarkInQuotes
    if c.rest.isEmpty then throw .unclosedQuote
    let chunk ← if single then pure (singleChunk c.rest)
      else doubleChunk (c.rest.length + 1) c.rest
    let c := c.advance chunk.length
    if c.at? (if single then '\'' else '"') then return ⟨chunk.text, c.next, false⟩
    let gap := leadingGap c.rest
    let between := if chunk.escapedBreak then gap.filter isBreak else foldGap gap
    let more ← scanQuoted single fuel (c.advance gap.length)
    return { more with text := chunk.text ++ between ++ more.text }

/-! ## Block scalars -/

/-- What remains of the line ends after the last line. -/
inductive Chomping where
  | strip
  | clip
  | keep
deriving DecidableEq, Repr

/-- The chomping that an indicator stands for. -/
def Chomping.ofChar? : Char → Option Chomping
  | '+' => some .keep
  | '-' => some .strip
  | _ => none

/-- Reads the indicators of a block header, which come in either order: the chomping, the
indentation if it is given, and how many characters they take. -/
def readBlockHeader : List Char → Except Error (Chomping × Option Nat × Nat)
  | [] => .ok (.clip, none, 0)
  | c :: rest =>
    match Chomping.ofChar? c with
    | some chomping => match rest with
      | [] => .ok (chomping, none, 1)
      | d :: _ =>
        if d == '0' then .error .badBlockHeader
        else if d.isDigit then .ok (chomping, some (d.toNat - 48), 2)
        else .ok (chomping, none, 1)
    | none =>
      if c == '0' then .error .badBlockHeader
      else if c.isDigit then match rest with
        | [] => .ok (.clip, some (c.toNat - 48), 1)
        | d :: _ => match Chomping.ofChar? d with
          | some chomping => .ok (chomping, some (c.toNat - 48), 2)
          | none => .ok (.clip, some (c.toNat - 48), 1)
      else .ok (.clip, none, 0)

/-- The empty lines before the next line with content. -/
structure BlockGap where
  /-- The line ends. -/
  breaks : List Char
  /-- The characters passed. -/
  length : Nat
  /-- The greatest column reached. -/
  deepest : Nat

/-- Reads spaces up to column `indent`, or all spaces if it is `none`, and the ends of lines that
hold nothing else. -/
def scanBlockGap (indent : Option Nat) (column : Nat) : List Char → Except Error BlockGap
  | [] => .ok ⟨[], 0, column⟩
  | c :: rest =>
    let low := indent.all (column < ·)
    if isBreak c then do
      let more ← scanBlockGap indent 0 rest
      return ⟨c :: more.breaks, more.length + 1, max column more.deepest⟩
    else if low && c == ' ' then do
      let more ← scanBlockGap indent (column + 1) rest
      return ⟨more.breaks, more.length + 1, max column more.deepest⟩
    else if low && c == '\t' then .error .tabIndentation
    else .ok ⟨[], 0, column⟩

/-- The body of a block scalar that has been read. -/
structure BlockBody where
  text : List Char
  /-- The end of the last line with content. -/
  lastBreak : List Char
  /-- The line ends after it. -/
  trailing : List Char
  after : Cursor

/-- Reads the lines of a block scalar.  `lead` is the end of the line before, `leadBlank` tells
whether that line begins with a blank, and `trail` are the line ends passed since. -/
def scanBlockBody (literal : Bool) (indent : Nat) : (fuel : Nat) → (lead : List Char) →
    (leadBlank : Bool) → (trail : List Char) → Cursor → Except Error BlockBody
  | 0, _, _, _, _ => .error .outOfFuel
  | fuel + 1, lead, leadBlank, trail, c =>
    if c.column != indent || c.rest.isEmpty then .ok ⟨[], lead, trail, c⟩
    else do
      let blank := c.rest.head?.any isBlank
      let folds := !literal && lead == ['\n'] && !leadBlank && !blank
      let joint := if folds then (if trail.isEmpty then [' '] else []) else lead
      let line := c.rest.takeWhile (!isBreak ·)
      let c := c.advance line.length
      let lineEnd := c.rest.take 1
      let c := c.next
      let gap ← scanBlockGap (some indent) c.column c.rest
      let more ← scanBlockBody literal indent fuel lineEnd blank gap.breaks (c.advance gap.length)
      return { more with text := joint ++ trail ++ line ++ more.text }

/-- Reads a block scalar from behind its indicator; `parent` is the indentation of the collection it
belongs to. -/
def scanBlock (literal : Bool) (parent : Int) (c : Cursor) : Except Error ScannedScalar := do
  let (chomping, given, length) ← readBlockHeader c.rest
  let c := (c.advance length).skipWhile isBlank
  let c := if c.at? '#' then c.skipWhile (!isBreak ·) else c
  if !c.rest.isEmpty && !c.rest.head?.any isBreak then throw .badBlockHeader
  let c := c.next
  let fixed := given.map fun n => (max parent 0).toNat + n
  let gap ← scanBlockGap fixed c.column c.rest
  let indent := match fixed with
    | some indent => indent
    | none => max gap.deepest (max (parent + 1) 1).toNat
  let c := c.advance gap.length
  let body ← scanBlockBody literal indent (c.rest.length + 1) [] false gap.breaks c
  let tail := match chomping with
    | .strip => []
    | .clip => body.lastBreak
    | .keep => body.lastBreak ++ body.trailing
  return ⟨body.text ++ tail, body.after, true⟩

end ConfigTree.Yaml
