import ConfigTree.Template.Tag
import ConfigTree.Text.Basic

/-!
# From a text to a template

`parse?` reads a template in three steps: the text is cut at its tags, the text between tags is
trimmed, and the tags that open and close blocks are paired.

Text is trimmed for two reasons.  A tilde inside a tag drops all blanks on its side.  A tag that is
alone on its line and puts in nothing takes the line with it, except a value.  A backslash before
two braces makes them text.
-/

namespace ConfigTree.Template

/-! ## Cutting -/

/-- What a tag does. -/
inductive Tag where
  | value (term : Term)
  | openBlock (closing : String) (head : Head)
  /-- The start of what is rendered if the block before declines, perhaps a block itself. -/
  | otherwise (head : Option Head)
  | closeBlock (name : String)
  /-- A block whose inside is text. -/
  | verbatim (head : Head) (inside : List Char)
  | comment
  | partialTemplate

/-- A tag and what it does to the text around it. -/
structure Mark where
  tag : Tag
  trimsBefore : Bool
  trimsAfter : Bool
  /-- Is it alone on its line? -/
  standsAlone : Bool

/-- A stretch of text or a tag. -/
inductive Cut where
  | text (content : List Char)
  | mark (mark : Mark)

/-- Passes over blanks and a tilde. -/
def readTilde (cs : List Char) : Bool × List Char :=
  match skipBlanks cs with
  | '~' :: rest => (true, skipBlanks rest)
  | rest => (false, rest)

/-- Passes over the end of a tag and tells whether there is a tilde in it. -/
def readTagEnd (closing : String) (cs : List Char) : Option (Bool × List Char) := do
  let (tilde, rest) := readTilde cs
  return (tilde, ← expect closing rest)

/-- A tag without its place: what it does, the tildes at its ends, and the rest of the text. -/
abbrev OpenTag := Tag × Bool × Bool × List Char

/-- Reads a comment from behind its exclamation mark. -/
def readComment (cs : List Char) : Option (List Char) :=
  let behind (closing : String) := (List.range (cs.length + 1)).findSome? fun n =>
    expect closing (cs.drop n)
  if "--".toList.isPrefixOf (skipBlanks cs) then
    (behind "--\x7d\x7d").or (behind "\x7d\x7d")
  else behind "\x7d\x7d"

/-- Reads a tag that puts in a value between three braces. -/
def readTriple (tilde : Bool) (cs : List Char) : Option OpenTag := do
  let (inner, cs) := readTilde cs
  let (term, cs) ← readTerm cs
  let (after, cs) ← readTagEnd "\x7d" cs
  let (outer, cs) ← readTagEnd "\x7d\x7d" cs
  return (.value term, tilde || inner, after || outer, cs)

/-- Reads the word or sign that begins the other branch of a block, and what follows. -/
def readOtherwise (cs : List Char) : Option (Tag × Bool × List Char) := do
  let cs ← (expect "else" cs).or (expect "^" cs)
  match readTagEnd "\x7d\x7d" cs with
  | some (tilde, rest) => return (.otherwise none, tilde, rest)
  | none =>
    let (head, cs) ← readHead (skipBlanks cs)
    let (tilde, rest) ← readTagEnd "\x7d\x7d" cs
    return (.otherwise (some head), tilde, rest)

/-- Reads the end of a tag behind what it does. -/
def finish (tag : Tag) (tilde : Bool) (cs : List Char) : Option OpenTag := do
  let (after, rest) ← readTagEnd "\x7d\x7d" cs
  return (tag, tilde, after, rest)

/-- Reads a reference to another template. -/
def readPartialName (cs : List Char) : Option (String × List Char) := do
  let name := cs.takeWhile fun c => isNameChar c || c == '/' || c == '.'
  if name.isEmpty then none
  let rest := cs.drop name.length
  let (_, rest) ← readArguments (3 * rest.length + 3) rest
  return (String.ofList name, rest)

/-- Reads a tag from behind its first two braces. -/
def readTag (cs : List Char) : Option OpenTag :=
  match cs with
  | '!' :: rest => (readComment rest).map fun rest => (.comment, false, false, rest)
  | _ =>
    let (tilde, cs) := readTilde cs
    match cs with
    | '{' :: rest => readTriple tilde rest
    | '&' :: rest => do
      let (path, rest) ← readPath (skipBlanks rest)
      finish (.value (.path path)) tilde rest
    | '#' :: rest => match skipBlanks rest with
      | '>' :: rest => do
        let (name, rest) ← readPartialName (skipBlanks rest)
        finish (.openBlock name ⟨">", [], []⟩) tilde rest
      | rest => do
        let (head, rest) ← readHead rest
        finish (.openBlock head.helper head) tilde rest
    | '/' :: rest => do
      let (name, rest) ← readName (skipBlanks rest)
      finish (.closeBlock name) tilde rest
    | '>' :: rest => do
      let (_, rest) ← readPartialName (skipBlanks rest)
      finish .partialTemplate tilde rest
    | '*' :: rest => do
      let (_, rest) ← readHead (skipBlanks rest)
      finish .partialTemplate tilde rest
    | _ => match readOtherwise cs with
      | some (tag, after, rest) => some (tag, tilde, after, rest)
      | none => do
        let (term, rest) ← readTerm cs
        finish (.value term) tilde rest

/-- Reads the text of a verbatim block up to four braces. -/
def readVerbatimText : List Char → List Char × List Char
  | [] => ([], [])
  | c :: rest =>
    if "\x7b\x7b\x7b\x7b".toList.isPrefixOf (c :: rest) then ([], c :: rest)
    else
      let (text, rest) := readVerbatimText rest
      (c :: text, rest)

/-- Reads a verbatim block from behind its first four braces. -/
def readVerbatim (cs : List Char) : Option OpenTag := do
  let (tilde, cs) := readTilde cs
  let (head, cs) ← readHead cs
  let (_, cs) ← readTagEnd "\x7d\x7d\x7d\x7d" cs
  let (inside, cs) := readVerbatimText (skipBlanks cs)
  let (_, cs) := readTilde (cs.drop 4)
  let (name, cs) ← readName (skipBlanks (← expect "/" cs))
  let (after, cs) ← readTagEnd "\x7d\x7d\x7d\x7d" cs
  if name = head.helper then return (.verbatim head inside, tilde, after, cs) else none

/-- A space or a tab. -/
def isLineBlank (c : Char) : Bool :=
  c == ' ' || c == '\t'

/-- Does nothing but blanks stand between here and the end of the line, reading in one direction? -/
def atLineEnd (cs : List Char) : Bool :=
  let rest := cs.dropWhile isLineBlank
  rest.head?.all fun c => c == '\n' || c == '\r'

/-- Is what follows a tag the end of its line?  At the very end of a text nothing may follow at
all. -/
def endsLine (rest : List Char) : Bool :=
  rest.isEmpty || (!(rest.dropWhile isLineBlank).isEmpty && atLineEnd rest)

/-- Does a tag of this kind take its line with it? -/
def Tag.takesLine : Tag → Bool
  | .value _ => false
  | _ => true

/-- A stretch of text, given in reverse, unless it is empty. -/
def textCut (reversed : List Char) : List Cut :=
  if reversed.isEmpty then [] else [.text reversed.reverse]

/-- Cuts a text at its tags.  `before` is what has been read, in reverse, and `text` what of it has
been read since the last tag, without the backslashes that make braces text. -/
def cut? : (fuel : Nat) → (before text : List Char) → List Char → Option (List Cut)
  | 0, _, _, _ => none
  | _ + 1, _, text, [] => some (textCut text)
  | fuel + 1, before, text, c :: rest =>
    let cs := c :: rest
    let slashes := cs.takeWhile (· == '\\')
    let behind := cs.drop slashes.length
    if c == '\\' && "\x7b\x7b".toList.isPrefixOf behind then
      if slashes.length == 1 then
        let braces := if "\x7b\x7b\x7b\x7b".toList.isPrefixOf behind then 4 else 2
        cut? fuel ((cs.take (braces + 1)).reverse ++ before) ((behind.take braces).reverse ++ text)
          (behind.drop braces)
      else cut? fuel (slashes ++ before) (slashes.drop 1 ++ text) behind
    else if "\x7b\x7b".toList.isPrefixOf cs then do
      let (tag, trimsBefore, trimsAfter, after) ←
        if "\x7b\x7b\x7b\x7b".toList.isPrefixOf cs then readVerbatim (cs.drop 4)
        else readTag (cs.drop 2)
      let standsAlone := tag.takesLine && atLineEnd before && endsLine after
      let passed := cs.take (cs.length - after.length)
      let more ← cut? fuel (passed.reverse ++ before) [] after
      return textCut text ++ .mark ⟨tag, trimsBefore, trimsAfter, standsAlone⟩ :: more
    else cut? fuel (c :: before) (c :: text) rest

/-! ## Trimming -/

/-- Drops one line end. -/
def dropLineEnd : List Char → List Char
  | '\r' :: '\n' :: rest => rest
  | '\n' :: rest => rest
  | cs => cs

/-- Trims the start of a text behind a tag. -/
def trimAfter (mark : Mark) (cs : List Char) : List Char :=
  if mark.trimsAfter then cs.dropWhile Text.isBlank
  else if mark.standsAlone then dropLineEnd (cs.dropWhile isLineBlank)
  else cs

/-- Trims the end of a text before a tag. -/
def trimBefore (mark : Mark) (cs : List Char) : List Char :=
  let cs := if mark.trimsBefore then Text.trimRight Text.isBlank cs else cs
  if mark.standsAlone then Text.trimRight isLineBlank cs else cs

/-- Trims the text between tags.  Blanks behind the last tag stay as they are. -/
def trimCuts (previous : Option Mark) : List Cut → List Cut
  | [] => []
  | .mark mark :: rest => .mark mark :: trimCuts (some mark) rest
  | .text cs :: .mark next :: rest =>
    let cs := match previous with
      | some mark => trimAfter mark cs
      | none => cs
    .text (trimBefore next cs) :: .mark next :: trimCuts (some next) rest
  | .text cs :: rest =>
    let cs := match previous with
      | some mark => if cs.all isTagBlank then cs else trimAfter mark cs
      | none => cs
    .text cs :: trimCuts none rest

/-! ## Pairing -/

/-- A block that has been opened. -/
structure Frame where
  /-- The name that closes it. -/
  closing : String
  /-- The branches that are complete, the last one first. -/
  branches : List (Head × List Part)
  /-- The head of the branch that is being read; `none` for the last resort. -/
  head : Option Head
  /-- The parts that come before the block, in reverse. -/
  before : List Part

/-- The block of a frame, whose last branch has the given parts. -/
def Frame.close (frame : Frame) (parts : List Part) : List Part :=
  let (start, branches) := match frame.head with
    | none => (some parts, frame.branches)
    | some head => (none, (head, parts) :: frame.branches)
  (branches.foldl (fun otherwise (head, body) => some [.block head body otherwise]) start).getD []

/-- Pairs the tags of blocks; `parts` are those of the innermost block so far, in reverse. -/
def pairTags? (frames : List Frame) (parts : List Part) : List Cut → Option (List Part)
  | [] => if frames.isEmpty then some parts.reverse else none
  | .text cs :: rest => pairTags? frames (.text (String.ofList cs) :: parts) rest
  | .mark mark :: rest => match mark.tag with
    | .value term => pairTags? frames (.value term :: parts) rest
    | .comment => pairTags? frames parts rest
    | .partialTemplate => pairTags? frames (.partialTemplate :: parts) rest
    | .verbatim head inside =>
      pairTags? frames (.block head [.text (String.ofList inside)] none :: parts) rest
    | .openBlock closing head => pairTags? (⟨closing, [], some head, parts⟩ :: frames) [] rest
    | .otherwise head => match frames with
      | [] => none
      | frame :: outer => match frame.head with
        | none => none
        | some current =>
          let branches := (current, parts.reverse) :: frame.branches
          pairTags? ({ frame with branches := branches, head := head } :: outer) [] rest
    | .closeBlock name => match frames with
      | [] => none
      | frame :: outer =>
        if name = frame.closing then
          pairTags? outer ((frame.close parts.reverse).reverse ++ frame.before) rest
        else none

/-- Reads a template. -/
def parse? (text : String) : Option (List Part) := do
  let cs := text.toList
  pairTags? [] [] (trimCuts none (← cut? (cs.length + 1) [] [] cs))

end ConfigTree.Template
