import ConfigTree.Template.Basic

/-!
# Tags of a template

How the inside of a tag is read.  Each reader takes the characters that remain and answers what it
has read together with the rest, or nothing if this is no such thing.
-/

namespace ConfigTree.Template

/-- May blanks of this kind stand between the words of a tag? -/
def isTagBlank (c : Char) : Bool :=
  c == ' ' || c == '\t' || c == '\n' || c == '\r'

/-- The text from its first character on that is no blank. -/
def skipBlanks (cs : List Char) : List Char :=
  cs.dropWhile isTagBlank

/-- A character of a name. -/
def isNameChar (c : Char) : Bool :=
  c.isAlphanum || c == '_' || c == '-' || c == '$' || 0x80 ≤ c.toNat

/-- Passes over a given text. -/
def expect (what : String) (cs : List Char) : Option (List Char) :=
  if what.toList.isPrefixOf cs then some (cs.drop what.length) else none

/-- Reads a name. -/
def readName (cs : List Char) : Option (String × List Char) :=
  let name := cs.takeWhile isNameChar
  if name.isEmpty then none else some (String.ofList name, cs.drop name.length)

/-! ## Paths -/

/-- Reads a name or any text between brackets. -/
def readPathItem : List Char → Option (String × List Char)
  | '[' :: rest =>
    let inside := rest.takeWhile (· != ']')
    match rest.drop inside.length with
    | _ :: after => some (String.ofList inside, after)
    | [] => none
  | cs => readName cs

/-- Does a separator of a path stand here? -/
def startsSeparator (cs : List Char) : Bool :=
  cs.head? == some '.' || cs.head? == some '/'

/-- Reads the items of a path behind the first one. -/
def readPathItems : (fuel : Nat) → List Char → List String × List Char
  | 0, cs => ([], cs)
  | fuel + 1, cs =>
    if startsSeparator cs then
      match readPathItem (cs.drop 1) with
      | some (name, rest) =>
        let (more, rest) := readPathItems fuel rest
        (name :: more, rest)
      | none => ([], cs)
    else ([], cs)

/-- Counts the steps out of blocks at the start of a path. -/
def readSteps : (fuel : Nat) → List Char → Nat × List Char
  | fuel + 1, '.' :: '.' :: c :: rest =>
    if c == '.' || c == '/' then
      let (n, rest) := readSteps fuel rest
      (n + 1, rest)
    else (0, '.' :: '.' :: c :: rest)
  | _, cs => (0, cs)

/-- Reads a path.  The word `this` adds nothing to it. -/
def readPath (cs : List Char) : Option (ValuePath × List Char) := do
  let cs := ((expect "this." cs).or (expect "this/" cs)).or (expect "./" cs) |>.getD cs
  let (fromRoot, cs) := match (expect "@root." cs).or (expect "@root/" cs) with
    | some rest => (true, rest)
    | none => (false, cs)
  let (isLocal, cs) := match cs with
    | '@' :: rest => (true, rest)
    | _ => (false, cs)
  let (up, cs) := readSteps cs.length cs
  let (first, cs) ← readPathItem cs
  let (more, cs) := readPathItems cs.length cs
  return (⟨fromRoot, isLocal, up, (first :: more).filter (· != "this")⟩, cs)

/-! ## Literals -/

/-- The character meant by a letter behind a backslash. -/
def unescapeLetter (c : Char) : Char :=
  match c with
  | 'n' => '\n'
  | 't' => '\t'
  | 'r' => '\r'
  | 'b' => '\x08'
  | 'f' => '\x0c'
  | c => c

/-- Reads a quoted text from behind its opening quote. -/
def readQuoted (quote : Char) : List Char → Option (List Char × List Char)
  | [] => none
  | '\\' :: c :: rest => do
    let (more, rest) ← readQuoted quote rest
    return (unescapeLetter c :: more, rest)
  | c :: rest =>
    if c == quote then some ([], rest)
    else do
      let (more, rest) ← readQuoted quote rest
      return (c :: more, rest)

/-- Reads digits, a point and digits, with an optional minus sign. -/
def readNumber (cs : List Char) : Option (String × List Char) := do
  let (sign, unsigned) := match cs with
    | '-' :: rest => (['-'], rest)
    | _ => ([], cs)
  let whole := unsigned.takeWhile Char.isDigit
  if whole.isEmpty then none
  let rest := unsigned.drop whole.length
  let (fraction, rest) := match rest with
    | '.' :: after =>
      let digits := after.takeWhile Char.isDigit
      ('.' :: digits, after.drop digits.length)
    | _ => ([], rest)
  if rest.head?.any isNameChar then none
  return (String.ofList (sign ++ whole ++ fraction), rest)

/-- Reads one of the words that are literals. -/
def readWord (cs : List Char) : Option (Datum × List Char) := do
  let (name, rest) ← readName cs
  match name with
  | "null" => return (.null, rest)
  | "true" => return (.bool true, rest)
  | "false" => return (.bool false, rest)
  | _ => none

/-- Reads a literal. -/
def readLiteral (cs : List Char) : Option (Datum × List Char) :=
  match cs with
  | '"' :: rest => (readQuoted '"' rest).map fun (s, rest) => (.text (String.ofList s), rest)
  | '\'' :: rest => (readQuoted '\'' rest).map fun (s, rest) => (.text (String.ofList s), rest)
  | _ => ((readNumber cs).map fun (digits, rest) => (.number digits, rest)).or (readWord cs)

/-! ## Terms -/

mutual
/-- Reads an argument.  The words `as` and `else` are none. -/
def readArgument : (fuel : Nat) → List Char → Option (Term × List Char)
  | 0, _ => none
  | fuel + 1, cs =>
    match readName cs with
    | some ("as", _) => none
    | some ("else", _) => none
    | _ => match readLiteral cs with
      | some (value, rest) => some (.literal value, rest)
      | none => match readPath cs with
        | some (path, rest) => some (.path path, rest)
        | none => readNested fuel cs

/-- Reads a call or a path between parentheses. -/
def readNested : (fuel : Nat) → List Char → Option (Term × List Char)
  | fuel + 1, '(' :: cs => do
    let (term, rest) ← readCall fuel (skipBlanks cs)
    let rest ← expect ")" (skipBlanks rest)
    return (term, rest)
  | _, _ => none

/-- Reads a helper with its arguments, or else a single path. -/
def readCall : (fuel : Nat) → List Char → Option (Term × List Char)
  | 0, _ => none
  | fuel + 1, cs =>
    let called : Option (Term × List Char) := do
      let (helper, rest) ← readName cs
      let (arguments, rest) ← readArguments fuel rest
      if arguments.isEmpty then none
      return (.call helper arguments, rest)
    called.or ((readPath cs).map fun (path, rest) => (.path path, rest))

/-- Reads arguments, each after optional blanks.  Named ones are passed over. -/
def readArguments : (fuel : Nat) → List Char → Option (List Term × List Char)
  | 0, _ => none
  | fuel + 1, cs =>
    let next := skipBlanks cs
    let named : Option (Term × List Char) := do
      let (_, rest) ← readName next
      let rest ← expect "=" (skipBlanks rest)
      readArgument fuel (skipBlanks rest)
    match named with
    | some (_, rest) => readArguments fuel rest
    | none => match readArgument fuel next with
      | some (term, rest) => do
        let (more, rest) ← readArguments fuel rest
        return (term :: more, rest)
      | none => some ([], cs)
end

/-- Reads what a value tag holds. -/
def readTerm (cs : List Char) : Option (Term × List Char) :=
  (readCall (3 * cs.length + 3) cs).or (readNested (3 * cs.length + 3) cs)

/-- Reads the names that a block gives, between bars. -/
def readBinds (cs : List Char) : Option (List String × List Char) :=
  let read : Option (List String × List Char) := do
    let rest ← expect "|" (skipBlanks (← expect "as" (skipBlanks cs)))
    let (first, rest) ← readName (skipBlanks rest)
    let (second, rest) := match readName (skipBlanks rest) with
      | some (name, rest) => ([name], rest)
      | none => ([], rest)
    let rest ← expect "|" (skipBlanks rest)
    return (first :: second, rest)
  match read with
  | some found => some found
  | none => some ([], cs)

/-- Reads the head of a block. -/
def readHead (cs : List Char) : Option (Head × List Char) := do
  let (helper, rest) ← readName cs
  let (arguments, rest) ← readArguments (3 * rest.length + 3) rest
  let (binds, rest) ← readBinds rest
  return (⟨helper, arguments, binds⟩, rest)

end ConfigTree.Template
