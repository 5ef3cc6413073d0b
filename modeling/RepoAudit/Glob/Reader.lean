import RepoAudit.Glob.Basic

/-!
# Reading path patterns

`read?` accepts a pattern whose brackets, braces and backslashes are complete. Two stars are
special where they stand for whole components, and plain stars elsewhere. Commas separate only
inside braces, which nest.
-/

namespace RepoAudit.Glob

/-- The patterns that are being read: the tokens of the open one, last token first, and for each
brace around it, innermost first, the branches before it, last branch first, and the tokens before
the brace, last token first. -/
structure Draft where
  /-- The tokens of the open pattern. -/
  tokens : List GlobToken
  /-- The open braces. -/
  braces : List (List (List GlobToken) × List GlobToken)

namespace Draft

/-- The draft with one more token. -/
def push (d : Draft) (t : GlobToken) : Draft :=
  { d with tokens := t :: d.tokens }

/-- Whether the open pattern stands inside braces. -/
def isInside (d : Draft) : Bool :=
  !d.braces.isEmpty

/-- Opens a brace. -/
def openBrace (d : Draft) : Draft :=
  ⟨[], ([], d.tokens) :: d.braces⟩

/-- Starts another branch inside braces. -/
def nextBranch (d : Draft) : Draft :=
  match d.braces with
  | [] => d.push (.literal ',')
  | (branches, outer) :: braces => ⟨[], (d.tokens.reverse :: branches, outer) :: braces⟩

/-- Closes a brace. -/
def closeBrace? (d : Draft) : Option Draft :=
  match d.braces with
  | [] => none
  | (branches, outer) :: braces =>
    some ⟨.anyOf (d.tokens.reverse :: branches).reverse :: outer, braces⟩

/-- The draft after two stars that stand for whole components. Such stars directly after others
add nothing. -/
def pushStars (d : Draft) (t : GlobToken) : Draft :=
  match d.tokens with
  | .leadingDirectories :: _ => d
  | .everythingBelow :: _ => d
  | _ :: before => { d with tokens := t :: before }
  | [] => d

end Draft

/-- The ranges of bytes that a range of characters stands for: each byte of either character by
itself, with the last byte of the one and the first of the other as the ends of a range. -/
def byteRanges (low high : Char) : List (UInt8 × UInt8) :=
  let single (bs : List UInt8) := bs.map fun b => (b, b)
  let lows := String.utf8EncodeChar low
  let highs := String.utf8EncodeChar high
  if low = high then single lows
  else
    match lows.getLast?, highs with
    | some a, b :: rest => single lows.dropLast ++ (a, b) :: single rest
    | _, _ => []

/-- Reads the ranges of a character class up to its closing bracket, given those before, last
range first, and whether a hyphen has just opened a range. A closing bracket or a hyphen that
comes first stands for itself. -/
def readRanges? : (first inRange : Bool) → List (Char × Char) → List Char →
    Option (List (Char × Char) × List Char)
  | _, _, _, [] => none
  | first, inRange, ranges, c :: cs =>
    if c = ']' && !first then
      some ((if inRange then ('-', '-') :: ranges else ranges).reverse, cs)
    else if c = '-' && !first && !inRange then readRanges? false true ranges cs
    else if inRange then
      match ranges with
      | (low, _) :: before =>
        if c < low then none else readRanges? false false ((low, c) :: before) cs
      | [] => none
    else readRanges? false false ((c, c) :: ranges) cs

/-- Reads a character class after its opening bracket. -/
def readClass? (cs : List Char) : Option (GlobToken × List Char) :=
  let negated := cs.head? == some '!' || cs.head? == some '^'
  (readRanges? true false [] (if negated then cs.tail else cs)).map fun (ranges, rest) =>
    (.byteClass negated (ranges.flatMap fun (low, high) => byteRanges low high), rest)

/-- Reads two stars, given the character before them and the text after them. -/
def readStars (before : Option Char) (d : Draft) (cs : List Char) : Draft × List Char :=
  let plain := ((d.push .anyBytes).push .anyBytes, cs)
  if d.tokens.isEmpty then
    match cs with
    | [] => (d.push .leadingDirectories, [])
    | '/' :: rest => (d.push .leadingDirectories, rest)
    | _ => plain
  else if before == some '/' || (d.isInside && (before == some ',' || before == some '{')) then
    match cs with
    | [] => (d.pushStars .everythingBelow, [])
    | '/' :: rest => (d.pushStars .innerDirectories, rest)
    | c :: _ =>
      if d.isInside && (c = ',' || c = '}') then (d.pushStars .everythingBelow, cs) else plain
  else plain

/-- The last character of the part of a text that was passed, or the one before it. -/
def lastPassed (before : Option Char) (passed : List Char) : Option Char :=
  match passed.getLast? with
  | some c => some c
  | none => before

/-- Reads a pattern, given the character before it and what was read so far. -/
def readTokens? : Nat → Option Char → Draft → List Char → Option Draft
  | 0, _, _, _ => none
  | _, _, d, [] => some d
  | fuel + 1, before, d, c :: cs =>
    match c, cs with
    | '?', _ => readTokens? fuel (some c) (d.push .anyByte) cs
    | '*', '*' :: rest =>
      let (d, tail) := readStars before d rest
      readTokens? fuel (lastPassed (some '*') (rest.take (rest.length - tail.length))) d tail
    | '*', _ => readTokens? fuel (some c) (d.push .anyBytes) cs
    | '[', _ =>
      (readClass? cs).bind fun (t, rest) => readTokens? fuel (some ']') (d.push t) rest
    | '{', _ => readTokens? fuel (some c) d.openBrace cs
    | '}', _ => d.closeBrace?.bind fun d => readTokens? fuel (some c) d cs
    | ',', _ => readTokens? fuel (some c) d.nextBranch cs
    | '\\', [] => none
    | '\\', e :: rest => readTokens? fuel (some e) (d.push (.literal e)) rest
    | _, _ => readTokens? fuel (some c) (d.push (.literal c)) cs

/-- Reads a pattern. -/
def read? (text : String) : Option Glob :=
  let cs := text.toList
  (readTokens? (cs.length + 1) none ⟨[], []⟩ cs).bind fun d =>
    if d.isInside then none else some ⟨d.tokens.reverse⟩

end RepoAudit.Glob
