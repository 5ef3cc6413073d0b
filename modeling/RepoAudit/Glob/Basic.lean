/-!
# Path patterns

What a path pattern matches. A pattern is a list of tokens, and it works on the bytes of a path
with slashes between its components. `ends` answers which rests of a path a token or a pattern can
leave; a pattern matches a path when it can leave nothing. Stars, question marks and character
classes do not stop at slashes.
-/

namespace RepoAudit

/-- A part of a path pattern. -/
inductive GlobToken where
  /-- One given character. -/
  | literal (c : Char)
  /-- Any one byte. -/
  | anyByte
  /-- Any bytes. -/
  | anyBytes
  /-- Nothing, a slash, or any bytes and a slash: two stars that start a pattern. -/
  | leadingDirectories
  /-- A slash and any bytes: two stars that end a pattern. -/
  | everythingBelow
  /-- A slash, or two slashes and any bytes between them: two stars inside a pattern. -/
  | innerDirectories
  /-- One byte that lies in one of some ranges, or in none of them. -/
  | byteClass (negated : Bool) (ranges : List (UInt8 × UInt8))
  /-- Any one of some patterns. -/
  | anyOf (branches : List (List GlobToken))

/-- A path pattern. -/
structure Glob where
  /-- Its tokens. -/
  tokens : List GlobToken

/-- The bytes of a path. -/
abbrev Bytes := List UInt8

/-- The byte of a slash. -/
def slashByte : UInt8 := 0x2F

/-- The rests of a path after any number of its bytes. -/
def restsAfterAny : Bytes → List Bytes
  | [] => [[]]
  | b :: bs => (b :: bs) :: restsAfterAny bs

/-- The rests of a path after each of its slashes. -/
def restsAfterSlashes : Bytes → List Bytes
  | [] => []
  | b :: bs => if b = slashByte then bs :: restsAfterSlashes bs else restsAfterSlashes bs

/-- Whether a byte lies in one of some ranges. -/
def isInRanges (ranges : List (UInt8 × UInt8)) (b : UInt8) : Bool :=
  ranges.any fun (low, high) => low ≤ b && b ≤ high

mutual

/-- Whether a token stands for no text at all: a choice without any branch that says something.
Such a choice is as good as absent. -/
def GlobToken.isVoid : GlobToken → Bool
  | .anyOf branches => areVoid branches
  | _ => false

/-- Whether every token of a pattern stands for no text at all. -/
def isVoidPattern : List GlobToken → Bool
  | [] => true
  | t :: ts => t.isVoid && isVoidPattern ts

/-- Whether every branch of a choice says nothing. -/
def areVoid : List (List GlobToken) → Bool
  | [] => true
  | branch :: branches => isVoidPattern branch && areVoid branches

end

mutual

/-- The rests that a token can leave of a path. -/
def GlobToken.ends : GlobToken → Bytes → List Bytes
  | .literal c, bs =>
    let written := String.utf8EncodeChar c
    if written.isPrefixOf bs then [bs.drop written.length] else []
  | .anyByte, [] => []
  | .anyByte, _ :: bs => [bs]
  | .anyBytes, bs => restsAfterAny bs
  | .leadingDirectories, bs => bs :: restsAfterSlashes bs
  | .everythingBelow, [] => []
  | .everythingBelow, b :: bs => if b = slashByte then restsAfterAny bs else []
  | .innerDirectories, [] => []
  | .innerDirectories, b :: bs => if b = slashByte then bs :: restsAfterSlashes bs else []
  | .byteClass _ _, [] => []
  | .byteClass negated ranges, b :: bs => if isInRanges ranges b != negated then [bs] else []
  | .anyOf branches, bs => if areVoid branches then [bs] else endsOfAny branches bs

/-- The rests that a pattern can leave of a path. -/
def patternEnds : List GlobToken → Bytes → List Bytes
  | [], bs => [bs]
  | t :: ts, bs => ((t.ends bs).flatMap (patternEnds ts)).eraseDups

/-- The rests that the branches of a choice can leave; a branch that says nothing does not count. -/
def endsOfAny : List (List GlobToken) → Bytes → List Bytes
  | [], _ => []
  | branch :: branches, bs =>
    (if isVoidPattern branch then [] else patternEnds branch bs) ++ endsOfAny branches bs

end

namespace Glob

/-- Whether a pattern matches a path. Two stars alone match everything. -/
def isMatch (g : Glob) (path : Bytes) : Bool :=
  match g.tokens with
  | [.leadingDirectories] => true
  | tokens => (patternEnds tokens path).any List.isEmpty

end Glob

end RepoAudit
