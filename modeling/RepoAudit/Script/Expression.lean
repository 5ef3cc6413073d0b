import RepoAudit.Script.Nesting
import RepoAudit.Text.Match
import RepoAudit.Text.Blank

/-!
# Markup expressions

An expression is cut at the plus signs outside any bracket into operands. An operand is a string,
a template, a call of an escaping function, or dynamic. `needsEscaping` says whether a dynamic
part of a concatenation or a template reaches the markup unescaped; `escape` sends every such
part through the helper.
-/

namespace RepoAudit.Script

open RepoAudit.Text

/-- The calls whose result counts as escaped. -/
def escapingCalls : List String :=
  ["sanitize(", "escapeHtml(", "escape(", "DOMPurify.sanitize("]

/-- The helper that escapes a value. -/
def helperName : String := "sanitize"

/-- The text by which a definition of the helper is known. -/
def helperMarker : String := "const sanitize = (str)"

/-- The definition of the helper. -/
def helperSource : String :=
  "const sanitize = (str) => String(str).replace(/&/g, '&amp;').replace(/</g, '&lt;')" ++
    ".replace(/>/g, '&gt;').replace(/\"/g, '&quot;').replace(/'/g, '&#39;');"

/-- The operands of the expression that goes on with a text. -/
def operandsFrom (s : Nesting) : List Char → List (List Char)
  | [] => [[]]
  | c :: cs =>
    if c = '+' && s.isFlat then [] :: operandsFrom (s.step false c) cs
    else
      match operandsFrom (s.step false c) cs with
      | operand :: operands => (c :: operand) :: operands
      | [] => [[c]]

/-- The operands of an expression, as written between its outermost plus signs. -/
def operands (expression : List Char) : List (List Char) :=
  operandsFrom .start expression

/-- Whether a text starts with a call of an escaping function. -/
def startsWithEscape (cs : List Char) : Bool :=
  escapingCalls.any fun call => startsWith cs call.toList

/-- An operand by its kind, trimmed. -/
inductive Operand where
  /-- A quoted string. -/
  | literal (text : List Char)
  /-- A template. -/
  | template (text : List Char)
  /-- A call of an escaping function. -/
  | escaped (text : List Char)
  /-- Anything else. -/
  | dynamic (text : List Char)
deriving DecidableEq, Repr

/-- Whether a text of at least two characters starts and ends with a quote. -/
def isQuotedBy (quote : Char) (cs : List Char) : Bool :=
  2 ≤ cs.length && cs.head? == some quote && cs.getLast? == some quote

/-- The kind of an operand. -/
def classify (operand : List Char) : Operand :=
  let t := trim operand
  if isQuotedBy '\'' t || isQuotedBy '"' t then .literal t
  else if isQuotedBy backtick t then .template t
  else if startsWithEscape t then .escaped t
  else .dynamic t

/-- A stretch of a template: what is written as it stands, or the inside of an interpolation. -/
inductive Stretch where
  /-- Text of the template, the marks of its interpolations included. -/
  | verbatim (text : List Char)
  /-- The inside of an interpolation. -/
  | inside (text : List Char)
deriving DecidableEq, Repr

/-- The text of a stretch. -/
def Stretch.text : Stretch → List Char
  | .verbatim cs => cs
  | .inside cs => cs

/-- How much of a text lies inside an interpolation that has just been opened: up to the brace
that closes it, other braces being counted, or to the end. -/
def insideLength : Nat → List Char → Nat
  | _, [] => 0
  | depth, c :: cs =>
    if c = '{' then insideLength (depth + 1) cs + 1
    else if c = '}' then
      match depth with
      | 0 => 0
      | depth + 1 => insideLength depth cs + 1
    else insideLength depth cs + 1

/-- Puts a character in front of the first stretch, which is verbatim. -/
def consVerbatim (c : Char) : List Stretch → List Stretch
  | .verbatim cs :: rest => .verbatim (c :: cs) :: rest
  | rest => .verbatim [c] :: rest

/-- The stretches of the rest of a template. Its first `skip` characters belong to an
interpolation that was cut off already, and the `copy` characters after them have no meaning. -/
def stretchesFrom : (skip copy : Nat) → List Char → List Stretch
  | _, _, [] => []
  | skip + 1, copy, _ :: cs => stretchesFrom skip copy cs
  | 0, copy + 1, c :: cs => consVerbatim c (stretchesFrom 0 copy cs)
  | 0, 0, c :: cs =>
    if c = '\\' then consVerbatim c (stretchesFrom 0 1 cs)
    else if c = '$' && cs.head? == some '{' then
      let n := insideLength 0 cs.tail
      .verbatim [c, '{'] :: .inside (cs.tail.take n) :: stretchesFrom (n + 1) 0 cs
    else consVerbatim c (stretchesFrom 0 0 cs)

/-- The stretches of a template, its quotes included. -/
def stretches (template : List Char) : List Stretch :=
  stretchesFrom 0 0 template

/-- Whether an interpolation of a template is not a call of an escaping function. -/
def templateIsUnsafe (template : List Char) : Bool :=
  (stretches template).any fun
    | .inside cs => !startsWithEscape (trim cs)
    | .verbatim _ => false

/-- A text sent through the helper. -/
def wrap (cs : List Char) : List Char :=
  helperName.toList ++ '(' :: cs ++ [')']

/-- The template with every interpolation sent through the helper, unless it is escaped. -/
def escapeTemplate (template : List Char) : List Char :=
  (stretches template).flatMap fun
    | .verbatim cs => cs
    | .inside cs => if startsWithEscape (trim cs) then trim cs else wrap (trim cs)

/-- Whether an operand of a concatenation has a dynamic part that is not escaped. -/
def Operand.isUnsafe : Operand → Bool
  | .dynamic t => !t.isEmpty
  | .template t => templateIsUnsafe t
  | .literal _ => false
  | .escaped _ => false

/-- An operand of a concatenation with its dynamic parts sent through the helper. -/
def Operand.escape : Operand → List Char
  | .literal t => t
  | .escaped t => t
  | .template t => escapeTemplate t
  | .dynamic t => wrap t

/-- Whether an expression is a template or a concatenation with a dynamic part that is not
escaped. A lone expression of another kind is left alone. -/
def needsEscaping (expression : List Char) : Bool :=
  match operands expression with
  | [operand] =>
    match classify operand with
    | .template t => templateIsUnsafe t
    | _ => false
  | operands => operands.any fun o => (classify o).isUnsafe

/-- The expression with every dynamic part sent through the helper. -/
def escape (expression : List Char) : List Char :=
  match operands expression with
  | [operand] =>
    match classify operand with
    | .template t => escapeTemplate t
    | _ => expression
  | operands => [' ', '+', ' '].intercalate (operands.map fun o => (classify o).escape)

end RepoAudit.Script
