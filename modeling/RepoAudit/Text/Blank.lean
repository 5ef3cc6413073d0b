/-!
# Blank characters

The characters that count as white space everywhere in the library, and trimming by them. A text
is a list of characters.
-/

namespace RepoAudit.Text

/-- White space: the ASCII controls from tab to carriage return, the space, and the spaces and
line separators beyond ASCII. -/
def isBlank (c : Char) : Bool :=
  let n := c.toNat
  (9 ≤ n && n ≤ 13) || n == 0x20 || n == 0x85 || n == 0xA0 || n == 0x1680 ||
    (0x2000 ≤ n && n ≤ 0x200A) || n == 0x2028 || n == 0x2029 || n == 0x202F ||
    n == 0x205F || n == 0x3000

/-- The text without its leading blanks. -/
def trimStart (cs : List Char) : List Char :=
  cs.dropWhile isBlank

/-- The text without its trailing blanks. -/
def trimEnd (cs : List Char) : List Char :=
  (cs.reverse.dropWhile isBlank).reverse

/-- The text without the blanks at its two ends. -/
def trim (cs : List Char) : List Char :=
  trimEnd (trimStart cs)

/-- The leading blanks of a text: the indentation of a line. -/
def indent (cs : List Char) : List Char :=
  cs.takeWhile isBlank

/-- A text of blanks alone, the empty text included. -/
def isBlankText (cs : List Char) : Bool :=
  cs.all isBlank

@[simp] theorem indent_append_trimStart (cs : List Char) : indent cs ++ trimStart cs = cs :=
  List.takeWhile_append_dropWhile

/-- `trim` on strings. -/
def trimString (s : String) : String :=
  String.ofList (trim s.toList)

end RepoAudit.Text
