/-!
# Letter case

Case is looked at in two ways: ASCII letters alone, and keywords in text of any script. The
keywords are ASCII, and beyond ASCII only a handful of characters have an ASCII letter in their
other case; those are the ones listed here, and every other character is kept.
-/

namespace RepoAudit.Text

/-- The lower case of a text as far as ASCII keywords can tell: ASCII letters, the Kelvin sign and
the capital I with a dot, which becomes an i and a combining dot. -/
def lowerKeywords (cs : List Char) : List Char :=
  cs.flatMap fun c =>
    if c.toNat = 0x212A then ['k']
    else if c.toNat = 0x130 then ['i', Char.ofNat 0x307]
    else [c.toLower]

/-- The upper case of a text as far as ASCII keywords can tell: ASCII letters, the dotless i, the
long s, and the sharp s and the ligatures, which become several letters. -/
def upperKeywords (cs : List Char) : List Char :=
  cs.flatMap fun c =>
    match c.toNat with
    | 0x131 => ['I']
    | 0x17F => ['S']
    | 0xDF => ['S', 'S']
    | 0xFB00 => ['F', 'F']
    | 0xFB01 => ['F', 'I']
    | 0xFB02 => ['F', 'L']
    | 0xFB03 => ['F', 'F', 'I']
    | 0xFB04 => ['F', 'F', 'L']
    | 0xFB05 => ['S', 'T']
    | 0xFB06 => ['S', 'T']
    | 0x1F0 => ['J', Char.ofNat 0x30C]
    | 0x1E96 => ['H', Char.ofNat 0x331]
    | 0x1E97 => ['T', Char.ofNat 0x308]
    | 0x1E98 => ['W', Char.ofNat 0x30A]
    | 0x1E99 => ['Y', Char.ofNat 0x30A]
    | 0x1E9A => ['A', Char.ofNat 0x2BE]
    | 0x149 => [Char.ofNat 0x2BC, 'N']
    | _ => [c.toUpper]

/-- Equality up to the case of ASCII letters. -/
def sameIgnoringCase (as bs : List Char) : Bool :=
  as.map Char.toLower == bs.map Char.toLower

end RepoAudit.Text
