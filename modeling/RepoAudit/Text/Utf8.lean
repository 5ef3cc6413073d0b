/-!
# Reading bytes as text

`decodeStrict?` accepts exactly well-formed UTF-8. `decodeLossy` reads anything: each longest
stretch of bytes that starts no character, or starts one and breaks off, is read as one
replacement character.
-/

namespace RepoAudit.Text

/-- The character that stands for bytes that are no text. -/
def replacement : Char := Char.ofNat 0xFFFD

/-- A continuation byte. -/
def isContinuation (b : UInt8) : Bool :=
  0x80 ≤ b && b ≤ 0xBF

/-- The value that a continuation byte adds below six bits. -/
def continuationBits (b : UInt8) : Nat :=
  b.toNat % 64

/-- Whether `b` may follow `a` as the second byte of a character of three bytes. -/
def isSecondOfThree (a b : UInt8) : Bool :=
  if a == 0xE0 then 0xA0 ≤ b && b ≤ 0xBF
  else if a == 0xED then 0x80 ≤ b && b ≤ 0x9F
  else isContinuation b

/-- Whether `b` may follow `a` as the second byte of a character of four bytes. -/
def isSecondOfFour (a b : UInt8) : Bool :=
  if a == 0xF0 then 0x90 ≤ b && b ≤ 0xBF
  else if a == 0xF4 then 0x80 ≤ b && b ≤ 0x8F
  else isContinuation b

/-- Reads bytes as UTF-8, with a replacement character for each stretch that is not. -/
def decodeBytes : List UInt8 → List Char
  | [] => []
  | a :: rest =>
    if a < 0x80 then Char.ofNat a.toNat :: decodeBytes rest
    else if 0xC2 ≤ a && a ≤ 0xDF then
      match rest with
      | b :: rest' =>
        if isContinuation b then
          Char.ofNat (a.toNat % 32 * 64 + continuationBits b) :: decodeBytes rest'
        else replacement :: decodeBytes (b :: rest')
      | [] => [replacement]
    else if 0xE0 ≤ a && a ≤ 0xEF then
      match rest with
      | b :: rest' =>
        if isSecondOfThree a b then
          match rest' with
          | c :: rest'' =>
            if isContinuation c then
              Char.ofNat (a.toNat % 16 * 4096 + continuationBits b * 64 + continuationBits c) ::
                decodeBytes rest''
            else replacement :: decodeBytes (c :: rest'')
          | [] => [replacement]
        else replacement :: decodeBytes (b :: rest')
      | [] => [replacement]
    else if 0xF0 ≤ a && a ≤ 0xF4 then
      match rest with
      | b :: rest' =>
        if isSecondOfFour a b then
          match rest' with
          | c :: rest'' =>
            if isContinuation c then
              match rest'' with
              | d :: rest''' =>
                if isContinuation d then
                  Char.ofNat (a.toNat % 8 * 262144 + continuationBits b * 4096 +
                    continuationBits c * 64 + continuationBits d) :: decodeBytes rest'''
                else replacement :: decodeBytes (d :: rest''')
              | [] => [replacement]
            else replacement :: decodeBytes (c :: rest'')
          | [] => [replacement]
        else replacement :: decodeBytes (b :: rest')
      | [] => [replacement]
    else replacement :: decodeBytes rest

/-- Reads any bytes as text. -/
def decodeLossy (bytes : ByteArray) : String :=
  String.ofList (decodeBytes bytes.toList)

/-- Reads bytes as text, if they are UTF-8 throughout. -/
def decodeStrict? (bytes : ByteArray) : Option String :=
  String.fromUTF8? bytes

/-- The UTF-8 form of a text. -/
def encode (s : String) : ByteArray :=
  s.toUTF8

end RepoAudit.Text
