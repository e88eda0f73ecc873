/-
  Ghostline.Text — Go's strings, as far as they are used: byte strings, in UTF-8 or not, and
  lists of characters where the text is known to be valid.
-/

import Ghostline.Types

namespace Ghostline

/-- The bytes of a text. -/
def utf8 (s : String) : List Byte := s.toUTF8.data.toList

/-! ## White space -/

/-- The encodings of white space. -/
def spaces : List (List Byte) :=
  [[0x09], [0x0a], [0x0b], [0x0c], [0x0d], [0x20], [0xc2, 0x85], [0xc2, 0xa0], [0xe1, 0x9a, 0x80], [0xe2, 0x80, 0x80],
    [0xe2, 0x80, 0x81], [0xe2, 0x80, 0x82], [0xe2, 0x80, 0x83], [0xe2, 0x80, 0x84], [0xe2, 0x80, 0x85],
    [0xe2, 0x80, 0x86], [0xe2, 0x80, 0x87], [0xe2, 0x80, 0x88], [0xe2, 0x80, 0x89], [0xe2, 0x80, 0x8a],
    [0xe2, 0x80, 0xa8], [0xe2, 0x80, 0xa9], [0xe2, 0x80, 0xaf], [0xe2, 0x81, 0x9f], [0xe3, 0x80, 0x80]]

/-- Takes the words in `words` off the front; a text of `fuel` bytes has at most that many. -/
def strip (words : List (List Byte)) : Nat → List Byte → List Byte
  | 0, s => s
  | fuel + 1, s =>
    match words.find? (·.isPrefixOf s) with
    | none => s
    | some w => strip words fuel (s.drop w.length)

/-- `strings.TrimSpace` -/
def trimSpaceBytes (s : List Byte) : List Byte :=
  let s := strip spaces s.length s
  (strip (spaces.map List.reverse) s.length s.reverse).reverse

/-- `unicode.IsSpace`. -/
def isSpace (c : Char) : Bool :=
  [0x09, 0x0a, 0x0b, 0x0c, 0x0d, 0x20, 0x85, 0xa0, 0x1680, 0x2028, 0x2029, 0x202f, 0x205f, 0x3000].contains c.toNat ||
    (0x2000 ≤ c.toNat && c.toNat ≤ 0x200a)

def trimSpace (s : List Char) : List Char := ((s.dropWhile isSpace).reverse.dropWhile isSpace).reverse

/-! ## Single bytes -/

/-- The lower case of a byte, if it is a letter of ASCII. -/
def lower (b : Byte) : Byte := if 0x41 ≤ b ∧ b ≤ 0x5a then b + 0x20 else b

/-- `string(b)`: the encoding of the code point of this number. -/
def runeBytes (b : Byte) : List Byte :=
  if b < 0x80 then [b] else [(0xc0 : Byte) ||| (b >>> 6), (0x80 : Byte) ||| (b &&& 0x3f)]

end Ghostline
