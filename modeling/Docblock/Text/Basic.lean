/-!
# Text

Everything the library reads or writes is a list of code points.  Lists keep the definitions
structurally recursive, and a position in a text is then simply the list of what stands before it.

## Contents

1. `Text`, its size in bytes, the cut `takeBytes` at a byte offset, and texts as the bytes of a file.
2. The horizontal blanks, and cutting them off the end of a line.
3. White space, and cutting it off both ends of a description.
4. `contains`, the search for one text inside another.
5. Numbers in messages.
-/

namespace Docblock

/-- A text is the list of its code points. -/
abbrev Text := List Char

namespace Text

/-! ## Section 1: Bytes -/

/-- The number of bytes that the UTF-8 encoding of a text takes. -/
def byteSize (s : Text) : Nat :=
  s.foldr (fun c n => c.utf8Size + n) 0

/-- The longest leading part of a text that fits into `n` bytes. A character that only partly
fits is left out, so a cut inside a character falls back to the start of that character. -/
def takeBytes : Nat → Text → Text
  | _, [] => []
  | n, c :: rest => if c.utf8Size ≤ n then c :: takeBytes (n - c.utf8Size) rest else []

/-- The bytes of a text, in UTF-8. -/
def encode (s : Text) : ByteArray :=
  (String.ofList s).toUTF8

/-- The text that some bytes hold. Bytes that are not valid UTF-8 hold none. -/
def decode? (bytes : ByteArray) : Option Text :=
  (String.fromUTF8? bytes).map String.toList

/-! ## Section 2: Horizontal blanks -/

/-- Space and tab, the characters that may stand between two words of a line. -/
def isBlank (c : Char) : Bool :=
  c == ' ' || c == '\t'

/-- Drop the longest run of characters satisfying `p` at the end of a text. -/
def dropEndWhile (p : Char → Bool) (s : Text) : Text :=
  (s.reverse.dropWhile p).reverse

/-- A line without the blanks at its end. -/
def trimLine (s : Text) : Text :=
  s.dropEndWhile isBlank

/-! ## Section 3: White space -/

/-- The ranges of the Unicode property `White_Space`, in ascending order. -/
def spaceRanges : List (Nat × Nat) :=
  [(0x9, 0xD), (0x20, 0x20), (0x85, 0x85), (0xA0, 0xA0), (0x1680, 0x1680), (0x2000, 0x200A),
   (0x2028, 0x2029), (0x202F, 0x202F), (0x205F, 0x205F), (0x3000, 0x3000)]

/-- Does a character have the property `White_Space`? -/
def isSpace (c : Char) : Bool :=
  spaceRanges.any fun (lo, hi) => lo ≤ c.toNat && c.toNat ≤ hi

/-- A text without the white space at its two ends. -/
def trim (s : Text) : Text :=
  dropEndWhile isSpace (s.dropWhile isSpace)

/-! ## Section 4: Searching -/

/-- Does `needle` occur in the text as a contiguous run? -/
def contains (needle : Text) : Text → Bool
  | [] => needle.isEmpty
  | c :: rest => needle.isPrefixOf (c :: rest) || contains needle rest

/-- The text up to the first occurrence of `needle`, and the text from that occurrence on. -/
def breakOn (needle : Text) : Text → Option (Text × Text)
  | [] => if needle.isEmpty then some ([], []) else none
  | c :: rest =>
    if needle.isPrefixOf (c :: rest) then some ([], c :: rest)
    else (breakOn needle rest).map fun (before, found) => (c :: before, found)

/-- The part of a text after its last line break, or all of it when it has none. -/
def lastLine (s : Text) : Text :=
  (s.reverse.takeWhile (· != '\n')).reverse

/-! ## Section 5: Numbers in messages -/

/-- A number in decimal digits. -/
def ofNat (n : Nat) : Text :=
  Nat.toDigits 10 n

/-- A number of things; `one` names a single thing and `many` any other number of them. -/
def plural (n : Nat) (one many : Text) : Text :=
  ofNat n ++ ' ' :: if n = 1 then one else many

end Text

end Docblock
