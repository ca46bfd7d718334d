import Steward.Text.Utf8

/-!
# Text encodings

Source files are read as UTF-8 when they are well formed, else as a single-byte encoding. A file
with a zero byte is binary and is not read as text at all.
-/

namespace Steward

inductive Encoding where
  | utf8
  | latin1
  | cp1252
  | iso8859
deriving DecidableEq, Repr

namespace Encoding

/-- The order in which encodings are tried. -/
def chain : List Encoding := [utf8, latin1, cp1252, iso8859]

/-- The encoding's usual name. -/
def name : Encoding → String
  | utf8 => "utf-8"
  | latin1 => "latin-1"
  | cp1252 => "cp1252"
  | iso8859 => "iso-8859-1"

def ofName? (s : String) : Option Encoding := chain.find? (·.name = s)

/-- The encoding's name in reports. -/
def tag : Encoding → String
  | utf8 => "utf8"
  | latin1 => "latin1"
  | cp1252 => "cp1252"
  | iso8859 => "iso8859-1"

/-- The code points of the bytes `80` to `9F` in code page 1252, zero for the five without one. -/
def cp1252High : List Nat :=
  [0x20AC, 0, 0x201A, 0x0192, 0x201E, 0x2026, 0x2020, 0x2021, 0x02C6, 0x2030, 0x0160, 0x2039,
    0x0152, 0, 0x017D, 0, 0, 0x2018, 0x2019, 0x201C, 0x201D, 0x2022, 0x2013, 0x2014, 0x02DC,
    0x2122, 0x0161, 0x203A, 0x0153, 0, 0x017E, 0x0178]

/-- The character of a byte in code page 1252; zero and the unassigned bytes have none. -/
def cp1252Char? (b : UInt8) : Option Char :=
  if b = 0 then none
  else if 0x80 ≤ b && b ≤ 0x9F then
    match cp1252High[b.toNat - 0x80]? with
    | some (n + 1) => some (Char.ofNat (n + 1))
    | _ => none
  else some (Char.ofNat b.toNat)

/-- Each byte as the character with its number. -/
def latin1Chars (bytes : List UInt8) : List Char := bytes.map fun b => Char.ofNat b.toNat

/-- The text of the bytes in one encoding; none for binary content. -/
def decode (bytes : List UInt8) : Encoding → Option (List Char)
  | utf8 => if bytes.contains 0 then none else Utf8.decode bytes
  | latin1 | iso8859 => if bytes.contains 0 then none else some (latin1Chars bytes)
  | cp1252 => bytes.mapM cp1252Char?

/-- The text of the bytes in the first encoding of the chain that reads them. -/
def detect (bytes : List UInt8) : Option (List Char × Encoding) :=
  chain.findSome? fun e => (decode bytes e).map (·, e)

end Encoding

end Steward
