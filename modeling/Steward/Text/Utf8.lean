/-!
# UTF-8

Characters to bytes and back. `Utf8.decode` accepts exactly the shortest-form encodings of Unicode
scalar values; `Utf8.decodeLossy` puts a replacement character for every maximal broken piece.
-/

namespace Steward.Utf8

/-- The bytes of a text. -/
def encode (cs : List Char) : List UInt8 := cs.flatMap String.utf8EncodeChar

/-- The number of bytes of a text. -/
def size (cs : List Char) : Nat := cs.foldl (fun n c => n + c.utf8Size) 0

/-- Bytes `80` to `BF`, which only continue a character. -/
def isContinuation (b : UInt8) : Bool := 0x80 ≤ b && b ≤ 0xBF

/-- The bytes that may follow the lead byte `b`: after `E0` and `F0` no longer form than needed,
after `ED` no surrogate, after `F4` nothing above `10FFFF`. -/
def mayFollow (lead b : UInt8) : Bool :=
  if lead = 0xE0 then 0xA0 ≤ b && b ≤ 0xBF
  else if lead = 0xED then 0x80 ≤ b && b ≤ 0x9F
  else if lead = 0xF0 then 0x90 ≤ b && b ≤ 0xBF
  else if lead = 0xF4 then 0x80 ≤ b && b ≤ 0x8F
  else isContinuation b

/-- The six payload bits of a continuation byte. -/
def payload (b : UInt8) : Nat := b.toNat % 64

/-- The character at the front of `lead :: rest`, if there is a whole one, and what follows it.
Without one, the longest piece that could have begun a character is dropped, at least the lead byte. -/
def next (lead : UInt8) (rest : List UInt8) : Option Char × List UInt8 :=
  if lead < 0x80 then (some (Char.ofNat lead.toNat), rest)
  else if lead < 0xC2 || 0xF4 < lead then (none, rest)
  else match rest with
    | [] => (none, [])
    | b :: rest₁ =>
      if !mayFollow lead b then (none, rest)
      else if lead < 0xE0 then (some (Char.ofNat (lead.toNat % 32 * 64 + payload b)), rest₁)
      else match rest₁ with
        | [] => (none, [])
        | c :: rest₂ =>
          if !isContinuation c then (none, rest₁)
          else if lead < 0xF0 then
            (some (Char.ofNat (lead.toNat % 16 * 4096 + payload b * 64 + payload c)), rest₂)
          else match rest₂ with
            | [] => (none, [])
            | d :: rest₃ =>
              if !isContinuation d then (none, rest₂)
              else
                (some (Char.ofNat
                  (lead.toNat % 8 * 262144 + payload b * 4096 + payload c * 64 + payload d)), rest₃)

/-- Decoding with at most `fuel` characters to come; `done` holds the characters so far, last first. -/
def decodeFrom : Nat → List Char → List UInt8 → Option (List Char)
  | _, done, [] => some done.reverse
  | 0, _, _ :: _ => none
  | fuel + 1, done, b :: bs =>
    match next b bs with
    | (some c, rest) => decodeFrom fuel (c :: done) rest
    | (none, _) => none

/-- The text of the bytes, if they are well formed. -/
def decode (bytes : List UInt8) : Option (List Char) := decodeFrom bytes.length [] bytes

def decodeLossyFrom : Nat → List Char → List UInt8 → List Char
  | _, done, [] => done.reverse
  | 0, done, _ :: _ => done.reverse
  | fuel + 1, done, b :: bs =>
    match next b bs with
    | (some c, rest) => decodeLossyFrom fuel (c :: done) rest
    | (none, rest) => decodeLossyFrom fuel ('�' :: done) rest

/-- The text of the bytes with `U+FFFD` for every broken piece. -/
def decodeLossy (bytes : List UInt8) : List Char := decodeLossyFrom bytes.length [] bytes

end Steward.Utf8
