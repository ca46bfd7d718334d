/-!
# Digests

The BLAKE3 hash of a byte string, as 64 hexadecimal digits. Input is cut into chunks of 1024 bytes,
each hashed block by block; the chunks are the leaves of a binary tree whose root gives the digest.
-/

namespace Steward

/-- A function from bytes to the text that stands for them. -/
abbrev Digest := List UInt8 → String

namespace Digest

/-- Four words that are worked on side by side. -/
structure Quad where
  a : UInt32
  b : UInt32
  c : UInt32
  d : UInt32
deriving DecidableEq, Repr

namespace Quad

def zipWith (f : UInt32 → UInt32 → UInt32) (x y : Quad) : Quad :=
  ⟨f x.a y.a, f x.b y.b, f x.c y.c, f x.d y.d⟩

def add : Quad → Quad → Quad := zipWith (· + ·)

def xor : Quad → Quad → Quad := zipWith (· ^^^ ·)

/-- Each word turned right by `n` bits. -/
def rotate (n : UInt32) (x : Quad) : Quad :=
  let r (w : UInt32) := (w >>> n) ||| (w <<< (32 - n))
  ⟨r x.a, r x.b, r x.c, r x.d⟩

/-- The words moved one place to the left. -/
def turn (x : Quad) : Quad := ⟨x.b, x.c, x.d, x.a⟩

def toList (x : Quad) : List UInt32 := [x.a, x.b, x.c, x.d]

end Quad

/-- The 64 bytes of input that one compression takes in, as words. -/
structure Block where
  (w0 w1 w2 w3 w4 w5 w6 w7 w8 w9 w10 w11 w12 w13 w14 w15 : UInt32)
deriving DecidableEq, Repr

namespace Block

/-- The order of the words in the next round. -/
def permute (m : Block) : Block :=
  ⟨m.w2, m.w6, m.w3, m.w10, m.w7, m.w0, m.w4, m.w13, m.w1, m.w11, m.w12, m.w5, m.w9, m.w14, m.w15,
    m.w8⟩

/-- Four bytes as a word, the lowest first. -/
def word (bytes : List UInt8) (i : Nat) : UInt32 :=
  let byte (k : Nat) : UInt32 := ((bytes[4 * i + k]?).getD 0).toUInt32
  byte 0 ||| (byte 1 <<< 8) ||| (byte 2 <<< 16) ||| (byte 3 <<< 24)

/-- Up to 64 bytes as a block, filled up with zeros. -/
def ofBytes (bs : List UInt8) : Block :=
  let w := word bs
  ⟨w 0, w 1, w 2, w 3, w 4, w 5, w 6, w 7, w 8, w 9, w 10, w 11, w 12, w 13, w 14, w 15⟩

end Block

/-- The four rows of words that a compression mixes. -/
structure Rows where
  r0 : Quad
  r1 : Quad
  r2 : Quad
  r3 : Quad

namespace Rows

/-- One half of a round: the rows mixed with two words of input for each place. -/
def mix (x y : Quad) (s : Rows) : Rows :=
  let r0 := (s.r0.add s.r1).add x
  let r3 := (s.r3.xor r0).rotate 16
  let r2 := s.r2.add r3
  let r1 := (s.r1.xor r2).rotate 12
  let r0 := (r0.add r1).add y
  let r3 := (r3.xor r0).rotate 8
  let r2 := r2.add r3
  let r1 := (r1.xor r2).rotate 7
  ⟨r0, r1, r2, r3⟩

/-- A round: first the columns, then the diagonals. -/
def round (m : Block) (s : Rows) : Rows :=
  let s := s.mix ⟨m.w0, m.w2, m.w4, m.w6⟩ ⟨m.w1, m.w3, m.w5, m.w7⟩
  let s : Rows := ⟨s.r0, s.r1.turn, s.r2.turn.turn, s.r3.turn.turn.turn⟩
  let s := s.mix ⟨m.w8, m.w10, m.w12, m.w14⟩ ⟨m.w9, m.w11, m.w13, m.w15⟩
  ⟨s.r0, s.r1.turn.turn.turn, s.r2.turn.turn, s.r3.turn⟩

def rounds : Nat → Block → Rows → Rows
  | 0, _, s => s
  | n + 1, m, s => rounds n m.permute (s.round m)

end Rows

/-- The value that one compression hands to the next. -/
structure Chain where
  lo : Quad
  hi : Quad
deriving DecidableEq, Repr

def initial : Chain :=
  ⟨⟨0x6A09E667, 0xBB67AE85, 0x3C6EF372, 0xA54FF53A⟩, ⟨0x510E527F, 0x9B05688C, 0x1F83D9AB, 0x5BE0CD19⟩⟩

/-- A compression that is yet to be done. -/
structure Node where
  chain : Chain
  block : Block
  counter : UInt64
  size : UInt32
  flags : UInt32

namespace Node

def chunkStart : UInt32 := 1
def chunkEnd : UInt32 := 2
def parentFlag : UInt32 := 4
def rootFlag : UInt32 := 8

/-- The compression's result, with further flags. -/
def value (extra : UInt32) (n : Node) : Chain :=
  let s : Rows :=
    ⟨n.chain.lo, n.chain.hi, initial.lo,
      ⟨n.counter.toUInt32, (n.counter >>> 32).toUInt32, n.size, n.flags ||| extra⟩⟩
  let s := s.rounds 7 n.block
  ⟨s.r0.xor s.r2, s.r1.xor s.r3⟩

/-- The node above two others. -/
def parent (left right : Node) : Node :=
  let l := left.value 0
  let r := right.value 0
  { chain := initial
    block :=
      ⟨l.lo.a, l.lo.b, l.lo.c, l.lo.d, l.hi.a, l.hi.b, l.hi.c, l.hi.d,
        r.lo.a, r.lo.b, r.lo.c, r.lo.d, r.hi.a, r.hi.b, r.hi.c, r.hi.d⟩
    counter := 0
    size := 64
    flags := parentFlag }

/-- The node of a chunk, from the blocks still to take in. -/
def ofBlocks (counter : UInt64) (flags : UInt32) (chain : Chain) : List (List UInt8) → Node
  | [] => ⟨chain, Block.ofBytes [], counter, 0, flags ||| chunkEnd⟩
  | [b] => ⟨chain, Block.ofBytes b, counter, b.length.toUInt32, flags ||| chunkEnd⟩
  | b :: rest =>
    let n : Node := ⟨chain, Block.ofBytes b, counter, b.length.toUInt32, flags⟩
    ofBlocks counter 0 (n.value 0) rest

/-- The nodes one level up: neighbours are joined, and a last one without a partner stays. -/
def joinPairs : List Node → List Node
  | a :: b :: rest => parent a b :: joinPairs rest
  | ns => ns

/-- The node at the top, after at most `fuel` levels. -/
def top : Nat → List Node → Option Node
  | _, [n] => some n
  | 0, _ => none
  | fuel + 1, ns => top fuel (joinPairs ns)

end Node

/-- The bytes in pieces of `size`, at most `fuel` of them. -/
def pieces (size : Nat) : Nat → List UInt8 → List (List UInt8)
  | 0, _ => []
  | _, [] => []
  | fuel + 1, bs => bs.take size :: pieces size fuel (bs.drop size)

/-- The nodes of the chunks of an input; empty input has one empty chunk. -/
def chunks (bytes : List UInt8) : List Node :=
  let cs := if bytes.isEmpty then [[]] else pieces 1024 (bytes.length / 1024 + 1) bytes
  cs.zipIdx.map fun (c, i) => Node.ofBlocks i.toUInt64 Node.chunkStart initial (pieces 64 17 c)

/-- The eight digits of a word's bytes, lowest byte first. -/
def wordHex (w : UInt32) : List Char :=
  let byte (n : Nat) : List Char := [Nat.digitChar (n / 16 % 16), Nat.digitChar (n % 16)]
  byte (w.toNat % 256) ++ byte (w.toNat / 256 % 256) ++ byte (w.toNat / 65536 % 256) ++
    byte (w.toNat / 16777216)

/-- The digest of a byte string. -/
def blake3 : Digest := fun bytes =>
  let leaves := chunks bytes
  match Node.top leaves.length leaves with
  | none => ""
  | some n =>
    let v := n.value Node.rootFlag
    String.ofList ((v.lo.toList ++ v.hi.toList).flatMap wordHex)

end Digest

end Steward
