import GlyphSearch.Gzip.Huffman

/-!
# Inflating

Compressed data is a row of blocks. A block is stored as it is, or written in
two Huffman codes: one for single bytes, the end of the block and the lengths
of repeats, one for the distances of repeats. The codes are fixed, or the
block begins with them.

What has been put out so far is kept also when decompression stops early. A
repeat that reaches back beyond the first byte repeats zeros.
-/

namespace GlyphSearch.Gzip

/-- The bytes put out, and the rest of the input or why there is none. -/
abbrev Inflated := Array UInt8 × Except Stop Bits

/-- The shortest repeat of each length symbol, with the number of bits that
are added to it. -/
def lengthTable : Array (Nat × Nat) := #[
  (3, 0), (4, 0), (5, 0), (6, 0), (7, 0), (8, 0), (9, 0), (10, 0), (11, 1), (13, 1),
  (15, 1), (17, 1), (19, 2), (23, 2), (27, 2), (31, 2), (35, 3), (43, 3), (51, 3), (59, 3),
  (67, 4), (83, 4), (99, 4), (115, 4), (131, 5), (163, 5), (195, 5), (227, 5), (258, 0)]

/-- The least distance of each distance symbol, with the number of bits that
are added to it. -/
def distanceTable : Array (Nat × Nat) := #[
  (1, 0), (2, 0), (3, 0), (4, 0), (5, 1), (7, 1), (9, 2), (13, 2), (17, 3), (25, 3),
  (33, 4), (49, 4), (65, 5), (97, 5), (129, 6), (193, 6), (257, 7), (385, 7), (513, 8),
  (769, 8), (1025, 9), (1537, 9), (2049, 10), (3073, 10), (4097, 11), (6145, 11), (8193, 12),
  (12289, 12), (16385, 13), (24577, 13)]

/-- Reads the rest of a length or distance. -/
def extend (table : Array (Nat × Nat)) (symbol : Nat) (b : Bits) : Except Stop (Nat × Bits) :=
  match table[symbol]? with
  | none => .error .corrupt
  | some (base, extra) => do
    let (n, b) ← b.takeNumber extra
    return (base + n, b)

/-- Repeats bytes from some distance back. -/
def repeatBack (distance : Nat) : Nat → Array UInt8 → Array UInt8
  | 0, out => out
  | n + 1, out =>
    let b := if distance ≤ out.size then out[out.size - distance]?.getD 0 else 0
    repeatBack distance n (out.push b)

/-- The symbol that ends a block. -/
def endOfBlock : Nat := 256

/-- Reads a length, whose symbol has been read, and a distance. -/
def readRepeat (distances : Huffman) (symbol : Nat) (b : Bits) :
    Except Stop (Nat × Nat × Bits) := do
  let (length, b) ← extend lengthTable (symbol - (endOfBlock + 1)) b
  let (symbol, b) ← distances.decode b
  let (distance, b) ← extend distanceTable symbol b
  return (length, distance, b)

/-- Reads one symbol and puts out what it stands for. Tells also whether the
block goes on. -/
def inflateSymbol (literals distances : Huffman) (b : Bits) (out : Array UInt8) :
    Array UInt8 × Except Stop (Bool × Bits) :=
  match literals.decode b with
  | .error stop => (out, .error stop)
  | .ok (symbol, b) =>
    if symbol < endOfBlock then (out.push (UInt8.ofNat symbol), .ok (true, b))
    else if symbol = endOfBlock then (out, .ok (false, b))
    else
      match readRepeat distances symbol b with
      | .error stop => (out, .error stop)
      | .ok (length, distance, b) => (repeatBack distance length out, .ok (true, b))

/-- Reads symbols up to the end of the block. -/
def inflateSymbols (literals distances : Huffman) : Nat → Bits → Array UInt8 → Inflated
  | 0, _, out => (out, .error .truncated)
  | fuel + 1, b, out =>
    match inflateSymbol literals distances b out with
    | (out, .error stop) => (out, .error stop)
    | (out, .ok (goesOn, b)) =>
      if goesOn then inflateSymbols literals distances fuel b out else (out, .ok b)

/-- Word lengths of the fixed code for bytes and lengths. -/
def fixedLiterals : List Nat :=
  List.replicate 144 8 ++ List.replicate 112 9 ++ List.replicate 24 7 ++ List.replicate 8 8

/-- Word lengths of the fixed code for distances. -/
def fixedDistances : List Nat := List.replicate 32 5

/-- The order in which the word lengths of the code for word lengths come. -/
def lengthOrder : List Nat :=
  [16, 17, 18, 0, 8, 7, 9, 6, 10, 5, 11, 4, 12, 3, 13, 2, 14, 1, 15]

/-- Takes `n` numbers of three bits. -/
def takeTriples : Nat → Bits → Except Stop (List Nat × Bits)
  | 0, b => .ok ([], b)
  | n + 1, b => do
    let (first, b) ← b.takeNumber 3
    let (rest, b) ← takeTriples n b
    return (first :: rest, b)

/-- How often a length symbol is repeated: the first number, with that many
bits added; and the length that it repeats. -/
def runOf? (symbol : Nat) (previous : Option Nat) : Option (Nat × Nat × Nat) :=
  if symbol = 16 then previous.map fun p => (3, 2, p)
  else if symbol = 17 then some (3, 3, 0)
  else if symbol = 18 then some (11, 7, 0)
  else none

/-- Reads word lengths until there are `total`; those read so far are in
reverse in `done`. -/
def readLengths (code : Huffman) (total : Nat) : Nat → List Nat → Bits →
    Except Stop (List Nat × Bits)
  | 0, _, _ => .error .corrupt
  | fuel + 1, done, b =>
    if total < done.length then .error .corrupt
    else if done.length = total then .ok (done.reverse, b)
    else
      match code.decode b with
      | .error stop => .error stop
      | .ok (symbol, b) =>
        if symbol < 16 then readLengths code total fuel (symbol :: done) b
        else
          match runOf? symbol done.head? with
          | none => .error .corrupt
          | some (base, extra, length) =>
            match b.takeNumber extra with
            | .error stop => .error stop
            | .ok (n, b) =>
              readLengths code total fuel (List.replicate (base + n) length ++ done) b

/-- Reads the two codes at the beginning of a block. -/
def readCodes (b : Bits) : Except Stop (Huffman × Huffman × Bits) := do
  let (n, b) ← b.takeNumber 5
  let literalCount := n + 257
  let (n, b) ← b.takeNumber 5
  let distanceCount := n + 1
  let (n, b) ← b.takeNumber 4
  if 286 < literalCount ∨ 30 < distanceCount then .error .corrupt
  let (triples, b) ← takeTriples (n + 4) b
  let given := lengthOrder.zip triples
  let code ← Huffman.ofLengths ((List.range 19).map fun i => (given.lookup i).getD 0)
  let total := literalCount + distanceCount
  let (lengths, b) ← readLengths code total (total + 1) [] b
  let literals ← Huffman.ofLengths (lengths.take literalCount)
  let distances ← Huffman.ofLengths (lengths.drop literalCount)
  return (literals, distances, b)

/-- Copies stored bytes. -/
def inflateStored (b : Bits) (out : Array UInt8) : Inflated :=
  match b.toBytes with
  | l₁ :: l₂ :: n₁ :: n₂ :: rest =>
    if l₁ ^^^ n₁ ≠ 255 ∨ l₂ ^^^ n₂ ≠ 255 then (out, .error .corrupt)
    else
      let length := l₁.toNat + 256 * l₂.toNat
      let out := (rest.take length).foldl Array.push out
      if rest.length < length then (out, .error .truncated)
      else (out, .ok (Bits.ofBytes (rest.drop length)))
  | _ => (out, .error .truncated)

/-- Reads one block behind its first bit. -/
def inflateBlock (fuel : Nat) (b : Bits) (out : Array UInt8) : Inflated :=
  match b.takeNumber 2 with
  | .error stop => (out, .error stop)
  | .ok (0, b) => inflateStored b out
  | .ok (1, b) =>
    match Huffman.ofLengths fixedLiterals, Huffman.ofLengths fixedDistances with
    | .ok literals, .ok distances => inflateSymbols literals distances fuel b out
    | _, _ => (out, .error .corrupt)
  | .ok (2, b) =>
    match readCodes b with
    | .error stop => (out, .error stop)
    | .ok (literals, distances, b) => inflateSymbols literals distances fuel b out
  | .ok (_, _) => (out, .error .corrupt)

/-- Reads blocks up to the last one. -/
def inflateBlocks (symbolFuel : Nat) : Nat → Bits → Array UInt8 → Inflated
  | 0, _, out => (out, .error .truncated)
  | fuel + 1, b, out =>
    match b.takeBit with
    | .error stop => (out, .error stop)
    | .ok (isLast, b) =>
      match inflateBlock symbolFuel b out with
      | (out, .error stop) => (out, .error stop)
      | (out, .ok b) => if isLast then (out, .ok b) else inflateBlocks symbolFuel fuel b out

/-- Decompresses data. Every symbol takes a bit, and every block takes
three. -/
def inflate (input : Bytes) : Inflated :=
  let bits := 8 * input.length + 1
  inflateBlocks bits bits (Bits.ofBytes input) #[]

end GlyphSearch.Gzip
