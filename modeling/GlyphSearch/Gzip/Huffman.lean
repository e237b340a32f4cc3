import GlyphSearch.Gzip.Bits

/-!
# Huffman codes

A code is a binary tree with symbols at its leaves. It is given by the length
of each symbol's word: shorter words come before longer ones, and words of one
length are in the order of their symbols.

A code has to use up all words, as the sum of its leaves tells. Only a code
of at most one symbol may leave words without a meaning.
-/

namespace GlyphSearch.Gzip

inductive Huffman where
  | unused
  | leaf (symbol : Nat)
  | node (zero one : Huffman)

namespace Huffman

/-- The longest word of a code. -/
def longest : Nat := 15

/-- Puts a symbol at a word, given as a number of `length` bits, the first bit
highest. -/
def insert (symbol : Nat) : Nat → Nat → Huffman → Huffman
  | 0, _, _ => leaf symbol
  | length + 1, word, tree =>
    let (zero, one) := match tree with
      | node zero one => (zero, one)
      | _ => (unused, unused)
    if word / Nat.pow 2 length % 2 = 0 then node (insert symbol length word zero) one
    else node zero (insert symbol length word one)

/-- The symbols whose words have a given length. -/
def symbolsOf (lengths : List Nat) (length : Nat) : List Nat :=
  (lengths.zipIdx.filter (·.1 = length)).map (·.2)

/-- Puts all words of a length and more into a tree, from the word `first`
on. -/
def build (lengths : List Nat) : Nat → Nat → Nat → Huffman → Huffman
  | 0, _, _, tree => tree
  | fuel + 1, length, first, tree =>
    let symbols := symbolsOf lengths length
    let tree := symbols.zipIdx.foldl
      (fun tree (symbol, i) => insert symbol length (first + i) tree) tree
    build lengths fuel (length + 1) (2 * (first + symbols.length)) tree

/-- How much of all words of the longest length the words of a code cover. -/
def covered (lengths : List Nat) : Nat :=
  lengths.foldl (fun total n => if n = 0 then total else total + Nat.pow 2 (longest - n)) 0

/-- The code with these word lengths; zero stands for no word. -/
def ofLengths (lengths : List Nat) : Except Stop Huffman :=
  let used := (lengths.filter (· ≠ 0)).length
  if covered lengths ≠ Nat.pow 2 longest ∧ 1 < used then .error .corrupt
  else .ok (build lengths longest 1 0 unused)

/-- Reads the word of a symbol. -/
def decode : Huffman → Bits → Except Stop (Nat × Bits)
  | unused, _ => .error .corrupt
  | leaf symbol, b => .ok (symbol, b)
  | node zero one, b => do
    let (bit, b) ← b.takeBit
    if bit then decode one b else decode zero b

end Huffman

end GlyphSearch.Gzip
