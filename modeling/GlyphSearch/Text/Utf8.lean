/-!
# UTF-8

`next` reads one character from bytes, or finds that they are malformed; in
that case it says how many bytes the malformed sequence has, which is the
longest beginning of some character. `decode?` accepts well-formed texts only,
and `decodeLossy` puts the replacement character in place of each malformed
sequence.
-/

namespace GlyphSearch

/-- The content of a file, a request body or a path. -/
abbrev Bytes := List UInt8

namespace Text

/-- The bytes of a text. -/
def encode (s : String) : Bytes := s.toUTF8.toList

/-- How a sequence begins: the number of bytes that follow, the bounds of the
next byte, and the bits that the lead byte itself carries. -/
structure Lead where
  following : Nat
  low : Nat
  high : Nat
  value : Nat

/-- The lead bytes of sequences of two to four bytes. The bounds exclude long
forms of short sequences, surrogates, and numbers above the last
character. -/
def Lead.ofByte? (b : Nat) : Option Lead :=
  if b < 0xc2 then none
  else if b < 0xe0 then some ⟨1, 0x80, 0xbf, b - 0xc0⟩
  else if b = 0xe0 then some ⟨2, 0xa0, 0xbf, 0⟩
  else if b = 0xed then some ⟨2, 0x80, 0x9f, b - 0xe0⟩
  else if b < 0xf0 then some ⟨2, 0x80, 0xbf, b - 0xe0⟩
  else if b = 0xf0 then some ⟨3, 0x90, 0xbf, 0⟩
  else if b < 0xf4 then some ⟨3, 0x80, 0xbf, b - 0xf0⟩
  else if b = 0xf4 then some ⟨3, 0x80, 0x8f, b - 0xf0⟩
  else none

/-- Takes `count` bytes that follow, the first of them within bounds. Gives
the character's number, if the sequence is complete, and the bytes taken. -/
def continuation (low high : Nat) : Nat → Nat → Bytes → Option Nat × Nat
  | 0, value, _ => (some value, 0)
  | _ + 1, _, [] => (none, 0)
  | count + 1, value, b :: rest =>
    if low ≤ b.toNat ∧ b.toNat ≤ high then
      let (found, taken) := continuation 0x80 0xbf count (value * 64 + (b.toNat - 0x80)) rest
      (found, taken + 1)
    else (none, 0)

/-- Reads the character that begins with a byte. Gives it, if the bytes are
well formed, and the number of further bytes it takes. -/
def next (b : UInt8) (rest : Bytes) : Option Char × Nat :=
  if b.toNat < 0x80 then (some (Char.ofNat b.toNat), 0)
  else
    match Lead.ofByte? b.toNat with
    | none => (none, 0)
    | some lead =>
      let (found, taken) := continuation lead.low lead.high lead.following lead.value rest
      (found.map Char.ofNat, taken)

/-- The characters of a text, in reverse before `done`, with `none` for each
malformed sequence. -/
def scanOnto (done : List (Option Char)) : Bytes → List (Option Char)
  | [] => done
  | b :: rest =>
    let (c, taken) := next b rest
    scanOnto (c :: done) (rest.drop taken)
  termination_by bytes => bytes.length
  decreasing_by simp only [List.length_drop, List.length_cons]; omega

/-- The characters of a text, with `none` for each malformed sequence. -/
def scan (bytes : Bytes) : List (Option Char) := (scanOnto [] bytes).reverse

/-- The text that bytes encode, if they are well formed. -/
def decode? (bytes : Bytes) : Option String :=
  let chars := scan bytes
  if chars.all Option.isSome then some (String.ofList (chars.filterMap id)) else none

/-- The text that bytes encode, with the replacement character for each
malformed sequence. -/
def decodeLossy (bytes : Bytes) : String :=
  String.ofList ((scan bytes).map fun c => c.getD '\ufffd')

end Text

end GlyphSearch
