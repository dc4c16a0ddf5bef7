/-!
# Bytes as text

UTF-8 read in two ways. Strictly, a text is refused as soon as one byte does not belong to a
well-formed character; leniently, every such byte stands for the replacement character.
-/

namespace NameIndex.Text.Utf8

/-- A byte that continues a character, as its six bits. -/
def tail? (b : UInt8) : Option Nat :=
  if 0x80 ≤ b ∧ b < 0xC0 then some (b.toNat - 0x80) else none

/-- The character with a code point that takes at least `least` to write. -/
def char? (least n : Nat) : Option Char :=
  if least ≤ n ∧ n.isValidChar then some (Char.ofNat n) else none

/-- The well-formed character at the front, and the bytes after it. -/
def next? : List UInt8 → Option (Char × List UInt8)
  | [] => none
  | b :: rest =>
    if b < 0x80 then some (Char.ofNat b.toNat, rest)
    else if 0xC0 ≤ b ∧ b < 0xE0 then
      match rest with
      | c :: rest => do
        let c ← tail? c
        let char ← char? 0x80 ((b.toNat - 0xC0) * 0x40 + c)
        return (char, rest)
      | _ => none
    else if 0xE0 ≤ b ∧ b < 0xF0 then
      match rest with
      | c :: d :: rest => do
        let c ← tail? c
        let d ← tail? d
        let char ← char? 0x800 ((b.toNat - 0xE0) * 0x1000 + c * 0x40 + d)
        return (char, rest)
      | _ => none
    else if 0xF0 ≤ b ∧ b < 0xF8 then
      match rest with
      | c :: d :: e :: rest => do
        let c ← tail? c
        let d ← tail? d
        let e ← tail? e
        let char ← char? 0x10000 ((b.toNat - 0xF0) * 0x40000 + c * 0x1000 + d * 0x40 + e)
        return (char, rest)
      | _ => none
    else none

/-- Reads characters from the front; the number of bytes bounds the number of steps, and `bad`
says what stands for a byte that belongs to no character. -/
def decodeWith (bad : Option Char) : Nat → List UInt8 → Option (List Char)
  | _, [] => some []
  | 0, _ :: _ => none
  | steps + 1, b :: rest =>
    match next? (b :: rest) with
    | some (c, rest) => (decodeWith bad steps rest).map (c :: ·)
    | none => do
      let c ← bad
      (decodeWith bad steps rest).map (c :: ·)

/-- The text of well-formed bytes. -/
def decode? (bytes : List UInt8) : Option (List Char) := decodeWith none bytes.length bytes

/-- The text of any bytes, with a replacement character for each byte that belongs to none. -/
def decodeLossy (bytes : List UInt8) : List Char :=
  (decodeWith (some '\uFFFD') bytes.length bytes).getD []

end NameIndex.Text.Utf8
