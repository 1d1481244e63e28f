/-!
# Digests

A digest folds words of 64 bits into a state of 64 bits. A sequence of bytes is folded in as
one word: sixteen bytes at a time are mixed into two lanes (`Digest.ofBytes`).
-/

namespace IdlReader

/-- The state of a digest. -/
structure Digest where
  state : UInt64 := 0
deriving DecidableEq, Repr

namespace Digest

/-- The factor of every step. -/
def factor : UInt64 := 0xf1357aea2e62a9c5

/-- Folds in a word. -/
def add (d : Digest) (word : UInt64) : Digest := ⟨(d.state + word) * factor⟩

/-- Folds in words one after the other. -/
def addAll (d : Digest) (words : List UInt64) : Digest := words.foldl add d

/-- The result of a digest: the state, rotated so that its mixed upper bits come last. -/
def value (d : Digest) : UInt64 := (d.state <<< 26) ||| (d.state >>> 38)

/-! ## Bytes -/

/-- The two halves of the full product of two words, combined. -/
def mix (x y : UInt64) : UInt64 :=
  let p := x.toNat * y.toNat
  UInt64.ofNat p ^^^ UInt64.ofNat (p / Nat.pow 2 64)

/-- The number that bytes write with the least significant one first. -/
def littleEndian (bytes : List UInt8) : UInt64 :=
  bytes.foldr (fun b n => n * 256 + b.toUInt64) 0

/-- The last `n` bytes. -/
def lastBytes (n : Nat) (bytes : List UInt8) : List UInt8 := bytes.drop (bytes.length - n)

/-- The two lanes that bytes are mixed into. -/
structure Lanes where
  first : UInt64
  second : UInt64

/-- The lanes into which nothing was mixed. -/
def Lanes.initial : Lanes := ⟨0x243f6a8885a308d3, 0x13198a2e03707344⟩

/-- Mixes in two words and swaps the lanes. -/
def Lanes.absorb (l : Lanes) (x y : UInt64) : Lanes :=
  ⟨l.second, mix (l.first ^^^ x) (0xa4093822299f31d0 ^^^ y)⟩

/-- Mixes in a number of blocks of sixteen bytes. -/
def Lanes.absorbBlocks : (blocks : Nat) → Lanes → List UInt8 → Lanes
  | 0, l, _ => l
  | n + 1, l, bytes =>
    absorbBlocks n
      (l.absorb (littleEndian (bytes.take 8)) (littleEndian ((bytes.drop 8).take 8)))
      (bytes.drop 16)

/-- Adds two words that close the bytes. -/
def Lanes.close (l : Lanes) (x y : UInt64) : Lanes := ⟨l.first ^^^ x, l.second ^^^ y⟩

/-- The lanes of bytes. The closing words are the first and the last ones of a short
sequence; they overlap in one that is no full block. -/
def Lanes.ofBytes (bytes : List UInt8) : Lanes :=
  let n := bytes.length
  if 17 ≤ n then
    let end16 := lastBytes 16 bytes
    (initial.absorbBlocks ((n - 1) / 16) bytes).close (littleEndian (end16.take 8))
      (littleEndian (end16.drop 8))
  else if 8 ≤ n then
    initial.close (littleEndian (bytes.take 8)) (littleEndian (lastBytes 8 bytes))
  else if 4 ≤ n then
    initial.close (littleEndian (bytes.take 4)) (littleEndian (lastBytes 4 bytes))
  else
    match bytes with
    | [] => initial
    | b :: bs =>
      let middle := (b :: bs)[n / 2]?.getD 0
      initial.close b.toUInt64 (littleEndian [middle, (b :: bs).getLast?.getD 0])

/-- The word that stands for bytes. -/
def ofBytes (bytes : List UInt8) : UInt64 :=
  let l := Lanes.ofBytes bytes
  mix l.first l.second ^^^ UInt64.ofNat bytes.length

end Digest

end IdlReader
