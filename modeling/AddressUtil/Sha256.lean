import AddressUtil.Basic

/-! SHA-256 of Go's `crypto/sha256` on 32-bit words kept as `Nat` below `2^32`; every definition is
structurally recursive, so a short message's digest is computed by `decide`. -/

namespace AddressUtil.Sha256

/-- The round constants. -/
def k : List Nat := [
  0x428a2f98, 0x71374491, 0xb5c0fbcf, 0xe9b5dba5, 0x3956c25b, 0x59f111f1, 0x923f82a4, 0xab1c5ed5,
  0xd807aa98, 0x12835b01, 0x243185be, 0x550c7dc3, 0x72be5d74, 0x80deb1fe, 0x9bdc06a7, 0xc19bf174,
  0xe49b69c1, 0xefbe4786, 0x0fc19dc6, 0x240ca1cc, 0x2de92c6f, 0x4a7484aa, 0x5cb0a9dc, 0x76f988da,
  0x983e5152, 0xa831c66d, 0xb00327c8, 0xbf597fc7, 0xc6e00bf3, 0xd5a79147, 0x06ca6351, 0x14292967,
  0x27b70a85, 0x2e1b2138, 0x4d2c6dfc, 0x53380d13, 0x650a7354, 0x766a0abb, 0x81c2c92e, 0x92722c85,
  0xa2bfe8a1, 0xa81a664b, 0xc24b8b70, 0xc76c51a3, 0xd192e819, 0xd6990624, 0xf40e3585, 0x106aa070,
  0x19a4c116, 0x1e376c08, 0x2748774c, 0x34b0bcb5, 0x391c0cb3, 0x4ed8aa4a, 0x5b9cca4f, 0x682e6ff3,
  0x748f82ee, 0x78a5636f, 0x84c87814, 0x8cc70208, 0x90befffa, 0xa4506ceb, 0xbef9a3f7, 0xc67178f2]

/-- The eight working variables. -/
structure Regs where
  a : Nat
  b : Nat
  c : Nat
  d : Nat
  e : Nat
  f : Nat
  g : Nat
  h : Nat

/-- The initial hash value. -/
def init : Regs :=
  ⟨0x6a09e667, 0xbb67ae85, 0x3c6ef372, 0xa54ff53a, 0x510e527f, 0x9b05688c, 0x1f83d9ab,
    0x5be0cd19⟩

def rotr (x n : Nat) : Nat := (x >>> n) ||| ((x <<< (32 - n)) % 2 ^ 32)

def bigSigma0 (x : Nat) : Nat := rotr x 2 ^^^ rotr x 13 ^^^ rotr x 22
def bigSigma1 (x : Nat) : Nat := rotr x 6 ^^^ rotr x 11 ^^^ rotr x 25
def smallSigma0 (x : Nat) : Nat := rotr x 7 ^^^ rotr x 18 ^^^ (x >>> 3)
def smallSigma1 (x : Nat) : Nat := rotr x 17 ^^^ rotr x 19 ^^^ (x >>> 10)

/-- Big-endian 32-bit words of a block. -/
def words : List Nat → List Nat
  | a :: b :: c :: d :: rest => (a <<< 24 ||| b <<< 16 ||| c <<< 8 ||| d) :: words rest
  | _ => []

/-- The message schedule past its first sixteen words, newest word first. -/
def schedule : Nat → List Nat → List Nat
  | 0, w => w
  | n + 1, w =>
    let w := schedule n w
    ((smallSigma1 (w.getD 1 0) + w.getD 6 0 + smallSigma0 (w.getD 14 0) + w.getD 15 0)
      % 2 ^ 32) :: w

/-- One compression round; `kw` is the round constant and the schedule word. -/
def round (s : Regs) (kw : Nat × Nat) : Regs :=
  let t1 := (s.h + bigSigma1 s.e + ((s.e &&& s.f) ^^^ ((s.e ^^^ (2 ^ 32 - 1)) &&& s.g))
    + kw.1 + kw.2) % 2 ^ 32
  let t2 := (bigSigma0 s.a + ((s.a &&& s.b) ^^^ (s.a &&& s.c) ^^^ (s.b &&& s.c))) % 2 ^ 32
  ⟨(t1 + t2) % 2 ^ 32, s.a, s.b, s.c, (s.d + t1) % 2 ^ 32, s.e, s.f, s.g⟩

/-- The compression function on one 64-byte block. -/
def compress (hs : Regs) (block : List Nat) : Regs :=
  let s := (k.zip (schedule 48 (words block).reverse).reverse).foldl round hs
  ⟨(hs.a + s.a) % 2 ^ 32, (hs.b + s.b) % 2 ^ 32, (hs.c + s.c) % 2 ^ 32,
    (hs.d + s.d) % 2 ^ 32, (hs.e + s.e) % 2 ^ 32, (hs.f + s.f) % 2 ^ 32,
    (hs.g + s.g) % 2 ^ 32, (hs.h + s.h) % 2 ^ 32⟩

/-- The padded message cut into 64-byte blocks. -/
def blocks : Nat → List Nat → List (List Nat)
  | 0, _ => []
  | n + 1, m => if m = [] then [] else m.take 64 :: blocks n (m.drop 64)

/-- Padding: a one bit, zeros, and the bit length as a 64-bit big-endian number. -/
def pad (m : List Nat) : List Nat :=
  m ++ [0x80] ++ List.replicate ((119 - m.length % 64) % 64) 0 ++
    (List.range 8).reverse.map fun i => (8 * m.length) >>> (8 * i) % 256

/-- The padding fills whole 64-byte blocks, with room for the marker and the length. -/
theorem length_pad (m : List Nat) :
    (pad m).length % 64 = 0 ∧ m.length + 9 ≤ (pad m).length ∧ (pad m).length ≤ m.length + 72 := by
  simp only [pad, List.length_append, List.length_singleton, List.length_replicate,
    List.length_map, List.length_reverse, List.length_range]
  omega

/-- The four big-endian bytes of a word. -/
def wordBytes (x : Nat) : List UInt8 := [3, 2, 1, 0].map fun i => (x >>> (8 * i)).toUInt8

/-- `sha256.Sum256`. -/
def sum256 (m : List UInt8) : List UInt8 :=
  let p := pad (m.map UInt8.toNat)
  let s := (blocks p.length p).foldl compress init
  [s.a, s.b, s.c, s.d, s.e, s.f, s.g, s.h].flatMap wordBytes

theorem length_sum256 (m : List UInt8) : (sum256 m).length = 32 := by
  simp [sum256, wordBytes]

/-- SHA-256 as the digest the address code calls. -/
def sha256 : Digest 32 := ⟨sum256, length_sum256⟩

example : sum256 [] =
    [0xe3, 0xb0, 0xc4, 0x42, 0x98, 0xfc, 0x1c, 0x14, 0x9a, 0xfb, 0xf4, 0xc8, 0x99, 0x6f, 0xb9,
      0x24, 0x27, 0xae, 0x41, 0xe4, 0x64, 0x9b, 0x93, 0x4c, 0xa4, 0x95, 0x99, 0x1b, 0x78, 0x52,
      0xb8, 0x55] := by
  decide

set_option maxRecDepth 20000 in
example : sum256 (List.replicate 56 0) =
    [0xd4, 0x81, 0x7a, 0xa5, 0x49, 0x76, 0x28, 0xe7, 0xc7, 0x7e, 0x6b, 0x60, 0x61, 0x07, 0x04,
      0x2b, 0xbb, 0xa3, 0x13, 0x08, 0x88, 0xc5, 0xf4, 0x7a, 0x37, 0x5e, 0x61, 0x79, 0xbe, 0x78,
      0x9f, 0xbb] := by
  decide

end AddressUtil.Sha256
