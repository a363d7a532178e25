import FieldWire.Digest.Basic

/-! # SHA-2

The two members of the SHA-2 family with 32 bytes of result: SHA-256 with words of 32 bits, and SHA-512/256 with
words of 64 bits, which cuts the result to its first half. The members share one construction and differ in the
width, the constants and the amounts by which words are rotated and shifted. -/

namespace FieldWire

/-- The eight words that a SHA-2 function carries from block to block. -/
structure Sha2.Chain (w : Nat) where
  (a b c d e f g h : BitVec w)

/-- A member of the SHA-2 family with words of `w` bits. -/
structure Sha2 (w : Nat) where
  initial : Sha2.Chain w
  constants : List (BitVec w)
  /-- The rotations that are summed over the word `a`. -/
  sumA : Nat × Nat × Nat
  /-- The rotations that are summed over the word `e`. -/
  sumE : Nat × Nat × Nat
  /-- Two rotations and a shift of the word 15 places back. -/
  mixFar : Nat × Nat × Nat
  /-- Two rotations and a shift of the word 2 places back. -/
  mixNear : Nat × Nat × Nat

namespace Sha2
variable {w : Nat}

def Chain.toList (x : Chain w) : List (BitVec w) := [x.a, x.b, x.c, x.d, x.e, x.f, x.g, x.h]

def Chain.add (x y : Chain w) : Chain w :=
  ⟨x.a + y.a, x.b + y.b, x.c + y.c, x.d + y.d, x.e + y.e, x.f + y.f, x.g + y.g, x.h + y.h⟩

/-- Three rotations of a word, added without carry. -/
def rotations (amounts : Nat × Nat × Nat) (x : BitVec w) : BitVec w :=
  x.rotateRight amounts.1 ^^^ x.rotateRight amounts.2.1 ^^^ x.rotateRight amounts.2.2

/-- Two rotations and a shift of a word, added without carry. -/
def mixed (amounts : Nat × Nat × Nat) (x : BitVec w) : BitVec w :=
  x.rotateRight amounts.1 ^^^ x.rotateRight amounts.2.1 ^^^ x >>> amounts.2.2

/-- The words that the rounds take in: the words of the block, then each word made of four earlier ones. -/
def schedule (sha : Sha2 w) (block : List (BitVec w)) : List (BitVec w) :=
  let extend (newest : List (BitVec w)) : List (BitVec w) :=
    (mixed sha.mixNear (newest.getD 1 0) + newest.getD 6 0 + mixed sha.mixFar (newest.getD 14 0)
      + newest.getD 15 0) :: newest
  ((sha.constants.drop 16).foldl (fun newest _ => extend newest) block.reverse).reverse

/-- One round: `input` is a word of the schedule and the constant of the round, added. -/
def round (sha : Sha2 w) (x : Chain w) (input : BitVec w) : Chain w :=
  let choice := (x.e &&& x.f) ^^^ (~~~x.e &&& x.g)
  let majority := (x.a &&& x.b) ^^^ (x.a &&& x.c) ^^^ (x.b &&& x.c)
  let t := x.h + rotations sha.sumE x.e + choice + input
  ⟨t + rotations sha.sumA x.a + majority, x.a, x.b, x.c, x.d + t, x.e, x.f, x.g⟩

def compress (sha : Sha2 w) (chain : Chain w) (block : List (BitVec w)) : Chain w :=
  chain.add ((List.zipWith (· + ·) sha.constants (sha.schedule block)).foldl sha.round chain)

/-- The word whose bytes are given, most significant byte first. -/
def wordOfBytes (bytes : Bytes) : BitVec w := BitVec.ofNat w (ofLittleEndian bytes.reverse)

def bytesOfWord (x : BitVec w) : Bytes := (littleEndian (w / 8) x.toNat).reverse

/-- The message, a one bit, zero bits, and the number of bits of the message in the last two words of a block. -/
def padded (w : Nat) (message : Bytes) : Bytes :=
  let block := 2 * w
  let length := (littleEndian (w / 4) (8 * message.length)).reverse
  let used := (message.length + 1 + length.length) % block
  message ++ 0x80 :: List.replicate ((block - used) % block) 0 ++ length

/-- The bytes of all the words that the last block leaves. -/
def result (sha : Sha2 w) (message : Bytes) : Bytes :=
  let blocks := (chunks (2 * w) (padded w message)).map fun block => (chunks (w / 8) block).map wordOfBytes
  (blocks.foldl sha.compress sha.initial).toList.flatMap bytesOfWord

def hash (sha : Sha2 w) (message : Bytes) : Digest :=
  let bytes := sha.result message
  ⟨Vector.ofFn fun i => bytes.getD i 0⟩

/-! ### The members -/

def sha256 : Sha2 32 where
  initial := ⟨0x6a09e667, 0xbb67ae85, 0x3c6ef372, 0xa54ff53a, 0x510e527f, 0x9b05688c, 0x1f83d9ab, 0x5be0cd19⟩
  constants := [
    0x428a2f98, 0x71374491, 0xb5c0fbcf, 0xe9b5dba5, 0x3956c25b, 0x59f111f1, 0x923f82a4, 0xab1c5ed5,
    0xd807aa98, 0x12835b01, 0x243185be, 0x550c7dc3, 0x72be5d74, 0x80deb1fe, 0x9bdc06a7, 0xc19bf174,
    0xe49b69c1, 0xefbe4786, 0x0fc19dc6, 0x240ca1cc, 0x2de92c6f, 0x4a7484aa, 0x5cb0a9dc, 0x76f988da,
    0x983e5152, 0xa831c66d, 0xb00327c8, 0xbf597fc7, 0xc6e00bf3, 0xd5a79147, 0x06ca6351, 0x14292967,
    0x27b70a85, 0x2e1b2138, 0x4d2c6dfc, 0x53380d13, 0x650a7354, 0x766a0abb, 0x81c2c92e, 0x92722c85,
    0xa2bfe8a1, 0xa81a664b, 0xc24b8b70, 0xc76c51a3, 0xd192e819, 0xd6990624, 0xf40e3585, 0x106aa070,
    0x19a4c116, 0x1e376c08, 0x2748774c, 0x34b0bcb5, 0x391c0cb3, 0x4ed8aa4a, 0x5b9cca4f, 0x682e6ff3,
    0x748f82ee, 0x78a5636f, 0x84c87814, 0x8cc70208, 0x90befffa, 0xa4506ceb, 0xbef9a3f7, 0xc67178f2]
  sumA := (2, 13, 22)
  sumE := (6, 11, 25)
  mixFar := (7, 18, 3)
  mixNear := (17, 19, 10)

/-- SHA-512/256: the construction of SHA-512 from words of its own. -/
def sha512_256 : Sha2 64 where
  initial := ⟨
    0x22312194fc2bf72c, 0x9f555fa3c84c64c2, 0x2393b86b6f53b151, 0x963877195940eabd,
    0x96283ee2a88effe3, 0xbe5e1e2553863992, 0x2b0199fc2c85b8aa, 0x0eb72ddc81c52ca2⟩
  constants := [
    0x428a2f98d728ae22, 0x7137449123ef65cd, 0xb5c0fbcfec4d3b2f, 0xe9b5dba58189dbbc,
    0x3956c25bf348b538, 0x59f111f1b605d019, 0x923f82a4af194f9b, 0xab1c5ed5da6d8118,
    0xd807aa98a3030242, 0x12835b0145706fbe, 0x243185be4ee4b28c, 0x550c7dc3d5ffb4e2,
    0x72be5d74f27b896f, 0x80deb1fe3b1696b1, 0x9bdc06a725c71235, 0xc19bf174cf692694,
    0xe49b69c19ef14ad2, 0xefbe4786384f25e3, 0x0fc19dc68b8cd5b5, 0x240ca1cc77ac9c65,
    0x2de92c6f592b0275, 0x4a7484aa6ea6e483, 0x5cb0a9dcbd41fbd4, 0x76f988da831153b5,
    0x983e5152ee66dfab, 0xa831c66d2db43210, 0xb00327c898fb213f, 0xbf597fc7beef0ee4,
    0xc6e00bf33da88fc2, 0xd5a79147930aa725, 0x06ca6351e003826f, 0x142929670a0e6e70,
    0x27b70a8546d22ffc, 0x2e1b21385c26c926, 0x4d2c6dfc5ac42aed, 0x53380d139d95b3df,
    0x650a73548baf63de, 0x766a0abb3c77b2a8, 0x81c2c92e47edaee6, 0x92722c851482353b,
    0xa2bfe8a14cf10364, 0xa81a664bbc423001, 0xc24b8b70d0f89791, 0xc76c51a30654be30,
    0xd192e819d6ef5218, 0xd69906245565a910, 0xf40e35855771202a, 0x106aa07032bbd1b8,
    0x19a4c116b8d2d0c8, 0x1e376c085141ab53, 0x2748774cdf8eeb99, 0x34b0bcb5e19b48a8,
    0x391c0cb3c5c95a63, 0x4ed8aa4ae3418acb, 0x5b9cca4f7763e373, 0x682e6ff3d6b2b8a3,
    0x748f82ee5defb2fc, 0x78a5636f43172f60, 0x84c87814a1f0ab72, 0x8cc702081a6439ec,
    0x90befffa23631e28, 0xa4506cebde82bde9, 0xbef9a3f7b2c67915, 0xc67178f2e372532b,
    0xca273eceea26619c, 0xd186b8c721c0c207, 0xeada7dd6cde0eb1e, 0xf57d4f7fee6ed178,
    0x06f067aa72176fba, 0x0a637dc5a2c898a6, 0x113f9804bef90dae, 0x1b710b35131c471b,
    0x28db77f523047d84, 0x32caab7b40c72493, 0x3c9ebe0a15c9bebc, 0x431d67c49c100d4c,
    0x4cc5d4becb3e42b6, 0x597f299cfc657e2a, 0x5fcb6fab3ad6faec, 0x6c44198c4a475817]
  sumA := (28, 34, 39)
  sumE := (14, 18, 41)
  mixFar := (1, 8, 7)
  mixNear := (19, 61, 6)

end Sha2
end FieldWire
