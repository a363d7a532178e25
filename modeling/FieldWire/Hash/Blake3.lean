import FieldWire.Hash.Sha2

/-! # BLAKE3

The unkeyed BLAKE3 hash with 32 bytes of result. The message is cut into chunks of 1024 bytes, the leaves of a
binary tree. The blocks of a chunk are compressed one after another. A parent compresses the chaining values of its
two children, and the result is taken from the root. -/

namespace FieldWire.Blake3

abbrev Word := BitVec 32

/-- The eight words that one compression hands to the next. -/
abbrev ChainingValue := Vector Word 8

/-- The words that every chunk and every parent starts from: those of SHA-256. -/
def initial : ChainingValue :=
  let x := Sha2.sha256.initial
  #v[x.a, x.b, x.c, x.d, x.e, x.f, x.g, x.h]

/-! ### The compression -/

def chunkStart : Nat := 1

def chunkEnd : Nat := 2

def parentFlag : Nat := 4

def rootFlag : Nat := 8

/-- One mixing of two message words into four words of the state. -/
def mix (v : Vector Word 16) (a b c d : Fin 16) (x y : Word) : Vector Word 16 :=
  let va := v.get a + v.get b + x
  let vd := (v.get d ^^^ va).rotateRight 16
  let vc := v.get c + vd
  let vb := (v.get b ^^^ vc).rotateRight 12
  let va := va + vb + y
  let vd := (vd ^^^ va).rotateRight 8
  let vc := vc + vd
  let vb := (vb ^^^ vc).rotateRight 7
  (((v.set a va).set b vb).set c vc).set d vd

/-- One round: the columns of the state, then its diagonals. -/
def round (v m : Vector Word 16) : Vector Word 16 :=
  let v := mix v 0 4 8 12 (m.get 0) (m.get 1)
  let v := mix v 1 5 9 13 (m.get 2) (m.get 3)
  let v := mix v 2 6 10 14 (m.get 4) (m.get 5)
  let v := mix v 3 7 11 15 (m.get 6) (m.get 7)
  let v := mix v 0 5 10 15 (m.get 8) (m.get 9)
  let v := mix v 1 6 11 12 (m.get 10) (m.get 11)
  let v := mix v 2 7 8 13 (m.get 12) (m.get 13)
  mix v 3 4 9 14 (m.get 14) (m.get 15)

/-- Where each message word of the next round comes from. -/
def permutation : Vector (Fin 16) 16 := #v[2, 6, 3, 10, 7, 0, 4, 13, 1, 11, 12, 5, 9, 14, 15, 8]

/-- The given number of rounds; the message words are permuted after each. -/
def rounds : Nat → Vector Word 16 → Vector Word 16 → Vector Word 16
  | 0, v, _ => v
  | n + 1, v, m => rounds n (round v m) (permutation.map m.get)

structure Node where
  chain : ChainingValue
  block : Vector Word 16
  counter : Nat
  blockLength : Nat
  flags : Nat

/-- The first eight words that the compression of a node gives. -/
def Node.compress (node : Node) : ChainingValue :=
  let c := node.chain
  let v : Vector Word 16 :=
    #v[c.get 0, c.get 1, c.get 2, c.get 3, c.get 4, c.get 5, c.get 6, c.get 7,
      initial.get 0, initial.get 1, initial.get 2, initial.get 3,
      BitVec.ofNat 32 node.counter, BitVec.ofNat 32 (node.counter >>> 32),
      BitVec.ofNat 32 node.blockLength, BitVec.ofNat 32 node.flags]
  let v := rounds 7 v node.block
  Vector.ofFn fun i : Fin 8 => v.get (i.castAdd 8) ^^^ v.get (i.natAdd 8)

/-! ### Chunks and parents -/

/-- The words of a block, least significant byte first; a short block is filled up with zero bytes. -/
def wordsOfBlock (block : Bytes) : Vector Word 16 :=
  let words := (chunks 4 block).map fun bytes => BitVec.ofNat 32 (ofLittleEndian bytes)
  Vector.ofFn fun i => words.getD i 0

/-- The node of the last block of a chunk, after the blocks before it. -/
def chunkNode (counter : Nat) (chain : ChainingValue) (flags : Nat) : (block : Bytes) → List Bytes → Node
  | block, [] => ⟨chain, wordsOfBlock block, counter, block.length, flags + chunkEnd⟩
  | block, next :: more =>
    let node : Node := ⟨chain, wordsOfBlock block, counter, block.length, flags⟩
    chunkNode counter node.compress 0 next more

/-- The leaf of the chunk with the given number; a chunk without bytes is one empty block. -/
def leaf (counter : Nat) (chunk : Bytes) : Node :=
  match chunks 64 chunk with
  | [] => chunkNode counter initial chunkStart [] []
  | block :: more => chunkNode counter initial chunkStart block more

def parent (left right : Node) : Node :=
  ⟨initial, left.compress ++ right.compress, 0, 64, parentFlag⟩

/-- The parents of a level of the tree. A node without a neighbour moves up as it is. -/
def parents : List Node → List Node
  | left :: right :: more => parent left right :: parents more
  | rest => rest

theorem length_parents_le : ∀ nodes : List Node, (parents nodes).length ≤ nodes.length
  | [] => by simp [parents]
  | [_] => by simp [parents]
  | _ :: _ :: more => by
    have := length_parents_le more
    simp only [parents, List.length_cons]
    omega

/-- The node at the top of a level that starts with `first`. -/
def top (first : Node) (level : List Node) : Node :=
  match level with
  | [] => first
  | second :: more => top (parent first second) (parents more)
termination_by level.length
decreasing_by
  have := length_parents_le more
  simp only [List.length_cons]
  omega

/-- The top of the tree over the message. -/
def root (message : Bytes) : Node :=
  match (chunks 1024 message).zipIdx.map fun (chunk, i) => leaf i chunk with
  | [] => leaf 0 []
  | first :: more => top first more

/-- The bytes of the root's compression, each word least significant byte first. -/
def hash (message : Bytes) : Digest :=
  let node := root message
  let words := { node with flags := node.flags + rootFlag }.compress
  let bytes := words.toList.flatMap fun word => littleEndian 4 word.toNat
  ⟨Vector.ofFn fun i => bytes.getD i 0⟩

end FieldWire.Blake3
