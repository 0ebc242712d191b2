import TapeLang.Bytes

/-!
# Digests

Modules carry a digest of their code. Nothing but the digest's length matters to them; the program uses
BLAKE3. There the input is cut into chunks of 1024 bytes and each chunk into blocks of 64. Blocks of a
chunk are chained by a compression function; chunks are leaves of a binary tree that is built level by
level, an odd node at the end of a level moving up as it is. The compression of the root gives the
digest.
-/

namespace TapeLang.Module

namespace Digest

abbrev Chaining := Vector UInt32 8

abbrev Block := Vector UInt32 16

def initial : Chaining :=
  #v[0x6A09E667, 0xBB67AE85, 0x3C6EF372, 0xA54FF53A, 0x510E527F, 0x9B05688C, 0x1F83D9AB, 0x5BE0CD19]

def chunkStart : UInt32 := 1

def chunkEnd : UInt32 := 2

def parent : UInt32 := 4

def root : UInt32 := 8

def rotateRight (w n : UInt32) : UInt32 :=
  (w >>> n) ||| (w <<< (32 - n))

/-- Mixes two message words into four words of the state. -/
def mix (v : Block) (a b c d : Fin 16) (x y : UInt32) : Block :=
  let va := v[a] + v[b] + x
  let vd := rotateRight (v[d] ^^^ va) 16
  let vc := v[c] + vd
  let vb := rotateRight (v[b] ^^^ vc) 12
  let va := va + vb + y
  let vd := rotateRight (vd ^^^ va) 8
  let vc := vc + vd
  let vb := rotateRight (vb ^^^ vc) 7
  (((v.set a va).set b vb).set c vc).set d vd

/-- Columns, then diagonals. -/
def round (v m : Block) : Block :=
  let v := mix v 0 4 8 12 m[0] m[1]
  let v := mix v 1 5 9 13 m[2] m[3]
  let v := mix v 2 6 10 14 m[4] m[5]
  let v := mix v 3 7 11 15 m[6] m[7]
  let v := mix v 0 5 10 15 m[8] m[9]
  let v := mix v 1 6 11 12 m[10] m[11]
  let v := mix v 2 7 8 13 m[12] m[13]
  mix v 3 4 9 14 m[14] m[15]

/-- The order of the message words in the next round. -/
def permute (m : Block) : Block :=
  #v[m[2], m[6], m[3], m[10], m[7], m[0], m[4], m[13],
    m[1], m[11], m[12], m[5], m[9], m[14], m[15], m[8]]

def rounds : Nat → Block → Block → Block
  | 0, v, _ => v
  | n + 1, v, m => rounds n (round v m) (permute m)

/-- A compression still to be done. -/
structure Node where
  chaining : Chaining
  block : Block
  counter : UInt64
  length : UInt32
  flags : UInt32

def compress (n : Node) (extraFlags : UInt32) : Chaining :=
  let h := n.chaining
  let v : Block := #v[h[0], h[1], h[2], h[3], h[4], h[5], h[6], h[7],
    initial[0], initial[1], initial[2], initial[3],
    n.counter.toUInt32, (n.counter >>> 32).toUInt32, n.length, n.flags ||| extraFlags]
  let v := rounds 7 v n.block
  #v[v[0] ^^^ v[8], v[1] ^^^ v[9], v[2] ^^^ v[10], v[3] ^^^ v[11],
    v[4] ^^^ v[12], v[5] ^^^ v[13], v[6] ^^^ v[14], v[7] ^^^ v[15]]

/-- Cuts off `count` pieces of `size` bytes; the rest is the last piece. -/
def pieces (size : Nat) : (count : Nat) → Bytes → List Bytes
  | 0, bytes => [bytes]
  | count + 1, bytes => bytes.take size :: pieces size count (bytes.drop size)

/-- Pieces of `size` bytes, the last one shorter; no bytes make one empty piece. -/
def cut (size : Nat) (bytes : Bytes) : List Bytes :=
  pieces size ((bytes.length - 1) / size) bytes

/-- The words of at most 64 bytes, filled up with zeros. -/
def blockWords (bytes : Bytes) : Block :=
  Vector.ofFn fun i => UInt32.ofNat (Bytes.toNat ((bytes.drop (4 * i)).take 4))

/-- Chains the blocks of a chunk up to the last, which is left to be compressed. -/
def chainBlocks (counter : UInt64) (chaining : Chaining) (flags : UInt32) : List Bytes → Node
  | [] => ⟨chaining, blockWords [], counter, 0, flags ||| chunkEnd⟩
  | [last] =>
    ⟨chaining, blockWords last, counter, UInt32.ofNat last.length, flags ||| chunkEnd⟩
  | block :: rest =>
    let node : Node := ⟨chaining, blockWords block, counter, UInt32.ofNat block.length, flags⟩
    chainBlocks counter (compress node 0) 0 rest

def chunkNode (counter : Nat) (chunk : Bytes) : Node :=
  chainBlocks (UInt64.ofNat counter) initial chunkStart (cut 64 chunk)

def parentNode (left right : Node) : Node :=
  ⟨initial, compress left 0 ++ compress right 0, 0, 64, parent⟩

/-- Joins neighbours; an odd node at the end stays. -/
def joinPairs : List Node → List Node
  | left :: right :: rest => parentNode left right :: joinPairs rest
  | rest => rest

/-- Joins level by level until one node is left. -/
def joinAll : (levels : Nat) → List Node → Option Node
  | _, [] => none
  | _, [node] => some node
  | 0, node :: _ => some node
  | levels + 1, nodes => joinAll levels (joinPairs nodes)

def rootNode (bytes : Bytes) : Node :=
  let leaves := (cut 1024 bytes).zipIdx.map fun (chunk, i) => chunkNode i chunk
  (joinAll leaves.length leaves).getD (chunkNode 0 [])

/-- The 32 bytes of the digest. -/
def blake3 (bytes : Bytes) : Bytes :=
  (compress (rootNode bytes) root).toList.flatMap Bytes.ofUInt32

private theorem length_flatMap_ofUInt32 (ws : List UInt32) :
    (ws.flatMap Bytes.ofUInt32).length = 4 * ws.length := by
  induction ws with
  | nil => rfl
  | cons w ws ih =>
    rw [List.flatMap_cons, List.length_append, ih, Bytes.length_ofUInt32, List.length_cons]
    omega

theorem length_blake3 (bytes : Bytes) : (blake3 bytes).length = 32 := by
  rw [blake3, length_flatMap_ofUInt32, Vector.length_toList]

end Digest

/-- A function that gives every byte string a digest of 32 bytes. -/
structure Hash where
  digest : Bytes → Bytes
  length_digest : ∀ bytes, (digest bytes).length = 32

def Hash.blake3 : Hash := ⟨Digest.blake3, Digest.length_blake3⟩

end TapeLang.Module
