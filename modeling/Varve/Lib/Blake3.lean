import Varve.Lib.Bytes

/-!
# BLAKE3

The hash of a byte string, in its default mode and with an output of 32 bytes.
-/

namespace Blake3

abbrev State := Vector UInt32 16
abbrev Chaining := Vector UInt32 8

def iv : Chaining :=
  #v[0x6A09E667, 0xBB67AE85, 0x3C6EF372, 0xA54FF53A, 0x510E527F, 0x9B05688C, 0x1F83D9AB, 0x5BE0CD19]

def chunkStart : UInt32 := 1
def chunkEnd : UInt32 := 2
def parent : UInt32 := 4
def root : UInt32 := 8

def rotateRight (x n : UInt32) : UInt32 := (x >>> n) ||| (x <<< (32 - n))

def mix (s : State) (a b c d : Fin 16) (x y : UInt32) : State :=
  let va := s[a] + s[b] + x
  let vd := rotateRight (s[d] ^^^ va) 16
  let vc := s[c] + vd
  let vb := rotateRight (s[b] ^^^ vc) 12
  let va := va + vb + y
  let vd := rotateRight (vd ^^^ va) 8
  let vc := vc + vd
  let vb := rotateRight (vb ^^^ vc) 7
  (((s.set a va).set b vb).set c vc).set d vd

def round (s m : State) : State :=
  -- columns
  let s := mix s 0 4 8 12 m[0] m[1]
  let s := mix s 1 5 9 13 m[2] m[3]
  let s := mix s 2 6 10 14 m[4] m[5]
  let s := mix s 3 7 11 15 m[6] m[7]
  -- diagonals
  let s := mix s 0 5 10 15 m[8] m[9]
  let s := mix s 1 6 11 12 m[10] m[11]
  let s := mix s 2 7 8 13 m[12] m[13]
  mix s 3 4 9 14 m[14] m[15]

def permute (m : State) : State :=
  #v[m[2], m[6], m[3], m[10], m[7], m[0], m[4], m[13], m[1], m[11], m[12], m[5], m[9], m[14], m[15],
    m[8]]

def rounds : Nat → State → State → State
  | 0, s, _ => s
  | n + 1, s, m => rounds n (round s m) (permute m)

structure Node where
  chaining : Chaining
  block : State
  counter : Nat
  length : Nat
  flags : UInt32

def compress (node : Node) (flags : UInt32) : Chaining :=
  let h := node.chaining
  let s : State :=
    #v[h[0], h[1], h[2], h[3], h[4], h[5], h[6], h[7], iv[0], iv[1], iv[2], iv[3],
      .ofNat node.counter, .ofNat (node.counter / 2 ^ 32), .ofNat node.length, node.flags ||| flags]
  let s := rounds 7 s node.block
  #v[s[0] ^^^ s[8], s[1] ^^^ s[9], s[2] ^^^ s[10], s[3] ^^^ s[11], s[4] ^^^ s[12], s[5] ^^^ s[13],
    s[6] ^^^ s[14], s[7] ^^^ s[15]]

/-- The words of a block, which is filled up with zeros. -/
def words (bytes : Bytes) : State :=
  .ofFn fun i => .ofNat (Bytes.leValue ((bytes.drop (4 * i)).take 4))

/-- The last block of a chunk, after the blocks before it. -/
def chunk (counter : Nat) : Nat → Chaining → UInt32 → Bytes → Node
  | 0, chaining, start, bytes => ⟨chaining, words bytes, counter, bytes.length, start ||| chunkEnd⟩
  | n + 1, chaining, start, bytes =>
    if bytes.length ≤ 64 then ⟨chaining, words bytes, counter, bytes.length, start ||| chunkEnd⟩
    else chunk counter n (compress ⟨chaining, words bytes, counter, 64, start⟩ 0) 0 (bytes.drop 64)

/-- The top of the tree over an input that starts at chunk `counter`. -/
def tree : Nat → Nat → Bytes → Node
  | 0, counter, bytes => chunk counter 15 iv chunkStart bytes
  | depth + 1, counter, bytes =>
    if bytes.length ≤ 1024 then chunk counter 15 iv chunkStart bytes
    else
      let left := 2 ^ Nat.log2 ((bytes.length - 1) / 1024)
      let l := compress (tree depth counter (bytes.take (1024 * left))) 0
      let r := compress (tree depth (counter + left) (bytes.drop (1024 * left))) 0
      ⟨iv, (l ++ r).cast (by decide), 0, 64, parent⟩

def hash (bytes : Bytes) : Bytes :=
  (compress (tree bytes.length 0 bytes) root).toList.flatMap fun word => Bytes.le 4 word.toNat

@[simp] theorem length_hash (bytes : Bytes) : (hash bytes).length = 32 := by
  simp [hash, List.length_flatMap, List.map_const']

example : (hash [97, 98, 99]).take 8 = [0x64, 0x37, 0xb3, 0xac, 0x38, 0x46, 0x51, 0x33] := by
  decide +kernel

end Blake3
