/-!
# BLAKE3

The 256-bit BLAKE3 hash of a byte sequence.  The input is cut into chunks of
1024 bytes, and every chunk into blocks of 64 bytes, which are compressed one
after the other.  The chunks are the leaves of a binary tree.  The left subtree
of a node has as many chunks as the largest power of two below the number of
chunks under the node.  The last compression of a chunk or of a node is kept
open, because the one at the root is made with a flag of its own.
-/

namespace CodeGraph.Digest

/-- The initial chaining value. -/
def initial : Vector UInt32 8 :=
  #v[0x6A09E667, 0xBB67AE85, 0x3C6EF372, 0xA54FF53A, 0x510E527F, 0x9B05688C, 0x1F83D9AB, 0x5BE0CD19]

/-- Where each word of a message comes from in the next round. -/
def permutation : Vector (Fin 16) 16 := #v[2, 6, 3, 10, 7, 0, 4, 13, 1, 11, 12, 5, 9, 14, 15, 8]

/-- The flag of the first block of a chunk. -/
def chunkStart : UInt32 := 1

/-- The flag of the last block of a chunk. -/
def chunkEnd : UInt32 := 2

/-- The flag of an inner node. -/
def parentFlag : UInt32 := 4

/-- The flag of the root. -/
def rootFlag : UInt32 := 8

/-- The number of bytes of a block. -/
def blockBytes : Nat := 64

/-- The number of bytes of a chunk. -/
def chunkBytes : Nat := 1024

/-! ## Compression -/

/-- A word rotated to the right. -/
def rotateRight (w n : UInt32) : UInt32 := (w >>> n) ||| (w <<< (32 - n))

/-- Two words of a message mixed into four words of the state. -/
def mix (v : Vector UInt32 16) (a b c d : Fin 16) (x y : UInt32) : Vector UInt32 16 :=
  let va := v[a] + v[b] + x
  let vd := rotateRight (v[d] ^^^ va) 16
  let vc := v[c] + vd
  let vb := rotateRight (v[b] ^^^ vc) 12
  let va := va + vb + y
  let vd := rotateRight (vd ^^^ va) 8
  let vc := vc + vd
  let vb := rotateRight (vb ^^^ vc) 7
  (((v.set a va).set b vb).set c vc).set d vd

/-- One round: the columns, then the diagonals. -/
def round (v m : Vector UInt32 16) : Vector UInt32 16 :=
  let v := mix v 0 4 8 12 m[0] m[1]
  let v := mix v 1 5 9 13 m[2] m[3]
  let v := mix v 2 6 10 14 m[4] m[5]
  let v := mix v 3 7 11 15 m[6] m[7]
  let v := mix v 0 5 10 15 m[8] m[9]
  let v := mix v 1 6 11 12 m[10] m[11]
  let v := mix v 2 7 8 13 m[12] m[13]
  mix v 3 4 9 14 m[14] m[15]

/-- The message of the next round. -/
def permute (m : Vector UInt32 16) : Vector UInt32 16 := permutation.map fun i => m[i]

/-- Several rounds, the message permuted between them. -/
def rounds : Nat → Vector UInt32 16 → Vector UInt32 16 → Vector UInt32 16
  | 0, v, _ => v
  | n + 1, v, m => rounds n (round v m) (permute m)

/-- A compression that is still to be made. -/
structure Pending where
  /-- The chaining value. -/
  chaining : Vector UInt32 8
  /-- The message. -/
  block : Vector UInt32 16
  /-- The number of the chunk. -/
  counter : Nat
  /-- The number of bytes in the message. -/
  length : Nat
  /-- The flags. -/
  flags : UInt32

/-- The first half of the result of a compression. -/
def Pending.run (p : Pending) : Vector UInt32 8 :=
  let cv := p.chaining
  let v := rounds 7
    #v[cv[0], cv[1], cv[2], cv[3], cv[4], cv[5], cv[6], cv[7],
      initial[0], initial[1], initial[2], initial[3],
      UInt32.ofNat p.counter, UInt32.ofNat (p.counter / UInt32.size),
      UInt32.ofNat p.length, p.flags]
    p.block
  #v[v[0] ^^^ v[8], v[1] ^^^ v[9], v[2] ^^^ v[10], v[3] ^^^ v[11],
    v[4] ^^^ v[12], v[5] ^^^ v[13], v[6] ^^^ v[14], v[7] ^^^ v[15]]

/-! ## Chunks and the tree -/

/-- Word `i` of a block, its least significant byte first.  Bytes that are missing are zero. -/
def wordAt (block : Array UInt8) (i : Nat) : UInt32 :=
  let byte (k : Nat) : UInt32 := (block.getD (4 * i + k) 0).toUInt32
  byte 0 ||| (byte 1 <<< 8) ||| (byte 2 <<< 16) ||| (byte 3 <<< 24)

/-- The words of a block. -/
def blockWords (block : List UInt8) : Vector UInt32 16 :=
  let bytes := block.toArray
  Vector.ofFn fun i => wordAt bytes i

/-- The blocks of a chunk compressed up to the last, from a chaining value.
`start` is the flag of the first block that is left. -/
def chunkFrom (counter : Nat) (cv : Vector UInt32 8) (start : UInt32) (bytes : List UInt8) :
    Pending :=
  if bytes.length ≤ blockBytes then
    ⟨cv, blockWords bytes, counter, bytes.length, start ||| chunkEnd⟩
  else
    let cv := Pending.run ⟨cv, blockWords (bytes.take blockBytes), counter, blockBytes, start⟩
    chunkFrom counter cv 0 (bytes.drop blockBytes)
termination_by bytes.length
decreasing_by
  simp only [List.length_drop, blockBytes] at *
  omega

/-- The number of bytes under the left child of a node with `n` bytes. -/
def leftBytes (n : Nat) : Nat := Nat.pow 2 (Nat.log2 ((n - 1) / chunkBytes)) * chunkBytes

/-- The left child has at least one byte. -/
theorem leftBytes_pos (n : Nat) : 0 < leftBytes n :=
  Nat.mul_pos (Nat.pow_pos (by decide)) (by decide)

/-- The left child leaves at least one byte to the right. -/
theorem leftBytes_lt {n : Nat} (h : chunkBytes < n) : leftBytes n < n := by
  have hc : (n - 1) / chunkBytes ≠ 0 := by
    have : 1 ≤ (n - 1) / chunkBytes := (Nat.le_div_iff_mul_le (by decide)).mpr (by omega)
    omega
  have hl : Nat.pow 2 (Nat.log2 ((n - 1) / chunkBytes)) ≤ (n - 1) / chunkBytes :=
    Nat.log2_self_le hc
  have hm := Nat.div_mul_le_self (n - 1) chunkBytes
  have := Nat.mul_le_mul_right chunkBytes hl
  unfold leftBytes
  omega

/-- The last compression of the tree over some bytes.  `counter` is the number
of the first chunk. -/
def tree (counter : Nat) (bytes : List UInt8) : Pending :=
  if _h : bytes.length ≤ chunkBytes then chunkFrom counter initial chunkStart bytes
  else
    let n := leftBytes bytes.length
    let left := (tree counter (bytes.take n)).run
    let right := (tree (counter + n / chunkBytes) (bytes.drop n)).run
    ⟨initial, left ++ right, 0, blockBytes, parentFlag⟩
termination_by bytes.length
decreasing_by
  · have := leftBytes_lt (Nat.lt_of_not_le _h)
    rw [List.length_take]
    omega
  · have := leftBytes_lt (Nat.lt_of_not_le _h)
    have := leftBytes_pos bytes.length
    rw [List.length_drop]
    omega

/-- The words of the hash. -/
def hashWords (bytes : ByteArray) : Vector UInt32 8 :=
  let p := tree 0 bytes.toList
  { p with flags := p.flags ||| rootFlag }.run

/-! ## Text -/

/-- A hexadecimal digit in lower case. -/
def hexDigit (n : Nat) : Char :=
  if n < 10 then Char.ofNat ('0'.toNat + n) else Char.ofNat ('a'.toNat + (n - 10))

/-- The two digits of a byte. -/
def hexByte (b : UInt8) : List Char := [hexDigit (b.toNat / 16), hexDigit (b.toNat % 16)]

/-- The bytes of a word, the least significant first. -/
def wordBytes (w : UInt32) : List UInt8 :=
  [w.toUInt8, (w >>> 8).toUInt8, (w >>> 16).toUInt8, (w >>> 24).toUInt8]

/-- The hash of a byte sequence, in hexadecimal. -/
def contentHash (bytes : ByteArray) : String :=
  String.ofList (((hashWords bytes).toList.flatMap wordBytes).flatMap hexByte)

end CodeGraph.Digest
