import Mathlib.Init

/-! The hash of `murmur.cpp` on NUL-free byte strings. -/
namespace BloomServer

/-- A C string is the list of the bytes before its terminating NUL. -/
abbrev CString := List UInt8

def rotl64 (x r : UInt64) : UInt64 := (x <<< r) ||| (x >>> (64 - r))

def fmix64 (k : UInt64) : UInt64 :=
  let k := k ^^^ (k >>> 33)
  let k := k * 0xff51afd7ed558ccd
  let k := k ^^^ (k >>> 33)
  let k := k * 0xc4ceb9fe1a85ec53
  k ^^^ (k >>> 33)

/-- Up to eight bytes read as one little-endian word. -/
def littleEndian : List UInt8 → UInt64
  | [] => 0
  | b :: bs => b.toUInt64 ||| (littleEndian bs <<< 8)

def murmurC1 : UInt64 := 0x87c37b91114253d5
def murmurC2 : UInt64 := 0x4cf5ad432745937f

def mixK1 (k1 : UInt64) : UInt64 := rotl64 (k1 * murmurC1) 31 * murmurC2
def mixK2 (k2 : UInt64) : UInt64 := rotl64 (k2 * murmurC2) 33 * murmurC1

/-- The body loop over `nblocks` blocks of sixteen bytes. -/
def murmurBody : Nat → List UInt8 → UInt64 × UInt64 → UInt64 × UInt64
  | 0, _, h => h
  | nblocks + 1, data, (h1, h2) =>
      let k1 := littleEndian (data.take 8)
      let k2 := littleEndian ((data.drop 8).take 8)
      let h1 := (rotl64 (h1 ^^^ mixK1 k1) 27 + h2) * 5 + 0x52dce729
      let h2 := (rotl64 (h2 ^^^ mixK2 k2) 31 + h1) * 5 + 0x38495ab5
      murmurBody nblocks (data.drop 16) (h1, h2)

/-- The fall-through switch over the at most fifteen bytes after the blocks. -/
def murmurTail (tail : List UInt8) : UInt64 × UInt64 → UInt64 × UInt64
  | (h1, h2) =>
      let h2 := if 8 < tail.length then h2 ^^^ mixK2 (littleEndian (tail.drop 8)) else h2
      let h1 := if 0 < tail.length then h1 ^^^ mixK1 (littleEndian (tail.take 8)) else h1
      (h1, h2)

def murmurFinish (len : UInt64) : UInt64 × UInt64 → UInt64 × UInt64
  | (h1, h2) =>
      let h1 := h1 ^^^ len
      let h2 := h2 ^^^ len
      let h1 := h1 + h2
      let h2 := h2 + h1
      let h1 := fmix64 h1
      let h2 := fmix64 h2
      let h1 := h1 + h2
      (h1, h2 + h1)

def murmurHash3_x64_128_for_bloomfilter (key : CString) (seed : UInt32) : UInt64 × UInt64 :=
  let nblocks := key.length / 16
  let h := murmurBody nblocks key (seed.toUInt64, seed.toUInt64)
  murmurFinish (UInt64.ofNat key.length) (murmurTail (key.drop (nblocks * 16)) h)

end BloomServer
