import CodeCache.Bytes.Basic

/-!
# Name hash

Tables are read by other processes, so names are hashed by a fixed function without a per-process
seed: a folded multiplication over 16 bytes at a time, closed by one multiplication per word that is
added to the running state.
-/

namespace CodeCache.Hash

def multiplier : UInt64 := 0xf1357aea2e62a9c5

def mix (x y : UInt64) : UInt64 :=
  let product := x.toNat * y.toNat
  UInt64.ofNat product ^^^ UInt64.ofNat (product / UInt64.size)

def word (bs : Bytes) (offset : Nat) : UInt64 :=
  (bs.window offset 8).toUInt64

def absorb : Nat → Bytes → UInt64 × UInt64 → UInt64 × UInt64
  | 0, _, state => state
  | blocks + 1, bs, (s0, s1) =>
    absorb blocks (bs.drop 16)
      (s1, mix (s0 ^^^ word bs 0) (0xa4093822299f31d0 ^^^ word bs 8))

/-- The state after all bytes: short inputs are read as two overlapping words, longer ones block by
block, and their last 16 bytes once more. -/
def state (bs : Bytes) : UInt64 × UInt64 :=
  let n := bs.length
  let s0 : UInt64 := 0x243f6a8885a308d3
  let s1 : UInt64 := 0x13198a2e03707344
  if n > 16 then
    let (s0, s1) := absorb ((n - 1) / 16) bs (s0, s1)
    (s0 ^^^ word bs (n - 16), s1 ^^^ word bs (n - 8))
  else if n ≥ 8 then (s0 ^^^ word bs 0, s1 ^^^ word bs (n - 8))
  else if n ≥ 4 then
    (s0 ^^^ (bs.window 0 4).toUInt64, s1 ^^^ (bs.window (n - 4) 4).toUInt64)
  else if n > 0 then
    let first := bs.getD 0 0
    let middle := bs.getD (n / 2) 0
    let last := bs.getD (n - 1) 0
    (s0 ^^^ first.toUInt64, s1 ^^^ (last.toUInt64 <<< 8 ||| middle.toUInt64))
  else (s0, s1)

def ofBytes (bs : Bytes) : UInt64 :=
  let (s0, s1) := state bs
  mix s0 s1 ^^^ UInt64.ofNat bs.length

def add (h x : UInt64) : UInt64 :=
  (h + x) * multiplier

def stable (seed : UInt64) (bs : Bytes) : UInt32 :=
  let h := add (add (add 0 seed) (ofBytes bs)) (UInt64.ofNat bs.length)
  let f := h <<< 26 ||| h >>> 38
  (f ^^^ f >>> 32).toUInt32

end CodeCache.Hash
