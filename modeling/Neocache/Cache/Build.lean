import Mathlib.Data.Nat.Log
import Neocache.Shard.Data

/-!
# cache の構築

`src/lib.rs` の `with_capacity_and_hasher_and_shard_amount` と `determine_shard`。

`usize` の幅は platform で決まるので `Word` に持たせ、幅ごとに全ての入力について論じる。
値そのものは `Nat` で持ち、溢れ・0 での割り算・範囲外の shift は `Fault` で表す。
-/

namespace Neocache

/-! ## `usize` の演算 -/

/-- `usize` の幅。Rust では 16 以上である。 -/
structure Word where
  bits : Nat
  sixteen_le : 16 ≤ bits

namespace Word

variable (w : Word)

/-- 表せる値の個数。 -/
def size : Nat := 2 ^ w.bits

def div (a b : Nat) : Except Fault Nat := if b = 0 then .error .divByZero else .ok (a / b)

def sub (a b : Nat) : Except Fault Nat := if a < b then .error .underflow else .ok (a - b)

def isPowerOfTwo (n : Nat) : Bool := (List.range w.bits).any fun i => n == 2 ^ i

/-- `n` 以上の最小の 2 冪。幅に収まらなければ溢れる。 -/
def nextPowerOfTwo (n : Nat) : Except Fault Nat :=
  if 2 ^ Nat.clog 2 n < w.size then .ok (2 ^ Nat.clog 2 n) else .error .overflow

/-- 下から続く 0 の個数。全部 0 なら幅そのもの。 -/
def trailingZeros (n : Nat) : Nat := ((List.range w.bits).find? fun i => n.testBit i).getD w.bits

/-- `div_ceil`。商に 1 を足すときは溢れを見る。 -/
def divCeil (a b : Nat) : Except Fault Nat :=
  if b = 0 then .error .divByZero
  else if Neocache.divCeil a b < w.size then .ok (Neocache.divCeil a b) else .error .overflow

/-- 左 shift。溢れた桁は落ちる。 -/
def shl (a s : Nat) : Except Fault Nat :=
  if s < w.bits then .ok (a * 2 ^ s % w.size) else .error .shiftOutOfRange

def shr (a s : Nat) : Except Fault Nat :=
  if s < w.bits then .ok (a / 2 ^ s) else .error .shiftOutOfRange

end Word

/-! ## 構築 -/

variable {K V : Type*}

/-- cache 全体。shard の lock は各操作の側で扱うので、ここでは中身だけを並べる。 -/
structure NeoCache (K V : Type*) where
  shift : Nat
  shards : List (ShardData K V)
  hasher : K → UInt64
  cacheCapacity : Nat

namespace NeoCache

/-- 実際に使う shard の数。shard 一つの容量が 4 を切るなら数を減らす。 -/
def shardAmount (w : Word) (cacheCapacity shardAmount : Nat) : Except Fault Nat :=
  if 0 < cacheCapacity then do
    let q ← Word.div cacheCapacity shardAmount
    if q < 4 then
      let quarter ← Word.div cacheCapacity 4
      let p ← w.nextPowerOfTwo quarter
      return max p 2
    else return shardAmount
  else return shardAmount

/-- shard 一つの容量。総和が `cacheCapacity` を下回らないよう切り上げる。 -/
def shardCap (w : Word) (cacheCapacity shardAmount : Nat) : Except Fault Nat :=
  if cacheCapacity = 0 then .ok 0
  else do
    let q ← w.divCeil cacheCapacity shardAmount
    return max q 1

/-- 構築で決まる三つの数。 -/
structure Layout where
  shardCount : Nat
  shift : Nat
  shardCap : Nat
  deriving DecidableEq, Repr

def layout (w : Word) (cacheCapacity requested : Nat) : Except Fault Layout := do
  if ¬ 1 < requested then throw .assertion
  if ¬ w.isPowerOfTwo requested then throw .assertion
  let shardCount ← shardAmount w cacheCapacity requested
  let shift ← Word.sub w.bits (w.trailingZeros shardCount)
  let shardCap ← shardCap w cacheCapacity shardCount
  return { shardCount, shift, shardCap }

def withCapacityAndHasherAndShardAmount (w : Word) (cacheCapacity : Nat) (hasher : K → UInt64)
    (requested : Nat) : Except Fault (NeoCache K V) :=
  (layout w cacheCapacity requested).map fun l =>
    { shift := l.shift
      shards := List.replicate l.shardCount (.new l.shardCap)
      hasher
      cacheCapacity }

/-- hash の上位 7 桁は表の tag に使われるので、その下の桁で shard を選ぶ。 -/
def determineShard (w : Word) (c : NeoCache K V) (hash : Nat) : Except Fault Nat := do
  let h ← w.shl hash 7
  w.shr h c.shift

/-- `hash as usize`。 -/
def hashUsize (w : Word) (c : NeoCache K V) (k : K) : Nat := (c.hasher k).toNat % w.size

end NeoCache

end Neocache
