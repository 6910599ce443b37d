import Neocache.Cache.Guards
import Neocache.Infra.LockedSections
import Neocache.Lock.Machine

/-!
# lock の実装の上の並行実行

`NeoCache` の shard は `RawRwLock` で守られている（`src/lib.rs` の `shards`）。
`Neocache/Cache/Guards.lean` の並行実行では lock を一歩で取れるものとしていたが、ここでは
`src/lock.rs` の code を access 一回ずつ動かす。

key 一つの操作は、`get` と `view` が `read`、他は `write` で lock を取る。`try_get`、`try_get_mut`、
`try_entry` は待たない入口から入り、断られれば区間は始まらない。guard を落とすと解放の入口、
`RefMut::downgrade` は降格の入口に入る。
-/

namespace Neocache

open Infra

namespace RawRwLock

variable {w : Word}

/-- lock の操作の入口。取る操作には、待つものと待たないものがある。 -/
def doors (w : Word) : Locked.Doors (Pc w) where
  lockShared p := p = LockOp.lockShared.entry w ∨ p = LockOp.tryLockShared.entry w
  lockExclusive p := p = LockOp.lockExclusive.entry w ∨ p = LockOp.tryLockExclusive.entry w
  unlockShared := LockOp.unlockShared.entry w
  unlockExclusive := LockOp.unlockExclusive.entry w
  downgrade := LockOp.downgrade.entry w

end RawRwLock

variable {K V : Type*} [DecidableEq K]

/-- shard ごとの lock と、その下の計算の状態。 -/
abbrev NeoCache.Concurrent (K V T A : Type*) (w : Word) :=
  Locked.State Nat (ShardData K V) T (K × GuardedOp K V A) (Section K V A) A
    (RawRwLock.Pc w) (BitVec w.bits)

/-- key の shard の番号 `home` と、shard の中身 `d` から動く系。 -/
def lockedGuards (T A : Type*) [DecidableEq T] (w : Word) (home : K → Nat) (hash : K → UInt64)
    (d : Nat → ShardData K V) : Lts (NeoCache.Concurrent K V T A w) T :=
  Locked.lts (guardSections home hash) (RawRwLock.program w) (RawRwLock.doors w) T d

/-- cache `c` を共有する thread たちの系。 -/
def NeoCache.lockedLts (T A : Type*) [DecidableEq T] (w : Word) (c : NeoCache K V) :
    Lts (NeoCache.Concurrent K V T A w) T :=
  lockedGuards T A w (c.home w) c.hasher c.shardData

end Neocache
