import Neocache.Cache.Ops

/-!
# shard を順に訪ねる操作

`src/lib.rs` の `_retain` と `clear`、`src/t.rs` の `_clear` は、shard の書き込み lock を一つずつ
取って放しながら進む。shard を訪ねる間に、他の thread は他の shard にも、訪ね終えた shard にも
操作を行える。

`Bulk` はその途中の状態で、一歩は shard を一つ訪ねるか、他の thread の一操作である。

`clone` も shard を順に訪ねるが、取るのは読み出し lock で、entry を一つずつ写す。`Cloning` はその
途中の状態で、`CloneReads` と同じ一歩を、途中の時点を名指しできるように並べたものである。
-/

namespace Neocache

open Infra

variable {K V : Type*} [DecidableEq K]

/-- `retain` が shard を一つ訪ねる間の closure の呼び出し。番号、key、渡した値を順に並べる。 -/
def ShardData.retainCalls (σ : ShardData K V) (f : Nat → K → V → Bool × V) (n : Nat) :
    List (Nat × K × V) :=
  (σ.map.slots.foldl (fun acc s => (acc.1 ++ [(acc.2.1, s.key, s.val.value)],
    ShardData.retainOne f acc.2 s)) (([] : List (Nat × K × V)), n, σ)).1

/-- 全ての shard を訪ねる操作。`retain` の closure は、全体を通した呼び出しの番号を受け取る。 -/
inductive BulkOp (K V : Type*) where
  | retain (f : Nat → K → V → Bool × V)
  | clear

namespace BulkOp

/-- shard 一つを訪ねる。`n` はそれまでの closure の呼び出し回数。 -/
def visit (op : BulkOp K V) (n : Nat) (σ : ShardData K V) : Nat × ShardData K V :=
  match op with
  | .retain f => σ.retain f n
  | .clear => (n, σ.clearAll)

/-- shard 一つを訪ねる間の closure の呼び出し。`clear` は closure を持たない。 -/
def calls (op : BulkOp K V) (n : Nat) (σ : ShardData K V) : List (Nat × K × V) :=
  match op with
  | .retain f => σ.retainCalls f n
  | .clear => []

/-- 訪ねることは、その shard への一操作である。 -/
def shardOp (op : BulkOp K V) (n : Nat) : ShardOp K V :=
  match op with
  | .retain f => .retain f n
  | .clear => .clearAll

/-- 操作を一人で行った結果。 -/
def exec (op : BulkOp K V) (c : NeoCache K V) : NeoCache K V :=
  match op with
  | .retain f => c.retain f
  | .clear => c.clear

end BulkOp

/-- 訪ねる途中の状態。 -/
structure Bulk (K V : Type*) where
  cache : NeoCache K V
  shardI : Nat
  calls : Nat

namespace Bulk

def start (c : NeoCache K V) : Bulk K V := ⟨c, 0, 0⟩

/-- 全ての shard を訪ね終えた。 -/
def Finished (s : Bulk K V) : Prop := s.shardI = s.cache.shards.length

/-- 一歩。label が `none` のものは訪ねる一歩、`some` のものは他の thread の一操作である。 -/
inductive Step (w : Word) (op : BulkOp K V) (s : Bulk K V) :
    Option (Nat × ShardOp K V) → Bulk K V → Prop
  | visit {σ : ShardData K V} (hσ : s.cache.shards[s.shardI]? = some σ) :
      Step w op s none
        { cache := { s.cache with
            shards := s.cache.shards.set s.shardI (op.visit s.calls σ).2 }
          shardI := s.shardI + 1
          calls := (op.visit s.calls σ).1 }
  | other {a : Nat × ShardOp K V} {r : Ret K V} {c' : NeoCache K V}
      (ht : a.2.Targets w s.cache a.1) (h : s.cache.onShard a.1 a.2 = .ok (r, c')) :
      Step w op s (some a) { s with cache := c' }

/-- 一歩の間の closure の呼び出し。 -/
def stepCalls (op : BulkOp K V) (x : Bulk K V × Option (Nat × ShardOp K V)) :
    List (Nat × K × V) :=
  match x.2, x.1.cache.shards[x.1.shardI]? with
  | none, some σ => op.calls x.1.calls σ
  | _, _ => []

/-- 実行の間の closure の呼び出し。 -/
def callLog (op : BulkOp K V) (tr : List (Bulk K V × Option (Nat × ShardOp K V))) :
    List (Nat × K × V) :=
  tr.flatMap (stepCalls op)

def lts (w : Word) (op : BulkOp K V) (c : NeoCache K V) :
    Lts (Bulk K V) (Option (Nat × ShardOp K V)) where
  init s := s = start c
  step s a s' := Step w op s a s'

end Bulk

/-! ## `clone` -/

/-- 写す途中の状態。`current` は共有 lock を取っている shard の、写し終えた slot である。 -/
structure Cloning (K V : Type*) where
  cache : NeoCache K V
  shards : List (ShardData K V)
  current : Option (List (Slot UInt64 K (CacheEntry V)))

/-- `clone` の一歩の種類。 -/
inductive CloneAct (K V : Type*) where
  | lock
  | load
  | unlock
  | other (a : Nat × ShardOp K V)

namespace Cloning

def start (c : NeoCache K V) : Cloning K V := ⟨c, [], none⟩

/-- 全ての shard を写し終えた。 -/
def Finished (s : Cloning K V) : Prop :=
  s.current = none ∧ s.shards.length = s.cache.shards.length

/-- 写した cache。 -/
def result (s : Cloning K V) : NeoCache K V := { s.cache with shards := s.shards }

inductive Step (M : Lts (NeoCache K V) (Nat × ShardOp K V)) (cloneValue : V → V) :
    Cloning K V → CloneAct K V → Cloning K V → Prop
  | lock {c : NeoCache K V} {l : List (ShardData K V)} (h : l.length < c.shards.length) :
      Step M cloneValue ⟨c, l, none⟩ .lock ⟨c, l, some []⟩
  | load {c : NeoCache K V} {l : List (ShardData K V)} {acc : List (Slot UInt64 K (CacheEntry V))}
      {σ : ShardData K V} {s : Slot UInt64 K (CacheEntry V)} (hσ : c.shards[l.length]? = some σ)
      (hs : σ.map.slots[acc.length]? = some s) :
      Step M cloneValue ⟨c, l, some acc⟩ .load
        ⟨c, l, some (acc ++ [{ s with val := s.val.clone cloneValue }])⟩
  | unlock {c : NeoCache K V} {l : List (ShardData K V)}
      {acc : List (Slot UInt64 K (CacheEntry V))} {σ : ShardData K V} {t : RawTable K V}
      (hσ : c.shards[l.length]? = some σ) (hlen : acc.length = σ.map.slots.length)
      (ht : t.slots = acc) :
      Step M cloneValue ⟨c, l, some acc⟩ .unlock ⟨c, l ++ [{ σ with map := t }], none⟩
  -- 写している shard に触れるのは、共有 lock で済む `get` だけである
  | other {c c' : NeoCache K V} {l : List (ShardData K V)}
      {acc : Option (List (Slot UInt64 K (CacheEntry V)))} {a : Nat × ShardOp K V}
      (h : M.step c a c') (hshared : acc.isSome → a.1 = l.length → ∃ k, a.2 = .key k .get) :
      Step M cloneValue ⟨c, l, acc⟩ (.other a) ⟨c', l, acc⟩

def lts (M : Lts (NeoCache K V) (Nat × ShardOp K V)) (cloneValue : V → V) (c : NeoCache K V) :
    Lts (Cloning K V) (CloneAct K V) where
  init s := s = start c
  step s a s' := Step M cloneValue s a s'

end Cloning

end Neocache
