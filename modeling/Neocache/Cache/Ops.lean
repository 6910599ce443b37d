import Neocache.Cache.Build
import Neocache.Shard.Ops

/-!
# cache の操作

`src/lib.rs` の公開 API を、shard を選ぶ所から書く。
key 一つの操作は hash から shard を選んでその lock の下で `KeyOp` を行い、
全体の操作は shard を順に訪ねて一つずつ lock を取る。

lock を取ってから放すまでは他から割り込まれないので、
並行する実行は「どれか一つの shard に一操作」を一歩とする遷移系で表す（`cacheLts`）。
全体の操作もこの一歩を並べたものであり、途中に他の thread の一歩が挟まってよい。
一操作を一歩と見てよいことは `Neocache/Properties/Atomicity.lean` で示す。

`clone` は全体の操作だが、共有 lock の下で entry を一つずつ写すので、途中を見せた関係として書く。
-/

namespace Neocache

open Infra

variable {K V : Type*}

/-- cache の操作の返り値。 -/
inductive CacheRet (K V : Type*) where
  | key (r : Ret K V)
  | unit
  | entries (l : List (K × V))

/-- cache の操作。 -/
inductive CacheOp (K V : Type*) where
  | key (k : K) (op : KeyOp K V)
  | iter
  | retain (f : Nat → K → V → Bool × V)
  | alterAll (f : Nat → K → V → V)
  | clear

/-- `try_get` と `try_get_mut` の返り値。 -/
inductive TryResult (V : Type*) where
  | present (v : V)
  | absent
  | locked
  deriving DecidableEq, Repr

namespace NeoCache

/-- shard を順に訪ねる。`n` は closure がそれまでに呼ばれた回数。 -/
def visitShards (visit : Nat → ShardData K V → Nat × ShardData K V) :
    Nat → List (ShardData K V) → Nat × List (ShardData K V)
  | n, [] => (n, [])
  | n, σ :: rest =>
    ((visitShards visit (visit n σ).1 rest).1, (visit n σ).2 :: (visitShards visit (visit n σ).1 rest).2)

/-- key の shard の番号。 -/
def shardIndex (w : Word) (c : NeoCache K V) (k : K) : Except Fault Nat :=
  c.determineShard w (c.hashUsize w k)

/-- `_len`。shard を順に読んで個数を足す。 -/
def len (c : NeoCache K V) : Nat := (c.shards.map fun σ => σ.map.len).sum

/-- `iter` が順に返す key と値。 -/
def iter (c : NeoCache K V) : List (K × V) :=
  c.shards.flatMap fun σ => σ.map.slots.map fun s => (s.key, s.val.value)

variable [DecidableEq K]

/-- 一つの shard に一操作を行う。番号が範囲外なら `debug_assert` に掛かる。 -/
def onShard (c : NeoCache K V) (i : Nat) (op : ShardOp K V) :
    Except Fault (Ret K V × NeoCache K V) :=
  match c.shards[i]? with
  | none => .error .assertion
  | some σ => (op.exec c.hasher σ).map fun p => (p.1, { c with shards := c.shards.set i p.2 })

/-- key の shard を選んで一操作を行う。 -/
def keyOp (w : Word) (c : NeoCache K V) (k : K) (op : KeyOp K V) :
    Except Fault (Ret K V × NeoCache K V) :=
  match c.shardIndex w k with
  | .error f => .error f
  | .ok i => c.onShard i (.key k op)

def retain (c : NeoCache K V) (f : Nat → K → V → Bool × V) : NeoCache K V :=
  { c with shards := (visitShards (fun n σ => σ.retain f n) 0 c.shards).2 }

def alterAll (c : NeoCache K V) (f : Nat → K → V → V) : NeoCache K V :=
  { c with shards := (visitShards (fun n σ => σ.alterAll f n) 0 c.shards).2 }

def clear (c : NeoCache K V) : NeoCache K V := { c with shards := c.shards.map .clearAll }

def exec (w : Word) (op : CacheOp K V) (c : NeoCache K V) :
    Except Fault (CacheRet K V × NeoCache K V) :=
  match op with
  | .key k op => (c.keyOp w k op).map fun p => (.key p.1, p.2)
  | .iter => .ok (.entries c.iter, c)
  | .retain f => .ok (.unit, c.retain f)
  | .alterAll f => .ok (.unit, c.alterAll f)
  | .clear => .ok (.unit, c.clear)

/-- `view`。`get` で得た値に `f` を施す。 -/
def view {R : Type*} (w : Word) (c : NeoCache K V) (k : K) (f : K → V → R) :
    Except Fault (Option R × NeoCache K V) :=
  (c.keyOp w k .get).map fun
    | (.value (some v), c') => (some (f k v), c')
    | (_, c') => (none, c')

def containsKey (w : Word) (c : NeoCache K V) (k : K) : Except Fault (Bool × NeoCache K V) :=
  (c.keyOp w k .get).map fun
    | (.value (some _), c') => (true, c')
    | (_, c') => (false, c')

/-- `try_get`。lock が取れなければ shard に触らずに戻る。 -/
def tryGet (w : Word) (busy : Bool) (c : NeoCache K V) (k : K) :
    Except Fault (TryResult V × NeoCache K V) :=
  if busy then .ok (.locked, c)
  else (c.keyOp w k .get).map fun
    | (.value (some v), c') => (.present v, c')
    | (_, c') => (.absent, c')

/-- `try_get_mut`。返した guard を通した代入は `f` で受ける。 -/
def tryGetMut (w : Word) (busy : Bool) (c : NeoCache K V) (k : K) (f : K → V → V) :
    Except Fault (TryResult V × NeoCache K V) :=
  if busy then .ok (.locked, c)
  else (c.keyOp w k (.getMut f)).map fun
    | (.value (some v), c') => (.present v, c')
    | (_, c') => (.absent, c')

/--
`try_entry`。lock が取れなければ `None` を返し、取れたら `entry` と同じ所を指す entry を返す。

返した entry を呼び出し側がどう使うかは `use` で受け、guard を放した後の cache までを返す。
-/
def tryEntry (w : Word) (busy : Bool) (c : NeoCache K V) (k : K)
    (use : Entry K V → Except Fault (ShardData K V)) : Except Fault (Bool × NeoCache K V) :=
  if busy then .ok (false, c)
  else match c.shardIndex w k with
    | .error f => .error f
    | .ok i =>
      match c.shards[i]? with
      | none => .error .assertion
      | some σ => (use (σ.entry (c.hasher k) k)).map fun σ' =>
          (true, { c with shards := c.shards.set i σ' })

end NeoCache

/-! ## 読み出し専用の view -/

/-- `into_read_only` で得た view。書き手がもう居ないので、lock を取らずに読む。 -/
structure ReadOnlyView (K V : Type*) where
  map : NeoCache K V

namespace ReadOnlyView

variable {Q : Type*}

/-- 借用した形 `Q` の key で引く。`borrow` と `hash` は `Borrow` と `Hash` の実装にあたる。 -/
def getKeyValue [DecidableEq Q] (w : Word) (view : ReadOnlyView K V) (borrow : K → Q)
    (hash : Q → UInt64) (key : Q) : Except Fault (Option (K × V)) :=
  match view.map.determineShard w ((hash key).toNat % w.size) with
  | .error f => .error f
  | .ok idx =>
    match view.map.shards[idx]? with
    | none => .error .assertion
    | some shard => .ok ((shard.map.findBy (hash key) fun k => key = borrow k).map fun p =>
        (p.1, p.2.value))

/-- 全ての shard の key と値を順に返す。 -/
def iter (view : ReadOnlyView K V) : List (K × V) :=
  (List.range view.map.shards.length).flatMap fun i =>
    match view.map.shards[i]? with
    | none => []
    | some shard => shard.map.slots.map fun s => (s.key, s.val.value)

end ReadOnlyView

/-! ## 並行する実行 -/

variable [DecidableEq K]

/-- 選んだ番号がその操作の対象であること。key の操作は hash が選ぶ shard にしか触らない。 -/
def ShardOp.Targets (w : Word) (c : NeoCache K V) (i : Nat) : ShardOp K V → Prop
  | .key k _ => c.shardIndex w k = .ok i
  | _ => True

/-- 構築した cache の、どれか一つの shard に一操作を行う遷移系。 -/
def cacheLts (K V : Type*) [DecidableEq K] (w : Word) (cacheCapacity : Nat) (hasher : K → UInt64)
    (requested : Nat) : Lts (NeoCache K V) (Nat × ShardOp K V) where
  init c := NeoCache.withCapacityAndHasherAndShardAmount w cacheCapacity hasher requested = .ok c
  step c a c' := a.2.Targets w c a.1 ∧ ∃ r, c.onShard a.1 a.2 = .ok (r, c')

/-- 到達可能な cache。 -/
def CacheReachable (w : Word) (cacheCapacity : Nat) (hasher : K → UInt64) (requested : Nat)
    (c : NeoCache K V) : Prop :=
  (cacheLts K V w cacheCapacity hasher requested).Reachable c

/--
他の thread の一歩が挟まる `len`。

`LenReads M c i acc n` は、番号 `i` からの読み出しがこれから始まり、それまでの和が `acc` である
cache `c` から、`len` が `n` を返しうることを言う。
-/
inductive LenReads (M : Lts (NeoCache K V) (Nat × ShardOp K V)) :
    NeoCache K V → Nat → Nat → Nat → Prop
  | done {c : NeoCache K V} {i acc : Nat} (h : c.shards.length ≤ i) : LenReads M c i acc acc
  | read {c : NeoCache K V} {i acc n : Nat} {σ : ShardData K V} (h : c.shards[i]? = some σ)
      (rest : LenReads M c (i + 1) (acc + σ.map.len) n) : LenReads M c i acc n
  | other {c c' : NeoCache K V} {i acc n : Nat} {a : Nat × ShardOp K V} (h : M.step c a c')
      (rest : LenReads M c' i acc n) : LenReads M c i acc n

/--
他の thread の一歩が挟まる `clone`。

`CloneReads M cloneValue c l acc r` は、番号 `l.length` より前の shard を写し終えて `l` を得た所から、
`clone` が `r` を返しうることを言う。`acc` は共有 lock を取っている shard の、写し終えた slot である。
その lock の下でも他の thread は `get` を行えるので、freq は entry ごとに別々に読む。
-/
inductive CloneReads (M : Lts (NeoCache K V) (Nat × ShardOp K V)) (cloneValue : V → V) :
    NeoCache K V → List (ShardData K V) → Option (List (Slot UInt64 K (CacheEntry V))) →
      NeoCache K V → Prop
  | done {c : NeoCache K V} {l : List (ShardData K V)} (h : l.length = c.shards.length) :
      CloneReads M cloneValue c l none { c with shards := l }
  | lock {c r : NeoCache K V} {l : List (ShardData K V)} (h : l.length < c.shards.length)
      (rest : CloneReads M cloneValue c l (some []) r) : CloneReads M cloneValue c l none r
  | load {c r : NeoCache K V} {l : List (ShardData K V)} {acc : List (Slot UInt64 K (CacheEntry V))}
      {σ : ShardData K V} {s : Slot UInt64 K (CacheEntry V)} (hσ : c.shards[l.length]? = some σ)
      (hs : σ.map.slots[acc.length]? = some s)
      (rest : CloneReads M cloneValue c l
        (some (acc ++ [{ s with val := s.val.clone cloneValue }])) r) :
      CloneReads M cloneValue c l (some acc) r
  | unlock {c r : NeoCache K V} {l : List (ShardData K V)}
      {acc : List (Slot UInt64 K (CacheEntry V))} {σ : ShardData K V} {t : RawTable K V}
      (hσ : c.shards[l.length]? = some σ) (hlen : acc.length = σ.map.slots.length)
      (ht : t.slots = acc) (rest : CloneReads M cloneValue c (l ++ [{ σ with map := t }]) none r) :
      CloneReads M cloneValue c l (some acc) r
  | other {c c' r : NeoCache K V} {l : List (ShardData K V)}
      {acc : Option (List (Slot UInt64 K (CacheEntry V)))} {a : Nat × ShardOp K V}
      (h : M.step c a c') (hshared : acc.isSome → a.1 = l.length → ∃ k, a.2 = .key k .get)
      (rest : CloneReads M cloneValue c' l acc r) : CloneReads M cloneValue c l acc r

/-- 構築した cache から、操作と `clone` を繰り返して得られる cache。 -/
inductive CacheDerived (w : Word) (cacheCapacity : Nat) (hasher : K → UInt64) (requested : Nat)
    (cloneValue : V → V) : NeoCache K V → Prop
  | built {c : NeoCache K V}
      (h : NeoCache.withCapacityAndHasherAndShardAmount w cacheCapacity hasher requested = .ok c) :
      CacheDerived w cacheCapacity hasher requested cloneValue c
  | step {c c' : NeoCache K V} {a : Nat × ShardOp K V}
      (h : CacheDerived w cacheCapacity hasher requested cloneValue c)
      (hs : (cacheLts K V w cacheCapacity hasher requested).step c a c') :
      CacheDerived w cacheCapacity hasher requested cloneValue c'
  | clone {c c' : NeoCache K V}
      (h : CacheDerived w cacheCapacity hasher requested cloneValue c)
      (hc : CloneReads (cacheLts K V w cacheCapacity hasher requested) cloneValue c [] none c') :
      CacheDerived w cacheCapacity hasher requested cloneValue c'

end Neocache
