import Neocache.Cache.Iter

/-!
# serde

`src/ser.rs` の `Serialize::serialize` と `visit_map`。

`serialize` は、まず `len` で shard を順に数えてその和を `serialize_map` に渡し、それから `Iter` で
対を一つずつ `serialize_entry` に渡す。二つの巡回はそれぞれ lock を取って放すので、間に他の thread
の一歩が挟まる（`Serializing.lts`）。

書式は `Format` として受け取る。長さと対の列を書いたものから、対の列を読み戻せることだけを求める。
-/

namespace Neocache

open Infra

variable {K V : Type*}

/-! ## `serialize` -/

/-- `serialize` の途中の状態。 -/
structure Serializing (K V : Type*) where
  run : Iteration K V
  /-- `len` が次に読む shard。 -/
  counted : Nat
  /-- `len` がそれまでに足した個数。読み終えた和が `serialize_map` に渡る。 -/
  len : Nat
  /-- `serialize_entry` に渡した対。 -/
  entries : List (K × V)

/-- `serialize` する thread と他の thread の動き。 -/
inductive SerializeAct (K V : Type*) where
  /-- `len` が shard 一つを読む。 -/
  | count
  | next (e : IterEvent K V)
  | drop (i : Nat) (k : K)
  | other (i : Nat) (op : ShardOp K V)

namespace Serializing

def start (c : NeoCache K V) : Serializing K V := ⟨.start c, 0, 0, []⟩

/-- `serialize_map` に長さを渡したところ。 -/
def Announced (s : Serializing K V) : Prop := s.counted = s.run.cache.shards.length

/-- `end()` を呼ぶところまで来た。 -/
def Ended (s : Serializing K V) : Prop := s.Announced ∧ s.run.Finished

variable [DecidableEq K]

inductive Step (w : Word) (s : Serializing K V) : SerializeAct K V → Serializing K V → Prop
  | count {σ : ShardData K V} (hσ : s.run.cache.shards[s.counted]? = some σ) :
      Step w s .count { s with counted := s.counted + 1, len := s.len + σ.map.len }
  | next {e : IterEvent K V} {run : Iteration K V} (hlen : s.Announced)
      (h : Iteration.Step w .shared s.run (.next e) run) :
      Step w s (.next e) { s with run := run, entries := s.entries ++ e.emitted }
  | drop {i : Nat} {k : K} {run : Iteration K V}
      (h : Iteration.Step w .shared s.run (.drop i k) run) :
      Step w s (.drop i k) { s with run := run }
  | other {i : Nat} {op : ShardOp K V} {run : Iteration K V}
      (h : Iteration.Step w .shared s.run (.other i op) run) :
      Step w s (.other i op) { s with run := run }

def lts (w : Word) (c : NeoCache K V) : Lts (Serializing K V) (SerializeAct K V) where
  init s := s = start c
  step := Step w

/-- `len` が読んでから反復が lock を取るまでの間に、他の thread がその shard の個数を変えない。 -/
def Undisturbed (s : Serializing K V) : SerializeAct K V → Prop
  | .other i op => s.run.iter.unlocked ≤ i → i < s.counted → ∀ r c,
      s.run.cache.onShard i op = .ok (r, c) →
      (IterTrace.pairsAt c i).length = (IterTrace.pairsAt s.run.cache i).length
  | _ => True

/-- 他の thread は読むことしかしない。 -/
def ReadsOnly (_ : Serializing K V) : SerializeAct K V → Prop
  | .other _ op => ∃ k, op = .key k .get
  | _ => True

end Serializing

/-! ## `visit_map` -/

/-- `available_parallelism` から決まる既定の shard の数。 -/
def defaultShardAmount (w : Word) (parallelism : Nat) : Except Fault Nat :=
  if parallelism * 16 < w.size then w.nextPowerOfTwo (parallelism * 16) else .error .overflow

namespace NeoCache

def withCapacityAndHasher (w : Word) (parallelism cacheCapacity : Nat) (hasher : K → UInt64) :
    Except Fault (NeoCache K V) :=
  match defaultShardAmount w parallelism with
  | .error f => .error f
  | .ok shardAmount => withCapacityAndHasherAndShardAmount w cacheCapacity hasher shardAmount

def withHasher (w : Word) (parallelism : Nat) (hasher : K → UInt64) : Except Fault (NeoCache K V) :=
  withCapacityAndHasher w parallelism 0 hasher

end NeoCache

/-- `visit_map` の失敗。読み出しの失敗は呼び出し側に返る。 -/
inductive VisitError (ε : Type*) where
  | access (e : ε)
  | fault (f : Fault)

variable {ε : Type*} [DecidableEq K]

/-- `next_entry` が返すものを順に挿入する。 -/
def visitEntries (w : Word) : NeoCache K V → List (Except ε (K × V)) →
    Except (VisitError ε) (NeoCache K V)
  | map, [] => .ok map
  | _, .error e :: _ => .error (.access e)
  | map, .ok (k, v) :: rest =>
    match map.keyOp w k (.insert v) with
    | .error f => .error (.fault f)
    | .ok (_, map') => visitEntries w map' rest

def visitMap (w : Word) (parallelism : Nat) (hasher : K → UInt64)
    (access : List (Except ε (K × V))) : Except (VisitError ε) (NeoCache K V) :=
  match NeoCache.withHasher w parallelism hasher with
  | .error f => .error (.fault f)
  | .ok map => visitEntries w map access

/-- 対の列を運ぶ書式。告げた長さが対の個数と合っていれば、読み戻せる。 -/
structure Format (K V ε α : Type*) where
  encode : Nat → List (K × V) → α
  decode : α → List (Except ε (K × V))
  faithful : ∀ l, decode (encode l.length l) = l.map .ok

end Neocache
