import Neocache.Properties.Eviction

/-!
# 除去で node も消す参照実装

`docs/algorithm.md` の「Lazy removal」は、除去で queue の node を残しても
追い出しの loop が読み飛ばすだけだと言う。その比較の相手として、
操作が entry を除いたときに二本の queue からもその key の node を全部消す shard を置く。

状態の型と操作の本体は `ShardData` と同じで、操作の後に `purge` を挟むだけである。
追い出しで消えた entry は操作による除去ではないので、`purge` の対象にしない。
-/

namespace Neocache

open Infra ShardData

variable {K V : Type*} [DecidableEq K]

/-- 二本の列から、その key の node を同時に消す。 -/
def purgeNodes (k : K) (hs : List UInt64) (ks : List K) : List UInt64 × List K :=
  ((hs.zip ks).filter fun node => node.2 ≠ k).unzip

/-- 二本の queue から、その key の node を全部消す。 -/
def ShardData.purge (σ : ShardData K V) (k : K) : ShardData K V :=
  { σ with
    smallHashes := (purgeNodes k σ.smallHashes σ.smallKeys).1
    smallKeys := (purgeNodes k σ.smallHashes σ.smallKeys).2
    mainHashes := (purgeNodes k σ.mainHashes σ.mainKeys).1
    mainKeys := (purgeNodes k σ.mainHashes σ.mainKeys).2 }

/-- 操作が除いた key。新しい key の挿入に伴う追い出しは含まない。 -/
def ShardOp.removedKeys (op : ShardOp K V) (σ σ' : ShardData K V) : List K :=
  match op with
  | .key k _ => if (σ.map.get? k).isSome ∧ (σ'.map.get? k).isNone then [k] else []
  | .retain _ _ | .alterAll _ _ | .clearAll => σ.map.keys.filter fun k => (σ'.map.get? k).isNone

/-- 除去のたびに node も消す shard の一操作。 -/
def ShardOp.execEager (hash : K → UInt64) (op : ShardOp K V) (σ : ShardData K V) :
    Except Fault (Ret K V × ShardData K V) :=
  match op.exec hash σ with
  | .error f => .error f
  | .ok (r, σ') => .ok (r, (op.removedKeys σ σ').foldl ShardData.purge σ')

/-- 操作の列で観測できるもの。各操作の返り値と、その後の key から値への写像。 -/
def observe (step : ShardOp K V → ShardData K V → Except Fault (Ret K V × ShardData K V)) :
    List (ShardOp K V) → ShardData K V → List (Except Fault (Ret K V × (K → Option V)))
  | [], _ => []
  | op :: ops, σ =>
    match step op σ with
    | .error f => [.error f]
    | .ok (r, σ') => .ok (r, σ'.lookup) :: observe step ops σ'

end Neocache
