import Neocache.Infra.Amortized
import Neocache.Shard.Exec

/-!
# 追い出しが queue から取り出す node の数

`src/shard.rs` の二つの内側の loop は、表に残っている node に当たるまで取り出しを続ける。
取り出した node が古いものばかりなら、一回の挿入で queue を端から端まで読むこともある。

node は hash の列と key の列に一つずつ並ぶので、一つ取り出すのに `pop_front` を二度呼ぶ。
ここではその対を一つと数え、`evict_from_small` などと同じ分岐に沿って足す。空の queue を
確かめて終わる一周も一つに数える。状態の方は元の関数の結果をそのまま使う。
-/

namespace Neocache

open Infra

variable {K V : Type*}

namespace ShardData

variable [DecidableEq K]

/-- `popLive` が取り出す node の数。 -/
def popLivePops (t : RawTable K V) : List UInt64 → List K → Nat
  | h :: hs, k :: ks =>
    match t.find h k with
    | some _ => 1
    | none => popLivePops t hs ks + 1
  | _, _ => 1

def evictFromMainPops (σ : ShardData K V) : Nat :=
  loopCost evictFromMainBody (fun σ => popLivePops σ.map σ.mainHashes σ.mainKeys)
    (σ.totalFreq + 1) σ

def evictFromSmallPops (σ : ShardData K V) : Nat :=
  popLivePops σ.map σ.smallHashes σ.smallKeys +
    match popLive σ.map σ.smallHashes σ.smallKeys with
    | (none, hs, ks) => evictFromMainPops { σ with smallHashes := hs, smallKeys := ks }
    | (some _, _, _) => 0

def evictOnePops (σ : ShardData K V) : Nat :=
  if σ.smallCap ≤ σ.smallLive then σ.evictFromSmallPops else σ.evictFromMainPops

def evictLoopPops (σ : ShardData K V) : Nat :=
  loopCost (whileBody overCap evictOne) (fun σ => if σ.overCap then σ.evictOnePops else 0)
    (σ.evictFuel + 1) σ

end ShardData

namespace ShardOp

variable [DecidableEq K]

/-- 表に無い key を入れて、queue に node を積む操作。 -/
def inserts (hash : K → UInt64) (op : ShardOp K V) (σ : ShardData K V) : Bool :=
  match op with
  | .key k kop => (σ.map.find (hash k) k).isNone && kop.newValue.isSome
  | _ => false

/-- freq を実際に一つ増やす操作。無い key と飽和した entry の読み出しは数えない。 -/
def bumps (hash : K → UInt64) (op : ShardOp K V) (σ : ShardData K V) : Bool :=
  match op with
  | .key k .get | .key k (.getMut _) => (σ.map.find (hash k) k).any fun e => e.freq < maxFreq
  | _ => false

/-- 操作一つが取り出す node の数。追い出しは、表に無い key を入れるときだけ走る。 -/
def pops (hash : K → UInt64) (op : ShardOp K V) (σ : ShardData K V) : Nat :=
  match op with
  | .key k kop =>
    match σ.map.find (hash k) k, kop.newValue with
    | none, some _ => (σ.ghostCheck (hash k)).2.evictLoopPops
    | _, _ => 0
  | _ => 0

end ShardOp

end Neocache
