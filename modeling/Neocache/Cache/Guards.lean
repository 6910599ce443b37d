import Neocache.Cache.Ops
import Neocache.Infra.Sections
import Neocache.Shard.Guards

/-!
# guard を持つ操作の並行実行

好きな数の thread が、key 一つの操作を好きな順に始める。操作は hash の選ぶ shard の lock を取り、
guard を落とすまで `Section.Step` で一歩ずつ進む。lock の取り方は `Infra.Sections` の読み書き lock
であり、thread の一歩はどう交ざってもよい。

`NeoCache.runGuarded` は、同じ操作を一つずつ最後まで行う。
-/

namespace Neocache

open Infra

variable {K V A T : Type*} [DecidableEq K]

/-- lock の下の操作の系。`home` は key の shard の番号。 -/
def guardSections (home : K → Nat) (hash : K → UInt64) :
    Sections Nat (ShardData K V) (K × GuardedOp K V A) (Section K V A) A where
  obj op := home op.1
  start op := op.2.code (hash op.1) op.1
  shared l := ∃ c, l = .shared c
  step l σ l' σ' := Section.Step σ l l' σ'
  result := Section.result

namespace NeoCache

omit [DecidableEq K] in
/-- key の shard の番号。構築した cache では `shardIndex` が失敗しないので、0 は使われない。 -/
def home (w : Word) (c : NeoCache K V) (k : K) : Nat :=
  match c.shardIndex w k with
  | .ok i => i
  | .error _ => 0

omit [DecidableEq K] in
/-- 番号ごとの shard の中身。範囲の外の番号は誰も使わない。 -/
def shardData (c : NeoCache K V) (i : Nat) : ShardData K V := c.shards.getD i (.new 0)

omit [DecidableEq K] in
/-- shard の中身を番号ごとに置き換えた cache。 -/
def withShards (c : NeoCache K V) (d : Nat → ShardData K V) : NeoCache K V :=
  { c with shards := (List.range c.shards.length).map d }

/-- key の shard を選び、guard を落とすまでを一息に行う。 -/
def guarded (w : Word) (c : NeoCache K V) (k : K) (op : GuardedOp K V A) :
    Except Fault (A × NeoCache K V) :=
  match c.shardIndex w k with
  | .error f => .error f
  | .ok i =>
    match c.shards[i]? with
    | none => .error .assertion
    | some σ => (op.exec (c.hasher k) k σ).map fun p => (p.1, { c with shards := c.shards.set i p.2 })

/-- 操作を順に一つずつ行い、返り値の列と最後の cache を返す。 -/
def runGuarded (w : Word) : List (K × GuardedOp K V A) → NeoCache K V →
    Except Fault (List A × NeoCache K V)
  | [], c => .ok ([], c)
  | (k, op) :: ops, c =>
    match c.guarded w k op with
    | .error f => .error f
    | .ok (a, c') => (runGuarded w ops c').map fun p => (a :: p.1, p.2)

/-- cache `c` の上の並行実行。`T` は thread。 -/
def guardLts (T A : Type*) (w : Word) (c : NeoCache K V) :
    Lts (Sections.World Nat (ShardData K V) T (K × GuardedOp K V A) (Section K V A) A) T :=
  (guardSections (c.home w) c.hasher).lts T c.shardData

/--
全ての操作が終わった実行。

`hist` は、lock を取った順に thread と操作と返り値を並べたもの、`d` は終わったときの shard である。
-/
def Finishes (w : Word) (c : NeoCache K V) (hist : List (T × (K × GuardedOp K V A) × A))
    (d : Nat → ShardData K V) : Prop :=
  (c.guardLts T A w).Reachable ⟨d, hist.map fun x => ⟨x.1, x.2.1, .finished x.2.2⟩⟩

end NeoCache

end Neocache
