import Neocache.Infra.Lts
import Neocache.Shard.Data

/-!
# shard に触る操作

`src/lib.rs` の `impl Map for NeoCache` と `src/mapref/entry.rs` のうち、
shard の lock を取ってから放すまでの部分。hash は呼ぶ側（`Neocache/Cache/`）が計算して渡す。

新しい key の挿入は source に三回（`_insert`、`VacantEntry::insert`、
`VacantEntry::insert_entry`）、loc に応じて counter を減らす除去は六回書かれている。
ここでは `insertVacant` と `unlink` に一度ずつ書き、source の各関数をその上に置く。

closure の引数は関数で受ける。`FnMut` は呼ぶたびに状態が変わりうるので、
何回目の呼び出しかを先頭の引数に取る関数で表す。
-/

namespace Neocache

open Infra

variable {K V : Type*}

/-- 操作の返り値。`Err` は `or_try_insert_with` の closure が失敗したときだけ出る。 -/
inductive Ret (K V : Type*) where
  | unit
  | value (v : Option V)
  | pair (p : Option (K × V))
  | err
  deriving DecidableEq, Repr

namespace ShardData

variable [DecidableEq K]

/-! ## 挿入と除去の共通部分 -/

/-- ghost set に hash があれば取り除いて main に、無ければ small に入れる。 -/
def ghostCheck (σ : ShardData K V) (h : UInt64) : Loc × ShardData K V :=
  (if h ∈ σ.ghostSet then .main else .small, { σ with ghostSet := σ.ghostSet.erase h })

/-- 表に entry を置き、loc の queue に node を積み、counter を増やす。 -/
def register (σ : ShardData K V) (h : UInt64) (k : K) (v : V) (loc : Loc) : ShardData K V :=
  match loc with
  | .main =>
    { σ with
      map := σ.map.insert h k (.new v .main)
      mainHashes := σ.mainHashes ++ [h], mainKeys := σ.mainKeys ++ [k]
      mainLive := σ.mainLive + 1 }
  | .small =>
    { σ with
      map := σ.map.insert h k (.new v .small)
      smallHashes := σ.smallHashes ++ [h], smallKeys := σ.smallKeys ++ [k]
      smallLive := σ.smallLive + 1 }

/-- 表に無い key の挿入。ghost の判定、追い出しの loop、登録の順に進む。 -/
def insertVacant (σ : ShardData K V) (h : UInt64) (k : K) (v : V) :
    Except Fault (ShardData K V) :=
  match (σ.ghostCheck h).2.evictLoop with
  | .error f => .error f
  | .ok σ' => .ok (σ'.register h k v (σ.ghostCheck h).1)

/-- 表から除き、loc の counter を 0 で止まる引き算で減らす。queue の node は残す。 -/
def unlink (σ : ShardData K V) (k : K) (loc : Loc) : ShardData K V :=
  match loc with
  | .small => { σ with map := σ.map.remove k, smallLive := σ.smallLive - 1 }
  | .main => { σ with map := σ.map.remove k, mainLive := σ.mainLive - 1 }

/-- 表にある entry を書き換える。 -/
def updateEntry (σ : ShardData K V) (k : K) (f : CacheEntry V → CacheEntry V) : ShardData K V :=
  { σ with map := σ.map.modify k f }

def setValue (σ : ShardData K V) (k : K) (v : V) : ShardData K V :=
  σ.updateEntry k fun e => { e with value := v }

/-! ## `impl Map for NeoCache` -/

def insert (σ : ShardData K V) (h : UInt64) (k : K) (v : V) :
    Except Fault (Ret K V × ShardData K V) :=
  match σ.map.find h k with
  | some e => .ok (.value (some e.value), σ.setValue k v)
  | none => (σ.insertVacant h k v).map fun σ' => (.value none, σ')

def remove (σ : ShardData K V) (h : UInt64) (k : K) : Ret K V × ShardData K V :=
  match σ.map.find h k with
  | some e => (.pair (some (k, e.value)), σ.unlink k e.loc)
  | none => (.pair none, σ)

def removeIf (σ : ShardData K V) (h : UInt64) (k : K) (f : K → V → Bool) :
    Ret K V × ShardData K V :=
  match σ.map.find h k with
  | some e => if f k e.value then (.pair (some (k, e.value)), σ.unlink k e.loc) else (.pair none, σ)
  | none => (.pair none, σ)

/-- 述語が値を書き換えてから判定する除去。除かないときも書き換えは残る。 -/
def removeIfMut (σ : ShardData K V) (h : UInt64) (k : K) (f : K → V → Bool × V) :
    Ret K V × ShardData K V :=
  match σ.map.find h k with
  | some e =>
    let σ' := σ.setValue k (f k e.value).2
    if (f k e.value).1 then (.pair (some (k, (f k e.value).2)), σ'.unlink k e.loc)
    else (.pair none, σ')
  | none => (.pair none, σ)

/-- `_get`。`view`、`contains_key`、`try_get` もこの読み出しを通る。 -/
def get (σ : ShardData K V) (h : UInt64) (k : K) : Ret K V × ShardData K V :=
  match σ.map.find h k with
  | some e => (.value (some e.value), σ.updateEntry k .bumpFreq)
  | none => (.value none, σ)

/-- `_get_mut` で得た guard を通して値を `f` で書き換える。`alter` もこの形である。 -/
def getMut (σ : ShardData K V) (h : UInt64) (k : K) (f : K → V → V) : Ret K V × ShardData K V :=
  match σ.map.find h k with
  | some e => (.value (some e.value), (σ.updateEntry k .bumpFreq).setValue k (f k e.value))
  | none => (.value none, σ)

/-- `_retain` の shard 一つ分のうち、bucket 一つの処理。 -/
def retainOne (f : Nat → K → V → Bool × V) (acc : Nat × ShardData K V)
    (s : Slot UInt64 K (CacheEntry V)) : Nat × ShardData K V :=
  let r := f acc.1 s.key s.val.value
  let σ' := acc.2.setValue s.key r.2
  (acc.1 + 1, if r.1 then σ' else σ'.unlink s.key s.val.loc)

/-- 条件を満たさない entry を除く。`n` はそれまでの closure の呼び出し回数。 -/
def retain (σ : ShardData K V) (f : Nat → K → V → Bool × V) (n : Nat) : Nat × ShardData K V :=
  σ.map.slots.foldl (retainOne f) (n, σ)

/-- `_alter_all` の shard 一つ分のうち、bucket 一つの処理。freq は増やさない。 -/
def alterOne (f : Nat → K → V → V) (acc : Nat × ShardData K V)
    (s : Slot UInt64 K (CacheEntry V)) : Nat × ShardData K V :=
  (acc.1 + 1, acc.2.setValue s.key (f acc.1 s.key s.val.value))

def alterAll (σ : ShardData K V) (f : Nat → K → V → V) (n : Nat) : Nat × ShardData K V :=
  σ.map.slots.foldl (alterOne f) (n, σ)

end ShardData

/-! ## entry API -/

/-- 空いている場所を指す entry。`slot` は key で表すので持たない。 -/
structure VacantEntry (K V : Type*) where
  shard : ShardData K V
  key : K
  hash : UInt64

/-- 埋まっている場所を指す entry。`bucket` は key で表し、その中身を `entry` に写しておく。 -/
structure OccupiedEntry (K V : Type*) where
  shard : ShardData K V
  key : K
  entry : CacheEntry V

inductive Entry (K V : Type*) where
  | occupied (e : OccupiedEntry K V)
  | vacant (e : VacantEntry K V)

/-- write guard を持った参照。指している値と、放すときの shard。 -/
structure RefMut (K V : Type*) where
  shard : ShardData K V
  value : V

variable [DecidableEq K]

def ShardData.entry (σ : ShardData K V) (h : UInt64) (k : K) : Entry K V :=
  match σ.map.find h k with
  | some e => .occupied ⟨σ, k, e⟩
  | none => .vacant ⟨σ, k, h⟩

namespace VacantEntry

def insert (e : VacantEntry K V) (v : V) : Except Fault (RefMut K V) :=
  (e.shard.insertVacant e.hash e.key v).map fun σ => ⟨σ, v⟩

def insertEntry (e : VacantEntry K V) (v : V) : Except Fault (OccupiedEntry K V) :=
  (e.shard.insertVacant e.hash e.key v).map fun σ => ⟨σ, e.key, .new v (e.shard.ghostCheck e.hash).1⟩

end VacantEntry

namespace OccupiedEntry

/-- 値を書き換えた後の entry。`get_mut` の参照を通した代入にあたる。 -/
def modify (e : OccupiedEntry K V) (f : V → V) : OccupiedEntry K V where
  shard := e.shard.setValue e.key (f e.entry.value)
  key := e.key
  entry := { e.entry with value := f e.entry.value }

def insert (e : OccupiedEntry K V) (v : V) : V × OccupiedEntry K V :=
  (e.entry.value, e.modify fun _ => v)

def intoRef (e : OccupiedEntry K V) : RefMut K V := ⟨e.shard, e.entry.value⟩

def remove (e : OccupiedEntry K V) : V × ShardData K V :=
  (e.entry.value, e.shard.unlink e.key e.entry.loc)

def removeEntry (e : OccupiedEntry K V) : (K × V) × ShardData K V :=
  ((e.key, e.entry.value), e.shard.unlink e.key e.entry.loc)

/-- 値を入れ替える。loc と freq は元の entry のものを引き継ぐ。 -/
def replaceEntry (e : OccupiedEntry K V) (v : V) : (K × V) × ShardData K V :=
  ((e.key, e.entry.value),
    e.shard.updateEntry e.key fun _ =>
      { CacheEntry.new v e.entry.loc with freq := e.entry.freq })

end OccupiedEntry

namespace Entry

def andModify (e : Entry K V) (f : V → V) : Entry K V :=
  match e with
  | .occupied e => .occupied (e.modify f)
  | .vacant e => .vacant e

def orInsertWith (e : Entry K V) (value : Unit → V) : Except Fault (RefMut K V) :=
  match e with
  | .occupied e => .ok e.intoRef
  | .vacant e => e.insert (value ())

def orInsert (e : Entry K V) (v : V) : Except Fault (RefMut K V) := e.orInsertWith fun _ => v

/-- 引数 `dflt` は `V::default()` の値。 -/
def orDefault (e : Entry K V) (dflt : V) : Except Fault (RefMut K V) := e.orInsert dflt

/-- closure の失敗は `none` で表し、そのとき shard は渡されたまま放される。 -/
def orTryInsertWith (e : Entry K V) (value : Unit → Option V) :
    Except Fault (Option (RefMut K V)) :=
  match e with
  | .occupied e => .ok (some e.intoRef)
  | .vacant e =>
    match value () with
    | none => .ok none
    | some v => (e.insert v).map some

def insert (e : Entry K V) (v : V) : Except Fault (RefMut K V) :=
  match e with
  | .occupied e => .ok (e.insert v).2.intoRef
  | .vacant e => e.insert v

def insertEntry (e : Entry K V) (v : V) : Except Fault (OccupiedEntry K V) :=
  match e with
  | .occupied e => .ok (e.insert v).2
  | .vacant e => e.insertEntry v

/-- entry を使わずに捨てたときに放される shard。 -/
def shard : Entry K V → ShardData K V
  | .occupied e => e.shard
  | .vacant e => e.shard

end Entry

/-! ## 操作の一覧 -/

/-- key 一つに対する操作。guard は受け取った直後に放すものとする。 -/
inductive KeyOp (K V : Type*) where
  | insert (v : V)
  | entryInsert (v : V)
  | insertEntry (v : V)
  | orDefault (dflt : V)
  | orInsert (v : V)
  | orInsertWith (value : Unit → V)
  | orTryInsertWith (value : Unit → Option V)
  | andModify (f : V → V)
  | occupiedInsert (v : V)
  | replaceEntry (v : V)
  | get
  | getMut (f : K → V → V)
  | remove
  | removeIf (f : K → V → Bool)
  | removeIfMut (f : K → V → Bool × V)
  | occupiedRemove
  | occupiedRemoveEntry

namespace KeyOp

/-- occupied のときだけ働く操作。`if let Entry::Occupied(e) = map.entry(k)` の形で呼ばれる。 -/
def onOccupied (e : Entry K V) (f : OccupiedEntry K V → Ret K V × ShardData K V) :
    Ret K V × ShardData K V :=
  match e with
  | .occupied e => f e
  | .vacant e => (.unit, e.shard)

/-- lock を取った shard の上で操作を一つ行う。 -/
def exec (op : KeyOp K V) (h : UInt64) (k : K) (σ : ShardData K V) :
    Except Fault (Ret K V × ShardData K V) :=
  match op with
  | .insert v => σ.insert h k v
  | .entryInsert v => ((σ.entry h k).insert v).map fun r => (.value (some r.value), r.shard)
  | .insertEntry v =>
    ((σ.entry h k).insertEntry v).map fun e => (.value (some e.entry.value), e.shard)
  | .orDefault dflt => ((σ.entry h k).orDefault dflt).map fun r => (.value (some r.value), r.shard)
  | .orInsert v => ((σ.entry h k).orInsert v).map fun r => (.value (some r.value), r.shard)
  | .orInsertWith value =>
    ((σ.entry h k).orInsertWith value).map fun r => (.value (some r.value), r.shard)
  | .orTryInsertWith value =>
    ((σ.entry h k).orTryInsertWith value).map fun
      | some r => (.value (some r.value), r.shard)
      | none => (.err, σ)
  | .andModify f => .ok (.unit, ((σ.entry h k).andModify f).shard)
  | .occupiedInsert v => .ok (onOccupied (σ.entry h k) fun e =>
      (.value (some (e.insert v).1), (e.insert v).2.shard))
  | .replaceEntry v => .ok (onOccupied (σ.entry h k) fun e =>
      (.pair (some (e.replaceEntry v).1), (e.replaceEntry v).2))
  | .get => .ok (σ.get h k)
  | .getMut f => .ok (σ.getMut h k f)
  | .remove => .ok (σ.remove h k)
  | .removeIf f => .ok (σ.removeIf h k f)
  | .removeIfMut f => .ok (σ.removeIfMut h k f)
  | .occupiedRemove => .ok (onOccupied (σ.entry h k) fun e =>
      (.value (some e.remove.1), e.remove.2))
  | .occupiedRemoveEntry => .ok (onOccupied (σ.entry h k) fun e =>
      (.pair (some e.removeEntry.1), e.removeEntry.2))

end KeyOp

/-- shard 一つに触る操作。`n` は closure がそれまでの shard で呼ばれた回数。 -/
inductive ShardOp (K V : Type*) where
  | key (k : K) (op : KeyOp K V)
  | retain (f : Nat → K → V → Bool × V) (n : Nat)
  | alterAll (f : Nat → K → V → V) (n : Nat)
  | clearAll

/-- hasher を固定したときの、shard の一操作。 -/
def ShardOp.exec (hash : K → UInt64) (op : ShardOp K V) (σ : ShardData K V) :
    Except Fault (Ret K V × ShardData K V) :=
  match op with
  | .key k op => op.exec (hash k) k σ
  | .retain f n => .ok (.unit, (σ.retain f n).2)
  | .alterAll f n => .ok (.unit, (σ.alterAll f n).2)
  | .clearAll => .ok (.unit, σ.clearAll)

/-- 空の shard から操作を続ける遷移系。 -/
def shardLts (K V : Type*) [DecidableEq K] (hash : K → UInt64) (cap : Nat) :
    Lts (ShardData K V) (ShardOp K V) where
  init σ := σ = .new cap
  step σ op σ' := ∃ r, op.exec hash σ = .ok (r, σ')

/-- 到達可能な shard の状態。 -/
def ShardReachable (hash : K → UInt64) (cap : Nat) (σ : ShardData K V) : Prop :=
  (shardLts K V hash cap).Reachable σ

/-- 操作の列を順に行い、返り値の列と最後の状態を返す。 -/
def runOps (hash : K → UInt64) : List (ShardOp K V) → ShardData K V →
    Except Fault (List (Ret K V) × ShardData K V)
  | [], σ => .ok ([], σ)
  | op :: ops, σ =>
    match op.exec hash σ with
    | .error f => .error f
    | .ok (r, σ') => (runOps hash ops σ').map fun p => (r :: p.1, p.2)

theorem reachable_new {hash : K → UInt64} {cap : Nat} :
    ShardReachable hash cap (ShardData.new cap : ShardData K V) :=
  .init rfl

/-- 列を行えたなら、先頭の操作が成功して残りがその続きから行えている。 -/
theorem runOps_cons {hash : K → UInt64} {op : ShardOp K V} {ops : List (ShardOp K V)}
    {σ σ' : ShardData K V} {rs : List (Ret K V)} (h : runOps hash (op :: ops) σ = .ok (rs, σ')) :
    ∃ r rs' σ₁, op.exec hash σ = .ok (r, σ₁) ∧ runOps hash ops σ₁ = .ok (rs', σ') ∧
      rs = r :: rs' := by
  rw [runOps] at h
  cases he : op.exec hash σ with
  | error f => rw [he] at h; cases h
  | ok p =>
    obtain ⟨r, σ₁⟩ := p
    rw [he] at h
    change (runOps hash ops σ₁).map _ = _ at h
    cases hrest : runOps hash ops σ₁ with
    | error f => rw [hrest] at h; cases h
    | ok q =>
      rw [hrest] at h
      cases h
      exact ⟨r, _, σ₁, rfl, hrest, rfl⟩

/-- 列を最後まで行えたなら、着いた状態は到達可能である。 -/
theorem reachable_runOps {hash : K → UInt64} {cap : Nat} :
    ∀ {ops : List (ShardOp K V)} {σ σ' : ShardData K V} {rs : List (Ret K V)},
      ShardReachable hash cap σ → runOps hash ops σ = .ok (rs, σ') → ShardReachable hash cap σ'
  | [], σ, σ', rs, hr, h => by cases h; exact hr
  | op :: ops, σ, σ', rs, hr, h => by
    obtain ⟨r, rs', σ₁, he, hrest, -⟩ := runOps_cons h
    exact reachable_runOps (.step hr ⟨r, he⟩) hrest

end Neocache
