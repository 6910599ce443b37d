import Neocache.Cache.Ops

/-!
# 反復

`src/iter.rs` の `Iter`・`IterMut`・`OwningIter`。

`Iter` と `IterMut` は取る lock の種類だけが違うので、一つの定義を `LockMode` で使い分ける。
`next` の loop は、次の lock を取るところで他の thread を待ち、取った後で前の guard を落とす。
その間に他の thread が動けるので、loop を一歩ずつに切る（`Iter.step`）。

反復する thread と他の thread が並んで動く系は `Iteration.lts` である。他の thread の一歩は、反復が
lock を持つ shard には及ばない。共有の lock であれば、他の thread も `get` だけは行える。
`next` をどこで呼び、どこで返ったかは、その上の `IterCalls.lts` が数える。
-/

namespace Neocache

open Infra

variable {K V : Type*}

/-- 取る lock の種類。`Iter` は共有で、`IterMut` は排他で取る。 -/
inductive LockMode where
  | shared
  | exclusive
  deriving DecidableEq, Repr

/-- guard と、その表の `RawIter`。`pos` は次に返す bucket の位置。 -/
structure GuardIter where
  shard : Nat
  pos : Nat
  deriving DecidableEq, Repr

/-- `Iter` と `IterMut`。`guard` は、取ったがまだ `current` に入れていない lock である。 -/
structure Iter where
  shardI : Nat
  current : Option GuardIter
  guard : Option Nat
  deriving DecidableEq, Repr

/-- `next` の loop の中で起こること。 -/
inductive IterEvent (K V : Type*) where
  | yield (i : Nat) (k : K) (v : V)
  | lock (i : Nat)
  | store
  deriving DecidableEq, Repr

/-- 返した対。 -/
def IterEvent.emitted : IterEvent K V → List (K × V)
  | .yield _ k v => [(k, v)]
  | _ => []

namespace Iter

def new : Iter := ⟨0, none, none⟩

/-- まだ lock を取っていない最初の shard。 -/
def unlocked (it : Iter) : Nat := it.shardI + it.guard.elim 0 fun _ => 1

/-- 反復そのものが lock を持っている shard。返した item は数えない。 -/
def held (it : Iter) : List Nat := it.guard.toList ++ (it.current.map GuardIter.shard).toList

/-- `current.1.next()` が返す bucket と、その shard。 -/
def peek (c : NeoCache K V) (it : Iter) : Option (GuardIter × K × V) :=
  it.current.bind fun g => (c.shards[g.shard]?).bind fun σ =>
    (σ.map.slots[g.pos]?).map fun s => (g, s.key, s.val.value)

/-- loop の一歩。`next` が `None` を返すところでは進まない。 -/
def step (c : NeoCache K V) (it : Iter) : Option (IterEvent K V × Iter) :=
  match it.guard with
  -- `current` を置き換えるので、前の guard はここで落ちる
  | some i => some (.store, ⟨it.shardI + 1, some ⟨i, 0⟩, none⟩)
  | none =>
    match it.peek c with
    | some (g, k, v) => some (.yield g.shard k v, { it with current := some ⟨g.shard, g.pos + 1⟩ })
    | none =>
      if it.shardI = c.shards.length then none
      else some (.lock it.shardI, { it with guard := some it.shardI })

end Iter

/-! ## 並行する反復 -/

/-- 反復の途中の状態。`items` は、返してまだ落としていない `RefMulti` か `RefMutMulti` の
shard と key である。 -/
structure Iteration (K V : Type*) where
  cache : NeoCache K V
  iter : Iter
  items : List (Nat × K)

/-- 反復する thread と他の thread の動き。 -/
inductive IterAct (K V : Type*) where
  /-- `next` の loop の一歩。 -/
  | next (e : IterEvent K V)
  /-- `RefMutMulti` を通した書き込み。 -/
  | write (i : Nat) (k : K) (v : V)
  | drop (i : Nat) (k : K)
  /-- 他の thread が shard 一つに行う操作。 -/
  | other (i : Nat) (op : ShardOp K V)

namespace Iteration

def start (c : NeoCache K V) : Iteration K V := ⟨c, .new, []⟩

/-- `next` が `None` を返すところまで来た。 -/
def Finished (s : Iteration K V) : Prop := s.iter.step s.cache = none

/-- 反復する thread が lock を持っている shard。返した item も lock を持ち続ける。 -/
def Holds (s : Iteration K V) (i : Nat) : Prop :=
  s.iter.guard = some i ∨ (∃ pos, s.iter.current = some ⟨i, pos⟩) ∨ ∃ k, (i, k) ∈ s.items

variable [DecidableEq K]

/-- 一歩の後に残っている item。 -/
def itemsAfter (items : List (Nat × K)) : IterEvent K V → List (Nat × K)
  | .yield i k _ => (i, k) :: items
  | _ => items

inductive Step (w : Word) (m : LockMode) (s : Iteration K V) :
    IterAct K V → Iteration K V → Prop
  | next {e : IterEvent K V} {it : Iter} (h : s.iter.step s.cache = some (e, it)) :
      Step w m s (.next e) ⟨s.cache, it, itemsAfter s.items e⟩
  | write {i : Nat} {k : K} (v : V) {σ : ShardData K V} (hm : m = .exclusive)
      (hitem : (i, k) ∈ s.items) (hσ : s.cache.shards[i]? = some σ) :
      Step w m s (.write i k v)
        { s with cache := { s.cache with shards := s.cache.shards.set i (σ.setValue k v) } }
  | drop {i : Nat} {k : K} (hitem : (i, k) ∈ s.items) :
      Step w m s (.drop i k) { s with items := s.items.erase (i, k) }
  | other {i : Nat} {op : ShardOp K V} {r : Ret K V} {c : NeoCache K V}
      (htarget : op.Targets w s.cache i)
      (hfree : ¬ s.Holds i ∨ m = .shared ∧ ∃ k, op = .key k .get)
      (hstep : s.cache.onShard i op = .ok (r, c)) :
      Step w m s (.other i op) { s with cache := c }

/-- 他の thread が割り込まない間に、loop を高々 `n` 歩進める。 -/
def advance : Nat → Iteration K V → List (Iteration K V × IterAct K V) × Iteration K V
  | 0, s => ([], s)
  | n + 1, s =>
    match s.iter.step s.cache with
    | none => ([], s)
    | some (e, it) =>
      let rest := advance n ⟨s.cache, it, itemsAfter s.items e⟩
      ((s, .next e) :: rest.1, rest.2)

/-- 反復する thread と他の thread が、好きな順に動く系。 -/
def lts (w : Word) (m : LockMode) (c : NeoCache K V) : Lts (Iteration K V) (IterAct K V) where
  init s := s = start c
  step := Step w m

end Iteration

/-! ## `next` の呼び出し -/

/-- `next` の呼び出しの区切りまで見た反復。 -/
structure IterCalls (K V : Type*) where
  run : Iteration K V
  /-- 始めた呼び出しの数。 -/
  calls : Nat
  /-- 呼び出しの途中である。 -/
  inside : Bool
  /-- `None` を返したことがある。 -/
  ended : Bool

inductive CallAct (K V : Type*) where
  | call
  | act (a : IterAct K V)
  /-- `None` を返す。 -/
  | none

namespace IterCalls

def start (c : NeoCache K V) : IterCalls K V := ⟨.start c, 0, false, false⟩

/-- 対を返すと、呼び出しは終わる。 -/
def insideAfter (inside : Bool) : IterAct K V → Bool
  | .next (.yield _ _ _) => false
  | _ => inside

inductive Step [DecidableEq K] (w : Word) (m : LockMode) (s : IterCalls K V) :
    CallAct K V → IterCalls K V → Prop
  | call (hin : s.inside = false) :
      Step w m s .call { s with calls := s.calls + 1, inside := true }
  -- loop は呼び出しの途中でしか進まない。他の動きはいつでもよい
  | act {a : IterAct K V} {run : Iteration K V} (h : Iteration.Step w m s.run a run)
      (hin : ∀ e, a = .next e → s.inside = true) :
      Step w m s (.act a) { s with run, inside := insideAfter s.inside a }
  | none (hin : s.inside = true) (hf : s.run.Finished) :
      Step w m s .none { s with inside := false, ended := true }

/-- 好きな回数だけ `next` を呼び、他の thread も好きな順に動く系。 -/
def lts [DecidableEq K] (w : Word) (m : LockMode) (c : NeoCache K V) :
    Lts (IterCalls K V) (CallAct K V) where
  init s := s = start c
  step := Step w m

end IterCalls

/-! ## 記録から読み取るもの -/

/-- 実行の記録。動く前の状態と、その一歩。 -/
abbrev IterTrace (K V : Type*) := List (Iteration K V × IterAct K V)

namespace IterTrace

/-- 番号 `i` の shard の表にある対。 -/
def pairsAt (c : NeoCache K V) (i : Nat) : List (K × V) :=
  (c.shards[i]?).elim [] fun σ => σ.map.slots.map fun s => (s.key, s.val.value)

/-- 返した対を、返した順に並べたもの。 -/
def yields (tr : IterTrace K V) : List (K × V) :=
  tr.filterMap fun
    | (_, .next (.yield _ k v)) => some (k, v)
    | _ => none

/-- lock を取った shard の番号と、取った時点で表にあった対。 -/
def visits (tr : IterTrace K V) : List (Nat × List (K × V)) :=
  tr.filterMap fun
    | (s, .next (.lock i)) => some (i, pairsAt s.cache i)
    | _ => none

/-- 返した対を通した書き込み。 -/
def writes (tr : IterTrace K V) : List (K × V) :=
  tr.filterMap fun
    | (_, .write _ k v) => some (k, v)
    | _ => none

/-- 反復する thread 自身の動き。 -/
def own (tr : IterTrace K V) : List (IterAct K V) :=
  tr.filterMap fun
    | (_, .other _ _) => none
    | (_, a) => some a

/-- 呼び出しの区切りを除いた記録。 -/
def ofCalls (tr : List (IterCalls K V × CallAct K V)) : IterTrace K V :=
  tr.filterMap fun
    | (s, .act a) => some (s.run, a)
    | _ => none

/-- 他の thread は読むことしかしない。 -/
def Unmodified (tr : IterTrace K V) : Prop :=
  ∀ s i op, (s, .other i op) ∈ tr → ∃ k, op = .key k .get

end IterTrace

/--
`alter_all` が戻るまでに、反復する thread がしたこと。`n` は closure がそれまでに呼ばれた回数。

`for_each` は、返された item の値に closure を施して書き戻し、item を落としてから `next` に戻る。
-/
inductive AlterAll (f : Nat → K → V → V) : Nat → List (IterAct K V) → Prop
  | nil {n : Nat} : AlterAll f n []
  | lock {n i : Nat} {rest : List (IterAct K V)} (h : AlterAll f n rest) :
      AlterAll f n (.next (.lock i) :: rest)
  | store {n : Nat} {rest : List (IterAct K V)} (h : AlterAll f n rest) :
      AlterAll f n (.next .store :: rest)
  | visit {n i : Nat} {k : K} {v : V} {rest : List (IterAct K V)} (h : AlterAll f (n + 1) rest) :
      AlterAll f n (.next (.yield i k v) :: .write i k (f n k v) :: .drop i k :: rest)

/-! ## 所有する反復 -/

/-- `OwningIter`。`current` は取り出した表のまだ返していない entry である。 -/
structure OwningIter (K V : Type*) where
  map : NeoCache K V
  shardI : Nat
  current : Option (List (K × CacheEntry V))

namespace OwningIter

def new (map : NeoCache K V) : OwningIter K V := ⟨map, 0, none⟩

/-- shard の表を取り出し、空の表を残す。 -/
def takeTable (it : OwningIter K V) (σ : ShardData K V) : OwningIter K V where
  map := { it.map with shards := it.map.shards.set it.shardI { σ with map := .empty } }
  shardI := it.shardI + 1
  current := some (σ.map.slots.map fun s => (s.key, s.val))

/-- `next`。表が尽きるたびに次の shard の表を取り出す。 -/
def next (it : OwningIter K V) : Option ((K × V) × OwningIter K V) :=
  match it.current with
  | some ((k, entry) :: rest) => some ((k, entry.value), { it with current := some rest })
  | _ =>
    if it.shardI = it.map.shards.length then none
    else
      match _hσ : it.map.shards[it.shardI]? with
      | none => none
      | some σ => next (it.takeTable σ)
termination_by it.map.shards.length - it.shardI
decreasing_by
  have hlt := (List.getElem?_eq_some_iff.mp _hσ).1
  show (it.map.shards.set _ _).length - (it.shardI + 1) < _
  rw [List.length_set]
  omega

/-- `None` が返るまで `next` を呼んで得た対の並び。 -/
inductive Drains : OwningIter K V → List (K × V) → Prop
  | done {it : OwningIter K V} (h : it.next = none) : Drains it []
  | item {it it' : OwningIter K V} {p : K × V} {rest : List (K × V)} (h : it.next = some (p, it'))
      (hrest : Drains it' rest) : Drains it (p :: rest)

end OwningIter

end Neocache
