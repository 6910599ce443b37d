import Neocache.Cache.Iter
import Neocache.Infra.Locking

/-!
# thread ごとの lock の取り方

API の各操作が、どの shard の lock をどの順に取って放すか。表の中身には触れず、lock の出入りだけを
見る。

操作は、lock を使う区間（`LockUse`）を順に行う。区間には三通りある。key 一つの操作は shard 一つの
lock を取り、guard が落ちるまで持つ。全体を巡る操作は shard を順に一つずつ取って放す。反復は、次の
shard の lock を取ってから前の guard を落とし、返した item は落とされるまで lock を持ち続ける。
反復の進み方は `Iter.step` そのもので、表の中身は時々刻々変わりうるので、任意の cache でよいとする。
-/

namespace Neocache

open Infra

/-- key 一つの操作。 -/
inductive KeyCall where
  | insert
  | remove
  | removeIf
  | removeIfMut
  | get
  | view
  | containsKey
  | tryGet
  | getMut
  | tryGetMut
  | alter
  | entry
  | tryEntry
  deriving DecidableEq, Repr

def KeyCall.mode : KeyCall → LockMode
  | .get | .view | .containsKey | .tryGet => .shared
  | _ => .exclusive

/-- lock が取れるまで待つ操作。 -/
def KeyCall.blocking : KeyCall → Bool
  | .tryGet | .tryGetMut | .tryEntry => false
  | _ => true

/-- API の操作。key 一つの操作には、hash の選ぶ shard の番号を添える。 -/
inductive ApiCall where
  | key (call : KeyCall) (i : Nat)
  | iter
  | iterMut
  | alterAll
  | retain
  | clear
  | len
  | isEmpty
  | capacity
  | shrinkToFit
  | clone
  | debug
  | serialize
  deriving DecidableEq, Repr

/-- lock を使う区間。始めと終わりには何も持っていない。 -/
inductive LockUse where
  | single (i : Nat) (m : LockMode) (blocking : Bool)
  | sweep (m : LockMode)
  | iterate (m : LockMode)
  deriving DecidableEq, Repr

def ApiCall.uses : ApiCall → List LockUse
  | .key call i => [.single i call.mode call.blocking]
  | .iter | .debug => [.iterate .shared]
  | .iterMut | .alterAll => [.iterate .exclusive]
  | .retain | .clear | .shrinkToFit => [.sweep .exclusive]
  | .len | .isEmpty | .capacity | .clone => [.sweep .shared]
  | .serialize => [.sweep .shared, .iterate .shared]

/-- 一つの lock を取る手順のどこに居るか。 -/
inductive Grip where
  | asking
  | waiting
  | holding
  deriving DecidableEq, Repr

/-- thread がいま居るところ。 -/
inductive Stage where
  | idle
  | single (i : Nat) (m : LockMode) (blocking : Bool) (grip : Grip)
  | sweep (m : LockMode) (j : Nat) (grip : Grip)
  | iterate (m : LockMode) (it : Iter) (items : List Nat) (waiting : Bool)
  /-- 反復を落とした後に、返した item だけが残っている。 -/
  | leftover (m : LockMode) (items : List Nat)
  deriving DecidableEq, Repr

def LockUse.start : LockUse → Stage
  | .single i m blocking => .single i m blocking .asking
  | .sweep m => .sweep m 0 .asking
  | .iterate m => .iterate m .new [] false

namespace Stage

/-- 持っている lock。 -/
def held : Stage → List (Nat × LockMode)
  | .single i m _ .holding => [(i, m)]
  | .sweep m j .holding => [(j, m)]
  | .iterate m it items _ =>
    (it.guard.toList ++ (it.current.map GuardIter.shard).toList ++ items).map fun i => (i, m)
  | .leftover m items => items.map fun i => (i, m)
  | _ => []

/-- 待っている lock。 -/
def wanted : Stage → Option Nat
  | .single i _ _ .waiting => some i
  | .sweep _ j .waiting => some j
  | .iterate _ it _ true => some it.shardI
  | _ => none

end Stage

/-- 一つの thread。`todo` は、いまの操作のまだ始めていない区間である。 -/
structure Session where
  stage : Stage
  todo : List LockUse
  deriving DecidableEq, Repr

/-- 返した item の shard。 -/
def IterEvent.item {K V : Type*} : IterEvent K V → List Nat
  | .yield i _ _ => [i]
  | _ => []

/-- thread 一つの一歩。`n` は shard の数、`free i m` は shard `i` の lock が `m` で取れること。 -/
inductive Session.Step (K V : Type*) (n : Nat) (free : Nat → LockMode → Prop) :
    Session → Session → Prop
  -- 前の操作の guard も反復も残っていない thread だけが、次の操作を始める
  | call (op : ApiCall) (hin : ∀ call i, op = .key call i → i < n) :
      Step K V n free ⟨.idle, []⟩ ⟨.idle, op.uses⟩
  | enter {u : LockUse} {rest : List LockUse} : Step K V n free ⟨.idle, u :: rest⟩ ⟨u.start, rest⟩
  | wait {i m rest} :
      Step K V n free ⟨.single i m true .asking, rest⟩ ⟨.single i m true .waiting, rest⟩
  | take {i m rest} (h : free i m) :
      Step K V n free ⟨.single i m true .waiting, rest⟩ ⟨.single i m true .holding, rest⟩
  | tryTake {i m rest} (h : free i m) :
      Step K V n free ⟨.single i m false .asking, rest⟩ ⟨.single i m false .holding, rest⟩
  | tryFail {i m rest} (h : ¬ free i m) :
      Step K V n free ⟨.single i m false .asking, rest⟩ ⟨.idle, rest⟩
  | downgrade {i b rest} :
      Step K V n free ⟨.single i .exclusive b .holding, rest⟩ ⟨.single i .shared b .holding, rest⟩
  | release {i m b rest} : Step K V n free ⟨.single i m b .holding, rest⟩ ⟨.idle, rest⟩
  | sweepWait {m j rest} (h : j < n) :
      Step K V n free ⟨.sweep m j .asking, rest⟩ ⟨.sweep m j .waiting, rest⟩
  | sweepTake {m j rest} (h : free j m) :
      Step K V n free ⟨.sweep m j .waiting, rest⟩ ⟨.sweep m j .holding, rest⟩
  | sweepRelease {m j rest} :
      Step K V n free ⟨.sweep m j .holding, rest⟩ ⟨.sweep m (j + 1) .asking, rest⟩
  | sweepEnd {m rest} : Step K V n free ⟨.sweep m n .asking, rest⟩ ⟨.idle, rest⟩
  | next {m it items rest} {c : NeoCache K V} {e : IterEvent K V} {it' : Iter}
      (hc : c.shards.length = n) (h : it.step c = some (e, it')) (he : ∀ i, e ≠ .lock i) :
      Step K V n free ⟨.iterate m it items false, rest⟩
        ⟨.iterate m it' (e.item ++ items) false, rest⟩
  | iterWait {m it items rest} {c : NeoCache K V} {i : Nat} {it' : Iter}
      (hc : c.shards.length = n) (h : it.step c = some (.lock i, it')) :
      Step K V n free ⟨.iterate m it items false, rest⟩ ⟨.iterate m it items true, rest⟩
  | iterTake {m it items rest} {c : NeoCache K V} {i : Nat} {it' : Iter}
      (hc : c.shards.length = n) (h : it.step c = some (.lock i, it')) (hfree : free i m) :
      Step K V n free ⟨.iterate m it items true, rest⟩ ⟨.iterate m it' items false, rest⟩
  | dropItem {m it items waiting rest} {i : Nat} (h : i ∈ items) :
      Step K V n free ⟨.iterate m it items waiting, rest⟩
        ⟨.iterate m it (items.erase i) waiting, rest⟩
  | dropIter {m it items rest} :
      Step K V n free ⟨.iterate m it items false, rest⟩ ⟨.leftover m items, rest⟩
  | dropLeft {m items rest} {i : Nat} (h : i ∈ items) :
      Step K V n free ⟨.leftover m items, rest⟩ ⟨.leftover m (items.erase i), rest⟩
  | done {m rest} : Step K V n free ⟨.leftover m [], rest⟩ ⟨.idle, rest⟩

namespace Sessions

variable {T : Type*}

/-- shard の lock が取れる。共有どうしでなければ、誰かが持っている間は取れない。 -/
def Free (s : T → Session) (i : Nat) (m : LockMode) : Prop :=
  ∀ t m', (i, m') ∈ (s t).stage.held → m = .shared ∧ m' = .shared

/-- 好きな数の thread が、好きな順に動く系。label は動く thread である。 -/
def lts (K V T : Type*) [DecidableEq T] (n : Nat) : Lts (T → Session) T where
  init s := s = fun _ => ⟨.idle, []⟩
  step s t s' := ∃ x, Session.Step K V n (Free s) (s t) x ∧ s' = Function.update s t x

end Sessions

end Neocache
