import Neocache.Infra.Parking
import Neocache.Lock.Word

/-!
# lock の実行

`src/lock.rs` の `RawRwLock` の各操作を、語への access 一回を一歩として書いたもの。

`Pc` は次に行う access と、その時点の局所変数である。局所変数について分岐で確かめたことは、
構成子の引数として持つ。`Pc.access` は、その access を行い、次の access の手前まで進む。
弱い CAS の見かけの失敗と `SpinWait` の答えは `Chance` で与える。順序の指定
（`Acquire` など）は、各 access が一列に並ぶものとして、ここでは扱わない。

`parking_lot_core` の `park` と `unpark` は、待ち行列への一歩として `Infra.Parking` が扱う。
`park` は確認と並ぶことを一歩で行う。
-/

namespace Neocache.RawRwLock

open Infra.Parking

variable {w : Word}

/-- 外から決まる分岐。 -/
structure Chance where
  /-- 弱い CAS が、値が等しくても失敗する。 -/
  spurious : Bool
  /-- `SpinWait::spin` がまだ続けてよいと答える。 -/
  spin : Bool
  deriving DecidableEq, Repr

/-- `lock_exclusive_slow` の `acquire_with`。一度 `park` から戻ると `WRITERS_PARKED` になる。 -/
inductive AcquireWith
  | zero
  | writersParked
  deriving DecidableEq, Repr

def AcquireWith.word (w : Word) : AcquireWith → BitVec w.bits
  | .zero => 0
  | .writersParked => RawRwLock.writersParked w

/-- `try_lock_shared_fast` を呼んだところ。`lock_shared` は二度呼ぶ。 -/
inductive FastCall
  | tryLock
  | first
  | second
  deriving DecidableEq, Repr

/-- 読み手を一人増やした値。書き手の値には達していない。 -/
structure Increment (w : Word) where
  state : BitVec w.bits
  newState : BitVec w.bits
  add : checkedAdd w state (oneReader w) = some newState
  room : newState &&& oneWriter w ≠ oneWriter w

/-- 次に行う access。 -/
inductive Pc (w : Word)
  | idle
  | tryLockExclusive
  | lockExclusive (retry : Bool)
  /-- `lock_exclusive_slow` の `load`。 -/
  | lockExclusiveSlow (acquireWith : AcquireWith)
  | lockExclusiveCas (acquireWith : AcquireWith) (state : BitVec w.bits)
    (free : state &&& oneWriter w = 0)
  | lockExclusiveFlag (acquireWith : AcquireWith) (state : BitVec w.bits)
    (held : ¬ state &&& oneWriter w = 0)
  | lockExclusivePark
  | lockExclusiveParked
  | unlockExclusive
  /-- `unlock_exclusive_slow` の `load`。 -/
  | unlockExclusiveSlow
  | unlockExclusiveCas (state : BitVec w.bits) (held : state &&& oneWriter w = oneWriter w)
    (one : ¬ state &&& (readersParked w ||| writersParked w) = readersParked w ||| writersParked w)
  | unlockExclusiveStore
  /-- `unlock_exclusive_slow` の末尾。`parked` に応じて起こす。 -/
  | unlockExclusiveUnpark (parked : BitVec w.bits)
  | tryLockSharedFast (call : FastCall)
  | tryLockSharedFastCas (call : FastCall) (inc : Increment w)
  | tryLockSharedSlow
  | tryLockSharedSlowCas (inc : Increment w)
  /-- `lock_shared_slow` の `load`。 -/
  | lockSharedSlow
  | lockSharedCas (inc : Increment w)
  | lockSharedFlag (state : BitVec w.bits) (full : checkedAdd w state (oneReader w) = none)
  | lockSharedPark
  | lockSharedParked
  | unlockShared
  | unlockSharedSlow
  | unlockSharedUnpark
  | downgrade
  | downgradeUnpark

/-! ## 読んだ値での分岐 -/

/-- `state` が書き手にとって空いていれば取りに行き、塞がっていれば印を立てて眠る。 -/
def lockExclusiveNext (acquireWith : AcquireWith) (state : BitVec w.bits) (spin : Bool) : Pc w :=
  if free : state &&& oneWriter w = 0 then .lockExclusiveCas acquireWith state free
  else if state &&& writersParked w = 0 then
    if spin then .lockExclusiveSlow acquireWith else .lockExclusiveFlag acquireWith state free
  else .lockExclusivePark

/-- `checked_add(ONE_READER)` が値を返し、それが書き手の値でないとき。 -/
def increment (state : BitVec w.bits) : Option (Increment w) :=
  match add : checkedAdd w state (oneReader w) with
  | none => none
  | some newState =>
    if room : newState &&& oneWriter w ≠ oneWriter w then some ⟨state, newState, add, room⟩
    else none

/-- `try_lock_shared_fast` が偽を返したときの続き。 -/
def FastCall.next : FastCall → Pc w
  | .tryLock => .tryLockSharedSlow
  | .first => .tryLockSharedFast .second
  | .second => .lockSharedSlow

/-- `try_lock_shared_slow` の `while`。 -/
def tryLockSharedNext (state : BitVec w.bits) : StepResult (Pc w) (BitVec w.bits) :=
  match increment state with
  | some inc => ⟨.tryLockSharedSlowCas inc, state, .quiet⟩
  | none => ⟨.idle, state, .refuse⟩

/-- `lock_shared_slow` の内側の `loop`。人数が溢れると表明に反する。 -/
def lockSharedNext (state : BitVec w.bits) (spin : Bool) : StepResult (Pc w) (BitVec w.bits) :=
  match full : checkedAdd w state (oneReader w) with
  | some _ =>
    match increment state with
    | some inc => ⟨.lockSharedCas inc, state, .quiet⟩
    | none => ⟨.idle, state, .panic⟩
  | none =>
    if state &&& readersParked w = 0 then
      if spin then ⟨.lockSharedSlow, state, .quiet⟩ else ⟨.lockSharedFlag state full, state, .quiet⟩
    else ⟨.lockSharedPark, state, .quiet⟩

/-! ## 一歩 -/

/-- 一回の access。操作の外に居る thread と、眠っている thread は動かない。 -/
def Pc.access (c : Chance) (word : BitVec w.bits) :
    Pc w → Option (StepResult (Pc w) (BitVec w.bits))
  | .idle | .lockExclusiveParked | .lockSharedParked => none
  | .tryLockExclusive =>
    if word = 0 then some ⟨.idle, oneWriter w, .takeExclusive⟩ else some ⟨.idle, word, .refuse⟩
  | .lockExclusive retry =>
    if word = 0 ∧ c.spurious = false then some ⟨.idle, oneWriter w, .takeExclusive⟩
    else some ⟨if retry then .lockExclusiveSlow .zero else .lockExclusive true, word, .quiet⟩
  | .lockExclusiveSlow acquireWith => some ⟨lockExclusiveNext acquireWith word c.spin, word, .quiet⟩
  | .lockExclusiveCas acquireWith state _ =>
    if word = state ∧ c.spurious = false then
      some ⟨.idle, state ||| oneWriter w ||| acquireWith.word w, .takeExclusive⟩
    else some ⟨lockExclusiveNext acquireWith word c.spin, word, .quiet⟩
  | .lockExclusiveFlag acquireWith state _ =>
    if word = state ∧ c.spurious = false then
      some ⟨.lockExclusivePark, state ||| writersParked w, .quiet⟩
    else some ⟨lockExclusiveNext acquireWith word c.spin, word, .quiet⟩
  -- 確認が通らなければ眠らずに戻る。そのときも `acquire_with` は変わる
  | .lockExclusivePark =>
    if word &&& oneWriter w ≠ 0 ∧ word &&& writersParked w ≠ 0 then
      some ⟨.lockExclusiveParked, word, .parkWriter⟩
    else some ⟨.lockExclusiveSlow .writersParked, word, .quiet⟩
  | .unlockExclusive =>
    if word = oneWriter w then some ⟨.idle, 0, .dropExclusive⟩
    else some ⟨.unlockExclusiveSlow, word, .quiet⟩
  | .unlockExclusiveSlow =>
    if held : word &&& oneWriter w = oneWriter w then
      if word &&& (readersParked w ||| writersParked w) = 0 then some ⟨.idle, word, .panic⟩
      else if one : ¬ word &&& (readersParked w ||| writersParked w)
          = readersParked w ||| writersParked w then
        some ⟨.unlockExclusiveCas word held one, word, .quiet⟩
      else some ⟨.unlockExclusiveStore, word, .quiet⟩
    else some ⟨.idle, word, .panic⟩
  -- 強い CAS なので、失敗するのは見た後に他方の印が立ったときだけのはずである
  | .unlockExclusiveCas state _ _ =>
    if word = state then
      some ⟨.unlockExclusiveUnpark (state &&& (readersParked w ||| writersParked w)), 0,
        .dropExclusive⟩
    else if word = oneWriter w ||| readersParked w ||| writersParked w then
      some ⟨.unlockExclusiveStore, word, .quiet⟩
    else some ⟨.idle, word, .panic⟩
  -- 書き手の印は残し、読み手だけを起こす
  | .unlockExclusiveStore =>
    some ⟨.unlockExclusiveUnpark (readersParked w), writersParked w, .dropExclusive⟩
  | .unlockExclusiveUnpark parked =>
    if parked = readersParked w then some ⟨.idle, word, .unparkAll⟩
    else if parked = writersParked w then some ⟨.idle, word, .unparkOne⟩
    else some ⟨.idle, word, .panic⟩
  | .tryLockSharedFast call =>
    match increment word with
    | some inc => some ⟨.tryLockSharedFastCas call inc, word, .quiet⟩
    | none => some ⟨call.next, word, .quiet⟩
  | .tryLockSharedFastCas call inc =>
    if word = inc.state ∧ c.spurious = false then some ⟨.idle, inc.newState, .takeShared⟩
    else some ⟨call.next, word, .quiet⟩
  | .tryLockSharedSlow => some (tryLockSharedNext word)
  | .tryLockSharedSlowCas inc =>
    if word = inc.state ∧ c.spurious = false then some ⟨.idle, inc.newState, .takeShared⟩
    else some (tryLockSharedNext word)
  | .lockSharedSlow => some (lockSharedNext word c.spin)
  -- 他の CAS と違い、失敗で得た値は捨てて読み直す
  | .lockSharedCas inc =>
    if word = inc.state ∧ c.spurious = false then some ⟨.idle, inc.newState, .takeShared⟩
    else some ⟨.lockSharedSlow, word, .quiet⟩
  | .lockSharedFlag state _ =>
    if word = state ∧ c.spurious = false then
      some ⟨.lockSharedPark, state ||| readersParked w, .quiet⟩
    else some (lockSharedNext word c.spin)
  | .lockSharedPark =>
    if word &&& oneWriter w = oneWriter w ∧ word &&& readersParked w ≠ 0 then
      some ⟨.lockSharedParked, word, .parkReader⟩
    else some ⟨.lockSharedSlow, word, .quiet⟩
  -- 引く前の値で、最後の読み手かどうかを見る
  | .unlockShared =>
    some ⟨if word = oneReader w ||| writersParked w then .unlockSharedSlow else .idle,
      word - oneReader w, .dropShared⟩
  | .unlockSharedSlow =>
    if word = writersParked w then some ⟨.unlockSharedUnpark, 0, .quiet⟩
    else some ⟨.idle, word, .quiet⟩
  | .unlockSharedUnpark => some ⟨.idle, word, .unparkOne⟩
  | .downgrade =>
    some ⟨if word &&& readersParked w ≠ 0 then .downgradeUnpark else .idle,
      word &&& (oneReader w ||| writersParked w), .downgrade⟩
  | .downgradeUnpark => some ⟨.idle, word, .unparkAll⟩

/-- lock の操作。 -/
inductive LockOp
  | lockShared
  | lockExclusive
  | tryLockShared
  | tryLockExclusive
  | unlockShared
  | unlockExclusive
  | downgrade
  deriving DecidableEq, Repr

def LockOp.entry (w : Word) : LockOp → Pc w
  | .lockShared => .tryLockSharedFast .first
  | .lockExclusive => .lockExclusive false
  | .tryLockShared => .tryLockSharedFast .tryLock
  | .tryLockExclusive => .tryLockExclusive
  | .unlockShared => .unlockShared
  | .unlockExclusive => .unlockExclusive
  | .downgrade => .downgrade

/-- 手放す操作は、持っている thread だけが呼ぶ。 -/
def LockOp.need : LockOp → Need
  | .unlockShared => .shared
  | .unlockExclusive | .downgrade => .exclusive
  | _ => .nothing

def program (w : Word) : Program (Pc w) (BitVec w.bits) where
  start := 0
  idle := .idle
  writerParked := .lockExclusiveParked
  readerParked := .lockSharedParked
  writerWoken := .lockExclusiveSlow .writersParked
  readerWoken := .lockSharedSlow
  enter p n p' := ∃ op : LockOp, p = .idle ∧ n = op.need ∧ p' = op.entry w
  access p v o := ∃ c, p.access c v = some o

/-- lock を共有する thread たちの状態。 -/
abbrev System (T : Type*) (w : Word) := Threads T (Pc w) (BitVec w.bits)

/-! ## 実行 -/

/-- thread の一歩の選び方。 -/
inductive Sched
  | enter (op : LockOp)
  | access (c : Chance)
  deriving DecidableEq, Repr

variable {T : Type*} [DecidableEq T]

instance (s : System T w) (t : T) (n : Need) : Decidable (n.Met s t) :=
  match n with
  | .nothing => inferInstanceAs (Decidable True)
  | .shared => inferInstanceAs (Decidable (t ∈ s.shared))
  | .exclusive => inferInstanceAs (Decidable (t ∈ s.exclusive))

def perform (s : System T w) (t : T) : Sched → Option (System T w)
  | .enter op =>
    match s.pc t with
    | .idle => if op.need.Met s t then some (s.goto t (op.entry w)) else none
    | _ => none
  | .access c => ((s.pc t).access c s.word).map (s.after (program w) t)

/-- 系の一歩は、実行できる一歩である。 -/
theorem step_iff_perform {s s' : System T w} {t : T} :
    (program w).Step s t s' ↔ ∃ a, perform s t a = some s' := by
  constructor
  · intro h
    cases h with
    | enter he hn =>
      obtain ⟨op, hidle, rfl, rfl⟩ := he
      refine ⟨.enter op, ?_⟩
      simp only [perform, hidle]
      exact if_pos hn
    | access ha =>
      obtain ⟨c, hc⟩ := ha
      exact ⟨.access c, by simp only [perform, hc, Option.map_some]⟩
  · rintro ⟨a, ha⟩
    cases a with
    | enter op =>
      simp only [perform] at ha
      split at ha
      · next hidle =>
        split at ha
        · next hn =>
          obtain rfl := Option.some.inj ha
          exact .enter ⟨op, hidle, rfl, rfl⟩ hn
        · cases ha
      · cases ha
    | access c =>
      obtain ⟨o, ho, rfl⟩ := Option.map_eq_some_iff.mp ha
      exact .access ⟨c, ho⟩

/-- 選んだ順に一歩ずつ進める。 -/
def run : List (T × Sched) → System T w → Option (System T w)
  | [], s => some s
  | (t, a) :: rest, s => (perform s t a).bind (run rest)

theorem path_run {l : List (T × Sched)} {s s' : System T w} (hr : run l s = some s') :
    ∃ tr, (program w).lts.Path s tr s' := by
  induction l generalizing s with
  | nil =>
    obtain rfl := Option.some.inj hr
    exact ⟨[], .nil⟩
  | cons x rest ih =>
    obtain ⟨s₁, h₁, h₂⟩ := Option.bind_eq_some_iff.mp hr
    obtain ⟨tr, htr⟩ := ih h₂
    have hstep : (program w).lts.step s x.1 s₁ := step_iff_perform.mpr ⟨x.2, h₁⟩
    exact ⟨_, (Infra.Lts.Path.nil.snoc hstep).append htr⟩

theorem reachable_run {l : List (T × Sched)} {s s' : System T w}
    (h : (program w).lts.Reachable s) (hr : run l s = some s') : (program w).lts.Reachable s' := by
  obtain ⟨tr, htr⟩ := path_run hr
  exact htr.reachable h

end Neocache.RawRwLock
