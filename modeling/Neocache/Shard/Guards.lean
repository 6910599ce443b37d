import Neocache.Shard.Ops

/-!
# guard を持っている間の計算

key 一つの操作が、shard の lock を取ってから放すまでにすることを、一歩ずつに分けて書く。
lock を持っている間も他の thread は動くので、`Neocache/Shard/Ops.lean` の関数のように一息には
進まない。

共有 lock の下でできること（`ReadCode`）は、表を引く、値を読む、freq を増やすの三つだけである。
排他 lock の下（`WriteCode`）では、これに加えて表・queue・counter を書き換える。
`bump_freq` は `fetch_update` なので、load と compare-exchange の繰り返しとして書く。

`get`、`get_mut`、`entry` の返す guard は、利用者が好きなだけ使ってから落とす。その使い方を
`RefUse`、`RefMutUse`、`OccupiedUse`、`VacantUse` の木で表す。木の種類は、guard の型ごとに
呼べる method を制限したものである。

`GuardedOp.code` が一歩ずつの計算、`GuardedOp.exec` が同じ操作を一息に行う計算である。
-/

namespace Neocache

open Infra

variable {K V A B : Type*}

/-! ## 一歩ずつの計算 -/

/-- 共有 lock の下の計算。bucket を指す pointer は key で表す。 -/
inductive ReadCode (K V A : Type*) where
  | ret (a : A)
  | find (h : UInt64) (k : K) (next : Option V → ReadCode K V A)
  | read (k : K) (next : Option V → ReadCode K V A)
  /-- `bump_freq`。`seen` は closure が増やすと答えた直前の値で、まだ読んでいなければ `none`。 -/
  | bump (k : K) (seen : Option (Fin maxFreq)) (next : ReadCode K V A)

/-- 表・queue・counter を書き換える一歩。 -/
inductive TableStep (K V : Type*) where
  | store (k : K) (v : V)
  | replace (k : K) (e : CacheEntry V)
  | erase (k : K)
  | decr (loc : Loc)
  | place (h : UInt64) (k : K) (e : CacheEntry V)
  | pushHash (loc : Loc) (h : UInt64)
  | pushKey (loc : Loc) (k : K)
  | incr (loc : Loc)

/-- 排他 lock の下の計算。 -/
inductive WriteCode (K V A : Type*) where
  | ret (a : A)
  | find (h : UInt64) (k : K) (next : Option (CacheEntry V) → WriteCode K V A)
  | read (k : K) (next : Option (CacheEntry V) → WriteCode K V A)
  | bump (k : K) (seen : Option (Fin maxFreq)) (next : WriteCode K V A)
  | edit (step : TableStep K V) (next : WriteCode K V A)
  /-- ghost set から hash を除き、有れば main、無ければ small で続ける。 -/
  | takeGhost (h : UInt64) (next : Loc → WriteCode K V A)
  /-- 追い出しの `while`。 -/
  | evict (next : WriteCode K V A)
  | downgrade (next : ReadCode K V A)

/-- lock を持っている間のどこに居るか。 -/
inductive Section (K V A : Type*) where
  | shared (c : ReadCode K V A)
  | exclusive (c : WriteCode K V A)

namespace TableStep

variable [DecidableEq K]

def apply (σ : ShardData K V) : TableStep K V → ShardData K V
  | .store k v => σ.setValue k v
  | .replace k e => σ.updateEntry k fun _ => e
  | .erase k => { σ with map := σ.map.remove k }
  | .decr .small => { σ with smallLive := σ.smallLive - 1 }
  | .decr .main => { σ with mainLive := σ.mainLive - 1 }
  | .place h k e => { σ with map := σ.map.insert h k e }
  | .pushHash .small h => { σ with smallHashes := σ.smallHashes ++ [h] }
  | .pushHash .main h => { σ with mainHashes := σ.mainHashes ++ [h] }
  | .pushKey .small k => { σ with smallKeys := σ.smallKeys ++ [k] }
  | .pushKey .main k => { σ with mainKeys := σ.mainKeys ++ [k] }
  | .incr .small => { σ with smallLive := σ.smallLive + 1 }
  | .incr .main => { σ with mainLive := σ.mainLive + 1 }

end TableStep

section Steps

variable [DecidableEq K]

/-- `bump_freq` の closure の答え。増やすなら、いまの freq。 -/
def ShardData.observe (σ : ShardData K V) (k : K) : Option (Fin maxFreq) :=
  match σ.map.get? k with
  | some e => if h : e.freq < maxFreq then some ⟨e.freq, h⟩ else none
  | none => none

/-- `fetch_update` の一歩。次に試す値が `none` なら終わりである。 -/
inductive BumpStep (k : K) (σ : ShardData K V) :
    Option (Fin maxFreq) → Option (Fin maxFreq) → ShardData K V → Prop
  -- 最初の load。弱い compare-exchange の失敗も、いまの値を読み直すだけである
  | observe (seen : Option (Fin maxFreq)) : BumpStep k σ seen (σ.observe k) σ
  | swap {seen : Fin maxFreq} {e : CacheEntry V} (hk : σ.map.get? k = some e)
      (hseen : e.freq = seen) :
      BumpStep k σ (some seen) none (σ.updateEntry k fun e => { e with freq := seen + 1 })

inductive ReadCode.Step (σ : ShardData K V) :
    ReadCode K V A → ReadCode K V A → ShardData K V → Prop
  | find {h k next} : Step σ (.find h k next) (next ((σ.map.find h k).map CacheEntry.value)) σ
  | read {k next} : Step σ (.read k next) (next ((σ.map.get? k).map CacheEntry.value)) σ
  | retry {k seen f next σ'} (hb : BumpStep k σ seen (some f) σ') :
      Step σ (.bump k seen next) (.bump k (some f) next) σ'
  | bumped {k seen next σ'} (hb : BumpStep k σ seen none σ') : Step σ (.bump k seen next) next σ'

inductive WriteCode.Step (σ : ShardData K V) :
    WriteCode K V A → WriteCode K V A → ShardData K V → Prop
  | find {h k next} : Step σ (.find h k next) (next (σ.map.find h k)) σ
  | read {k next} : Step σ (.read k next) (next (σ.map.get? k)) σ
  | retry {k seen f next σ'} (hb : BumpStep k σ seen (some f) σ') :
      Step σ (.bump k seen next) (.bump k (some f) next) σ'
  | bumped {k seen next σ'} (hb : BumpStep k σ seen none σ') : Step σ (.bump k seen next) next σ'
  | edit {step next} : Step σ (.edit step next) next (step.apply σ)
  | takeGhost {h next} :
      Step σ (.takeGhost h next) (next (σ.ghostCheck h).1) (σ.ghostCheck h).2
  | evictOne {next σ'} (full : σ.overCap = true) (h : σ.evictOne = .ok σ') :
      Step σ (.evict next) (.evict next) σ'
  | evicted {next} (room : σ.overCap = false) : Step σ (.evict next) next σ

/-- lock を持っている間の一歩。排他 lock は、放さずに共有 lock に落とせる。 -/
inductive Section.Step (σ : ShardData K V) : Section K V A → Section K V A → ShardData K V → Prop
  | shared {c c' σ'} (h : ReadCode.Step σ c c' σ') : Step σ (.shared c) (.shared c') σ'
  | exclusive {c c' σ'} (h : WriteCode.Step σ c c' σ') : Step σ (.exclusive c) (.exclusive c') σ'
  | downgrade {c} : Step σ (.exclusive (.downgrade c)) (.shared c) σ

end Steps

/-- 終わった計算の返り値。 -/
def Section.result : Section K V A → Option A
  | .shared (.ret a) => some a
  | .exclusive (.ret a) => some a
  | _ => none

/-! ## guard の使い方 -/

/-- `Ref` の使い方。読むたびに pointer の先を見に行く。 -/
inductive RefUse (V A : Type*) where
  | drop (a : A)
  | read (next : V → RefUse V A)

/-- `RefMut` の使い方。 -/
inductive RefMutUse (V A : Type*) where
  | drop (a : A)
  | read (next : V → RefMutUse V A)
  | write (v : V) (next : RefMutUse V A)
  | downgrade (next : RefUse V A)

/-- `OccupiedEntry` の使い方。`remove` は `remove_entry` も兼ねる。 -/
inductive OccupiedUse (K V A : Type*) where
  | drop (a : A)
  | read (next : V → OccupiedUse K V A)
  | write (v : V) (next : OccupiedUse K V A)
  | intoRef (next : RefMutUse V A)
  | remove (ret : K × V → A)
  | replaceEntry (v : V) (ret : K × V → A)

/-- `VacantEntry` の使い方。 -/
inductive VacantUse (K V A : Type*) where
  | drop (a : A)
  | insert (v : V) (next : RefMutUse V A)
  | insertEntry (v : V) (next : OccupiedUse K V A)

/-- key 一つの操作。guard を返すものには、その使い方を添える。 -/
inductive GuardedOp (K V A : Type*) where
  | insert (v : V) (ret : Option V → A)
  | remove (ret : Option (K × V) → A)
  | removeIf (f : K → V → Bool) (ret : Option (K × V) → A)
  | removeIfMut (f : K → V → Bool × V) (ret : Option (K × V) → A)
  | get (absent : A) (use : RefUse V A)
  | getMut (absent : A) (use : RefMutUse V A)
  | entry (occupied : OccupiedUse K V A) (vacant : VacantUse K V A)

/-! ## 一歩ずつの計算への展開

pointer の先の entry は lock を持っている間は消えないので、読んだ値は必ず `some` である。
型を合わせるために、`none` のときは最後に知っている値 `v` を使う。
-/

def RefUse.code (k : K) (v : V) : RefUse V A → ReadCode K V A
  | .drop a => .ret a
  | .read next => .read k fun o => (next (o.getD v)).code k v

def RefMutUse.code (k : K) (v : V) : RefMutUse V A → WriteCode K V A
  | .drop a => .ret a
  | .read next => .read k fun o => (next ((o.map CacheEntry.value).getD v)).code k v
  | .write v' next => .edit (.store k v') (next.code k v')
  | .downgrade next => .downgrade (next.code k v)

/-- 表から除いて、loc の counter を減らす。 -/
def WriteCode.unlink (k : K) (loc : Loc) (next : WriteCode K V A) : WriteCode K V A :=
  .edit (.erase k) (.edit (.decr loc) next)

/-- 表に無い key の挿入。 -/
def WriteCode.insertVacant (h : UInt64) (k : K) (v : V) (next : Loc → WriteCode K V A) :
    WriteCode K V A :=
  .takeGhost h fun loc =>
    .evict <|
    .edit (.place h k (.new v loc)) <|
    .edit (.pushHash loc h) <|
    .edit (.pushKey loc k) <|
    .edit (.incr loc) (next loc)

def OccupiedUse.code (k : K) (e : CacheEntry V) : OccupiedUse K V A → WriteCode K V A
  | .drop a => .ret a
  | .read next => .read k fun o => (next (o.getD e).value).code k e
  | .write v next => .edit (.store k v) (next.code k { e with value := v })
  | .intoRef next => next.code k e.value
  | .remove ret =>
    .read k fun o => .unlink k (o.getD e).loc (.ret (ret (k, (o.getD e).value)))
  | .replaceEntry v ret =>
    .read k fun o =>
      .edit (.replace k { CacheEntry.new v (o.getD e).loc with freq := (o.getD e).freq })
        (.ret (ret (k, (o.getD e).value)))

def VacantUse.code (h : UInt64) (k : K) : VacantUse K V A → WriteCode K V A
  | .drop a => .ret a
  | .insert v next => .insertVacant h k v fun _ => next.code k v
  | .insertEntry v next => .insertVacant h k v fun loc => next.code k (.new v loc)

def GuardedOp.code (h : UInt64) (k : K) : GuardedOp K V A → Section K V A
  | .insert v ret => .exclusive <| .find h k fun
    | some e => .edit (.store k v) (.ret (ret (some e.value)))
    | none => .insertVacant h k v fun _ => .ret (ret none)
  | .remove ret => .exclusive <| .find h k fun
    | some e => .unlink k e.loc (.ret (ret (some (k, e.value))))
    | none => .ret (ret none)
  | .removeIf f ret => .exclusive <| .find h k fun
    | some e =>
      if f k e.value then .unlink k e.loc (.ret (ret (some (k, e.value)))) else .ret (ret none)
    | none => .ret (ret none)
  | .removeIfMut f ret => .exclusive <| .find h k fun
    | some e =>
      .edit (.store k (f k e.value).2) <|
      if (f k e.value).1 then .unlink k e.loc (.ret (ret (some (k, (f k e.value).2))))
      else .ret (ret none)
    | none => .ret (ret none)
  | .get absent use => .shared <| .find h k fun
    | some v => .bump k none (use.code k v)
    | none => .ret absent
  | .getMut absent use => .exclusive <| .find h k fun
    | some e => .bump k none (use.code k e.value)
    | none => .ret absent
  | .entry occupied vacant => .exclusive <| .find h k fun
    | some e => occupied.code k e
    | none => vacant.code h k

/-! ## 一息に行う計算 -/

section Exec

variable [DecidableEq K]

def RefUse.exec (v : V) : RefUse V A → A
  | .drop a => a
  | .read next => (next v).exec v

def RefMutUse.exec (k : K) (r : RefMut K V) : RefMutUse V A → A × ShardData K V
  | .drop a => (a, r.shard)
  | .read next => (next r.value).exec k r
  | .write v next => next.exec k ⟨r.shard.setValue k v, v⟩
  | .downgrade next => (next.exec r.value, r.shard)

def OccupiedUse.exec (e : OccupiedEntry K V) : OccupiedUse K V A → A × ShardData K V
  | .drop a => (a, e.shard)
  | .read next => (next e.entry.value).exec e
  | .write v next => next.exec (e.modify fun _ => v)
  | .intoRef next => next.exec e.key e.intoRef
  | .remove ret => (ret e.removeEntry.1, e.removeEntry.2)
  | .replaceEntry v ret => (ret (e.replaceEntry v).1, (e.replaceEntry v).2)

def VacantUse.exec (e : VacantEntry K V) : VacantUse K V A → Except Fault (A × ShardData K V)
  | .drop a => .ok (a, e.shard)
  | .insert v next => (e.insert v).map fun r => next.exec e.key r
  | .insertEntry v next => (e.insertEntry v).map fun e => next.exec e

/-- `Option` を返す操作の返り値。 -/
def Ret.option : Ret K V → Option V
  | .value v => v
  | _ => none

def Ret.removed : Ret K V → Option (K × V)
  | .pair p => p
  | _ => none

/-- lock を取った shard の上で、guard を落とすまでを一息に行う。 -/
def GuardedOp.exec (op : GuardedOp K V A) (h : UInt64) (k : K) (σ : ShardData K V) :
    Except Fault (A × ShardData K V) :=
  match op with
  | .insert v ret => (σ.insert h k v).map fun p => (ret p.1.option, p.2)
  | .remove ret => .ok (ret (σ.remove h k).1.removed, (σ.remove h k).2)
  | .removeIf f ret => .ok (ret (σ.removeIf h k f).1.removed, (σ.removeIf h k f).2)
  | .removeIfMut f ret => .ok (ret (σ.removeIfMut h k f).1.removed, (σ.removeIfMut h k f).2)
  | .get absent use =>
    match (σ.get h k).1.option with
    | some v => .ok (use.exec v, (σ.get h k).2)
    | none => .ok (absent, (σ.get h k).2)
  | .getMut absent use =>
    match σ.map.find h k with
    | some e => .ok (use.exec k ⟨σ.updateEntry k .bumpFreq, e.value⟩)
    | none => .ok (absent, σ)
  | .entry occupied vacant =>
    match σ.entry h k with
    | .occupied e => .ok (occupied.exec e)
    | .vacant e => vacant.exec e

end Exec

/-! ## guard をすぐに落とす操作 -/

/-- `view`。`get` の guard を通して一度だけ読む。 -/
def GuardedOp.view (k : K) (f : K → V → B) (ret : Option B → A) : GuardedOp K V A :=
  .get (ret none) (.read fun v => .drop (ret (some (f k v))))

/-- `alter`。`get_mut` の guard を通して、読んだ値を書き換える。 -/
def GuardedOp.alter (k : K) (f : K → V → V) (ret : Unit → A) : GuardedOp K V A :=
  .getMut (ret ()) (.read fun v => .write (f k v) (.drop (ret ())))

/-- guard の値を一度読んで落とす。 -/
def RefMutUse.value : RefMutUse V (Ret K V) := .read fun v => .drop (.value (some v))

/-- `KeyOp` の各操作が guard をどう使うか。 -/
def KeyOp.guarded (op : KeyOp K V) (k : K) : GuardedOp K V (Ret K V) :=
  match op with
  | .insert v => .insert v .value
  | .entryInsert v => .entry (.write v (.intoRef .value)) (.insert v .value)
  | .insertEntry v =>
    .entry (.write v (.read fun v => .drop (.value (some v))))
      (.insertEntry v (.read fun v => .drop (.value (some v))))
  | .orDefault dflt => .entry (.intoRef .value) (.insert dflt .value)
  | .orInsert v => .entry (.intoRef .value) (.insert v .value)
  | .orInsertWith value => .entry (.intoRef .value) (.insert (value ()) .value)
  | .orTryInsertWith value =>
    .entry (.intoRef .value)
      (match value () with
      | none => .drop .err
      | some v => .insert v .value)
  | .andModify f => .entry (.read fun v => .write (f v) (.drop .unit)) (.drop .unit)
  | .occupiedInsert v =>
    .entry (.read fun old => .write v (.drop (.value (some old)))) (.drop .unit)
  | .replaceEntry v => .entry (.replaceEntry v fun p => .pair (some p)) (.drop .unit)
  | .get => .get (.value none) (.read fun v => .drop (.value (some v)))
  | .getMut f => .getMut (.value none) (.read fun v => .write (f k v) (.drop (.value (some v))))
  | .remove => .remove .pair
  | .removeIf f => .removeIf f .pair
  | .removeIfMut f => .removeIfMut f .pair
  | .occupiedRemove => .entry (.remove fun p => .value (some p.2)) (.drop .unit)
  | .occupiedRemoveEntry => .entry (.remove fun p => .pair (some p)) (.drop .unit)

end Neocache
