import Neocache.Shard.Ops

/-!
# 書き下されたままの挿入と除去

source では、新しい key の挿入が三箇所（`_insert`、`VacantEntry::insert`、
`VacantEntry::insert_entry`）、loc に応じて counter を減らす除去が六箇所（`_remove`、`_remove_if`、
`_remove_if_mut`、`_retain`、`OccupiedEntry::remove`、`OccupiedEntry::remove_entry`）に、
それぞれ同じ文の並びで書かれている。

`Neocache/Shard/Ops.lean` はこれを `insertVacant` と `unlink` にまとめた。ここでは一箇所ずつ、
source の文の順に状態を一つずつ書き換える形で写し、まとめたものと一致することを示す。
どれか一つの写しだけが書き換えられたら、その一致だけが壊れる。
-/

namespace Neocache

open Infra

variable {K V : Type*} [DecidableEq K]

namespace Written

/-! ## 挿入 -/

def insert (σ : ShardData K V) (h : UInt64) (k : K) (v : V) :
    Except Fault (Option V × ShardData K V) :=
  match σ.map.find h k with
  | some e => .ok (some e.value, { σ with map := σ.map.modify k fun e => { e with value := v } })
  | none => do
    let loc := if h ∈ σ.ghostSet then Loc.main else Loc.small
    let σ := { σ with ghostSet := σ.ghostSet.erase h }
    let σ ← σ.evictLoop
    let σ := { σ with map := σ.map.insert h k (.new v loc) }
    if loc = .main then
      let σ := { σ with mainHashes := σ.mainHashes ++ [h] }
      let σ := { σ with mainKeys := σ.mainKeys ++ [k] }
      let σ := { σ with mainLive := σ.mainLive + 1 }
      return (none, σ)
    else
      let σ := { σ with smallHashes := σ.smallHashes ++ [h] }
      let σ := { σ with smallKeys := σ.smallKeys ++ [k] }
      let σ := { σ with smallLive := σ.smallLive + 1 }
      return (none, σ)

def vacantInsert (e : VacantEntry K V) (v : V) : Except Fault (RefMut K V) := do
  let loc := if e.hash ∈ e.shard.ghostSet then Loc.main else Loc.small
  let σ := { e.shard with ghostSet := e.shard.ghostSet.erase e.hash }
  let σ ← σ.evictLoop
  let σ := { σ with map := σ.map.insert e.hash e.key (.new v loc) }
  if loc = .main then
    let σ := { σ with mainHashes := σ.mainHashes ++ [e.hash] }
    let σ := { σ with mainKeys := σ.mainKeys ++ [e.key] }
    let σ := { σ with mainLive := σ.mainLive + 1 }
    return ⟨σ, v⟩
  else
    let σ := { σ with smallHashes := σ.smallHashes ++ [e.hash] }
    let σ := { σ with smallKeys := σ.smallKeys ++ [e.key] }
    let σ := { σ with smallLive := σ.smallLive + 1 }
    return ⟨σ, v⟩

def vacantInsertEntry (e : VacantEntry K V) (v : V) : Except Fault (OccupiedEntry K V) := do
  let loc := if e.hash ∈ e.shard.ghostSet then Loc.main else Loc.small
  let σ := { e.shard with ghostSet := e.shard.ghostSet.erase e.hash }
  let σ ← σ.evictLoop
  let σ := { σ with map := σ.map.insert e.hash e.key (.new v loc) }
  if loc = .main then
    let σ := { σ with mainHashes := σ.mainHashes ++ [e.hash] }
    let σ := { σ with mainKeys := σ.mainKeys ++ [e.key] }
    let σ := { σ with mainLive := σ.mainLive + 1 }
    return ⟨σ, e.key, .new v loc⟩
  else
    let σ := { σ with smallHashes := σ.smallHashes ++ [e.hash] }
    let σ := { σ with smallKeys := σ.smallKeys ++ [e.key] }
    let σ := { σ with smallLive := σ.smallLive + 1 }
    return ⟨σ, e.key, .new v loc⟩

/-- `Entry::insert`。 -/
def entryInsert (e : Entry K V) (v : V) : Except Fault (RefMut K V) :=
  match e with
  | .occupied e => .ok (e.insert v).2.intoRef
  | .vacant e => vacantInsert e v

/-- `Entry::insert_entry`。 -/
def entryInsertEntry (e : Entry K V) (v : V) : Except Fault (OccupiedEntry K V) :=
  match e with
  | .occupied e => .ok (e.insert v).2
  | .vacant e => vacantInsertEntry e v

/-- `Entry::or_insert`。 -/
def entryOrInsert (e : Entry K V) (v : V) : Except Fault (RefMut K V) :=
  match e with
  | .occupied e => .ok e.intoRef
  | .vacant e => vacantInsert e v

/-! ## 除去 -/

def remove (σ : ShardData K V) (h : UInt64) (k : K) : Option (K × V) × ShardData K V :=
  match σ.map.find h k with
  | some e =>
    let loc := e.loc
    let σ := { σ with map := σ.map.remove k }
    let σ := if loc = .small then { σ with smallLive := σ.smallLive - 1 }
      else { σ with mainLive := σ.mainLive - 1 }
    (some (k, e.value), σ)
  | none => (none, σ)

def removeIf (σ : ShardData K V) (h : UInt64) (k : K) (f : K → V → Bool) :
    Option (K × V) × ShardData K V :=
  match σ.map.find h k with
  | some e =>
    if f k e.value then
      let loc := e.loc
      let σ := { σ with map := σ.map.remove k }
      let σ := if loc = .small then { σ with smallLive := σ.smallLive - 1 }
        else { σ with mainLive := σ.mainLive - 1 }
      (some (k, e.value), σ)
    else (none, σ)
  | none => (none, σ)

def removeIfMut (σ : ShardData K V) (h : UInt64) (k : K) (f : K → V → Bool × V) :
    Option (K × V) × ShardData K V :=
  match σ.map.find h k with
  | some e =>
    let r := f k e.value
    -- 述語は bucket の値を直に書き換える
    let σ := { σ with map := σ.map.modify k fun e => { e with value := r.2 } }
    if r.1 then
      let loc := e.loc
      let σ := { σ with map := σ.map.remove k }
      let σ := if loc = .small then { σ with smallLive := σ.smallLive - 1 }
        else { σ with mainLive := σ.mainLive - 1 }
      (some (k, r.2), σ)
    else (none, σ)
  | none => (none, σ)

/-- `_retain` の shard 一つ分。bucket を一つずつ見る。 -/
def retainBucket (f : Nat → K → V → Bool × V) (acc : Nat × ShardData K V)
    (s : Slot UInt64 K (CacheEntry V)) : Nat × ShardData K V :=
  let r := f acc.1 s.key s.val.value
  let σ := { acc.2 with map := acc.2.map.modify s.key fun e => { e with value := r.2 } }
  if r.1 then (acc.1 + 1, σ)
  else
    let loc := s.val.loc
    let σ := { σ with map := σ.map.remove s.key }
    let σ := if loc = .small then { σ with smallLive := σ.smallLive - 1 }
      else { σ with mainLive := σ.mainLive - 1 }
    (acc.1 + 1, σ)

def retain (σ : ShardData K V) (f : Nat → K → V → Bool × V) (n : Nat) : Nat × ShardData K V :=
  σ.map.slots.foldl (retainBucket f) (n, σ)

def occupiedRemove (e : OccupiedEntry K V) : V × ShardData K V :=
  let loc := e.entry.loc
  let σ := { e.shard with map := e.shard.map.remove e.key }
  let σ := if loc = .small then { σ with smallLive := σ.smallLive - 1 }
    else { σ with mainLive := σ.mainLive - 1 }
  (e.entry.value, σ)

def occupiedRemoveEntry (e : OccupiedEntry K V) : (K × V) × ShardData K V :=
  let loc := e.entry.loc
  let σ := { e.shard with map := e.shard.map.remove e.key }
  let σ := if loc = .small then { σ with smallLive := σ.smallLive - 1 }
    else { σ with mainLive := σ.mainLive - 1 }
  ((e.key, e.entry.value), σ)

/-! ## まとめたものとの一致 -/

/-- まとめた挿入を、ghost の判定と loop の結果で場合分けしたもの。 -/
theorem insertVacant_cases (σ : ShardData K V) (h : UInt64) (k : K) (v : V) :
    (∃ f, ShardData.evictLoop { σ with ghostSet := σ.ghostSet.erase h } = .error f ∧
      σ.insertVacant h k v = .error f) ∨
    ∃ σ₁, ShardData.evictLoop { σ with ghostSet := σ.ghostSet.erase h } = .ok σ₁ ∧
      σ.insertVacant h k v = .ok (σ₁.register h k v (if h ∈ σ.ghostSet then .main else .small)) := by
  unfold ShardData.insertVacant ShardData.ghostCheck
  cases ShardData.evictLoop { σ with ghostSet := σ.ghostSet.erase h } with
  | error f => exact Or.inl ⟨f, rfl, rfl⟩
  | ok σ₁ => exact Or.inr ⟨σ₁, rfl, rfl⟩

theorem insert_eq (σ : ShardData K V) (h : UInt64) (k : K) (v : V) :
    (insert σ h k v).map Prod.snd = (σ.insert h k v).map Prod.snd := by
  unfold insert ShardData.insert
  cases σ.map.find h k with
  | some e => rfl
  | none =>
    rcases insertVacant_cases σ h k v with ⟨f, hev, hins⟩ | ⟨σ₁, hev, hins⟩
    · simp [hev, hins, Except.map, bind, Except.bind]
    · simp only [hev, hins, Except.map, bind, Except.bind, pure, Except.pure]
      by_cases hg : h ∈ σ.ghostSet <;> simp [hg, ShardData.register]

theorem vacantInsert_eq (e : VacantEntry K V) (v : V) : vacantInsert e v = e.insert v := by
  unfold vacantInsert VacantEntry.insert
  rcases insertVacant_cases e.shard e.hash e.key v with ⟨f, hev, hins⟩ | ⟨σ₁, hev, hins⟩
  · simp [hev, hins, Except.map, bind, Except.bind]
  · simp only [hev, hins, Except.map, bind, Except.bind, pure, Except.pure]
    by_cases hg : e.hash ∈ e.shard.ghostSet <;> simp [hg, ShardData.register]

theorem vacantInsertEntry_eq (e : VacantEntry K V) (v : V) :
    vacantInsertEntry e v = e.insertEntry v := by
  unfold vacantInsertEntry VacantEntry.insertEntry
  rcases insertVacant_cases e.shard e.hash e.key v with ⟨f, hev, hins⟩ | ⟨σ₁, hev, hins⟩
  · simp [hev, hins, Except.map, bind, Except.bind]
  · simp only [hev, hins, Except.map, bind, Except.bind, pure, Except.pure, ShardData.ghostCheck]
    by_cases hg : e.hash ∈ e.shard.ghostSet <;> simp [hg, ShardData.register]

theorem entryInsert_eq (e : Entry K V) (v : V) : entryInsert e v = e.insert v := by
  cases e with
  | occupied e => rfl
  | vacant e => exact vacantInsert_eq e v

theorem entryInsertEntry_eq (e : Entry K V) (v : V) : entryInsertEntry e v = e.insertEntry v := by
  cases e with
  | occupied e => rfl
  | vacant e => exact vacantInsertEntry_eq e v

theorem entryOrInsert_eq (e : Entry K V) (v : V) : entryOrInsert e v = e.orInsert v := by
  cases e with
  | occupied e => rfl
  | vacant e => exact vacantInsert_eq e v

/-- 表から除いて counter を減らす文の並び。六つの除去はどれもこれを含む。 -/
theorem unlink_eq (σ : ShardData K V) (k : K) (loc : Loc) :
    (if loc = .small then
        { σ with map := σ.map.remove k, smallLive := σ.smallLive - 1 }
      else { σ with map := σ.map.remove k, mainLive := σ.mainLive - 1 }) = σ.unlink k loc := by
  cases loc <;> rfl

theorem remove_eq (σ : ShardData K V) (h : UInt64) (k : K) :
    (remove σ h k).2 = (σ.remove h k).2 := by
  unfold remove ShardData.remove
  cases σ.map.find h k with
  | some e => exact unlink_eq σ k e.loc
  | none => rfl

theorem removeIf_eq (σ : ShardData K V) (h : UInt64) (k : K) (f : K → V → Bool) :
    (removeIf σ h k f).2 = (σ.removeIf h k f).2 := by
  unfold removeIf ShardData.removeIf
  cases σ.map.find h k with
  | some e =>
    by_cases hf : f k e.value = true
    · simp only [hf, if_true]
      exact unlink_eq σ k e.loc
    · simp only [hf]
      rfl
  | none => rfl

theorem removeIfMut_eq (σ : ShardData K V) (h : UInt64) (k : K) (f : K → V → Bool × V) :
    (removeIfMut σ h k f).2 = (σ.removeIfMut h k f).2 := by
  unfold removeIfMut ShardData.removeIfMut
  cases σ.map.find h k with
  | some e =>
    by_cases hf : (f k e.value).1 = true
    · simp only [hf, if_true]
      exact unlink_eq (σ.setValue k (f k e.value).2) k e.loc
    · simp only [hf]
      rfl
  | none => rfl

theorem retain_eq (σ : ShardData K V) (f : Nat → K → V → Bool × V) (n : Nat) :
    retain σ f n = σ.retain f n := by
  have hone : retainBucket f = ShardData.retainOne (V := V) (K := K) f := by
    funext acc s
    unfold retainBucket ShardData.retainOne
    by_cases hf : (f acc.1 s.key s.val.value).1 = true
    · simp only [hf, if_true]
      rfl
    · simp only [hf]
      exact congrArg (Prod.mk (acc.1 + 1))
        (unlink_eq (acc.2.setValue s.key (f acc.1 s.key s.val.value).2) s.key s.val.loc)
  unfold retain ShardData.retain
  rw [hone]

theorem occupiedRemove_eq (e : OccupiedEntry K V) : occupiedRemove e = e.remove :=
  congrArg (Prod.mk e.entry.value) (unlink_eq e.shard e.key e.entry.loc)

theorem occupiedRemoveEntry_eq (e : OccupiedEntry K V) : occupiedRemoveEntry e = e.removeEntry :=
  congrArg (Prod.mk (e.key, e.entry.value)) (unlink_eq e.shard e.key e.entry.loc)

end Written

end Neocache
