import Neocache.Shard.Moves

/-!
# 各操作が shard にすること

`KeyOp` の各操作を、key が表にある場合（`KeyOp.onPresent`）と無い場合
（`KeyOp.newValue`、`KeyOp.absentRet`）の要約に落とす。
要約が操作の本体と一致することは `exec_present` と `exec_absent` で示し、
以降は本体を開かずに要約だけを見る。

`retain` と `alter_all` は bucket を一つずつ処理する畳み込みなので、
「まだ処理していない slot は元のまま表にある」という不変条件で `Edit` の列に分ける。
-/

namespace Neocache

open Infra Relation ShardData

variable {K V : Type*}

namespace KeyOp

/-- key が表にあるときの返り値と、操作後の entry。`none` は除いたことを表す。 -/
def onPresent (op : KeyOp K V) (k : K) (e : CacheEntry V) : Ret K V × Option (CacheEntry V) :=
  match op with
  | .insert v | .occupiedInsert v => (.value (some e.value), some { e with value := v })
  | .entryInsert v | .insertEntry v => (.value (some v), some { e with value := v })
  | .orDefault _ | .orInsert _ | .orInsertWith _ | .orTryInsertWith _ =>
    (.value (some e.value), some e)
  | .andModify f => (.unit, some { e with value := f e.value })
  | .replaceEntry v => (.pair (some (k, e.value)), some { e with value := v })
  | .get => (.value (some e.value), some e.bumpFreq)
  | .getMut f => (.value (some e.value), some { e.bumpFreq with value := f k e.value })
  | .remove | .occupiedRemoveEntry => (.pair (some (k, e.value)), none)
  | .removeIf f => if f k e.value then (.pair (some (k, e.value)), none) else (.pair none, some e)
  | .removeIfMut f =>
    if (f k e.value).1 then (.pair (some (k, (f k e.value).2)), none)
    else (.pair none, some { e with value := (f k e.value).2 })
  | .occupiedRemove => (.value (some e.value), none)

/-- key が表に無いときに入れる値。入れない操作では `none`。 -/
def newValue : KeyOp K V → Option V
  | .insert v | .entryInsert v | .insertEntry v | .orDefault v | .orInsert v => some v
  | .orInsertWith value => some (value ())
  | .orTryInsertWith value => value ()
  | _ => none

/-- key が表に無いときの返り値。 -/
def absentRet : KeyOp K V → Ret K V
  | .insert _ | .get | .getMut _ => .value none
  | .entryInsert v | .insertEntry v | .orDefault v | .orInsert v => .value (some v)
  | .orInsertWith value => .value (some (value ()))
  | .orTryInsertWith value =>
    match value () with
    | some v => .value (some v)
    | none => .err
  | .remove | .removeIf _ | .removeIfMut _ => .pair none
  | .andModify _ | .occupiedInsert _ | .replaceEntry _ | .occupiedRemove | .occupiedRemoveEntry =>
    .unit

/-- 残す操作は loc を変えない。 -/
theorem onPresent_loc {op : KeyOp K V} {k : K} {e e' : CacheEntry V}
    (h : (op.onPresent k e).2 = some e') : e'.loc = e.loc := by
  cases op <;> simp only [onPresent] at h
  case removeIf f => split at h <;> cases h; rfl
  case removeIfMut f => split at h <;> cases h; rfl
  case get => cases h; simp
  case getMut f => cases h; simp
  all_goals cases h; try rfl

end KeyOp

/-! ## 要約との一致 -/

namespace ShardData

variable [DecidableEq K] {hash : K → UInt64} {σ σ' : ShardData K V} {k : K}

/-- 操作後の entry を表に反映した状態。 -/
def put (σ : ShardData K V) (k : K) (e : CacheEntry V) : Option (CacheEntry V) → ShardData K V
  | some e' => σ.updateEntry k fun _ => e'
  | none => σ.unlink k e.loc

theorem updateEntry_congr {e : CacheEntry V} {f g : CacheEntry V → CacheEntry V}
    (hk : σ.map.get? k = some e) (h : f e = g e) : σ.updateEntry k f = σ.updateEntry k g := by
  unfold updateEntry
  rw [Table.modify_congr hk h]

theorem updateEntry_self {e : CacheEntry V} (hk : σ.map.get? k = some e) :
    σ.updateEntry k (fun _ => e) = σ := by
  have h : σ.updateEntry k (fun _ => e) = σ.updateEntry k id := updateEntry_congr hk rfl
  rw [h, updateEntry, Table.modify_id]

theorem get?_updateEntry {e : CacheEntry V} (hk : σ.map.get? k = some e)
    (f : CacheEntry V → CacheEntry V) : (σ.updateEntry k f).map.get? k = some (f e) := by
  rw [updateEntry, Table.get?_modify, if_pos rfl, hk]
  rfl

theorem setValue_eq {e : CacheEntry V} (hk : σ.map.get? k = some e) (v : V) :
    σ.setValue k v = σ.updateEntry k fun _ => { e with value := v } :=
  updateEntry_congr hk rfl

theorem unlink_setValue (σ : ShardData K V) (k : K) (v : V) (loc : Loc) :
    (σ.setValue k v).unlink k loc = σ.unlink k loc := by
  cases loc <;> simp [unlink, setValue, updateEntry, Table.remove_modify]

theorem entry_present {e : CacheEntry V} (hl : Linked hash σ) (hk : σ.map.get? k = some e) :
    σ.entry (hash k) k = .occupied ⟨σ, k, e⟩ := by
  simp only [entry, hl.find, hk]

theorem entry_absent (hl : Linked hash σ) (hk : σ.map.get? k = none) :
    σ.entry (hash k) k = .vacant ⟨σ, k, hash k⟩ := by
  simp only [entry, hl.find, hk]

end ShardData

variable [DecidableEq K] {hash : K → UInt64} {σ σ' : ShardData K V} {k : K}

/-- key が表にあれば、操作は失敗せず要約の通りに進む。 -/
theorem exec_present {e : CacheEntry V} (hl : Linked hash σ) (hk : σ.map.get? k = some e)
    (op : KeyOp K V) :
    op.exec (hash k) k σ = .ok ((op.onPresent k e).1, σ.put k e (op.onPresent k e).2) := by
  have hf : σ.map.find (hash k) k = some e := by rw [hl.find, hk]
  have he := entry_present hl hk
  have hv := setValue_eq hk
  cases op
  case insert v => simp [KeyOp.exec, KeyOp.onPresent, ShardData.insert, hf, put, hv]
  case entryInsert v =>
    simp [KeyOp.exec, KeyOp.onPresent, he, Entry.insert, OccupiedEntry.insert,
      OccupiedEntry.intoRef, OccupiedEntry.modify, Except.map, put, hv]
  case insertEntry v =>
    simp [KeyOp.exec, KeyOp.onPresent, he, Entry.insertEntry, OccupiedEntry.insert,
      OccupiedEntry.modify, Except.map, put, hv]
  case orDefault v =>
    simp [KeyOp.exec, KeyOp.onPresent, he, Entry.orDefault, Entry.orInsert, Entry.orInsertWith,
      OccupiedEntry.intoRef, Except.map, put, updateEntry_self hk]
  case orInsert v =>
    simp [KeyOp.exec, KeyOp.onPresent, he, Entry.orInsert, Entry.orInsertWith,
      OccupiedEntry.intoRef, Except.map, put, updateEntry_self hk]
  case orInsertWith value =>
    simp [KeyOp.exec, KeyOp.onPresent, he, Entry.orInsertWith, OccupiedEntry.intoRef, Except.map,
      put, updateEntry_self hk]
  case orTryInsertWith value =>
    simp [KeyOp.exec, KeyOp.onPresent, he, Entry.orTryInsertWith, OccupiedEntry.intoRef,
      Except.map, put, updateEntry_self hk]
  case andModify f =>
    simp [KeyOp.exec, KeyOp.onPresent, he, Entry.andModify, Entry.shard, OccupiedEntry.modify, put,
      hv]
  case occupiedInsert v =>
    simp [KeyOp.exec, KeyOp.onPresent, KeyOp.onOccupied, he, OccupiedEntry.insert,
      OccupiedEntry.modify, put, hv]
  case replaceEntry v =>
    simp [KeyOp.exec, KeyOp.onPresent, KeyOp.onOccupied, he, OccupiedEntry.replaceEntry, put,
      CacheEntry.new]
  case get =>
    have hb : σ.updateEntry k .bumpFreq = σ.updateEntry k fun _ => e.bumpFreq :=
      updateEntry_congr hk rfl
    simp [KeyOp.exec, KeyOp.onPresent, ShardData.get, hf, put, hb]
  case getMut f =>
    -- guard を通した代入は、freq を増やした後の entry に働く。
    have hb := get?_updateEntry hk CacheEntry.bumpFreq
    have hu : (σ.updateEntry k .bumpFreq).setValue k (f k e.value)
        = σ.updateEntry k fun _ => { e.bumpFreq with value := f k e.value } := by
      rw [setValue_eq hb]
      unfold updateEntry
      simp only [Table.modify_modify]
      rfl
    simp [KeyOp.exec, KeyOp.onPresent, ShardData.getMut, hf, put, hu]
  case remove => simp [KeyOp.exec, KeyOp.onPresent, ShardData.remove, hf, put]
  case removeIf f =>
    by_cases hp : f k e.value = true
    · simp [KeyOp.exec, KeyOp.onPresent, ShardData.removeIf, hf, put, hp]
    · simp [KeyOp.exec, KeyOp.onPresent, ShardData.removeIf, hf, put, hp, updateEntry_self hk]
  case removeIfMut f =>
    by_cases hp : (f k e.value).1 = true
    · simp [KeyOp.exec, KeyOp.onPresent, ShardData.removeIfMut, hf, put, hp, unlink_setValue]
    · simp [KeyOp.exec, KeyOp.onPresent, ShardData.removeIfMut, hf, put, hp, hv]
  case occupiedRemove =>
    simp [KeyOp.exec, KeyOp.onPresent, KeyOp.onOccupied, he, OccupiedEntry.remove, put]
  case occupiedRemoveEntry =>
    simp [KeyOp.exec, KeyOp.onPresent, KeyOp.onOccupied, he, OccupiedEntry.removeEntry, put]

/-- key が表に無ければ、入れる操作は `insertVacant` に、他は何もしないことに落ちる。 -/
theorem exec_absent (hl : Linked hash σ) (hk : σ.map.get? k = none) (op : KeyOp K V) :
    op.exec (hash k) k σ =
      match op.newValue with
      | some v => (σ.insertVacant (hash k) k v).map fun σ' => (op.absentRet, σ')
      | none => .ok (op.absentRet, σ) := by
  have hf : σ.map.find (hash k) k = none := by rw [hl.find, hk]
  have he := entry_absent hl hk
  cases op
  case insert v => simp [KeyOp.exec, KeyOp.newValue, KeyOp.absentRet, ShardData.insert, hf]
  case entryInsert v =>
    cases hi : σ.insertVacant (hash k) k v <;>
      simp [KeyOp.exec, KeyOp.newValue, KeyOp.absentRet, he, Entry.insert, VacantEntry.insert,
        Except.map, hi]
  case insertEntry v =>
    cases hi : σ.insertVacant (hash k) k v <;>
      simp [KeyOp.exec, KeyOp.newValue, KeyOp.absentRet, he, Entry.insertEntry,
        VacantEntry.insertEntry, Except.map, hi, CacheEntry.new]
  case orDefault v =>
    cases hi : σ.insertVacant (hash k) k v <;>
      simp [KeyOp.exec, KeyOp.newValue, KeyOp.absentRet, he, Entry.orDefault, Entry.orInsert,
        Entry.orInsertWith, VacantEntry.insert, Except.map, hi]
  case orInsert v =>
    cases hi : σ.insertVacant (hash k) k v <;>
      simp [KeyOp.exec, KeyOp.newValue, KeyOp.absentRet, he, Entry.orInsert, Entry.orInsertWith,
        VacantEntry.insert, Except.map, hi]
  case orInsertWith value =>
    cases hi : σ.insertVacant (hash k) k (value ()) <;>
      simp [KeyOp.exec, KeyOp.newValue, KeyOp.absentRet, he, Entry.orInsertWith,
        VacantEntry.insert, Except.map, hi]
  case orTryInsertWith value =>
    cases hv : value () with
    | none =>
      simp [KeyOp.exec, KeyOp.newValue, KeyOp.absentRet, he, Entry.orTryInsertWith, Except.map, hv]
    | some v =>
      cases hi : σ.insertVacant (hash k) k v <;>
        simp [KeyOp.exec, KeyOp.newValue, KeyOp.absentRet, he, Entry.orTryInsertWith,
          VacantEntry.insert, Except.map, hv, hi]
  all_goals
    simp [KeyOp.exec, KeyOp.newValue, KeyOp.absentRet, KeyOp.onOccupied, he, hf, Entry.andModify,
      Entry.shard, ShardData.get, ShardData.getMut, ShardData.remove, ShardData.removeIf,
      ShardData.removeIfMut]

/-! ## `retain` と `alter_all` -/

/-- 残る slot の列。`n` は先頭の slot での closure の呼び出し番号。 -/
def retainSlots (f : Nat → K → V → Bool × V) :
    Nat → List (Slot UInt64 K (CacheEntry V)) → List (Slot UInt64 K (CacheEntry V))
  | _, [] => []
  | n, s :: rest =>
    if (f n s.key s.val.value).1 then
      { s with val := { s.val with value := (f n s.key s.val.value).2 } } :: retainSlots f (n + 1) rest
    else retainSlots f (n + 1) rest

/-- 除かれる slot のうち、その loc を持つものの個数。 -/
def dropped (f : Nat → K → V → Bool × V) (loc : Loc) :
    Nat → List (Slot UInt64 K (CacheEntry V)) → Nat
  | _, [] => 0
  | n, s :: rest =>
    (if (f n s.key s.val.value).1 = false ∧ s.val.loc = loc then 1 else 0)
      + dropped f loc (n + 1) rest

theorem alterAll_eq_retain (σ : ShardData K V) (f : Nat → K → V → V) (n : Nat) :
    σ.alterAll f n = σ.retain (fun n k v => (true, f n k v)) n := by
  have h : alterOne f = retainOne (V := V) (fun n (k : K) v => (true, f n k v)) := by
    funext acc s
    simp [alterOne, retainOne]
  unfold alterAll retain
  rw [h]

theorem setValue_slots {a b : List (Slot UInt64 K (CacheEntry V))}
    {s : Slot UInt64 K (CacheEntry V)} (h : σ.map.slots = a ++ s :: b) (v : V) :
    (σ.setValue s.key v).map.slots = a ++ { s with val := { s.val with value := v } } :: b :=
  Table.slots_modify_mid h _

/--
`retain` の畳み込み。処理した分 `a` と残り `b` に分けると、残りの slot は元のまま表にある。

返すのは、残った slot の列、counter、それ以外が変わらないことである。
-/
theorem foldl_retainOne (hash : K → UInt64) (f : Nat → K → V → Bool × V) :
    ∀ (b a : List (Slot UInt64 K (CacheEntry V))) (n : Nat) (σ : ShardData K V),
      σ.map.slots = a ++ b →
      let σ' := (b.foldl (retainOne f) (n, σ)).2
      σ'.map.slots = a ++ retainSlots f n b ∧
        σ' = { σ with
          map := σ'.map
          smallLive := σ.smallLive - dropped f .small n b
          mainLive := σ.mainLive - dropped f .main n b } ∧
        ReflTransGen (Edit hash) σ σ'
  | [], a, n, σ, h => by
    rw [List.append_nil] at h
    simpa [retainSlots, dropped] using ⟨h, ReflTransGen.refl⟩
  | s :: b, a, n, σ, h => by
    have hset := setValue_slots h (f n s.key s.val.value).2
    have hmem : s ∈ σ.map.slots := by rw [h]; simp
    have hupd : Edit hash σ (σ.setValue s.key (f n s.key s.val.value).2) :=
      .update _ _ fun e _ => rfl
    by_cases hkeep : (f n s.key s.val.value).1 = true
    · -- 残す slot は、処理した分 `a` の末尾に移る。
      have hone : retainOne f (n, σ) s = (n + 1, σ.setValue s.key (f n s.key s.val.value).2) := by
        simp [retainOne, hkeep]
      have ih := foldl_retainOne hash f b
        (a ++ [{ s with val := { s.val with value := (f n s.key s.val.value).2 } }]) (n + 1)
        (σ.setValue s.key (f n s.key s.val.value).2) (by rw [hset]; simp)
      rw [List.foldl_cons, hone]
      obtain ⟨hs, heq, hedit⟩ := ih
      refine ⟨?_, ?_, hedit.head hupd⟩
      · rw [hs]; simp [retainSlots, hkeep]
      · rw [heq]; simp [dropped, hkeep, setValue, updateEntry]
    · -- 除く slot は表から消え、`a` はそのまま残る。
      have hone : retainOne f (n, σ) s
          = (n + 1, (σ.setValue s.key (f n s.key s.val.value).2).unlink s.key s.val.loc) := by
        simp [retainOne, hkeep]
      have hget : (σ.setValue s.key (f n s.key s.val.value).2).map.get? s.key
          = some { s.val with value := (f n s.key s.val.value).2 } :=
        get?_updateEntry (Table.get?_of_mem hmem) _
      have hunlink : Edit hash (σ.setValue s.key (f n s.key s.val.value).2)
          ((σ.setValue s.key (f n s.key s.val.value).2).unlink s.key s.val.loc) := by
        have hu := @Edit.unlink K V _ hash _ _ _ hget
        exact hu
      have hdrop : ((σ.setValue s.key (f n s.key s.val.value).2).unlink s.key s.val.loc).map.slots
          = a ++ b := by
        have := Table.slots_remove_mid hset
        cases s.val.loc <;> exact this
      have ih := foldl_retainOne hash f b a (n + 1)
        ((σ.setValue s.key (f n s.key s.val.value).2).unlink s.key s.val.loc) hdrop
      rw [List.foldl_cons, hone]
      obtain ⟨hs, heq, hedit⟩ := ih
      refine ⟨?_, ?_, (hedit.head hunlink).head hupd⟩
      · rw [hs]; simp [retainSlots, hkeep]
      · rw [heq]
        cases hloc : s.val.loc <;>
          simp [dropped, hkeep, hloc, setValue, updateEntry, unlink, Nat.sub_add_eq]

/-- `retain` の結果。queue と ghost set は触らない。 -/
theorem retain_spec (σ : ShardData K V) (f : Nat → K → V → Bool × V) (n : Nat) :
    (σ.retain f n).2.map.slots = retainSlots f n σ.map.slots ∧
      (σ.retain f n).2 = { σ with
        map := (σ.retain f n).2.map
        smallLive := σ.smallLive - dropped f .small n σ.map.slots
        mainLive := σ.mainLive - dropped f .main n σ.map.slots } := by
  obtain ⟨hs, heq, -⟩ := foldl_retainOne (fun _ => 0) f σ.map.slots [] n σ rfl
  exact ⟨hs, heq⟩

theorem retain_edits (σ : ShardData K V) (f : Nat → K → V → Bool × V) (n : Nat) :
    ReflTransGen (Edit hash) σ (σ.retain f n).2 :=
  (foldl_retainOne hash f σ.map.slots [] n σ rfl).2.2

omit [DecidableEq K] in
/-- 残った slot は、元の slot の値だけを書き換えたものである。 -/
theorem mem_retainSlots {f : Nat → K → V → Bool × V} :
    ∀ {n : Nat} {l : List (Slot UInt64 K (CacheEntry V))} {s' : Slot UInt64 K (CacheEntry V)},
      s' ∈ retainSlots f n l →
        ∃ s ∈ l, s.key = s'.key ∧ s'.val = { s.val with value := s'.val.value }
  | _, [], s', h => by cases h
  | n, s :: l, s', h => by
    unfold retainSlots at h
    split at h
    · rcases List.mem_cons.mp h with rfl | h
      · exact ⟨s, List.mem_cons_self, rfl, rfl⟩
      · obtain ⟨s₀, hs₀, hrest⟩ := mem_retainSlots h
        exact ⟨s₀, List.mem_cons_of_mem _ hs₀, hrest⟩
    · obtain ⟨s₀, hs₀, hrest⟩ := mem_retainSlots h
      exact ⟨s₀, List.mem_cons_of_mem _ hs₀, hrest⟩

/-- 残った entry は、元の entry の値だけを書き換えたものである。 -/
theorem retain_old (σ : ShardData K V) (f : Nat → K → V → Bool × V) (n : Nat) {k : K}
    {e' : CacheEntry V} (hk : (σ.retain f n).2.map.get? k = some e') :
    ∃ e, σ.map.get? k = some e ∧ e' = { e with value := e'.value } := by
  obtain ⟨s', hs', rfl, rfl⟩ := Table.get?_eq_some.mp hk
  rw [(retain_spec σ f n).1] at hs'
  obtain ⟨s, hs, hkey, hval⟩ := mem_retainSlots hs'
  exact ⟨s.val, hkey ▸ Table.get?_of_mem hs, hval⟩

theorem retain_loc (σ : ShardData K V) (f : Nat → K → V → Bool × V) (n : Nat) {k : K}
    {e' : CacheEntry V} (hk : (σ.retain f n).2.map.get? k = some e') :
    ∃ e, σ.map.get? k = some e ∧ e.loc = e'.loc := by
  obtain ⟨e, he, hval⟩ := retain_old σ f n hk
  exact ⟨e, he, by rw [hval]⟩

theorem retain_queueKeys (σ : ShardData K V) (f : Nat → K → V → Bool × V) (n : Nat) (loc : Loc) :
    (σ.retain f n).2.queueKeys loc = σ.queueKeys loc := by
  rw [(retain_spec σ f n).2]
  cases loc <;> rfl

/-! ## 操作の分解 -/

theorem put_queueKeys (σ : ShardData K V) (k : K) (e : CacheEntry V) (o : Option (CacheEntry V))
    (loc : Loc) : (σ.put k e o).queueKeys loc = σ.queueKeys loc := by
  cases o with
  | some e' => cases loc <;> rfl
  | none => exact unlink_queueKeys _ _ _ _

theorem put_get? {k : K} {e : CacheEntry V} (hk : σ.map.get? k = some e)
    (o : Option (CacheEntry V)) (x : K) :
    (σ.put k e o).map.get? x = if x = k then o else σ.map.get? x := by
  cases o with
  | some e' =>
    show (σ.map.modify k fun _ => e').get? x = _
    rw [Table.get?_modify]
    by_cases hx : x = k
    · simp [hx, hk]
    · simp [hx]
  | none => rw [ShardData.put, unlink_map, Table.get?_remove]

theorem put_edit {e : CacheEntry V} (hk : σ.map.get? k = some e) (op : KeyOp K V) :
    Edit hash σ (σ.put k e (op.onPresent k e).2) := by
  cases ho : (op.onPresent k e).2 with
  | none => exact .unlink hk
  | some e' =>
    refine .update _ _ fun e₀ he₀ => ?_
    rw [hk] at he₀
    cases he₀
    exact KeyOp.onPresent_loc ho

/-- 操作一つの結果を、場合ごとに述べたもの。 -/
inductive Outcome (hash : K → UInt64) (σ : ShardData K V) :
    ShardOp K V → Ret K V → ShardData K V → Prop
  | present {k : K} {op : KeyOp K V} {e : CacheEntry V} (hk : σ.map.get? k = some e) :
      Outcome hash σ (.key k op) (op.onPresent k e).1 (σ.put k e (op.onPresent k e).2)
  | idle {k : K} {op : KeyOp K V} (hk : σ.map.get? k = none) (hv : op.newValue = none) :
      Outcome hash σ (.key k op) op.absentRet σ
  | fresh {k : K} {op : KeyOp K V} {v : V} {σ₁ : ShardData K V} (hk : σ.map.get? k = none)
      (hv : op.newValue = some v) (hev : (σ.ghostCheck (hash k)).2.evictLoop = .ok σ₁) :
      Outcome hash σ (.key k op) op.absentRet
        (σ₁.register (hash k) k v (σ.ghostCheck (hash k)).1)
  | retain (f : Nat → K → V → Bool × V) (n : Nat) :
      Outcome hash σ (.retain f n) .unit (σ.retain f n).2
  | alterAll (f : Nat → K → V → V) (n : Nat) :
      Outcome hash σ (.alterAll f n) .unit (σ.retain (fun n k v => (true, f n k v)) n).2
  | clearAll : Outcome hash σ .clearAll .unit σ.clearAll

theorem exec_outcome (hl : Linked hash σ) {op : ShardOp K V} {r : Ret K V}
    (h : op.exec hash σ = .ok (r, σ')) : Outcome hash σ op r σ' := by
  cases op with
  | key k op =>
    simp only [ShardOp.exec] at h
    cases hk : σ.map.get? k with
    | some e =>
      rw [exec_present hl hk op] at h
      cases h
      exact .present hk
    | none =>
      rw [exec_absent hl hk op] at h
      cases hv : op.newValue with
      | none => rw [hv] at h; cases h; exact .idle hk hv
      | some v =>
        rw [hv] at h
        unfold insertVacant at h
        cases hi : (σ.ghostCheck (hash k)).2.evictLoop with
        | error f => rw [hi] at h; cases h
        | ok σ₁ => rw [hi] at h; cases h; exact .fresh hk hv hi
  | retain f n => cases h; exact .retain f n
  | alterAll f n =>
    cases h
    rw [alterAll_eq_retain]
    exact .alterAll f n
  | clearAll => cases h; exact .clearAll

/-! ## 到達可能な状態 -/

theorem ShardData.Linked.register (hl : Linked hash σ) (k : K) (v : V) (loc : Loc) :
    Linked hash (σ.register (hash k) k v loc) where
  queue loc' := by
    have h := hl.queue loc'
    cases loc <;> cases loc' <;> simp only [queueHashes, queueKeys] at h ⊢ <;>
      simp [ShardData.register, h]
  table := by
    rw [register_map]
    exact Table.hashed_insert hl.table _ _

theorem ShardData.Linked.unlink (hl : Linked hash σ) (k : K) (loc : Loc) :
    Linked hash (σ.unlink k loc) where
  queue loc' := by
    have h := hl.queue loc'
    cases loc <;> cases loc' <;> exact h
  table := by
    rw [unlink_map]
    exact Table.hashed_remove hl.table _

theorem ShardData.Linked.updateEntry (hl : Linked hash σ) (k : K)
    (f : CacheEntry V → CacheEntry V) : Linked hash (σ.updateEntry k f) :=
  ⟨hl.queue, Table.hashed_modify hl.table _ _⟩

omit [DecidableEq K] in
theorem ShardData.Linked.clearAll : Linked hash σ.clearAll :=
  ⟨fun loc => by cases loc <;> rfl, by simp [ShardData.clearAll, Table.empty]⟩

theorem ShardData.Edit.linked (h : Edit hash σ σ') (hl : Linked hash σ) : Linked hash σ' := by
  cases h with
  | takeGhost => exact ⟨hl.queue, hl.table⟩
  | register k v loc => exact hl.register k v loc
  | update k f => exact hl.updateEntry k f
  | unlink => exact hl.unlink _ _
  | clear => exact Linked.clearAll

omit [DecidableEq K] in
theorem linked_new (cap : Nat) : Linked hash (ShardData.new cap : ShardData K V) :=
  ⟨fun loc => by cases loc <;> rfl, by simp [ShardData.new, Table.empty]⟩

/-- 追い出しは key を増やさない。 -/
theorem ShardData.Sweep.absent (h : Sweep hash σ σ') (hk : σ.map.get? k = none) : σ'.map.get? k = none := by
  cases h with
  | skip => simpa using hk
  | promote => simp [Table.get?_modify, hk]
  | evictSmall => simp [addToGhost, Table.get?_remove, hk]
  | secondChance => simp [Table.get?_modify, hk]
  | evictMain => simp [Table.get?_remove, hk]

theorem sweep_absent (h : ReflTransGen (Sweep hash) σ σ') (hk : σ.map.get? k = none) :
    σ'.map.get? k = none :=
  star_preserves (P := fun σ => σ.map.get? k = none) (fun _ _ hk hstep => hstep.absent hk) h hk

/-- 状態の一つの変化。 -/
def Move (hash : K → UInt64) (σ σ' : ShardData K V) : Prop := Sweep hash σ σ' ∨ Edit hash σ σ'

/-- 挿入は、ghost の取り出し、追い出し、登録の三段である。 -/
theorem fresh_moves (hl : Linked hash σ) {v : V} {σ₁ : ShardData K V} (hk : σ.map.get? k = none)
    (hev : (σ.ghostCheck (hash k)).2.evictLoop = .ok σ₁) :
    Edit hash σ (σ.ghostCheck (hash k)).2 ∧
      ReflTransGen (Sweep hash) (σ.ghostCheck (hash k)).2 σ₁ ∧
      Edit hash σ₁ (σ₁.register (hash k) k v (σ.ghostCheck (hash k)).1) := by
  have hg : Edit hash σ (σ.ghostCheck (hash k)).2 := .takeGhost _
  have hl' := hg.linked hl
  obtain ⟨hsw, hroom⟩ := evictLoop_sweep hl' hev
  exact ⟨hg, hsw, .register k v _ (sweep_absent hsw hk) hroom⟩

/-- どの操作も `Move` の列に分かれる。 -/
theorem exec_moves (hl : Linked hash σ) {op : ShardOp K V} {r : Ret K V}
    (h : op.exec hash σ = .ok (r, σ')) : ReflTransGen (Move hash) σ σ' := by
  have hedits : ∀ {τ}, ReflTransGen (Edit hash) σ τ → ReflTransGen (Move hash) σ τ :=
    fun h => ReflTransGen.mono (fun _ _ => Or.inr) _ _ h
  cases exec_outcome hl h with
  | present hk => exact hedits (.single (put_edit hk _))
  | idle => exact .refl
  | @fresh k op v σ₁ hk hv hev =>
    obtain ⟨hg, hsw, hreg⟩ := fresh_moves (v := v) hl hk hev
    have hsw' : ReflTransGen (Move hash) (σ.ghostCheck (hash k)).2 σ₁ :=
      ReflTransGen.mono (fun _ _ => Or.inl) _ _ hsw
    have hfirst : Move hash σ (σ.ghostCheck (hash k)).2 := Or.inr hg
    exact (hsw'.head hfirst).tail (Or.inr hreg)
  | retain f n => exact hedits (retain_edits σ f n)
  | alterAll f n => exact hedits (retain_edits σ _ n)
  | clearAll => exact hedits (.single .clear)

theorem Move.linked (h : Move hash σ σ') (hl : Linked hash σ) : Linked hash σ' :=
  h.elim (fun hs => hs.linked hl) fun he => he.linked hl

/-- 一つの変化が保つ性質は、変化の列でも保たれる。 -/
theorem moves_preserve {P : ShardData K V → Prop}
    (step : ∀ σ σ', Linked hash σ → P σ → Move hash σ σ' → P σ')
    (h : ReflTransGen (Move hash) σ σ') (hl : Linked hash σ) (hp : P σ) :
    Linked hash σ' ∧ P σ' :=
  star_preserves (P := fun σ => Linked hash σ ∧ P σ)
    (fun _ _ ⟨hl, hp⟩ hstep => ⟨hstep.linked hl, step _ _ hl hp hstep⟩) h ⟨hl, hp⟩

namespace ShardReachable

variable {cap : Nat}

/-- 空の shard で成り立ち、一つの変化が保つ性質は、到達可能な状態すべてで成り立つ。 -/
theorem invariant {P : ShardData K V → Prop} (init : P (.new cap))
    (step : ∀ σ σ', Linked hash σ → P σ → Move hash σ σ' → P σ')
    (h : ShardReachable hash cap σ) : Linked hash σ ∧ P σ := by
  refine Lts.Reachable.invariant (P := fun σ => Linked hash σ ∧ P σ) ?_ ?_ h
  · rintro _ rfl
    exact ⟨linked_new cap, init⟩
  · rintro s op s' _ ⟨hl, hp⟩ ⟨r, hr⟩
    exact moves_preserve step (exec_moves hl hr) hl hp

theorem linked (h : ShardReachable hash cap σ) : Linked hash σ :=
  (h.invariant (P := fun _ => True) trivial fun _ _ _ _ _ => trivial).1

end ShardReachable

end Neocache
