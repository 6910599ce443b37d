import Neocache.Properties.Refinement
import Neocache.Shard.Paths

/-!
# 挿入の経路と除去の経路は取り替えられる

同じ key と値を入れる呼び出しは、どの経路でも cache を同じ状態にする。
表の値、loc、freq、二本の queue、ghost set、counter まで全部が一致する。除く呼び出しも同じである。

各経路は source の文を書き下したもの（`Neocache/Shard/Paths.lean`）で実行し、
まとめた操作との一致を通して比べる。一回の呼び出しで状態が一致するので、
どんな実行の途中でも、呼び出しを同じ組の別のものに取り替えてよい（`paths_interchangeable`）。
-/

namespace Neocache

open Infra Relation ShardData

variable {K V : Type*}

/-! ## 呼び出し -/

/-- `entry` や `try_entry` で得た entry の使い方。guard は受け取った直後に放す。 -/
inductive EntryUse (V : Type*) where
  | insert (v : V)
  | insertEntry (v : V)
  | orInsert (v : V)

/-- cache への呼び出し。比べる経路は一つずつ名前を付け、残りは `other` に含める。 -/
inductive Call (K V : Type*) where
  | insert (k : K) (v : V)
  | entry (k : K) (use : EntryUse V)
  | tryEntry (busy : Bool) (k : K) (use : EntryUse V)
  | remove (k : K)
  | removeIf (k : K) (f : K → V → Bool)
  | removeIfMut (k : K) (f : K → V → Bool × V)
  | occupiedRemove (k : K)
  | occupiedRemoveEntry (k : K)
  | retain (f : Nat → K → V → Bool × V)
  | other (op : CacheOp K V)

variable [DecidableEq K]

/-- entry を使い、guard を放した後の shard。 -/
def EntryUse.apply (use : EntryUse V) (e : Entry K V) : Except Fault (ShardData K V) :=
  match use with
  | .insert v => (Written.entryInsert e v).map RefMut.shard
  | .insertEntry v => (Written.entryInsertEntry e v).map OccupiedEntry.shard
  | .orInsert v => (Written.entryOrInsert e v).map RefMut.shard

/-- key の shard を選び、その上で本体を行う。 -/
def NeoCache.onKey (w : Word) (c : NeoCache K V) (k : K)
    (body : UInt64 → ShardData K V → Except Fault (ShardData K V)) : Except Fault (NeoCache K V) :=
  match c.shardIndex w k with
  | .error f => .error f
  | .ok i =>
    match c.shards[i]? with
    | none => .error .assertion
    | some σ => (body (c.hasher k) σ).map fun σ' => { c with shards := c.shards.set i σ' }

/-- 埋まっている entry だけを除く。 -/
def onOccupiedEntry (f : OccupiedEntry K V → ShardData K V) (e : Entry K V) : ShardData K V :=
  match e with
  | .occupied e => f e
  | .vacant e => e.shard

/-- 呼び出しの後の cache。 -/
def Call.exec (w : Word) (c : NeoCache K V) : Call K V → Except Fault (NeoCache K V)
  | .insert k v => c.onKey w k fun h σ => (Written.insert σ h k v).map Prod.snd
  | .entry k use => c.onKey w k fun h σ => use.apply (σ.entry h k)
  | .tryEntry busy k use => (c.tryEntry w busy k use.apply).map Prod.snd
  | .remove k => c.onKey w k fun h σ => .ok (Written.remove σ h k).2
  | .removeIf k f => c.onKey w k fun h σ => .ok (Written.removeIf σ h k f).2
  | .removeIfMut k f => c.onKey w k fun h σ => .ok (Written.removeIfMut σ h k f).2
  | .occupiedRemove k => c.onKey w k fun h σ =>
      .ok (onOccupiedEntry (fun e => (Written.occupiedRemove e).2) (σ.entry h k))
  | .occupiedRemoveEntry k => c.onKey w k fun h σ =>
      .ok (onOccupiedEntry (fun e => (Written.occupiedRemoveEntry e).2) (σ.entry h k))
  | .retain f =>
    .ok { c with shards := (NeoCache.visitShards (fun n σ => Written.retain σ f n) 0 c.shards).2 }
  | .other op => (c.exec w op).map Prod.snd

/-- 呼び出しを順に行った後の cache。 -/
def runCalls (w : Word) : List (Call K V) → NeoCache K V → Except Fault (NeoCache K V)
  | [], c => .ok c
  | x :: xs, c =>
    match x.exec w c with
    | .error f => .error f
    | .ok c' => runCalls w xs c'

/-! ## まとめた操作との一致 -/

/-- 呼び出しにあたる cache の操作。lock が取れなかった `try_entry` は何もしない。 -/
def Call.op : Call K V → Option (CacheOp K V)
  | .insert k v => some (.key k (.insert v))
  | .entry k (.insert v) | .tryEntry false k (.insert v) => some (.key k (.entryInsert v))
  | .entry k (.insertEntry v) | .tryEntry false k (.insertEntry v) => some (.key k (.insertEntry v))
  | .entry k (.orInsert v) | .tryEntry false k (.orInsert v) => some (.key k (.orInsert v))
  | .tryEntry true _ _ => none
  | .remove k => some (.key k .remove)
  | .removeIf k f => some (.key k (.removeIf f))
  | .removeIfMut k f => some (.key k (.removeIfMut f))
  | .occupiedRemove k => some (.key k .occupiedRemove)
  | .occupiedRemoveEntry k => some (.key k .occupiedRemoveEntry)
  | .retain f => some (.retain f)
  | .other op => some op

section

variable {w : Word} {c c' : NeoCache K V}

theorem onKey_eq {k : K} (op : KeyOp K V)
    {body : UInt64 → ShardData K V → Except Fault (ShardData K V)}
    (h : ∀ h σ, body h σ = (op.exec h k σ).map Prod.snd) :
    c.onKey w k body = (c.exec w (.key k op)).map Prod.snd := by
  unfold NeoCache.onKey NeoCache.exec NeoCache.keyOp NeoCache.onShard
  cases hi : c.shardIndex w k with
  | error f => simp only [hi]; rfl
  | ok i =>
    cases hσ : c.shards[i]? with
    | none => simp only [hi, hσ]; rfl
    | some σ =>
      simp only [hi, hσ, h, ShardOp.exec]
      cases op.exec (c.hasher k) k σ <;> rfl

theorem EntryUse.apply_insert (e : Entry K V) (v : V) :
    (EntryUse.insert v).apply e = (e.insert v).map RefMut.shard := by
  unfold EntryUse.apply
  simp only [Written.entryInsert_eq]

theorem EntryUse.apply_insertEntry (e : Entry K V) (v : V) :
    (EntryUse.insertEntry v).apply e = (e.insertEntry v).map OccupiedEntry.shard := by
  unfold EntryUse.apply
  simp only [Written.entryInsertEntry_eq]

theorem EntryUse.apply_orInsert (e : Entry K V) (v : V) :
    (EntryUse.orInsert v).apply e = (e.orInsert v).map RefMut.shard := by
  unfold EntryUse.apply
  simp only [Written.entryOrInsert_eq]

theorem tryEntry_free {k : K} (use : Entry K V → Except Fault (ShardData K V)) :
    (c.tryEntry w false k use).map Prod.snd = c.onKey w k fun h σ => use (σ.entry h k) := by
  unfold NeoCache.tryEntry NeoCache.onKey
  rw [if_neg (by simp)]
  cases hi : c.shardIndex w k with
  | error f => rfl
  | ok i =>
    cases hσ : c.shards[i]? with
    | none => simp only [hσ]; rfl
    | some σ =>
      simp only [hσ]
      cases use (σ.entry (c.hasher k) k) <;> rfl

/-- 呼び出しは、まとめた操作を一つ行うか、何もしない。 -/
theorem Call.exec_eq (x : Call K V) :
    x.exec w c = match x.op with
      | some op => (c.exec w op).map Prod.snd
      | none => .ok c := by
  have huse : ∀ k (use : EntryUse V), c.onKey w k (fun h σ => use.apply (σ.entry h k))
      = match (Call.entry k use).op with
        | some op => (c.exec w op).map Prod.snd
        | none => .ok c := by
    intro k use
    cases use with
    | insert v =>
      refine onKey_eq (.entryInsert v) fun h σ => ?_
      rw [EntryUse.apply_insert]
      show _ = (((σ.entry h k).insert v).map _).map _
      cases (σ.entry h k).insert v <;> rfl
    | insertEntry v =>
      refine onKey_eq (.insertEntry v) fun h σ => ?_
      rw [EntryUse.apply_insertEntry]
      show _ = (((σ.entry h k).insertEntry v).map _).map _
      cases (σ.entry h k).insertEntry v <;> rfl
    | orInsert v =>
      refine onKey_eq (.orInsert v) fun h σ => ?_
      rw [EntryUse.apply_orInsert]
      show _ = (((σ.entry h k).orInsert v).map _).map _
      cases (σ.entry h k).orInsert v <;> rfl
  cases x with
  | insert k v => exact onKey_eq (.insert v) fun h σ => Written.insert_eq σ h k v
  | entry k use => exact huse k use
  | tryEntry busy k use =>
    cases busy with
    | true => rfl
    | false =>
      show (c.tryEntry w false k use.apply).map Prod.snd = _
      rw [tryEntry_free, huse]
      cases use <;> rfl
  | remove k =>
    exact onKey_eq .remove fun h σ => congrArg Except.ok (Written.remove_eq σ h k)
  | removeIf k f =>
    exact onKey_eq (.removeIf f) fun h σ => congrArg Except.ok (Written.removeIf_eq σ h k f)
  | removeIfMut k f =>
    exact onKey_eq (.removeIfMut f) fun h σ =>
      congrArg Except.ok (Written.removeIfMut_eq σ h k f)
  | occupiedRemove k =>
    simp only [Call.exec, Call.op]
    refine onKey_eq .occupiedRemove ?_
    intro h σ
    show Except.ok (onOccupiedEntry _ (σ.entry h k))
      = Except.ok (KeyOp.onOccupied (σ.entry h k) _).2
    cases σ.entry h k with
    | occupied e => exact congrArg (fun p => Except.ok p.2) (Written.occupiedRemove_eq e)
    | vacant e => rfl
  | occupiedRemoveEntry k =>
    simp only [Call.exec, Call.op]
    refine onKey_eq .occupiedRemoveEntry ?_
    intro h σ
    show Except.ok (onOccupiedEntry _ (σ.entry h k))
      = Except.ok (KeyOp.onOccupied (σ.entry h k) _).2
    cases σ.entry h k with
    | occupied e => exact congrArg (fun p => Except.ok p.2) (Written.occupiedRemoveEntry_eq e)
    | vacant e => rfl
  | retain f =>
    show Except.ok _ = (c.exec w (.retain f)).map Prod.snd
    simp only [Written.retain_eq]
    rfl
  | other op => rfl

/-! ## 状態の一致 -/

/-- 表にあるときの結果と、無いときに入れる値が同じ二つの操作は、shard を同じ状態にする。 -/
theorem exec_state_congr {hash : K → UInt64} {σ : ShardData K V} {k : K} {op op' : KeyOp K V}
    (hl : Linked hash σ)
    (hp : ∀ e, σ.map.get? k = some e → (op.onPresent k e).2 = (op'.onPresent k e).2)
    (hn : σ.map.get? k = none → op.newValue = op'.newValue) :
    (op.exec (hash k) k σ).map Prod.snd = (op'.exec (hash k) k σ).map Prod.snd := by
  cases hk : σ.map.get? k with
  | some e =>
    rw [exec_present hl hk, exec_present hl hk]
    show Except.ok (σ.put k e (op.onPresent k e).2) = Except.ok (σ.put k e (op'.onPresent k e).2)
    rw [hp e hk]
  | none =>
    rw [exec_absent hl hk, exec_absent hl hk, hn hk]
    cases op'.newValue with
    | none => rfl
    | some v =>
      show ((σ.insertVacant (hash k) k v).map _).map _ = ((σ.insertVacant (hash k) k v).map _).map _
      cases σ.insertVacant (hash k) k v <;> rfl

variable {cap requested : Nat} {hasher : K → UInt64}

section

variable {l : NeoCache.Layout} (hl : NeoCache.layout w cap requested = .ok l)

include hl

theorem key_state_congr {k : K} {op op' : KeyOp K V} (hr : CacheReachable w cap hasher requested c)
    (hp : ∀ e, (op.onPresent k e).2 = (op'.onPresent k e).2 ∨ c.contents k = none)
    (hn : op.newValue = op'.newValue) :
    (c.exec w (.key k op)).map Prod.snd = (c.exec w (.key k op')).map Prod.snd := by
  have hc := hr.laid hl
  show ((c.keyOp w k op).map _).map _ = ((c.keyOp w k op').map _).map _
  unfold NeoCache.keyOp NeoCache.onShard
  cases hi : c.shardIndex w k with
  | error f => rfl
  | ok i =>
    cases hσ : c.shards[i]? with
    | none => simp only [hσ]
    | some σ =>
      have hcontents := (hr.routed hl).contents_eq hi hσ
      have hstate : (op.exec (c.hasher k) k σ).map Prod.snd
          = (op'.exec (c.hasher k) k σ).map Prod.snd := by
        rw [hc.hasher_eq]
        refine exec_state_congr (hc.shards i σ hσ).linked ?_ fun _ => hn
        intro e he
        rcases hp e with hp | hnone
        · exact hp
        · rw [hcontents, lookup_eq_none, he] at hnone
          cases hnone
      simp only [hσ, ShardOp.exec]
      cases ho : op.exec (c.hasher k) k σ with
      | error f =>
        rw [ho] at hstate
        cases ho' : op'.exec (c.hasher k) k σ with
        | error f' => rw [ho'] at hstate; cases hstate; rfl
        | ok p => rw [ho'] at hstate; cases hstate
      | ok p =>
        rw [ho] at hstate
        cases ho' : op'.exec (c.hasher k) k σ with
        | error f' => rw [ho'] at hstate; cases hstate
        | ok p' =>
          rw [ho'] at hstate
          have hsnd : p.2 = p'.2 := Except.ok.inj hstate
          show Except.ok { c with shards := c.shards.set i p.2 }
            = Except.ok { c with shards := c.shards.set i p'.2 }
          rw [hsnd]

end

/-! ## 一つの key だけを除く `retain` -/

/-- その key 以外を、値を変えずに残す述語。 -/
def keepOthers (k : K) (_ : Nat) (k' : K) (v : V) : Bool × V := (k' ≠ k, v)

theorem retainSlots_keepOthers (k : K) :
    ∀ (n : Nat) (l : List (Slot UInt64 K (CacheEntry V))),
      retainSlots (keepOthers k) n l = l.filter fun s => s.key ≠ k
  | _, [] => rfl
  | n, s :: l => by
    unfold retainSlots
    rw [retainSlots_keepOthers k (n + 1) l]
    by_cases hs : s.key = k <;> simp [keepOthers, hs]

theorem dropped_keepOthers {k : K} (loc : Loc) :
    ∀ (n : Nat) (l : List (Slot UInt64 K (CacheEntry V))),
      dropped (keepOthers k) loc n l
        = ((l.filter fun s => s.key = k).map fun s => locWeight loc s.val).sum
  | _, [] => rfl
  | n, s :: l => by
    unfold dropped
    rw [dropped_keepOthers loc (n + 1) l]
    by_cases hs : s.key = k
    · simp [keepOthers, hs, locWeight]
    · simp [keepOthers, hs]

/-- 表にその key があれば、除いたものの loc の重みはその entry の重みである。 -/
theorem dropped_keepOthers_get? {σ : ShardData K V} {k : K} (loc : Loc) (n : Nat) :
    dropped (keepOthers k) loc n σ.map.slots
      = ((σ.map.get? k).map (locWeight loc)).getD 0 := by
  rw [dropped_keepOthers]
  cases hk : σ.map.get? k with
  | none =>
    have hnil : σ.map.slots.filter (fun s => s.key = k) = [] := by
      rw [List.filter_eq_nil_iff]
      intro s hs hkey
      have hget := Table.get?_of_mem hs
      rw [of_decide_eq_true hkey, hk] at hget
      cases hget
    rw [hnil]
    rfl
  | some e =>
    obtain ⟨s, hs, rfl, rfl⟩ := Table.get?_eq_some.mp hk
    -- key は重複しないので、残るのはその slot 一つである
    have hnd : (σ.map.slots.filter fun s' => s'.key = s.key).Nodup :=
      σ.map.nodup.of_map.sublist List.filter_sublist
    have hperm : (σ.map.slots.filter fun s' => s'.key = s.key).Perm [s] := by
      refine (List.perm_ext_iff_of_nodup hnd (List.nodup_singleton s)).mpr ?_
      intro s'
      rw [List.mem_filter, List.mem_singleton, decide_eq_true_eq]
      constructor
      · rintro ⟨hs', hkey⟩
        exact Table.mem_unique hs' hs hkey
      · rintro rfl
        exact ⟨hs, rfl⟩
    rw [List.perm_singleton.mp hperm]
    simp

/-- その key だけを除く `retain` は、key があればその除去であり、無ければ何もしない。 -/
theorem retain_keepOthers (σ : ShardData K V) (k : K) (n : Nat) :
    (σ.retain (keepOthers k) n).2 =
      match σ.map.get? k with
      | some e => σ.unlink k e.loc
      | none => σ := by
  obtain ⟨hslots, heq⟩ := retain_spec σ (keepOthers k) n
  rw [retainSlots_keepOthers] at hslots
  have hmap : (σ.retain (keepOthers k) n).2.map = σ.map.remove k := Table.ext hslots
  rw [dropped_keepOthers_get?, dropped_keepOthers_get?, hmap] at heq
  rw [heq]
  cases hk : σ.map.get? k with
  | none =>
    rw [Table.remove_of_not_mem hk]
    rfl
  | some e => cases hloc : e.loc <;> simp [unlink, locWeight, hloc]

omit [DecidableEq K] in
theorem visitShards_map {visit : Nat → ShardData K V → Nat × ShardData K V}
    {g : ShardData K V → ShardData K V} (h : ∀ n σ, (visit n σ).2 = g σ) :
    ∀ (n : Nat) (l : List (ShardData K V)), (NeoCache.visitShards visit n l).2 = l.map g
  | _, [] => rfl
  | n, σ :: l => by
    rw [NeoCache.visitShards, List.map_cons, h, visitShards_map h]

section

variable {l : NeoCache.Layout} (hsize : cap < w.size) (hreq : NeoCache.Accepted w requested)
  (hl : NeoCache.layout w cap requested = .ok l)

include hsize hreq hl

/-- その key だけを除く `retain` は、その key の `remove` と同じ状態にする。 -/
theorem retain_eq_remove (hr : CacheReachable w cap hasher requested c) (k : K) :
    (c.exec w (.retain (keepOthers k))).map Prod.snd = (c.exec w (.key k .remove)).map Prod.snd := by
  obtain ⟨i, σ, hi, hσ⟩ := hr.home hsize hreq hl k
  have hc := hr.laid hl
  have hlinked := (hc.shards i σ hσ).linked
  have hremove : (KeyOp.remove : KeyOp K V).exec (c.hasher k) k σ
      = .ok ((σ.remove (c.hasher k) k).1, match σ.map.get? k with
        | some e => σ.unlink k e.loc
        | none => σ) := by
    have hfind : σ.map.find (c.hasher k) k = σ.map.get? k := by
      rw [hc.hasher_eq]
      exact hlinked.find k
    show Except.ok (σ.remove (c.hasher k) k) = _
    unfold ShardData.remove
    rw [hfind]
    cases σ.map.get? k <;> rfl
  have hkey : (c.exec w (.key k .remove)).map Prod.snd
      = .ok { c with shards := c.shards.set i (match σ.map.get? k with
        | some e => σ.unlink k e.loc
        | none => σ) } := by
    show ((c.keyOp w k .remove).map _).map _ = _
    rw [keyOp_ok hi hσ hremove]
    rfl
  rw [hkey]
  show Except.ok (c.retain (keepOthers k)) = _
  unfold NeoCache.retain
  rw [visitShards_map fun n σ => retain_keepOthers σ k n]
  congr 2
  -- hash が選ぶ番号以外の shard には、その key が無い
  refine List.ext_getElem? ?_
  intro j
  rw [List.getElem?_map, List.getElem?_set]
  have hlt := (List.getElem?_eq_some_iff.mp hσ).1
  by_cases hij : i = j
  · subst hij
    rw [hσ]
    simp [hlt]
  · rw [if_neg hij]
    cases hτ : c.shards[j]? with
    | none => rfl
    | some τ =>
      have hnone : τ.map.get? k = none := by
        rw [← lookup_eq_none]
        by_contra hne
        have hj := hr.routed hl j τ hτ k hne
        rw [hi] at hj
        exact hij (Except.ok.inj hj)
      simp [hnone]

end

/-! ## 組 -/

/-- 値を入れる呼び出しの組。`try_entry` は lock が空いている場合である。 -/
inductive Inserts (k : K) (v : V) : Call K V → Prop
  | insert : Inserts k v (.insert k v)
  | entryInsert : Inserts k v (.entry k (.insert v))
  | entryInsertEntry : Inserts k v (.entry k (.insertEntry v))
  | tryEntryInsert : Inserts k v (.tryEntry false k (.insert v))
  | tryEntryInsertEntry : Inserts k v (.tryEntry false k (.insertEntry v))

/-- key が無いときだけ値を入れる呼び出しの組。 -/
inductive OrInserts (k : K) (v : V) : Call K V → Prop
  | entryOrInsert : OrInserts k v (.entry k (.orInsert v))
  | tryEntryOrInsert : OrInserts k v (.tryEntry false k (.orInsert v))

/-- 除く呼び出しの組。 -/
inductive Removes (k : K) : Call K V → Prop
  | remove : Removes k (.remove k)
  | removeIf : Removes k (.removeIf k fun _ _ => true)
  | removeIfMut : Removes k (.removeIfMut k fun _ v => (true, v))
  | occupiedRemove : Removes k (.occupiedRemove k)
  | occupiedRemoveEntry : Removes k (.occupiedRemoveEntry k)
  | retain : Removes k (.retain (keepOthers k))

/-- その状態で取り替えられる二つの呼び出し。 -/
inductive SameGroup (c : NeoCache K V) : Call K V → Call K V → Prop
  | inserts {k : K} {v : V} {x y : Call K V} (hx : Inserts k v x) (hy : Inserts k v y) :
      SameGroup c x y
  | insertsAbsent {k : K} {v : V} {x y : Call K V} (hk : c.contents k = none)
      (hx : Inserts k v x ∨ OrInserts k v x) (hy : Inserts k v y ∨ OrInserts k v y) :
      SameGroup c x y
  | removes {k : K} {x y : Call K V} (hx : Removes k x) (hy : Removes k y) : SameGroup c x y

section

variable {l : NeoCache.Layout} (hsize : cap < w.size) (hreq : NeoCache.Accepted w requested)
  (hl : NeoCache.layout w cap requested = .ok l)

include hl

theorem Inserts.exec_eq {k : K} {v : V} {x : Call K V} (hx : Inserts k v x)
    (hr : CacheReachable w cap hasher requested c) :
    x.exec w c = (c.exec w (.key k (.insert v))).map Prod.snd := by
  rw [Call.exec_eq]
  cases hx with
  | insert => rfl
  | entryInsert => exact key_state_congr hl hr (fun _ => Or.inl rfl) rfl
  | entryInsertEntry => exact key_state_congr hl hr (fun _ => Or.inl rfl) rfl
  | tryEntryInsert => exact key_state_congr hl hr (fun _ => Or.inl rfl) rfl
  | tryEntryInsertEntry => exact key_state_congr hl hr (fun _ => Or.inl rfl) rfl

theorem OrInserts.exec_eq {k : K} {v : V} {x : Call K V} (hx : OrInserts k v x)
    (hr : CacheReachable w cap hasher requested c) (hk : c.contents k = none) :
    x.exec w c = (c.exec w (.key k (.insert v))).map Prod.snd := by
  rw [Call.exec_eq]
  cases hx with
  | entryOrInsert => exact key_state_congr hl hr (fun _ => Or.inr hk) rfl
  | tryEntryOrInsert => exact key_state_congr hl hr (fun _ => Or.inr hk) rfl

include hsize hreq

theorem Removes.exec_eq {k : K} {x : Call K V} (hx : Removes k x)
    (hr : CacheReachable w cap hasher requested c) :
    x.exec w c = (c.exec w (.key k .remove)).map Prod.snd := by
  rw [Call.exec_eq]
  cases hx with
  | remove => rfl
  | removeIf => exact key_state_congr hl hr (fun _ => Or.inl rfl) rfl
  | removeIfMut => exact key_state_congr hl hr (fun _ => Or.inl rfl) rfl
  | occupiedRemove => exact key_state_congr hl hr (fun _ => Or.inl rfl) rfl
  | occupiedRemoveEntry => exact key_state_congr hl hr (fun _ => Or.inl rfl) rfl
  | retain => exact retain_eq_remove hsize hreq hl hr k

/-- 到達可能な cache では、key の操作は失敗しない。 -/
theorem key_exec_ok (hr : CacheReachable w cap hasher requested c) (k : K) (op : KeyOp K V) :
    ∃ c', (c.exec w (.key k op)).map Prod.snd = .ok c' := by
  obtain ⟨r, c', hop, -⟩ := keyOp_refines hsize hreq hl hr k op
  refine ⟨c', ?_⟩
  show ((c.keyOp w k op).map _).map _ = _
  rw [hop]
  rfl

theorem SameGroup.exec_eq {x y : Call K V} (h : SameGroup c x y)
    (hr : CacheReachable w cap hasher requested c) : x.exec w c = y.exec w c := by
  cases h with
  | inserts hx hy => rw [hx.exec_eq hl hr, hy.exec_eq hl hr]
  | @insertsAbsent k v _ _ hk hx hy =>
    have hone : ∀ {z}, Inserts k v z ∨ OrInserts k v z →
        z.exec w c = (c.exec w (.key k (.insert v))).map Prod.snd := by
      rintro z (hz | hz)
      · exact hz.exec_eq hl hr
      · exact hz.exec_eq hl hr hk
    rw [hone hx, hone hy]
  | removes hx hy => rw [hx.exec_eq hsize hreq hl hr, hy.exec_eq hsize hreq hl hr]

omit hsize hreq in
theorem Call.reachable {x : Call K V} (hr : CacheReachable w cap hasher requested c)
    (h : x.exec w c = .ok c') : CacheReachable w cap hasher requested c' := by
  rw [Call.exec_eq] at h
  cases hop : x.op with
  | none => rw [hop] at h; cases h; exact hr
  | some op =>
    rw [hop] at h
    change (c.exec w op).map Prod.snd = _ at h
    cases he : c.exec w op with
    | error f => rw [he] at h; cases h
    | ok p =>
      rw [he] at h
      cases h
      exact hr.exec hl he

/-- 途中の呼び出しを、その時点で取り替えられる別のものに替えても、最後の状態は変わらない。 -/
theorem runCalls_replace {x y : Call K V} (post : List (Call K V)) :
    ∀ (pre : List (Call K V)) {c : NeoCache K V}, CacheReachable w cap hasher requested c →
      (∀ c₁, runCalls w pre c = .ok c₁ → SameGroup c₁ x y) →
      runCalls w (pre ++ x :: post) c = runCalls w (pre ++ y :: post) c
  | [], c, hr, hg => by
    show runCalls w (x :: post) c = runCalls w (y :: post) c
    rw [runCalls, runCalls, (hg c rfl).exec_eq hsize hreq hl hr]
  | z :: pre, c, hr, hg => by
    show runCalls w (z :: (pre ++ x :: post)) c = runCalls w (z :: (pre ++ y :: post)) c
    rw [runCalls, runCalls]
    cases hz : z.exec w c with
    | error f => rfl
    | ok c₁ =>
      refine runCalls_replace post pre (Call.reachable hl hr hz) ?_
      intro c₂ hc₂
      refine hg c₂ ?_
      rw [runCalls, hz]
      exact hc₂

end

/--
挿入の経路どうし、除去の経路どうしは、どの到達可能な cache でも同じ状態にする。

key が無ければ `or_insert` も挿入の経路に加わる。
したがって、どの実行の途中の呼び出しも、同じ組の別の呼び出しに取り替えてよい。
-/
theorem paths_interchangeable (hsize : cap < w.size) (hreq : NeoCache.Accepted w requested)
    (hr : CacheReachable w cap hasher requested c) :
    (∀ k v, ∃ c', ∀ x, Inserts k v x → x.exec w c = .ok c') ∧
    (∀ k v, c.contents k = none →
      ∃ c', ∀ x, Inserts k v x ∨ OrInserts k v x → x.exec w c = .ok c') ∧
    (∀ k, ∃ c', ∀ x, Removes k x → x.exec w c = .ok c') ∧
    ∀ (pre post : List (Call K V)) (x y : Call K V),
      (∀ c₁, runCalls w pre c = .ok c₁ → SameGroup c₁ x y) →
      runCalls w (pre ++ x :: post) c = runCalls w (pre ++ y :: post) c := by
  obtain ⟨i, -, -, hl⟩ := NeoCache.layout_ok hsize hreq
  refine ⟨?_, ?_, ?_, ?_⟩
  · intro k v
    obtain ⟨c', hc'⟩ := key_exec_ok hsize hreq hl hr k (.insert v)
    exact ⟨c', fun x hx => (hx.exec_eq hl hr).trans hc'⟩
  · intro k v hk
    obtain ⟨c', hc'⟩ := key_exec_ok hsize hreq hl hr k (.insert v)
    refine ⟨c', ?_⟩
    rintro x (hx | hx)
    · exact (hx.exec_eq hl hr).trans hc'
    · exact (hx.exec_eq hl hr hk).trans hc'
  · intro k
    obtain ⟨c', hc'⟩ := key_exec_ok hsize hreq hl hr k .remove
    exact ⟨c', fun x hx => (hx.exec_eq hsize hreq hl hr).trans hc'⟩
  · intro pre post x y hg
    exact runCalls_replace hsize hreq hl post pre hr hg

end

/-- 64 bit で shard 2 個の cache に一つ入れてから、除く経路を取り替える。 -/
theorem paths_interchangeable_afterInsert :
    runCalls ⟨64, by decide⟩ [.insert 0 7, .remove 0, .insert 1 8]
        (⟨63, [.new 2, .new 2], UInt64.ofNat, 4⟩ : NeoCache Nat Nat)
      = runCalls ⟨64, by decide⟩ [.insert 0 7, .retain (keepOthers 0), .insert 1 8]
        ⟨63, [.new 2, .new 2], UInt64.ofNat, 4⟩ := by
  have hnew : NeoCache.withCapacityAndHasherAndShardAmount ⟨64, by decide⟩ 4 UInt64.ofNat 2
      = .ok (⟨63, [.new 2, .new 2], UInt64.ofNat, 4⟩ : NeoCache Nat Nat) := rfl
  have hr : CacheReachable ⟨64, by decide⟩ 4 UInt64.ofNat 2
      (⟨63, [.new 2, .new 2], UInt64.ofNat, 4⟩ : NeoCache Nat Nat) := .init hnew
  exact (paths_interchangeable (by decide) (by decide) hr).2.2.2 [.insert 0 7] [.insert 1 8]
    (.remove 0) (.retain (keepOthers 0)) fun c₁ _ => .removes .remove .retain

end Neocache
