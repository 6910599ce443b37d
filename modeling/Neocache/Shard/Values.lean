import Neocache.Infra.TableMap
import Neocache.Shard.Exec

/-!
# 値の写像

shard の値だけを写す `ShardData.mapValues` と、値を写した shard での操作の対応。
`src/shard.rs` の `Clone` は、値を `V` の `clone` で写して他をそのまま写すので、この形である。

追い出しは freq と loc と queue だけを見て決まり、値を見ない。したがって、値を写してから操作しても、
操作してから値を写しても同じになる。closure を受け取る操作では、二つの closure が写像と両立することを
`KeyOp.Maps` で求める。
-/

namespace Neocache

open Infra ShardData

variable {K V W : Type*}

def CacheEntry.mapValue (g : V → W) (e : CacheEntry V) : CacheEntry W where
  value := g e.value
  freq := e.freq
  loc := e.loc

@[simp] theorem CacheEntry.mapValue_value (g : V → W) (e : CacheEntry V) :
    (e.mapValue g).value = g e.value := rfl

@[simp] theorem CacheEntry.mapValue_loc (g : V → W) (e : CacheEntry V) :
    (e.mapValue g).loc = e.loc := rfl

def ShardData.mapValues (g : V → W) (σ : ShardData K V) : ShardData K W where
  map := σ.map.mapVal (·.mapValue g)
  smallHashes := σ.smallHashes
  smallKeys := σ.smallKeys
  mainHashes := σ.mainHashes
  mainKeys := σ.mainKeys
  ghostSet := σ.ghostSet
  smallLive := σ.smallLive
  mainLive := σ.mainLive
  shardCap := σ.shardCap
  smallCap := σ.smallCap
  mainCap := σ.mainCap
  ghostCap := σ.ghostCap

def Ret.mapValue (g : V → W) : Ret K V → Ret K W
  | .unit => .unit
  | .value v => .value (v.map g)
  | .pair p => .pair (p.map fun p => (p.1, g p.2))
  | .err => .err

/-- 値の写像と両立する二つの操作。 -/
inductive KeyOp.Maps (g : V → W) : KeyOp K V → KeyOp K W → Prop
  | insert (v : V) : Maps g (.insert v) (.insert (g v))
  | entryInsert (v : V) : Maps g (.entryInsert v) (.entryInsert (g v))
  | insertEntry (v : V) : Maps g (.insertEntry v) (.insertEntry (g v))
  | orDefault (v : V) : Maps g (.orDefault v) (.orDefault (g v))
  | orInsert (v : V) : Maps g (.orInsert v) (.orInsert (g v))
  | orInsertWith {f : Unit → V} {f' : Unit → W} (h : f' () = g (f ())) :
      Maps g (.orInsertWith f) (.orInsertWith f')
  | orTryInsertWith {f : Unit → Option V} {f' : Unit → Option W} (h : f' () = (f ()).map g) :
      Maps g (.orTryInsertWith f) (.orTryInsertWith f')
  | andModify {f : V → V} {f' : W → W} (h : ∀ v, f' (g v) = g (f v)) :
      Maps g (.andModify f) (.andModify f')
  | occupiedInsert (v : V) : Maps g (.occupiedInsert v) (.occupiedInsert (g v))
  | replaceEntry (v : V) : Maps g (.replaceEntry v) (.replaceEntry (g v))
  | get : Maps g .get .get
  | getMut {f : K → V → V} {f' : K → W → W} (h : ∀ k v, f' k (g v) = g (f k v)) :
      Maps g (.getMut f) (.getMut f')
  | remove : Maps g .remove .remove
  | removeIf {f : K → V → Bool} {f' : K → W → Bool} (h : ∀ k v, f' k (g v) = f k v) :
      Maps g (.removeIf f) (.removeIf f')
  | removeIfMut {f : K → V → Bool × V} {f' : K → W → Bool × W}
      (h : ∀ k v, f' k (g v) = ((f k v).1, g (f k v).2)) :
      Maps g (.removeIfMut f) (.removeIfMut f')
  | occupiedRemove : Maps g .occupiedRemove .occupiedRemove
  | occupiedRemoveEntry : Maps g .occupiedRemoveEntry .occupiedRemoveEntry

inductive ShardOp.Maps (g : V → W) : ShardOp K V → ShardOp K W → Prop
  | key (k : K) {op : KeyOp K V} {op' : KeyOp K W} (h : op.Maps g op') :
      Maps g (.key k op) (.key k op')
  | retain {f : Nat → K → V → Bool × V} {f' : Nat → K → W → Bool × W} (n : Nat)
      (h : ∀ n k v, f' n k (g v) = ((f n k v).1, g (f n k v).2)) :
      Maps g (.retain f n) (.retain f' n)
  | alterAll {f : Nat → K → V → V} {f' : Nat → K → W → W} (n : Nat)
      (h : ∀ n k v, f' n k (g v) = g (f n k v)) : Maps g (.alterAll f n) (.alterAll f' n)
  | clearAll : Maps g .clearAll .clearAll

/-! ## 追い出し -/

variable {g : V → W} {σ σ' : ShardData K V} {hash : K → UInt64}

@[simp] theorem mapValues_new (cap : Nat) :
    (ShardData.new cap : ShardData K V).mapValues g = .new cap := rfl

@[simp] theorem mapValues_totalFreq : (σ.mapValues g).totalFreq = σ.totalFreq := by
  simp [totalFreq, mapValues, CacheEntry.mapValue]

@[simp] theorem mapValues_overCap : (σ.mapValues g).overCap = σ.overCap := rfl

variable [DecidableEq K]

/-- 値を写した shard でも、同じ node で止まる。 -/
theorem popLive_mapVal (t : RawTable K V) : ∀ (hs : List UInt64) (ks : List K),
    popLive (t.mapVal (·.mapValue g)) hs ks =
      ((popLive t hs ks).1.map fun p => (p.1, p.2.1, p.2.2.mapValue g), (popLive t hs ks).2)
  | h :: hs, k :: ks => by
    have ih := popLive_mapVal t hs ks
    rw [popLive, popLive, Table.find_mapVal]
    cases t.find h k with
    | some e => rfl
    | none => exact ih
  | [], _ => by
    rw [popLive, popLive]
    · rfl
    · rintro _ _ _ _ h; cases h
    · rintro _ _ _ _ h; cases h
  | _ :: _, [] => by
    rw [popLive, popLive]
    · rfl
    · rintro _ _ _ _ - h; cases h
    · rintro _ _ _ _ - h; cases h

/-- 値を写した shard の計算が、値を写した結果を返す。 -/
def Follows (g : V → W) (x : Except Fault (ShardData K V)) (y : Except Fault (ShardData K W)) :
    Prop :=
  RelExcept (fun σ τ => τ = σ.mapValues g) x y

omit [DecidableEq K] in
theorem Follows.eq {x : Except Fault (ShardData K V)} {y : Except Fault (ShardData K W)}
    (h : Follows g x y) : y = x.map (·.mapValues g) := by
  rcases RelExcept.cases h with ⟨e, rfl, rfl⟩ | ⟨s, t, rfl, rfl, rfl⟩ <;> rfl

theorem evictFromMainBody_follows (σ : ShardData K V) :
    RelExcept (RelFlow (fun σ τ => τ = σ.mapValues g) fun σ τ => τ = σ.mapValues g)
      (evictFromMainBody σ) (evictFromMainBody (σ.mapValues g)) := by
  have hpop := popLive_mapVal (g := g) σ.map σ.mainHashes σ.mainKeys
  unfold evictFromMainBody
  change popLive (σ.mapValues g).map (σ.mapValues g).mainHashes (σ.mapValues g).mainKeys = _ at hpop
  rw [hpop]
  rcases popLive σ.map σ.mainHashes σ.mainKeys with ⟨_ | ⟨h, k, e⟩, hs, ks⟩
  · exact rfl
  · simp only [Option.map_some]
    by_cases hot : 0 < e.freq
    · rw [if_pos hot, if_pos (show 0 < (e.mapValue g).freq from hot)]
      show _ = ShardData.mapValues g _
      unfold mapValues
      simp only
      rw [Table.modify_mapVal]
      intro e
      rfl
    · rw [if_neg hot, if_neg (show ¬ 0 < (e.mapValue g).freq from hot)]
      rw [show (σ.mapValues g).mainLive = σ.mainLive from rfl]
      cases subOne σ.mainLive with
      | error f => exact rfl
      | ok n =>
        show _ = ShardData.mapValues g _
        unfold mapValues
        simp only
        rw [Table.remove_mapVal]

theorem evictFromMain_follows (σ : ShardData K V) :
    Follows g σ.evictFromMain (σ.mapValues g).evictFromMain := by
  unfold evictFromMain
  rw [mapValues_totalFreq]
  refine loop_rel (R := fun σ τ => τ = σ.mapValues g) ?_ _ _ _ rfl
  rintro τ _ rfl
  exact evictFromMainBody_follows τ

theorem evictFromSmall_follows (σ : ShardData K V) :
    Follows g σ.evictFromSmall (σ.mapValues g).evictFromSmall := by
  have hpop := popLive_mapVal (g := g) σ.map σ.smallHashes σ.smallKeys
  unfold evictFromSmall
  change popLive (σ.mapValues g).map (σ.mapValues g).smallHashes (σ.mapValues g).smallKeys = _
    at hpop
  rw [hpop]
  rcases popLive σ.map σ.smallHashes σ.smallKeys with ⟨_ | ⟨h, k, e⟩, hs, ks⟩
  · exact evictFromMain_follows { σ with smallHashes := hs, smallKeys := ks }
  · simp only [Option.map_some]
    rw [show (σ.mapValues g).smallLive = σ.smallLive from rfl]
    cases subOne σ.smallLive with
    | error f => exact rfl
    | ok n =>
      by_cases hot : 0 < e.freq
      · simp only [if_pos hot, if_pos (show 0 < (e.mapValue g).freq from hot)]
        show _ = ShardData.mapValues g _
        unfold mapValues
        simp only
        rw [Table.modify_mapVal]
        intro e
        rfl
      · simp only [if_neg hot, if_neg (show ¬ 0 < (e.mapValue g).freq from hot)]
        show _ = ShardData.mapValues g _
        unfold mapValues addToGhost
        simp only
        rw [Table.remove_mapVal]

theorem evictOne_follows (σ : ShardData K V) :
    Follows g σ.evictOne (σ.mapValues g).evictOne := by
  unfold evictOne
  show Follows g _ (if σ.smallCap ≤ σ.smallLive then _ else _)
  split
  · exact evictFromSmall_follows σ
  · exact evictFromMain_follows σ

theorem evictLoop_follows (σ : ShardData K V) :
    Follows g σ.evictLoop (σ.mapValues g).evictLoop := by
  unfold evictLoop
  show Follows g _ (loop _ _ (σ.evictFuel + 1) _)
  refine loop_rel (R := fun σ τ => τ = σ.mapValues g) ?_ _ _ _ rfl
  rintro τ _ rfl
  unfold whileBody
  rw [mapValues_overCap]
  split
  · rcases RelExcept.cases (evictOne_follows (g := g) τ) with ⟨e, h, h'⟩ | ⟨s, t, h, h', rfl⟩
    · rw [h, h']
      exact rfl
    · rw [h, h']
      exact rfl
  · exact rfl

/-! ## 操作 -/

theorem mapValues_register (h : UInt64) (k : K) (v : V) (loc : Loc) :
    (σ.register h k v loc).mapValues g = (σ.mapValues g).register h k (g v) loc := by
  have hins := Table.insert_mapVal (·.mapValue g) σ.map h k (CacheEntry.new v loc)
  cases loc <;> (unfold register mapValues; simp only; rw [← hins]; rfl)

theorem insertVacant_follows (σ : ShardData K V) (h : UInt64) (k : K) (v : V) :
    Follows g (σ.insertVacant h k v) ((σ.mapValues g).insertVacant h k (g v)) := by
  unfold insertVacant
  have hev := evictLoop_follows (g := g) (σ.ghostCheck h).2
  change Follows g _ ((σ.mapValues g).ghostCheck h).2.evictLoop at hev
  rcases RelExcept.cases hev with ⟨e, he, he'⟩ | ⟨s, t, he, he', rfl⟩
  · rw [he, he']
    exact rfl
  · rw [he, he']
    exact (mapValues_register h k v _).symm

omit [DecidableEq K] in
theorem linked_mapValues (hl : Linked hash σ) : Linked hash (σ.mapValues g) where
  queue loc := by
    have h := hl.queue loc
    cases loc <;> exact h
  table := by
    intro s hs
    obtain ⟨s₀, hs₀, rfl⟩ := List.mem_map.mp hs
    exact hl.table s₀ hs₀

theorem mapValues_put {k : K} {e : CacheEntry V} (o : Option (CacheEntry V)) :
    (σ.put k e o).mapValues g = (σ.mapValues g).put k (e.mapValue g) (o.map (·.mapValue g)) := by
  cases o with
  | some e' =>
    have hmod : (σ.map.mapVal (·.mapValue g)).modify k (fun _ => e'.mapValue g)
        = (σ.map.modify k fun _ => e').mapVal (·.mapValue g) :=
      Table.modify_mapVal _ _ k fun _ => rfl
    show ShardData.mapValues g (σ.updateEntry k _) = (σ.mapValues g).updateEntry k _
    unfold updateEntry mapValues
    simp only
    rw [hmod]
  | none =>
    have hrem := Table.remove_mapVal (·.mapValue g) σ.map k
    show ShardData.mapValues g (σ.unlink k e.loc) = (σ.mapValues g).unlink k e.loc
    cases e.loc <;> (unfold unlink mapValues; simp only; rw [hrem])

omit [DecidableEq K] in
theorem mapValue_bumpFreq (e : CacheEntry V) :
    (e.mapValue g).bumpFreq = e.bumpFreq.mapValue g := by
  unfold CacheEntry.bumpFreq
  show (if e.freq < maxFreq then _ else _) = _
  split <;> rfl

omit [DecidableEq K] in
/-- 両立する操作は、表にある entry に同じことをする。 -/
theorem KeyOp.Maps.onPresent {op : KeyOp K V} {op' : KeyOp K W} (h : op.Maps g op') (k : K)
    (e : CacheEntry V) :
    op'.onPresent k (e.mapValue g) =
      ((op.onPresent k e).1.mapValue g, (op.onPresent k e).2.map (·.mapValue g)) := by
  cases h with
  | removeIf h =>
    simp only [KeyOp.onPresent, CacheEntry.mapValue, h]
    split <;> rfl
  | removeIfMut h =>
    simp only [KeyOp.onPresent, CacheEntry.mapValue, h]
    split <;> rfl
  | get =>
    simp only [KeyOp.onPresent, mapValue_bumpFreq]
    rfl
  | getMut h =>
    simp only [KeyOp.onPresent, mapValue_bumpFreq]
    simp [Ret.mapValue, CacheEntry.mapValue, h]
  | andModify h => simp [KeyOp.onPresent, Ret.mapValue, CacheEntry.mapValue, h]
  | _ => rfl

omit [DecidableEq K] in
theorem KeyOp.Maps.newValue {op : KeyOp K V} {op' : KeyOp K W} (h : op.Maps g op') :
    op'.newValue = op.newValue.map g := by
  cases h with
  | orInsertWith h => simp [KeyOp.newValue, h]
  | orTryInsertWith h => simp [KeyOp.newValue, h]
  | _ => rfl

omit [DecidableEq K] in
theorem KeyOp.Maps.absentRet {op : KeyOp K V} {op' : KeyOp K W} (h : op.Maps g op') :
    op'.absentRet = op.absentRet.mapValue g := by
  cases h with
  | orInsertWith h => simp [KeyOp.absentRet, h, Ret.mapValue]
  | @orTryInsertWith f f' h =>
    simp only [KeyOp.absentRet, h]
    cases f () <;> rfl
  | _ => rfl

omit [DecidableEq K] in
theorem retainSlots_map {f : Nat → K → V → Bool × V} {f' : Nat → K → W → Bool × W}
    (h : ∀ n k v, f' n k (g v) = ((f n k v).1, g (f n k v).2)) :
    ∀ (n : Nat) (l : List (Slot UInt64 K (CacheEntry V))),
      retainSlots f' n (l.map fun s => ⟨s.hash, s.key, s.val.mapValue g⟩)
        = (retainSlots f n l).map fun s => ⟨s.hash, s.key, s.val.mapValue g⟩
  | _, [] => rfl
  | n, s :: l => by
    have ih := retainSlots_map h (n + 1) l
    simp only [List.map_cons, retainSlots, CacheEntry.mapValue_value, h, ih]
    split <;> rfl

omit [DecidableEq K] in
theorem dropped_map {f : Nat → K → V → Bool × V} {f' : Nat → K → W → Bool × W}
    (h : ∀ n k v, f' n k (g v) = ((f n k v).1, g (f n k v).2)) (loc : Loc) :
    ∀ (n : Nat) (l : List (Slot UInt64 K (CacheEntry V))),
      dropped f' loc n (l.map fun s => ⟨s.hash, s.key, s.val.mapValue g⟩) = dropped f loc n l
  | _, [] => rfl
  | n, s :: l => by
    have ih := dropped_map h loc (n + 1) l
    simp only [List.map_cons, dropped, CacheEntry.mapValue_value, CacheEntry.mapValue_loc, h, ih]

theorem mapValues_retain {f : Nat → K → V → Bool × V} {f' : Nat → K → W → Bool × W}
    (h : ∀ n k v, f' n k (g v) = ((f n k v).1, g (f n k v).2)) (n : Nat) :
    (σ.retain f n).2.mapValues g = ((σ.mapValues g).retain f' n).2 := by
  obtain ⟨hslots, heq⟩ := retain_spec σ f n
  obtain ⟨hslots', heq'⟩ := retain_spec (σ.mapValues g) f' n
  have hmap : ((σ.mapValues g).retain f' n).2.map = (σ.retain f n).2.map.mapVal (·.mapValue g) := by
    ext1
    rw [hslots', Table.slots_mapVal, hslots]
    exact retainSlots_map h n σ.map.slots
  have hsmall := dropped_map h .small n σ.map.slots
  have hmain := dropped_map h .main n σ.map.slots
  rw [heq, heq', hmap]
  unfold mapValues
  simp only [Table.slots_mapVal, hsmall, hmain]

/-- 値を写した shard では、両立する操作が、写した返り値と写した shard を返す。 -/
theorem exec_mapValues (hl : Linked hash σ) {op : ShardOp K V} {op' : ShardOp K W}
    (h : op.Maps g op') :
    op'.exec hash (σ.mapValues g) =
      (op.exec hash σ).map fun p => (p.1.mapValue g, p.2.mapValues g) := by
  cases h with
  | @key k kop kop' h =>
    show kop'.exec (hash k) k (σ.mapValues g) = (kop.exec (hash k) k σ).map _
    have hget : (σ.mapValues g).map.get? k = (σ.map.get? k).map (·.mapValue g) :=
      Table.get?_mapVal _ _ k
    cases hk : σ.map.get? k with
    | some e =>
      rw [hk, Option.map_some] at hget
      rw [exec_present (linked_mapValues hl) hget, exec_present hl hk, h.onPresent]
      simp only [Except.map, mapValues_put]
    | none =>
      rw [hk, Option.map_none] at hget
      rw [exec_absent (linked_mapValues hl) hget, exec_absent hl hk, h.newValue, h.absentRet]
      cases kop.newValue with
      | none => rfl
      | some v =>
        simp only [Option.map_some, (insertVacant_follows σ (hash k) k v).eq]
        cases σ.insertVacant (hash k) k v <;> rfl
  | @retain f f' n h => simp only [ShardOp.exec, Except.map, mapValues_retain h, Ret.mapValue]
  | @alterAll f f' n h =>
    have hr : (σ.retain (fun n k v => (true, f n k v)) n).2.mapValues g
        = ((σ.mapValues g).retain (fun n k v => (true, f' n k v)) n).2 :=
      mapValues_retain (fun n k v => by rw [h]) n
    simp only [ShardOp.exec, Except.map, alterAll_eq_retain, hr, Ret.mapValue]
  | clearAll => rfl

end Neocache
