import Neocache.Properties.ExactlyOnce
import Neocache.Properties.Guards

/-!
# key 一つの操作の atomic 性

どう交ざった実行でも、終わった時点の cache と全ての返り値は、操作を lock を取った順に一つずつ
行ったものと同じになる。読み書き lock の一般論（`Infra.Sections.serializable`）に、shard の計算の
二つの性質を渡して得る。共有 lock の下の計算が重ねてよいことと、一人で進めた計算が一息の計算と
同じ結果になることである（どちらも `Neocache/Properties/Guards.lean`）。

そこから、表に残り続ける key の値は、その key への操作を取った順に一度ずつ施したものになること、
読み出しだけの実行では順序に依らないことが従う。
-/

namespace Neocache

open Infra Relation ShardData

variable {K V A T : Type*} [DecidableEq K] {w : Word} {cap requested : Nat} {hasher : K → UInt64}
  {c : NeoCache K V} {k : K}

/-! ## guard をすぐに落とす操作 -/

/-- guard をすぐに落とす操作は、`KeyOp` の操作と同じことをする。 -/
theorem KeyOp.guarded_exec (op : KeyOp K V) (h : UInt64) (k : K) (σ : ShardData K V) :
    (op.guarded k).exec h k σ = op.exec h k σ := by
  cases hf : σ.map.find h k with
  | some e =>
    have he : σ.entry h k = .occupied ⟨σ, k, e⟩ := by simp only [ShardData.entry, hf]
    cases op
    case insert v => simp [guarded, GuardedOp.exec, exec, ShardData.insert, hf, Except.map, Ret.option]
    case remove => simp [guarded, GuardedOp.exec, exec, ShardData.remove, hf, Ret.removed]
    case removeIf f =>
      by_cases hp : f k e.value = true <;>
        simp [guarded, GuardedOp.exec, exec, ShardData.removeIf, hf, Ret.removed, hp]
    case removeIfMut f =>
      by_cases hp : (f k e.value).1 = true <;>
        simp [guarded, GuardedOp.exec, exec, ShardData.removeIfMut, hf, Ret.removed, hp]
    case get => simp [guarded, GuardedOp.exec, exec, ShardData.get, hf, Ret.option, RefUse.exec]
    case getMut f => simp [guarded, GuardedOp.exec, exec, ShardData.getMut, hf, RefMutUse.exec]
    all_goals
      simp [guarded, GuardedOp.exec, exec, he, OccupiedUse.exec, RefMutUse.exec, RefMutUse.value,
        onOccupied, Entry.insert, Entry.insertEntry, Entry.orDefault, Entry.orInsert,
        Entry.orInsertWith, Entry.orTryInsertWith, Entry.andModify, Entry.shard,
        OccupiedEntry.insert, OccupiedEntry.intoRef, OccupiedEntry.modify, OccupiedEntry.remove,
        OccupiedEntry.removeEntry, OccupiedEntry.replaceEntry, Except.map]
  | none =>
    have he : σ.entry h k = .vacant ⟨σ, k, h⟩ := by simp only [ShardData.entry, hf]
    cases op
    case insert v =>
      cases hi : σ.insertVacant h k v <;>
        simp [guarded, GuardedOp.exec, exec, ShardData.insert, hf, hi, Except.map, Ret.option]
    case remove => simp [guarded, GuardedOp.exec, exec, ShardData.remove, hf, Ret.removed]
    case removeIf f => simp [guarded, GuardedOp.exec, exec, ShardData.removeIf, hf, Ret.removed]
    case removeIfMut f =>
      simp [guarded, GuardedOp.exec, exec, ShardData.removeIfMut, hf, Ret.removed]
    case get => simp [guarded, GuardedOp.exec, exec, ShardData.get, hf, Ret.option]
    case getMut f => simp [guarded, GuardedOp.exec, exec, ShardData.getMut, hf]
    case orTryInsertWith value =>
      cases hv : value () with
      | none =>
        simp [guarded, GuardedOp.exec, exec, he, VacantUse.exec, Entry.orTryInsertWith, hv,
          Except.map]
      | some v =>
        cases hi : σ.insertVacant h k v <;>
          simp [guarded, GuardedOp.exec, exec, he, VacantUse.exec, Entry.orTryInsertWith, hv, hi,
            VacantEntry.insert, RefMutUse.exec, RefMutUse.value, Except.map]
    case orInsertWith value =>
      cases hi : σ.insertVacant h k (value ()) <;>
        simp [guarded, GuardedOp.exec, exec, he, VacantUse.exec, Entry.orInsertWith,
          VacantEntry.insert, RefMutUse.exec, RefMutUse.value, Except.map, hi]
    case andModify | occupiedInsert | replaceEntry | occupiedRemove | occupiedRemoveEntry =>
      simp [guarded, GuardedOp.exec, exec, he, VacantUse.exec, onOccupied, Entry.andModify,
        Entry.shard]
    all_goals
      rename_i v
      cases hi : σ.insertVacant h k v <;>
        simp [guarded, GuardedOp.exec, exec, he, VacantUse.exec, Entry.insert, Entry.insertEntry,
          Entry.orDefault, Entry.orInsert, Entry.orInsertWith, VacantEntry.insert,
          VacantEntry.insertEntry, RefMutUse.exec, RefMutUse.value, OccupiedUse.exec, Except.map,
          CacheEntry.new, hi]

namespace NeoCache

theorem guarded_keyOp (op : KeyOp K V) : c.guarded w k (op.guarded k) = c.keyOp w k op := by
  unfold guarded keyOp onShard
  cases c.shardIndex w k with
  | error f => rfl
  | ok i =>
    cases hσ : c.shards[i]? with
    | none => simp only [hσ]
    | some σ => simp only [hσ, ShardOp.exec, KeyOp.guarded_exec]

theorem guarded_view {B : Type*} (f : K → V → B) :
    c.guarded w k (.view k f id) = c.view w k f := by
  unfold guarded view keyOp onShard
  cases c.shardIndex w k with
  | error e => rfl
  | ok i =>
    cases hσ : c.shards[i]? with
    | none => simp only [hσ]; rfl
    | some σ =>
      cases hf : σ.map.find (c.hasher k) k <;>
        simp [hσ, hf, GuardedOp.view, GuardedOp.exec, RefUse.exec, ShardOp.exec, KeyOp.exec,
          ShardData.get, Ret.option, Except.map]

/-- `alter` は、`get_mut` の guard を通した一度の書き換えである。 -/
theorem guarded_alter (f : K → V → V) :
    c.guarded w k (.alter k f id) = (c.keyOp w k (.getMut f)).map fun p => ((), p.2) := by
  unfold guarded keyOp onShard
  cases c.shardIndex w k with
  | error e => rfl
  | ok i =>
    cases hσ : c.shards[i]? with
    | none => simp only [hσ]; rfl
    | some σ =>
      cases hf : σ.map.find (c.hasher k) k <;>
        simp [hσ, hf, GuardedOp.alter, GuardedOp.exec, RefMutUse.exec, ShardOp.exec, KeyOp.exec,
          ShardData.getMut, Except.map]

/-! ## 一つずつの実行 -/

omit [DecidableEq K] in
theorem withShards_shardData (c : NeoCache K V) : c.withShards c.shardData = c := by
  have hshards : (List.range c.shards.length).map c.shardData = c.shards := by
    refine List.ext_getElem (by simp) fun i _ hi => ?_
    simp [shardData, hi]
  unfold withShards
  rw [hshards]

omit [DecidableEq K] in
theorem withShards_getElem? {d : Nat → ShardData K V} {i : Nat} (hi : i < c.shards.length) :
    (c.withShards d).shards[i]? = some (d i) := by
  simp [withShards, hi]

omit [DecidableEq K] in
theorem withShards_set {d : Nat → ShardData K V} {i : Nat} (σ : ShardData K V) :
    { c.withShards d with shards := (c.withShards d).shards.set i σ }
      = c.withShards (Function.update d i σ) := by
  have hshards : ((List.range c.shards.length).map d).set i σ
      = (List.range c.shards.length).map (Function.update d i σ) := by
    refine List.ext_getElem (by simp) fun j _ hj => ?_
    rw [List.getElem_set]
    rcases eq_or_ne i j with rfl | hij
    · simp
    · simp [hij, Function.update_of_ne (Ne.symm hij)]
  unfold withShards
  rw [← hshards]

/-- 列を行えたなら、先頭の操作が成功して残りがその続きから行えている。 -/
theorem runGuarded_cons {op : GuardedOp K V A} {ops : List (K × GuardedOp K V A)}
    {c' : NeoCache K V} {as : List A} (h : runGuarded w ((k, op) :: ops) c = .ok (as, c')) :
    ∃ a as' c₁, c.guarded w k op = .ok (a, c₁) ∧ runGuarded w ops c₁ = .ok (as', c') ∧
      as = a :: as' := by
  rw [runGuarded] at h
  cases hfirst : c.guarded w k op with
  | error f => rw [hfirst] at h; cases h
  | ok p =>
    obtain ⟨a, c₁⟩ := p
    rw [hfirst] at h
    change (runGuarded w ops c₁).map _ = _ at h
    cases hrest : runGuarded w ops c₁ with
    | error f => rw [hrest] at h; cases h
    | ok q =>
      rw [hrest] at h
      cases h
      exact ⟨a, q.1, c₁, rfl, hrest, rfl⟩

/-- 最後の操作を足した列の実行。 -/
theorem runGuarded_snoc {op : GuardedOp K V A} {a : A} {c₂ : NeoCache K V} :
    ∀ {ops : List (K × GuardedOp K V A)} {c c₁ : NeoCache K V} {as : List A},
      runGuarded w ops c = .ok (as, c₁) → c₁.guarded w k op = .ok (a, c₂) →
      runGuarded w (ops ++ [(k, op)]) c = .ok (as ++ [a], c₂)
  | [], c, c₁, as, h, hop => by
    cases h
    simp only [List.nil_append, runGuarded, hop]
    rfl
  | (k', op') :: ops, c, c₁, as, h, hop => by
    obtain ⟨a', as', c', hfirst, hrest, rfl⟩ := runGuarded_cons h
    simp only [List.cons_append, runGuarded, hfirst, runGuarded_snoc hrest hop]
    rfl

/-- key の shard が決まっていて、どの shard も操作の境目の条件を満たす cache。 -/
structure Ready (w : Word) (c : NeoCache K V) : Prop where
  index : ∀ k, c.shardIndex w k = .ok (c.home w k)
  inside : ∀ k, c.home w k < c.shards.length
  intact : ∀ i, Intact c.hasher (c.shardData i)

/-- 一つずつ最後まで進めた実行は、一息の計算を順に行ったものである。 -/
theorem Ready.serial (hc : c.Ready w) {ops : List ((K × GuardedOp K V A) × A)}
    {d : Nat → ShardData K V}
    (h : (guardSections (c.home w) c.hasher).Serial c.shardData ops d) :
    runGuarded w (ops.map Prod.fst) c = .ok (ops.map Prod.snd, c.withShards d) ∧
      ∀ i, Intact c.hasher (d i) := by
  induction h with
  | nil => exact ⟨by rw [withShards_shardData]; rfl, hc.intact⟩
  | @snoc ops d₁ σ' op a _ hsolo ih =>
    obtain ⟨hrun, hintact⟩ := ih
    obtain ⟨k, op⟩ := op
    have hexec := op.runs (hintact (c.home w k)) (solo_runs hsolo)
    have hop : (c.withShards d₁).guarded w k op
        = .ok (a, c.withShards (Function.update d₁ (c.home w k) σ')) := by
      have hi : (c.withShards d₁).shardIndex w k = .ok (c.home w k) := hc.index k
      have hσ := withShards_getElem? (d := d₁) (hc.inside k)
      unfold guarded
      simp only [hi, hσ]
      show (op.exec (c.hasher k) k (d₁ (c.home w k))).map _ = _
      rw [hexec, ← withShards_set]
      rfl
    refine ⟨?_, fun i => ?_⟩
    · rw [List.map_append, List.map_append]
      exact runGuarded_snoc hrun hop
    · show Intact c.hasher (Function.update d₁ (c.home w k) σ' i)
      rcases eq_or_ne i (c.home w k) with rfl | hi
      · rw [Function.update_self]
        exact (hintact _).guarded hexec
      · rw [Function.update_of_ne hi]
        exact hintact i

/-! ## 残り続ける key の値 -/

/-- key の値。`get` が返すものである。 -/
def valueOf (w : Word) (c : NeoCache K V) (k : K) : Option V :=
  (c.shardData (c.home w k)).lookup k

theorem Ready.valueOf_withShards (hc : c.Ready w) (d : Nat → ShardData K V) (k : K) :
    (c.withShards d).valueOf w k = (d (c.home w k)).lookup k := by
  have hget := withShards_getElem? (d := d) (hc.inside k)
  show ((c.withShards d).shards.getD (c.home w k) (.new 0)).lookup k = _
  rw [List.getD_eq_getElem?_getD, hget]
  rfl

/-- 値が `v` の key に、その key への操作を順に施した値。 -/
def applyAll (k : K) (ops : List (K × GuardedOp K V A)) (v : V) : Option V :=
  (ops.filter fun op => op.1 = k).foldlM (fun v op => op.2.onValue k v) v

/-- 操作の列のどこまで行っても、key が表にある。 -/
def Stays (w : Word) (c : NeoCache K V) (k : K) (ops : List (K × GuardedOp K V A)) : Prop :=
  ∀ pre as c', pre <+: ops → runGuarded w pre c = .ok (as, c') → c'.valueOf w k ≠ none

/-- 操作一つの後の値。別の key への操作では、値は変わらないか、追い出されて無くなる。 -/
theorem lookup_step {op : GuardedOp K V A} {a : A} {k' : K} {d : Nat → ShardData K V}
    {σ' : ShardData K V} {v : V} (hs : ∀ i, Intact c.hasher (d i))
    (hexec : op.exec (c.hasher k') k' (d (c.home w k')) = .ok (a, σ'))
    (hv : (d (c.home w k)).lookup k = some v)
    (hstay : (Function.update d (c.home w k') σ' (c.home w k)).lookup k ≠ none) :
    (Function.update d (c.home w k') σ' (c.home w k)).lookup k
      = if k' = k then op.onValue k v else some v := by
  rcases eq_or_ne k' k with rfl | hk
  · rw [if_pos rfl, Function.update_self]
    obtain ⟨e, he, rfl⟩ := Option.map_eq_some_iff.mp hv
    have hlook := op.lookup_present (hs _).linked he hexec
    rw [show σ'.lookup = _ from hlook, Function.update_self]
  · rw [if_neg hk]
    rcases eq_or_ne (c.home w k) (c.home w k') with hi | hi
    · rw [hi, Function.update_self] at hstay ⊢
      rw [hi] at hv
      rcases op.lookup_other (hs _).linked (Ne.symm hk) hexec with hsame | hgone
      · exact hsame.trans hv
      · exact absurd hgone hstay
    · rw [Function.update_of_ne hi]
      exact hv

/-- 残り続ける key の値は、その key への操作を順に一度ずつ施した値である。 -/
theorem Ready.value_serial (hc : c.Ready w) {ops : List ((K × GuardedOp K V A) × A)}
    {d : Nat → ShardData K V}
    (h : (guardSections (c.home w) c.hasher).Serial c.shardData ops d) {v : V}
    (hv : c.valueOf w k = some v) (hstay : c.Stays w k (ops.map Prod.fst)) :
    applyAll k (ops.map Prod.fst) v = (d (c.home w k)).lookup k := by
  induction h with
  | nil => exact hv.symm
  | @snoc ops d₁ σ' op a hserial hsolo ih =>
    obtain ⟨k', op⟩ := op
    have hprev := ih fun pre as c' hpre =>
      hstay pre as c' (hpre.trans (by rw [List.map_append]; exact List.prefix_append _ _))
    obtain ⟨hrun, hintact⟩ := hc.serial hserial
    have hexec := op.runs (hintact (c.home w k')) (solo_runs hsolo)
    have hnow := hstay _ _ _ (List.prefix_refl _) (hc.serial (.snoc hserial hsolo)).1
    rw [hc.valueOf_withShards] at hnow
    have hbefore := hstay _ _ _ (by rw [List.map_append]; exact List.prefix_append _ _) hrun
    rw [hc.valueOf_withShards] at hbefore
    obtain ⟨v₁, hv₁⟩ := Option.ne_none_iff_exists'.mp hbefore
    have hstep := lookup_step hintact hexec hv₁ hnow
    rw [hv₁] at hprev
    show _ = (Function.update d₁ (c.home w k') σ' (c.home w k)).lookup k
    rw [hstep]
    unfold applyAll at hprev ⊢
    rw [List.map_append, List.filter_append, List.foldlM_append, hprev]
    rcases eq_or_ne k' k with rfl | hk
    · simp
    · simp [hk]

end NeoCache

/-! ## まとめ -/

theorem CacheReachable.ready (hsize : cap < w.size) (hreq : NeoCache.Accepted w requested)
    (hr : CacheReachable w cap hasher requested c) : c.Ready w := by
  obtain ⟨i, -, -, hl⟩ := NeoCache.layout_ok hsize hreq
  have hc := hr.laid hl
  have hhome : ∀ k, c.shardIndex w k = .ok (c.home w k) ∧ c.home w k < c.shards.length := by
    intro k
    obtain ⟨i, σ, hi, hσ⟩ := hr.home hsize hreq hl k
    have hidx : c.home w k = i := by rw [NeoCache.home, hi]
    rw [hidx]
    exact ⟨hi, (List.getElem?_eq_some_iff.mp hσ).1⟩
  refine ⟨fun k => (hhome k).1, fun k => (hhome k).2, fun i => ?_⟩
  show Intact c.hasher (c.shards.getD i (.new 0))
  rw [List.getD_eq_getElem?_getD, hc.hasher_eq]
  cases hσ : c.shards[i]? with
  | some σ => exact (hc.shards i σ hσ).intact
  | none => exact reachable_new.intact

theorem NeoCache.Finishes.serial {hist : List (T × (K × GuardedOp K V A) × A)}
    {d : Nat → ShardData K V} (h : c.Finishes w hist d) :
    (guardSections (c.home w) c.hasher).Serial c.shardData (hist.map Prod.snd) d :=
  Sections.serializable (guardSections_interleavable _ _) h rfl

/-- 終わった実行は、操作を lock を取った順に一つずつ行ったものである。 -/
theorem NeoCache.Finishes.run {hist : List (T × (K × GuardedOp K V A) × A)}
    {d : Nat → ShardData K V} (h : c.Finishes w hist d) (hc : c.Ready w) :
    NeoCache.runGuarded w (hist.map fun x => x.2.1) c
      = .ok (hist.map fun x => x.2.2, c.withShards d) := by
  have hrun := (hc.serial h.serial).1
  rw [List.map_map, List.map_map] at hrun
  exact hrun

theorem reachable_runGuarded {ops : List (K × GuardedOp K V (Ret K V))} :
    ∀ {c c' : NeoCache K V} {as : List (Ret K V)}, CacheReachable w cap hasher requested c →
      (∀ x ∈ ops, ∃ op : KeyOp K V, x.2 = op.guarded x.1) →
      NeoCache.runGuarded w ops c = .ok (as, c') → CacheReachable w cap hasher requested c' := by
  induction ops with
  | nil =>
    intro c c' as hr _ h
    cases h
    exact hr
  | cons x ops ih =>
    intro c c' as hr hkey h
    obtain ⟨k, op'⟩ := x
    obtain ⟨op, hop⟩ := hkey (k, op') List.mem_cons_self
    obtain rfl : op' = op.guarded k := hop
    obtain ⟨r, rs, c₁, hone, hrest, -⟩ := NeoCache.runGuarded_cons h
    rw [NeoCache.guarded_keyOp] at hone
    exact ih (hr.keyOp hone) (fun x hx => hkey x (List.mem_cons_of_mem _ hx)) hrest

/--
一操作を一歩とする系（`cacheLts`）は、交ざった実行の着く先を残らず含む。

guard をすぐに落とす操作だけの実行について言う。
-/
theorem NeoCache.Finishes.reachable {hist : List (T × (K × GuardedOp K V (Ret K V)) × Ret K V)}
    {d : Nat → ShardData K V} (hsize : cap < w.size) (hreq : NeoCache.Accepted w requested)
    (hr : CacheReachable w cap hasher requested c) (h : c.Finishes w hist d)
    (hkey : ∀ x ∈ hist, ∃ op : KeyOp K V, x.2.1.2 = op.guarded x.2.1.1) :
    CacheReachable w cap hasher requested (c.withShards d) := by
  refine reachable_runGuarded hr (fun x hx => ?_) (h.run (hr.ready hsize hreq))
  obtain ⟨y, hy, rfl⟩ := List.mem_map.mp hx
  exact hkey y hy

/--
key 一つの操作は atomic である。

どう交ざった実行でも、終わった時点の cache と全ての返り値は、操作を lock を取った順に一つずつ
行ったものと同じである。特に、残り続ける key の値は、その key への操作を取った順に一度ずつ施した
値であり、読み出しだけの実行では、freq の増加がどの順に交ざっても同じ状態に着く。
-/
theorem guarded_atomic (hsize : cap < w.size) (hreq : NeoCache.Accepted w requested)
    (hr : CacheReachable w cap hasher requested c)
    {hist : List (T × (K × GuardedOp K V A) × A)} {d : Nat → ShardData K V}
    (h : c.Finishes w hist d) :
    NeoCache.runGuarded w (hist.map fun x => x.2.1) c
        = .ok (hist.map fun x => x.2.2, c.withShards d) ∧
    (∀ k v, c.valueOf w k = some v → c.Stays w k (hist.map fun x => x.2.1) →
      (c.withShards d).valueOf w k = NeoCache.applyAll k (hist.map fun x => x.2.1) v) ∧
    (∀ (hist' : List (T × (K × GuardedOp K V A) × A)) d', c.Finishes w hist' d' →
      (∀ x ∈ hist, ∃ absent use, x.2.1.2 = .get absent use) →
      (hist.map fun x => x.2.1).Perm (hist'.map fun x => x.2.1) →
      d' = d ∧ (hist.map Prod.snd).Perm (hist'.map Prod.snd)) := by
  have hc := hr.ready hsize hreq
  have hM := guardSections_interleavable (V := V) (A := A) (c.home w) c.hasher
  have hops : ∀ l : List (T × (K × GuardedOp K V A) × A),
      (l.map Prod.snd).map Prod.fst = l.map fun x => x.2.1 := by
    intro l
    rw [List.map_map]
    rfl
  refine ⟨h.run hc, fun k v hv hstay => ?_, fun hist' d' h' hget hp => ?_⟩
  · rw [hc.valueOf_withShards]
    have hvalue := hc.value_serial (k := k) h.serial hv (by rw [hops]; exact hstay)
    rw [hops] at hvalue
    exact hvalue.symm
  · have hshared : ∀ p ∈ hist.map Prod.snd, (guardSections (V := V) (A := A) (c.home w)
        c.hasher).shared ((guardSections (c.home w) c.hasher).start p.1) := by
      intro p hmem
      obtain ⟨x, hx, rfl⟩ := List.mem_map.mp hmem
      obtain ⟨absent, use, hop⟩ := hget x hx
      show ∃ code, GuardedOp.code (c.hasher x.2.1.1) x.2.1.1 x.2.1.2 = .shared code
      rw [hop]
      exact ⟨_, rfl⟩
    obtain ⟨hd, hperm⟩ := hM.serial_perm h.serial h'.serial hshared (by rw [hops, hops]; exact hp)
    exact ⟨hd.symm, hperm⟩

/-! ## 重なった実行の例 -/

/-- 動いている操作を一つ進めても、到達可能である。 -/
theorem guardLts_advance {d : Nat → ShardData K V} {i : Nat} {σ σ' : ShardData K V}
    {pre post : List (Sections.Record T (K × GuardedOp K V A) (Section K V A) A)} {t : T}
    {op : K × GuardedOp K V A} {st st' : Sections.Status (Section K V A) A}
    (hi : c.home w op.1 = i)
    (hstep : (guardSections (c.home w) c.hasher).Advance st σ st' σ')
    (h : (c.guardLts T A w).Reachable ⟨Function.update d i σ, pre ++ ⟨t, op, st⟩ :: post⟩) :
    (c.guardLts T A w).Reachable ⟨Function.update d i σ', pre ++ ⟨t, op, st'⟩ :: post⟩ := by
  subst hi
  have hone : (guardSections (c.home w) c.hasher).Advance st
      ((Function.update d (c.home w op.1) σ) (c.home w op.1)) st' σ' := by
    rw [Function.update_self]
    exact hstep
  have hnext := Lts.Reachable.step h (Sections.World.Step.advance rfl hone)
  change (c.guardLts T A w).Reachable ⟨Function.update (Function.update d (c.home w op.1) σ)
    (c.home w op.1) σ', pre ++ ⟨t, op, st'⟩ :: post⟩ at hnext
  rwa [Function.update_idem] at hnext

/-- 動いている区間を一人で進めても、到達可能である。 -/
theorem guardLts_alone {d : Nat → ShardData K V} {i : Nat} {p q : Section K V A × ShardData K V}
    {pre post : List (Sections.Record T (K × GuardedOp K V A) (Section K V A) A)} {t : T}
    {op : K × GuardedOp K V A} (hi : c.home w op.1 = i)
    (hsteps : ReflTransGen (guardSections (c.home w) c.hasher).Alone p q)
    (h : (c.guardLts T A w).Reachable
      ⟨Function.update d i p.2, pre ++ ⟨t, op, .running p.1⟩ :: post⟩) :
    (c.guardLts T A w).Reachable
      ⟨Function.update d i q.2, pre ++ ⟨t, op, .running q.1⟩ :: post⟩ :=
  star_preserves (P := fun p : Section K V A × ShardData K V => (c.guardLts T A w).Reachable
      ⟨Function.update d i p.2, pre ++ ⟨t, op, .running p.1⟩ :: post⟩)
    (fun _ _ hp hstep => guardLts_advance hi (.move hstep) hp) hsteps h

/-- 値を増やしてから共有に落とし、もう一度読む。 -/
def incrThenRead : GuardedOp Nat Nat (Option Nat) :=
  .getMut none (.read fun v => .write (v + 1) (.downgrade (.read fun v => .drop (some v))))

def readOnce : GuardedOp Nat Nat (Option Nat) := .get none (.read fun v => .drop (some v))

/-- `oneEntry` の番号 0 の shard。 -/
def entryShard : ShardData Nat Nat := (ShardData.new 2).register 0 0 7 .small

/-- 値を 8 に増やし終えた shard。 -/
def raisedShard : ShardData Nat Nat := (entryShard.updateEntry 0 .bumpFreq).setValue 0 8

/-- 共有に落とした後に残っている読み出し。 -/
def readBack : ReadCode Nat Nat (Option Nat) := (RefUse.read fun v => .drop (some v)).code 0 8

/-- 排他の間に値を増やし、共有に落とした所まで進める。 -/
theorem incrThenRead_downgrades (home : Nat → Nat) (hash : Nat → UInt64) :
    ReflTransGen (guardSections (V := Nat) (A := Option Nat) home hash).Alone
      (incrThenRead.code 0 0, entryShard) (.shared readBack, raisedShard) := by
  have hstep : ∀ {l l' : Section Nat Nat (Option Nat)} {σ σ' : ShardData Nat Nat},
      Section.Step σ l l' σ' → (guardSections home hash).Alone (l, σ) (l', σ') := fun h => h
  let rest : WriteCode Nat Nat (Option Nat) := .edit (.store 0 8) (.downgrade readBack)
  let code : WriteCode Nat Nat (Option Nat) :=
    (RefMutUse.read fun v => .write (v + 1) (.downgrade (.read fun v => .drop (some v)))).code 0 7
  have hfind : Section.Step entryShard (incrThenRead.code 0 0)
      (.exclusive (.bump 0 none code)) entryShard := .exclusive .find
  have hread : Section.Step (entryShard.updateEntry 0 .bumpFreq) (.exclusive code)
      (.exclusive rest) (entryShard.updateEntry 0 .bumpFreq) := .exclusive .read
  have hwrite : Section.Step (entryShard.updateEntry 0 .bumpFreq) (.exclusive rest)
      (.exclusive (.downgrade readBack)) raisedShard := .exclusive .edit
  have hdown : Section.Step raisedShard (.exclusive (.downgrade readBack)) (.shared readBack)
      raisedShard := .downgrade
  have hafter := ((ReflTransGen.single (hstep hread)).tail (hstep hwrite)).tail (hstep hdown)
  have hbefore := ReflTransGen.single (hstep hfind)
  rcases exists_bumpStep entryShard 0 none with hb | ⟨f, hretry, hb⟩
  · exact (hbefore.tail (hstep (.exclusive (.bumped hb)))).trans hafter
  · have hload := hbefore.tail (hstep (.exclusive (.retry hretry)))
    exact (hload.tail (hstep (.exclusive (.bumped hb)))).trans hafter

/-- 一つ目の guard が共有に落とされた後に、二つ目の読み出しが重なる。 -/
theorem oneEntry_finishes : ∃ d : Nat → ShardData Nat Nat,
    NeoCache.Finishes ⟨64, by decide⟩ oneEntry
      [(true, (0, incrThenRead), some 8), (false, (0, readOnce), some 8)] d := by
  have hhome : oneEntry.home ⟨64, by decide⟩ 0 = 0 := rfl
  have hstart : (oneEntry.guardLts Bool (Option Nat) ⟨64, by decide⟩).Reachable
      ⟨Function.update oneEntry.shardData 0 entryShard,
        [] ++ ⟨true, (0, incrThenRead), .running (incrThenRead.code 0 0)⟩ :: []⟩ := by
    have hshard : entryShard = oneEntry.shardData 0 := rfl
    rw [hshard, Function.update_eq_self]
    refine .step (.init rfl) (.exclude ?_ ?_)
    · rintro ⟨c, hc⟩
      cases hc
    · intro x hx
      cases hx
  have hdown := guardLts_alone hhome (incrThenRead_downgrades _ _) hstart
  -- 排他の lock は共有に落ちているので、読み出しを始められる
  have hshare : (oneEntry.guardLts Bool (Option Nat) ⟨64, by decide⟩).Reachable
      ⟨Function.update oneEntry.shardData 0 raisedShard,
        [⟨true, (0, incrThenRead), .running (.shared readBack)⟩] ++
        ⟨false, (0, readOnce), .running (readOnce.code 0 0)⟩ :: []⟩ := by
    refine .step hdown (.share ⟨_, rfl⟩ ?_)
    rintro x hx -
    obtain rfl := List.mem_singleton.mp hx
    exact ⟨_, rfl⟩
  have hread : ∃ σ, (oneEntry.guardLts Bool (Option Nat) ⟨64, by decide⟩).Reachable
      ⟨Function.update oneEntry.shardData 0 σ,
        [] ++ ⟨true, (0, incrThenRead), .running (.shared readBack)⟩ ::
          [⟨false, (0, readOnce), .finished (some 8)⟩]⟩ ∧ σ.lookup 0 = some 8 := by
    have hdone := guardLts_advance hhome (.release rfl)
      (guardLts_alone hhome (ReadCode.completes _ _) hshare)
    exact ⟨_, hdone, rfl⟩
  obtain ⟨σ, hσ, hv⟩ := hread
  have hlast := guardLts_advance hhome (.release rfl)
    (guardLts_alone hhome (readBack.completes σ) hσ)
  have hout : readBack.out σ = some 8 := by
    show some ((σ.lookup 0).getD 8) = some 8
    rw [hv]
    rfl
  rw [hout] at hlast
  exact ⟨_, hlast⟩

theorem guarded_atomic_downgraded : ∃ d : Nat → ShardData Nat Nat,
    (CacheReachable ⟨64, by decide⟩ 4 UInt64.ofNat 2 oneEntry ∧
      NeoCache.Finishes ⟨64, by decide⟩ oneEntry
        [(true, (0, incrThenRead), some 8), (false, (0, readOnce), some 8)] d) ∧
    NeoCache.runGuarded ⟨64, by decide⟩ [(0, incrThenRead), (0, readOnce)] oneEntry
      = .ok ([some 8, some 8], oneEntry.withShards d) := by
  obtain ⟨d, hd⟩ := oneEntry_finishes
  exact ⟨d, ⟨oneEntry_reachable, hd⟩,
    (guarded_atomic (by decide) (by decide) oneEntry_reachable hd).1⟩

end Neocache
