import Neocache.Cache.Runs
import Neocache.Properties.Upheld
import Neocache.Shard.Unwind

/-!
# panic が残すもの

利用者の closure が lock の中で panic しても、そこで残る cache は、panic の無い実行でも残りうる。
`retain` が途中で巻き戻れば、訪ねた所までを処理して残りを全部残す `retain` と同じになり、
書き換えてから panic した述語は、書き換えて偽を返した述語と同じになる。

key の `clone` の panic は、追い出しだけが済んで挿入の無い状態を残す。この状態は他の操作の列では
作れないが、queue と counter の不変条件は保たれるので、後の操作が失敗したり終わらなくなったりは
しない。
-/

namespace Neocache

open Infra Relation ShardData

variable {K V : Type*}

/-- 操作の後に見られる shard。abort の後には無い。 -/
def Exit.shard? : Exit K V → Option (ShardData K V)
  | .returned _ σ | .unwound σ => some σ
  | .aborted => none

variable [DecidableEq K] {hash : K → UInt64} {σ σ' : ShardData K V}

/-! ## 巻き戻った `retain` -/

/-- `stop` 回目の呼び出しで panic した `retain` と同じ結果を残す、panic しない closure。 -/
def retainUpTo (f : Nat → K → V → Option Bool × V) (stop : Nat) (n : Nat) (k : K) (v : V) :
    Bool × V :=
  if n < stop then ((f n k v).1.getD true, (f n k v).2)
  else if n = stop then (true, (f n k v).2)
  else (true, v)

/-- 残りを全部そのまま残す畳み込みは、何も変えない。 -/
theorem foldl_retainOne_keep {f : Nat → K → V → Bool × V} :
    ∀ (b a : List (Slot UInt64 K (CacheEntry V))) (n : Nat) (σ : ShardData K V),
      σ.map.slots = a ++ b → (∀ m k v, n ≤ m → f m k v = (true, v)) →
        (b.foldl (retainOne f) (n, σ)).2 = σ
  | [], _, _, _, _, _ => rfl
  | s :: b, a, n, σ, h, hf => by
    have hmem : s ∈ σ.map.slots := by rw [h]; simp
    have hset : σ.setValue s.key s.val.value = σ := by
      have hget := Table.get?_of_mem hmem
      rw [setValue_eq hget]
      exact updateEntry_self hget
    have hone : retainOne f (n, σ) s = (n + 1, σ) := by
      simp [retainOne, hf n s.key s.val.value le_rfl, hset]
    rw [List.foldl_cons, hone]
    exact foldl_retainOne_keep b (a ++ [s]) (n + 1) σ (by rw [h]; simp)
      fun m k v hm => hf m k v (by omega)

/-- 途中で止まる `retain` は、残りを全部残す `retain` と同じ shard を残す。 -/
theorem retainRisky_eq (f : Nat → K → V → Option Bool × V) :
    ∀ (b a : List (Slot UInt64 K (CacheEntry V))) (n : Nat) (σ : ShardData K V),
      σ.map.slots = a ++ b → ∃ stop, n ≤ stop ∧
        (retainRisky f b n σ).shard? = some (b.foldl (retainOne (retainUpTo f stop)) (n, σ)).2
  | [], _, n, _, _ => ⟨n, le_rfl, rfl⟩
  | s :: b, a, n, σ, h => by
    have hset := setValue_slots h (f n s.key s.val.value).2
    cases hcall : (f n s.key s.val.value).1 with
    | none =>
      -- ここで巻き戻る。以降の slot には触らない。
      refine ⟨n, le_rfl, ?_⟩
      have hone : retainOne (retainUpTo f n) (n, σ) s
          = (n + 1, σ.setValue s.key (f n s.key s.val.value).2) := by
        simp [retainOne, retainUpTo]
      rw [List.foldl_cons, hone, foldl_retainOne_keep b
        (a ++ [{ s with val := { s.val with value := (f n s.key s.val.value).2 } }]) (n + 1)
        (σ.setValue s.key (f n s.key s.val.value).2) (by rw [hset]; simp) ?_]
      · simp [retainRisky, hcall, Exit.shard?]
      · intro m k v hm
        rw [retainUpTo, if_neg (by omega), if_neg (by omega)]
    | some keep =>
      cases keep with
      | true =>
        obtain ⟨stop, hstop, ih⟩ := retainRisky_eq f b
          (a ++ [{ s with val := { s.val with value := (f n s.key s.val.value).2 } }]) (n + 1)
          (σ.setValue s.key (f n s.key s.val.value).2) (by rw [hset]; simp)
        have hone : retainOne (retainUpTo f stop) (n, σ) s
            = (n + 1, σ.setValue s.key (f n s.key s.val.value).2) := by
          simp [retainOne, retainUpTo, show n < stop by omega, hcall]
        refine ⟨stop, by omega, ?_⟩
        rw [List.foldl_cons, hone, ← ih]
        simp [retainRisky, hcall]
      | false =>
        have hdrop : ((σ.setValue s.key (f n s.key s.val.value).2).unlink s.key s.val.loc).map.slots
            = a ++ b := by
          have hremove := Table.slots_remove_mid hset
          rw [unlink_map]
          exact hremove
        obtain ⟨stop, hstop, ih⟩ := retainRisky_eq f b a (n + 1)
          ((σ.setValue s.key (f n s.key s.val.value).2).unlink s.key s.val.loc) hdrop
        have hone : retainOne (retainUpTo f stop) (n, σ) s
            = (n + 1, (σ.setValue s.key (f n s.key s.val.value).2).unlink s.key s.val.loc) := by
          simp [retainOne, retainUpTo, show n < stop by omega, hcall]
        refine ⟨stop, by omega, ?_⟩
        rw [List.foldl_cons, hone, ← ih]
        simp [retainRisky, hcall]

/-- 最後まで進んだ `alter_all` は、panic しない `alter_all` と同じ shard を残す。 -/
theorem alterAllRisky_eq (f : Nat → K → V → Option V) :
    ∀ (b : List (Slot UInt64 K (CacheEntry V))) (n : Nat) {σ σ' : ShardData K V},
      (alterAllRisky f b n σ).shard? = some σ' →
        σ' = (b.foldl (alterOne fun n k v => (f n k v).getD v) (n, σ)).2
  | [], _, _, _, h => by
    cases h
    rfl
  | s :: b, n, σ, σ', h => by
    cases hcall : f n s.key s.val.value with
    | none => simp [alterAllRisky, hcall, Exit.shard?] at h
    | some v =>
      have htail : (alterAllRisky f b (n + 1) (σ.setValue s.key v)).shard? = some σ' := by
        simpa [alterAllRisky, hcall] using h
      rw [alterAllRisky_eq f b (n + 1) htail, List.foldl_cons]
      simp [alterOne, hcall]

/-! ## panic しない操作への言い換え -/

omit [DecidableEq K] in
/-- 返っても巻き戻っても、残る shard は同じである。 -/
theorem shard?_ite (b : Bool) (r : Ret K V) (τ : ShardData K V) :
    (if b then Exit.returned r τ else .unwound τ).shard? = some τ := by
  cases b <;> rfl

/-- 空いている entry への挿入は、panic しなければ `or_insert` である。 -/
theorem vacantInsert_plain {k : K} {v : V} {x : Exit K V} (hf : σ.map.find (hash k) k = none)
    (h : ((⟨σ, k, hash k⟩ : VacantEntry K V).insert v).map
      (fun r => Exit.returned (.value (some r.value)) r.shard) = .ok x)
    (hx : x.shard? = some σ') :
    ∃ r, (ShardOp.key k (.orInsert v)).exec hash σ = .ok (r, σ') := by
  have he : σ.entry (hash k) k = .vacant ⟨σ, k, hash k⟩ := by simp [ShardData.entry, hf]
  cases hi : (⟨σ, k, hash k⟩ : VacantEntry K V).insert v with
  | error f => rw [hi] at h; cases h
  | ok p =>
    rw [hi] at h
    cases h
    cases hx
    exact ⟨_, by simp [ShardOp.exec, KeyOp.exec, he, Entry.orInsert, Entry.orInsertWith, hi,
      Except.map]; rfl⟩

/-- key 一つの操作は、panic したときも、同じ shard を残す panic しない操作を持つ。 -/
theorem risky_key {op : RiskyOp K V} (hop : op.closureOnly = true) {k : K}
    (hkey : op.key? = some k) {x : Exit K V} (h : op.exec hash σ = .ok x)
    (hx : x.shard? = some σ') :
    ∃ (kop : KeyOp K V) (r : Ret K V), (ShardOp.key k kop).exec hash σ = .ok (r, σ') := by
  cases op with
  | plain op =>
    cases op with
    | key k' kop =>
      cases hkey
      cases he : (ShardOp.key k kop).exec hash σ with
      | error f => rw [RiskyOp.exec, he] at h; cases h
      | ok p =>
        rw [RiskyOp.exec, he] at h
        cases h
        cases hx
        exact ⟨kop, p.1, he⟩
    | _ => cases hkey
  | insert k' v => cases hop
  | orInsertWith k' value =>
    cases hkey
    cases hf : σ.map.find (hash k) k with
    | some e =>
      -- 表にあれば closure は呼ばれない
      simp only [RiskyOp.exec, ShardData.entry, hf] at h
      cases h
      cases hx
      exact ⟨.orInsert e.value, _, by
        simp [ShardOp.exec, KeyOp.exec, ShardData.entry, hf, Entry.orInsert, Entry.orInsertWith,
          Except.map]; rfl⟩
    | none =>
      simp only [RiskyOp.exec, ShardData.entry, hf] at h
      cases hv : value () with
      | none =>
        -- 挿入の前に巻き戻るのは、失敗を返す closure と同じである
        rw [hv] at h
        cases h
        cases hx
        exact ⟨.orTryInsertWith fun _ => none, _, by
          simp [ShardOp.exec, KeyOp.exec, ShardData.entry, hf, Entry.orTryInsertWith, Except.map]
          rfl⟩
      | some v =>
        rw [hv] at h
        exact ⟨_, vacantInsert_plain hf h hx⟩
  | orTryInsertWith k' value =>
    cases hkey
    cases hf : σ.map.find (hash k) k with
    | some e =>
      simp only [RiskyOp.exec, ShardData.entry, hf] at h
      cases h
      cases hx
      exact ⟨.orInsert e.value, _, by
        simp [ShardOp.exec, KeyOp.exec, ShardData.entry, hf, Entry.orInsert, Entry.orInsertWith,
          Except.map]; rfl⟩
    | none =>
      simp only [RiskyOp.exec, ShardData.entry, hf] at h
      cases hv : value () with
      | none =>
        rw [hv] at h
        cases h
        cases hx
        exact ⟨.orTryInsertWith fun _ => none, _, by
          simp [ShardOp.exec, KeyOp.exec, ShardData.entry, hf, Entry.orTryInsertWith, Except.map]
          rfl⟩
      | some o =>
        cases o with
        | none =>
          rw [hv] at h
          cases h
          cases hx
          exact ⟨.orTryInsertWith fun _ => none, _, by
            simp [ShardOp.exec, KeyOp.exec, ShardData.entry, hf, Entry.orTryInsertWith, Except.map]
            rfl⟩
        | some v =>
          rw [hv] at h
          exact ⟨_, vacantInsert_plain hf h hx⟩
  | andModify k' f =>
    cases hkey
    refine ⟨.andModify fun v => (f v).2, .unit, ?_⟩
    cases hf : σ.map.find (hash k) k with
    | some e =>
      simp only [RiskyOp.exec, ShardData.entry, hf] at h
      cases h
      rw [shard?_ite] at hx
      cases hx
      simp [ShardOp.exec, KeyOp.exec, ShardData.entry, hf, Entry.andModify, Entry.shard]
    | none =>
      simp only [RiskyOp.exec, ShardData.entry, hf] at h
      cases h
      cases hx
      simp [ShardOp.exec, KeyOp.exec, ShardData.entry, hf, Entry.andModify, Entry.shard]
  | getMut k' f =>
    cases hkey
    refine ⟨.getMut fun k v => (f k v).2, ?_⟩
    cases hf : σ.map.find (hash k) k with
    | some e =>
      simp only [RiskyOp.exec, hf] at h
      cases h
      rw [shard?_ite] at hx
      cases hx
      exact ⟨_, by simp [ShardOp.exec, KeyOp.exec, ShardData.getMut, hf]; rfl⟩
    | none =>
      simp only [RiskyOp.exec, hf] at h
      cases h
      cases hx
      exact ⟨_, by simp [ShardOp.exec, KeyOp.exec, ShardData.getMut, hf]; rfl⟩
  | view k' f =>
    cases hkey
    refine ⟨.get, ?_⟩
    cases hf : σ.map.find (hash k) k with
    | some e =>
      simp only [RiskyOp.exec, hf] at h
      cases h
      rw [shard?_ite] at hx
      cases hx
      exact ⟨_, by simp [ShardOp.exec, KeyOp.exec, ShardData.get, hf]; rfl⟩
    | none =>
      simp only [RiskyOp.exec, hf] at h
      cases h
      cases hx
      exact ⟨_, by simp [ShardOp.exec, KeyOp.exec, ShardData.get, hf]; rfl⟩
  | alter k' f =>
    cases hkey
    refine ⟨.getMut fun k v => (f k v).getD v, ?_⟩
    cases hf : σ.map.find (hash k) k with
    | some e =>
      simp only [RiskyOp.exec, hf] at h
      cases hv : f k e.value with
      | none => rw [hv] at h; cases h; cases hx
      | some v =>
        rw [hv] at h
        cases h
        cases hx
        exact ⟨_, by simp [ShardOp.exec, KeyOp.exec, ShardData.getMut, hf, hv]; rfl⟩
    | none =>
      simp only [RiskyOp.exec, hf] at h
      cases h
      cases hx
      exact ⟨_, by simp [ShardOp.exec, KeyOp.exec, ShardData.getMut, hf]; rfl⟩
  | removeIf k' f =>
    cases hkey
    refine ⟨.removeIf fun k v => (f k v).getD false, ?_⟩
    cases hf : σ.map.find (hash k) k with
    | some e =>
      simp only [RiskyOp.exec, hf] at h
      rcases hv : f k e.value with _ | _ | _ <;> rw [hv] at h <;> cases h <;> cases hx <;>
        exact ⟨_, by simp [ShardOp.exec, KeyOp.exec, ShardData.removeIf, hf, hv]; rfl⟩
    | none =>
      simp only [RiskyOp.exec, hf] at h
      cases h
      cases hx
      exact ⟨_, by simp [ShardOp.exec, KeyOp.exec, ShardData.removeIf, hf]; rfl⟩
  | removeIfMut k' f =>
    cases hkey
    refine ⟨.removeIfMut fun k v => ((f k v).1.getD false, (f k v).2), ?_⟩
    cases hf : σ.map.find (hash k) k with
    | some e =>
      simp only [RiskyOp.exec, hf] at h
      rcases hv : (f k e.value).1 with _ | _ | _ <;> rw [hv] at h <;> cases h <;> cases hx <;>
        exact ⟨_, by simp [ShardOp.exec, KeyOp.exec, ShardData.removeIfMut, hf, hv]; rfl⟩
    | none =>
      simp only [RiskyOp.exec, hf] at h
      cases h
      cases hx
      exact ⟨_, by simp [ShardOp.exec, KeyOp.exec, ShardData.removeIfMut, hf]; rfl⟩
  | retain f n => cases hkey
  | alterAll f n => cases hkey

/-- closure の panic を含む操作は、同じ shard を残す panic しない操作を持つ。 -/
theorem risky_plain {op : RiskyOp K V} (hop : op.closureOnly = true) {x : Exit K V}
    (h : op.exec hash σ = .ok x) (hx : x.shard? = some σ') :
    ∃ op' : ShardOp K V, (∀ k kop, op' = .key k kop → op.key? = some k) ∧
      ∃ r, op'.exec hash σ = .ok (r, σ') := by
  cases hkey : op.key? with
  | some k =>
    obtain ⟨kop, r, hr⟩ := risky_key hop hkey h hx
    exact ⟨.key k kop, fun k' kop' heq => by cases heq; rfl, r, hr⟩
  | none =>
    cases op with
    | plain op =>
      cases he : op.exec hash σ with
      | error f => rw [RiskyOp.exec, he] at h; cases h
      | ok p =>
        rw [RiskyOp.exec, he] at h
        cases h
        cases hx
        refine ⟨op, ?_, p.1, he⟩
        rintro k kop rfl
        cases hkey
    | retain f n =>
      obtain ⟨stop, -, hstop⟩ := retainRisky_eq f σ.map.slots [] n σ rfl
      cases h
      rw [hstop] at hx
      cases hx
      exact ⟨.retain (retainUpTo f stop) n, fun k kop heq => (by cases heq), .unit, rfl⟩
    | alterAll f n =>
      cases h
      obtain rfl := alterAllRisky_eq f σ.map.slots n hx
      exact ⟨.alterAll (fun n k v => (f n k v).getD v) n, fun k kop heq => (by cases heq), .unit,
        rfl⟩
    | _ => cases hkey

/-- どの操作も、どこで panic しても、`Move` の列を残す。 -/
theorem risky_moves (hl : Linked hash σ) {op : RiskyOp K V} {x : Exit K V}
    (h : op.exec hash σ = .ok x) (hx : x.shard? = some σ') : ReflTransGen (Move hash) σ σ' := by
  by_cases hop : op.closureOnly = true
  · obtain ⟨op', -, r, hr⟩ := risky_plain hop h hx
    exact exec_moves hl hr
  · cases op with
    | insert k v =>
      cases hf : σ.map.find (hash k) k with
      | some e =>
        simp only [RiskyOp.exec, hf] at h
        cases h
        cases hx
        exact .single (Or.inr (.update _ _ fun _ _ => rfl))
      | none =>
        -- ghost の取り出しと追い出しだけが済んでいる
        simp only [RiskyOp.exec, hf] at h
        have hg : Edit hash σ (σ.ghostCheck (hash k)).2 := .takeGhost _
        cases hev : (σ.ghostCheck (hash k)).2.evictLoop with
        | error f => rw [hev] at h; cases h
        | ok σ₁ =>
          rw [hev] at h
          cases h
          cases hx
          have hsw := (evictLoop_sweep (hg.linked hl) hev).1
          exact .head (Or.inr hg) (ReflTransGen.mono (fun _ _ => Or.inl) _ _ hsw)
    | _ => exact absurd rfl hop

/-! ## 失敗しないこと -/

/-- panic しうる操作も、返るか巻き戻るか abort するかで終わる。 -/
theorem risky_ok (hl : Linked hash σ) (h : Healthy hash σ ∨ σ.shardCap = 0) (op : RiskyOp K V) :
    ∃ x, op.exec hash σ = .ok x := by
  have hvacant : ∀ k v, ∃ x, ((⟨σ, k, hash k⟩ : VacantEntry K V).insert v).map
      (fun r => Exit.returned (.value (some r.value)) r.shard) = .ok x := by
    intro k v
    obtain ⟨σ', hok⟩ := insertVacant_ok h k v
    simp only [VacantEntry.insert, hok]
    exact ⟨_, rfl⟩
  cases op with
  | plain op =>
    obtain ⟨r, σ', hok⟩ := exec_ok hl h op
    simp only [RiskyOp.exec, hok]
    exact ⟨_, rfl⟩
  | insert k v =>
    simp only [RiskyOp.exec]
    cases σ.map.find (hash k) k with
    | some e => exact ⟨_, rfl⟩
    | none =>
      obtain ⟨σ₁, hok⟩ := evictLoop_ok (h.imp
        (fun hs => Move.healthy (Or.inr (.takeGhost (hash k))) hs) id)
      exact ⟨.unwound σ₁, congrArg (Except.map Exit.unwound) hok⟩
  | orInsertWith k value =>
    simp only [RiskyOp.exec, ShardData.entry]
    cases σ.map.find (hash k) k with
    | some e => exact ⟨_, rfl⟩
    | none =>
      cases value () with
      | none => exact ⟨_, rfl⟩
      | some v => exact hvacant k v
  | orTryInsertWith k value =>
    simp only [RiskyOp.exec, ShardData.entry]
    cases σ.map.find (hash k) k with
    | some e => exact ⟨_, rfl⟩
    | none =>
      rcases value () with _ | _ | v
      · exact ⟨_, rfl⟩
      · exact ⟨_, rfl⟩
      · exact hvacant k v
  | andModify k f =>
    simp only [RiskyOp.exec]
    cases σ.entry (hash k) k <;> exact ⟨_, rfl⟩
  | getMut k f =>
    simp only [RiskyOp.exec]
    cases σ.map.find (hash k) k <;> exact ⟨_, rfl⟩
  | view k f =>
    simp only [RiskyOp.exec]
    cases σ.map.find (hash k) k <;> exact ⟨_, rfl⟩
  | alter k f =>
    simp only [RiskyOp.exec]
    cases σ.map.find (hash k) k with
    | none => exact ⟨_, rfl⟩
    | some e =>
      dsimp only
      rcases f k e.value with _ | v <;> exact ⟨_, rfl⟩
  | removeIf k f =>
    simp only [RiskyOp.exec]
    cases σ.map.find (hash k) k with
    | none => exact ⟨_, rfl⟩
    | some e =>
      dsimp only
      rcases f k e.value with _ | _ | _ <;> exact ⟨_, rfl⟩
  | removeIfMut k f =>
    simp only [RiskyOp.exec]
    cases σ.map.find (hash k) k with
    | none => exact ⟨_, rfl⟩
    | some e =>
      dsimp only
      rcases (f k e.value).1 with _ | _ | _ <;> exact ⟨_, rfl⟩
  | retain f n => exact ⟨_, rfl⟩
  | alterAll f n => exact ⟨_, rfl⟩

/-! ## cache の実行 -/

/-- 一つの shard で panic しうる操作を行う。abort したら、後の cache は無い。 -/
def NeoCache.onShardRisky (c : NeoCache K V) (i : Nat) (op : RiskyOp K V) :
    Except Fault (Option (NeoCache K V)) :=
  match c.shards[i]? with
  | none => .error .assertion
  | some σ => (op.exec c.hasher σ).map fun x =>
      x.shard?.map fun σ' => { c with shards := c.shards.set i σ' }

/-- 利用者の code がどこで panic してもよい遷移系。 -/
def riskyLts (K V : Type*) [DecidableEq K] (w : Word) (cacheCapacity : Nat) (hasher : K → UInt64)
    (requested : Nat) : Lts (NeoCache K V) (Nat × RiskyOp K V) where
  init c := NeoCache.withCapacityAndHasherAndShardAmount w cacheCapacity hasher requested = .ok c
  step c a c' := (∀ k, a.2.key? = some k → c.shardIndex w k = .ok a.1) ∧
    c.onShardRisky a.1 a.2 = .ok (some c')

variable {w : Word} {cap requested : Nat} {hasher : K → UInt64} {c c' : NeoCache K V}

theorem onShardRisky_ok {i : Nat} {op : RiskyOp K V} (h : c.onShardRisky i op = .ok (some c')) :
    ∃ σ x σ', c.shards[i]? = some σ ∧ op.exec c.hasher σ = .ok x ∧ x.shard? = some σ' ∧
      c' = { c with shards := c.shards.set i σ' } := by
  unfold NeoCache.onShardRisky at h
  cases hσ : c.shards[i]? with
  | none => rw [hσ] at h; cases h
  | some σ =>
    rw [hσ] at h
    dsimp only at h
    cases hx : op.exec c.hasher σ with
    | error f => rw [hx] at h; cases h
    | ok x =>
      rw [hx] at h
      obtain ⟨σ', hσ', rfl⟩ := Option.map_eq_some_iff.mp (Except.ok.inj h)
      exact ⟨σ, x, σ', rfl, hx, hσ', rfl⟩

/--
closure の panic は新しい状態を作らない。

どの closure がどの呼び出しで panic してもよい実行で着く cache は、panic の無い実行で着く cache と
同じである。したがって、到達可能な cache についての性質は全て、panic の後にも成り立つ。
-/
theorem closure_panics_add_no_state :
    ((riskyLts K V w cap hasher requested).restrict fun _ a => a.2.closureOnly = true).Reachable c ↔
      CacheReachable w cap hasher requested c := by
  constructor
  · intro h
    induction h with
    | init hinit => exact .init hinit
    | @step c c' a _ hs ih =>
      obtain ⟨hop, htarget, hstep⟩ := hs
      obtain ⟨σ, x, σ', hσ, hexec, hx, rfl⟩ := onShardRisky_ok hstep
      obtain ⟨op', hkey, r, hr⟩ := risky_plain hop hexec hx
      have htargets : op'.Targets w c a.1 := by
        cases op' with
        | key k kop => exact htarget k (hkey k kop rfl)
        | _ => trivial
      refine ih.step (a := (a.1, op')) ⟨htargets, r, ?_⟩
      simp only [NeoCache.onShard, hσ, hr]
      rfl
  · intro h
    induction h with
    | init hinit => exact .init hinit
    | @step c c' a _ hs ih =>
      obtain ⟨htarget, r, hstep⟩ := hs
      obtain ⟨σ, σ', hσ, hexec, rfl⟩ := onShard_ok hstep
      refine ih.step (a := (a.1, .plain a.2)) ⟨rfl, ?_, ?_⟩
      · intro k hk
        obtain ⟨i, op⟩ := a
        cases op with
        | key k' kop =>
          cases hk
          exact htarget
        | _ => cases hk
      · simp only [NeoCache.onShardRisky, hσ, RiskyOp.exec, hexec]
        rfl

/-- panic を含む実行でも、hasher と全ての shard の不変条件は保たれる。 -/
theorem risky_upheld {l : NeoCache.Layout} (hl : NeoCache.layout w cap requested = .ok l)
    (h : (riskyLts K V w cap hasher requested).Reachable c) :
    c.hasher = hasher ∧ ∀ (i : Nat) σ, c.shards[i]? = some σ → Upheld hasher l.shardCap σ := by
  refine Lts.Reachable.invariant (P := fun c : NeoCache K V => c.hasher = hasher ∧
    ∀ (i : Nat) σ, c.shards[i]? = some σ → Upheld hasher l.shardCap σ) ?_ ?_ h
  · intro c hinit
    obtain ⟨l', hl', hhasher, -, hshards⟩ := built_ok hinit
    rw [hl] at hl'
    cases hl'
    refine ⟨hhasher, fun i σ hσ => ?_⟩
    rw [hshards] at hσ
    obtain rfl := List.eq_of_mem_replicate (List.mem_of_getElem? hσ)
    exact upheld_new _
  · rintro c ⟨i, op⟩ c' - ⟨hhasher, hshards⟩ ⟨-, hstep⟩
    obtain ⟨σ, x, σ', hσ, hexec, hx, rfl⟩ := onShardRisky_ok hstep
    rw [hhasher] at hexec
    have hi := hshards i σ hσ
    refine ⟨hhasher, fun j τ hτ => ?_⟩
    simp only [List.getElem?_set] at hτ
    split at hτ
    · split at hτ
      · cases hτ
        exact hi.moves (risky_moves hi.linked hexec hx)
      · cases hτ
    · exact hshards j τ hτ

/--
panic は後の操作を壊さない。

closure も key の `clone` もどこで panic してもよい実行で着く cache では、二本の queue と表の対応が
保たれ、どの shard も容量を超えず、次のどの操作も（再び panic しうるものも）underflow や終わらない
loop にならずに終わる。
-/
theorem panics_harmless {l : NeoCache.Layout} (hl : NeoCache.layout w cap requested = .ok l)
    (h : (riskyLts K V w cap hasher requested).Reachable c) {i : Nat} {σ : ShardData K V}
    (hσ : c.shards[i]? = some σ) :
    Linked hasher σ ∧ Covered σ ∧ (0 < l.shardCap → σ.map.len ≤ l.shardCap) ∧
      ∀ op : RiskyOp K V, ∃ x, op.exec c.hasher σ = .ok x := by
  obtain ⟨hhasher, hshards⟩ := risky_upheld hl h
  have hi := hshards i σ hσ
  refine ⟨hi.linked, hi.covered, fun hcap => ?_, fun op => ?_⟩
  · exact hi.len_le hcap
  · rw [hhasher]
    exact risky_ok hi.linked hi.healthy_or op

theorem panics_harmless_clone : ∃ (c : NeoCache Nat Nat) (σ : ShardData Nat Nat),
    (riskyLts Nat Nat ⟨64, by decide⟩ 4 (fun _ => 0) 2).Reachable c ∧ c.shards[0]? = some σ ∧
      σ.map.keys = [1] ∧ σ.totalLive = 1 ∧ Linked (fun _ => 0) σ ∧ Covered σ ∧
      (0 < 2 → σ.map.len ≤ 2) ∧ ∀ op : RiskyOp Nat Nat, ∃ x, op.exec c.hasher σ = .ok x := by
  have hlayout : NeoCache.layout ⟨64, by decide⟩ 4 2 = .ok ⟨2, 63, 2⟩ := rfl
  have hnew : NeoCache.withCapacityAndHasherAndShardAmount ⟨64, by decide⟩ 4 (fun _ => 0) 2
      = .ok (⟨63, [.new 2, .new 2], fun _ => 0, 4⟩ : NeoCache Nat Nat) := rfl
  have h₁ : (riskyLts Nat Nat ⟨64, by decide⟩ 4 (fun _ => 0) 2).Reachable
      (⟨63, [(ShardData.new 2).register 0 0 7 .small, .new 2], fun _ => 0, 4⟩ : NeoCache Nat Nat) :=
    .step (a := (0, .plain (.key 0 (.insert 7)))) (.init hnew)
      ⟨fun k hk => by cases hk; rfl, rfl⟩
  have h₂ : (riskyLts Nat Nat ⟨64, by decide⟩ 4 (fun _ => 0) 2).Reachable
      (⟨63, [((ShardData.new 2).register 0 0 7 .small).register 0 1 8 .small, .new 2], fun _ => 0,
        4⟩ : NeoCache Nat Nat) :=
    .step (a := (0, .plain (.key 1 (.insert 8)))) h₁ ⟨fun k hk => by cases hk; rfl, rfl⟩
  -- 三つ目の挿入は、key 0 を追い出した後の `clone` で panic する
  obtain ⟨c, σ, hstep, hσ, hkeys, hlive⟩ : ∃ c σ,
      (⟨63, [((ShardData.new 2).register 0 0 7 .small).register 0 1 8 .small, .new 2], fun _ => 0,
        4⟩ : NeoCache Nat Nat).onShardRisky 0 (.insert 2 9) = .ok (some c) ∧
      c.shards[0]? = some σ ∧ σ.map.keys = [1] ∧ σ.totalLive = 1 := ⟨_, _, rfl, rfl, rfl, rfl⟩
  have h₃ : (riskyLts Nat Nat ⟨64, by decide⟩ 4 (fun _ => 0) 2).Reachable c :=
    .step (a := (0, .insert 2 9)) h₂ ⟨fun k hk => by cases hk; rfl, hstep⟩
  exact ⟨c, σ, h₃, hσ, hkeys, hlive, panics_harmless hlayout h₃ hσ⟩

end Neocache
