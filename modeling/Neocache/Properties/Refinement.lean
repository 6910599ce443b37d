import Neocache.Infra.Lists
import Neocache.Properties.Capacity
import Neocache.Properties.Eviction
import Neocache.Spec.LossyMap

/-!
# cache は落とすことのある写像を実現する

shard の表を合わせた写像（`NeoCache.contents`）の上で、
到達可能な cache の各操作が `LossyMap.Step` の一歩になることを示す（`refines_lossyMap`）。

表を合わせて写像になるのは、key がいつも hash の選ぶ shard にしか入らないからである（`Routed`）。
-/

namespace Neocache

open Infra Relation ShardData

variable {K V : Type*} [DecidableEq K] {hash hasher : K → UInt64} {σ σ' : ShardData K V}
  {w : Word} {cap requested : Nat} {c c' : NeoCache K V}

/-! ## shard 一つの操作と写像 -/

omit [DecidableEq K] in
theorem onPresent_agree (op : KeyOp K V) (k : K) (e : CacheEntry V) :
    LossyMap.onPresent op k e.value
      = ((op.onPresent k e).1, (op.onPresent k e).2.map CacheEntry.value) := by
  cases op
  case removeIf p =>
    by_cases h : p k e.value = true <;> simp [LossyMap.onPresent, KeyOp.onPresent, h]
  case removeIfMut p =>
    by_cases h : (p k e.value).1 = true <;> simp [LossyMap.onPresent, KeyOp.onPresent, h]
  all_goals simp [LossyMap.onPresent, KeyOp.onPresent]

omit [DecidableEq K] in
theorem onAbsent_agree (op : KeyOp K V) : LossyMap.onAbsent op = (op.absentRet, op.newValue) := by
  cases op
  case orTryInsertWith value =>
    cases h : value () <;> simp [LossyMap.onAbsent, KeyOp.absentRet, KeyOp.newValue, h]
  all_goals rfl

theorem put_lookup {k : K} {e : CacheEntry V} (hk : σ.map.get? k = some e)
    (o : Option (CacheEntry V)) :
    (σ.put k e o).lookup = Function.update σ.lookup k (o.map CacheEntry.value) := by
  funext x
  unfold lookup
  rw [put_get? hk]
  by_cases hx : x = k
  · simp [hx]
  · simp [hx]

/-- 新しい key を入れる操作は失敗せず、落とすのは高々一つで、容量が 0 なら落とさない。 -/
theorem fresh_lookup {k : K} {v : V} {op : KeyOp K V} (h : ShardReachable hash cap σ)
    (hk : σ.map.get? k = none) (hv : op.newValue = some v) :
    ∃ σ', op.exec (hash k) k σ = .ok (op.absentRet, σ') ∧
      (σ'.lookup = Function.update σ.lookup k (some v) ∨
        0 < cap ∧ ∃ k', σ.lookup k' ≠ none ∧ k' ≠ k ∧
          σ'.lookup = Function.update (Function.update σ.lookup k' none) k (some v)) := by
  by_cases hover : σ.Over
  · have hcap : 0 < cap := by
      have hpos := hover.1
      rwa [h.caps.1] at hpos
    -- 満杯なら、ghost を見た後の追い出しがちょうど一つを落とす
    have hs : Healthy hash (σ.ghostCheck (hash k)).2 :=
      Move.healthy (Or.inr (.takeGhost _)) (h.healthy hcap)
    obtain ⟨σ₁, hloop, -, -, k', hk', hlookup, -⟩ := evictLoop_total hs hover
    refine ⟨_, exec_fresh h.linked hk hv hloop, Or.inr ⟨hcap, k', hk', ?_, ?_⟩⟩
    · rintro rfl
      exact hk' (lookup_eq_none.mpr hk)
    · rw [lookup_register, hlookup]
      rfl
  · exact ⟨_, (insertion_room h.linked hk hv hover).2, Or.inl (lookup_register _ _ _ _ _)⟩

theorem retain_lookup_old {f : Nat → K → V → Bool × V} {n : Nat} {x : K}
    (hx : (σ.retain f n).2.lookup x ≠ none) : σ.lookup x ≠ none := by
  cases hget : (σ.retain f n).2.map.get? x with
  | none => exact absurd (lookup_eq_none.mpr hget) hx
  | some e' =>
    obtain ⟨e, he, -⟩ := retain_loc σ f n hget
    rw [Ne, lookup_eq_none, he]
    simp

/-- 操作の後に表にある key は、元からあったか、操作の対象である。 -/
theorem exec_lookup_old {op : ShardOp K V} {r : Ret K V} (h : ShardReachable hash cap σ)
    (hexec : op.exec hash σ = .ok (r, σ')) {x : K} (hx : σ'.lookup x ≠ none) :
    σ.lookup x ≠ none ∨ ∃ kop, op = .key x kop := by
  cases exec_outcome h.linked hexec with
  | @present k op e hk =>
    rw [put_lookup hk] at hx
    by_cases hxk : x = k
    · exact Or.inr ⟨op, by rw [hxk]⟩
    · rw [Function.update_of_ne hxk] at hx
      exact Or.inl hx
  | idle => exact Or.inl hx
  | @fresh k op v σ₁ hk hv hev =>
    by_cases hxk : x = k
    · exact Or.inr ⟨op, by rw [hxk]⟩
    · left
      obtain ⟨-, hsw, -⟩ := fresh_moves (v := v) h.linked hk hev
      rw [lookup_register, Function.update_of_ne hxk] at hx
      intro hnone
      exact hx (lookup_eq_none.mpr (sweep_absent hsw (lookup_eq_none.mp hnone)))
  | retain f n => exact Or.inl (retain_lookup_old hx)
  | alterAll f n => exact Or.inl (retain_lookup_old hx)
  | clearAll => exact absurd rfl hx

/-! ## shard を合わせた写像 -/

/-- 全ての shard の表を合わせた写像。 -/
def NeoCache.contents (c : NeoCache K V) (k : K) : Option V :=
  c.shards.findSome? fun σ => σ.lookup k

/-- 表にある key は、hash の選ぶ番号の shard にある。 -/
def Routed (w : Word) (c : NeoCache K V) : Prop :=
  ∀ (i : Nat) σ, c.shards[i]? = some σ → ∀ k, σ.lookup k ≠ none → c.shardIndex w k = .ok i

theorem CacheReachable.routed {l : NeoCache.Layout} (hl : NeoCache.layout w cap requested = .ok l)
    (h : CacheReachable w cap hasher requested c) : Routed w c := by
  refine Lts.Reachable.invariant (P := Routed w) ?_ ?_ h
  · intro c hinit i σ hσ k hk
    obtain ⟨l', -, -, -, hshards⟩ := built_ok hinit
    rw [hshards] at hσ
    obtain ⟨-, rfl⟩ := List.mem_replicate.mp (List.mem_of_getElem? hσ)
    exact absurd rfl hk
  · rintro c ⟨i, op⟩ c' hr hrouted ⟨htarget, r, hstep⟩ j τ hτ k hk
    obtain ⟨σ, σ', hσ, hexec, rfl⟩ := onShard_ok hstep
    have hc := CacheReachable.laid hl hr
    rw [List.getElem?_set] at hτ
    split at hτ
    · next hij =>
      split at hτ
      · cases hτ
        subst hij
        -- この shard に元から無かった key が現れるのは、hash がここを選んだときだけである
        rcases exec_lookup_old (hc.shards i σ hσ) (hc.hasher_eq ▸ hexec) hk with hold | ⟨kop, rfl⟩
        · exact hrouted i σ hσ k hold
        · exact htarget
      · cases hτ
    · exact hrouted j τ hτ k hk

theorem Routed.contents_eq (h : Routed w c) {k : K} {i : Nat} (hi : c.shardIndex w k = .ok i)
    (hσ : c.shards[i]? = some σ) : c.contents k = σ.lookup k := by
  refine findSome?_unique hσ ?_
  intro j τ hτ hne
  have hj := h j τ hτ k hne
  rw [hi] at hj
  exact (Except.ok.inj hj).symm

/-! ## key 一つの操作 -/

/-- 選んだ shard での操作が成功すれば、cache の操作も成功する。 -/
theorem keyOp_ok {k : K} {op : KeyOp K V} {r : Ret K V} {i : Nat}
    (hi : c.shardIndex w k = .ok i) (hσ : c.shards[i]? = some σ)
    (hexec : op.exec (c.hasher k) k σ = .ok (r, σ')) :
    c.keyOp w k op = .ok (r, { c with shards := c.shards.set i σ' }) := by
  unfold NeoCache.keyOp NeoCache.onShard
  simp only [hi, hσ, ShardOp.exec, hexec]
  rfl

/-- 落とした後に入れた写像を、合わせた写像の側で言い直す。 -/
theorem update_drop_single {A : K → Option V} {k k' : K} (v : V) :
    Function.update (LossyMap.drop A {k'}) k (some v)
      = Function.update (Function.update A k' none) k (some v) := by
  congr 1
  funext x
  by_cases hx : x = k'
  · simp [LossyMap.drop, hx]
  · simp [LossyMap.drop, hx]

omit [DecidableEq K] in
theorem drop_empty (A : K → Option V) : LossyMap.drop A ∅ = A := by
  funext x
  simp [LossyMap.drop]

section

variable {l : NeoCache.Layout} (hsize : cap < w.size)
    (hreq : NeoCache.Accepted w requested) (hl : NeoCache.layout w cap requested = .ok l)

include hsize hreq hl

/-- どの key にも、範囲内の shard が一つ決まる。 -/
theorem CacheReachable.home (h : CacheReachable w cap hasher requested c) (k : K) :
    ∃ i σ, c.shardIndex w k = .ok i ∧ c.shards[i]? = some σ := by
  obtain ⟨i, h0, hi, hl'⟩ := NeoCache.layout_ok hsize hreq
  rw [hl] at hl'
  cases hl'
  have hc := h.laid hl
  obtain ⟨j, hj, hdet⟩ := NeoCache.determineShard_lt (h := c.hashUsize w k) h0 hi hc.shift
  have hlt : j < c.shards.length := by rw [hc.count]; exact hj
  exact ⟨j, c.shards[j], hdet, List.getElem?_eq_getElem hlt⟩

/-- shard 一つを取り替えた後の写像。他の shard に置かれる key は動かない。 -/
theorem contents_set (hr : CacheReachable w cap hasher requested c) {i : Nat} (hσ : c.shards[i]? = some σ)
    (hr' : CacheReachable w cap hasher requested { c with shards := c.shards.set i σ' }) (x : K) :
    NeoCache.contents { c with shards := c.shards.set i σ' } x
      = if c.shardIndex w x = .ok i then σ'.lookup x else c.contents x := by
  have hlt := (List.getElem?_eq_some_iff.mp hσ).1
  obtain ⟨j, τ, hj, hτ⟩ := hr.home hsize hreq hl x
  by_cases hij : j = i
  · subst hij
    have hnew : (c.shards.set j σ')[j]? = some σ' := by simp [hlt]
    rw [if_pos hj]
    exact (hr'.routed hl).contents_eq hj hnew
  · have hkeep : (c.shards.set i σ')[j]? = some τ := by
      rw [List.getElem?_set_ne (Ne.symm hij)]
      exact hτ
    have hne : ¬ c.shardIndex w x = .ok i := by
      rw [hj]
      intro he
      exact hij (Except.ok.inj he)
    rw [if_neg hne, (hr.routed hl).contents_eq hj hτ]
    exact (hr'.routed hl).contents_eq hj hkeep

/-- shard の中の書き換えは、合わせた写像でも同じ書き換えになる。 -/
theorem contents_update (hr : CacheReachable w cap hasher requested c) {i : Nat} {k : K}
    {o : Option V} (hi : c.shardIndex w k = .ok i) (hσ : c.shards[i]? = some σ)
    (hr' : CacheReachable w cap hasher requested { c with shards := c.shards.set i σ' })
    (hlookup : σ'.lookup = Function.update σ.lookup k o) :
    NeoCache.contents { c with shards := c.shards.set i σ' } = Function.update c.contents k o := by
  funext x
  rw [contents_set hsize hreq hl hr hσ hr', hlookup]
  by_cases hx : x = k
  · subst hx
    rw [if_pos hi, Function.update_self, Function.update_self]
  · rw [Function.update_of_ne hx, Function.update_of_ne hx]
    split
    · next hxi => rw [(hr.routed hl).contents_eq hxi hσ]
    · rfl

/-- shard に容量があるのは、cache に容量があるときだけである。 -/
theorem cap_pos_of_shardCap (h : 0 < l.shardCap) : 0 < cap := by
  obtain ⟨i, -, -, hl'⟩ := NeoCache.layout_ok hsize hreq
  rw [hl] at hl'
  cases hl'
  by_contra hz
  have hzero : cap = 0 := by omega
  simp [hzero] at h

theorem keyOp_refines (hr : CacheReachable w cap hasher requested c) (k : K) (op : KeyOp K V) :
    ∃ r c', c.keyOp w k op = .ok (r, c') ∧
      LossyMap.Step (c.shardIndex w) (0 < cap) (.key k op) c.contents (.key r) c'.contents := by
  obtain ⟨i, σ, hi, hσ⟩ := hr.home hsize hreq hl k
  have hc := hr.laid hl
  have hrouted := hr.routed hl
  have hs := hc.shards i σ hσ
  have hhome := hrouted.contents_eq hi hσ
  have hbounded := cap_pos_of_shardCap hsize hreq hl
  have hnext : ∀ {r σ'}, op.exec (c.hasher k) k σ = .ok (r, σ') →
      CacheReachable w cap hasher requested { c with shards := c.shards.set i σ' } := by
    intro r σ' hexec
    have hstep : c.exec w (.key k op) = .ok (.key r, { c with shards := c.shards.set i σ' }) := by
      rw [NeoCache.exec, keyOp_ok hi hσ hexec]
      rfl
    exact hr.exec hl hstep
  cases hk : σ.map.get? k with
  | some e =>
    have hexec := exec_present hs.linked hk op
    rw [← hc.hasher_eq] at hexec
    have hv : c.contents k = some e.value := by rw [hhome, lookup, hk]; rfl
    have hstep : LossyMap.Step (c.shardIndex w) (0 < cap) (.key k op) c.contents _ _ := .present hv
    rw [onPresent_agree] at hstep
    refine ⟨_, _, keyOp_ok hi hσ hexec, ?_⟩
    rw [contents_update hsize hreq hl hr hi hσ (hnext hexec) (put_lookup hk _)]
    exact hstep
  | none =>
    have hnone : c.contents k = none := by rw [hhome]; exact lookup_eq_none.mpr hk
    have habsent := onAbsent_agree op
    cases hv : op.newValue with
    | none =>
      -- 何も入れない操作では shard がそのまま戻る
      have hexec := exec_absent hs.linked hk op
      rw [hv, ← hc.hasher_eq] at hexec
      have hself : c.shards.set i σ = c.shards := by
        obtain ⟨hlt, rfl⟩ := List.getElem?_eq_some_iff.mp hσ
        exact List.set_getElem_self hlt
      have hstep : LossyMap.Step (c.shardIndex w) (0 < cap) (.key k op) c.contents _ _ :=
        .absent hnone (by rw [habsent, hv])
      rw [habsent] at hstep
      refine ⟨_, _, keyOp_ok hi hσ hexec, ?_⟩
      rw [hself]
      exact hstep
    | some v =>
      obtain ⟨σ', hexec, hlookup⟩ := fresh_lookup hs hk hv
      rw [← hc.hasher_eq] at hexec
      refine ⟨_, _, keyOp_ok hi hσ hexec, ?_⟩
      have hret : op.absentRet = (LossyMap.onAbsent op).1 := by rw [habsent]
      rw [hret]
      rcases hlookup with hkeep | ⟨hpos, k', hk', hne, hlost⟩
      · have hstep : LossyMap.Step (c.shardIndex w) (0 < cap) (.key k op) c.contents _ _ :=
          .fresh ∅ hnone (by rw [habsent, hv]) (fun x hx => hx.elim) fun _ => rfl
        rw [drop_empty] at hstep
        rw [contents_update hsize hreq hl hr hi hσ (hnext hexec) hkeep]
        exact hstep
      · -- 追い出された key は同じ shard にあったので、入れる key と同じ番号に割り当てられる
        have hhome' : c.shardIndex w k' = .ok i := hrouted i σ hσ k' hk'
        have hlost' : ∀ x ∈ ({k'} : Set K), x ≠ k ∧ c.shardIndex w x = c.shardIndex w k := by
          rintro x rfl
          exact ⟨hne, hhome'.trans hi.symm⟩
        have hstep : LossyMap.Step (c.shardIndex w) (0 < cap) (.key k op) c.contents _ _ :=
          .fresh {k'} hnone (by rw [habsent, hv]) hlost' fun hz => absurd (hbounded hpos) hz
        rw [update_drop_single] at hstep
        have hcontents : NeoCache.contents { c with shards := c.shards.set i σ' }
            = Function.update (Function.update c.contents k' none) k (some v) := by
          funext x
          rw [contents_set hsize hreq hl hr hσ (hnext hexec), hlost]
          by_cases hx : x = k
          · subst hx
            rw [if_pos hi, Function.update_self, Function.update_self]
          · rw [Function.update_of_ne hx, Function.update_of_ne hx]
            by_cases hx' : x = k'
            · subst hx'
              rw [if_pos hhome', Function.update_self, Function.update_self]
            · rw [Function.update_of_ne hx', Function.update_of_ne hx']
              split
              · next hxi => rw [hrouted.contents_eq hxi hσ]
              · rfl
        rw [hcontents]
        exact hstep

/-- 読み出しは写像を変えず、写像の値を返す。 -/
theorem get_refines (hr : CacheReachable w cap hasher requested c) (k : K) :
    ∃ c', c.keyOp w k .get = .ok (.value (c.contents k), c') ∧ c'.contents = c.contents := by
  obtain ⟨r, c', hop, hstep⟩ := keyOp_refines hsize hreq hl hr k .get
  -- 一歩の場合分けができるよう、返り値と写像を変数にしておく
  generalize hret : CacheRet.key r = r' at hstep
  generalize hA : c'.contents = A' at hstep
  cases hstep with
  | @present _ _ v _ hk =>
    cases hret
    refine ⟨c', ?_, ?_⟩
    · rw [hop, hk]; rfl
    · rw [hA]
      funext x
      by_cases hx : x = k
      · subst hx; simp [LossyMap.onPresent, hk]
      · simp [hx]
  | absent hk hv =>
    cases hret
    exact ⟨c', by rw [hop, hk]; rfl, hA⟩
  | fresh lost hk hv => cases hv

end

/-! ## 全体の操作 -/

/-- shard の表にある対。 -/
def ShardData.pairs (σ : ShardData K V) : List (K × V) :=
  σ.map.slots.map fun s => (s.key, s.val.value)

theorem mem_pairs {k : K} {v : V} : (k, v) ∈ σ.pairs ↔ σ.lookup k = some v := by
  unfold pairs lookup
  rw [List.mem_map, Option.map_eq_some_iff]
  constructor
  · rintro ⟨s, hs, heq⟩
    cases heq
    exact ⟨s.val, Table.get?_of_mem hs, rfl⟩
  · rintro ⟨e, he, rfl⟩
    obtain ⟨s, hs, rfl, rfl⟩ := Table.get?_eq_some.mp he
    exact ⟨s, hs, rfl⟩

/-- 反復は、写像の対を一度ずつ返す。 -/
theorem iter_enumerates (h : Routed w c) : LossyMap.Enumerates c.iter c.contents := by
  constructor
  · have hkeys : c.iter.map Prod.fst = c.shards.flatMap fun σ => σ.map.keys := by
      unfold NeoCache.iter Table.keys
      rw [List.map_flatMap]
      simp only [List.map_map]
      rfl
    rw [hkeys, List.nodup_flatMap]
    refine ⟨fun σ _ => σ.map.nodup_keys, ?_⟩
    rw [List.pairwise_iff_getElem]
    intro i j hi hj hij k hki hkj
    -- 同じ key が二つの shard にあれば、選ばれる番号が二つになる
    have hlive : ∀ (n : Nat) (hn : n < c.shards.length), k ∈ c.shards[n].map.keys →
        c.shardIndex w k = .ok n := by
      intro n hn hmem
      obtain ⟨e, he⟩ := Table.mem_keys_iff.mp hmem
      refine h n _ (List.getElem?_eq_getElem hn) k ?_
      rw [Ne, lookup_eq_none, he]
      simp
    have hboth := (hlive i hi hki).symm.trans (hlive j hj hkj)
    have hijeq : i = j := Except.ok.inj hboth
    omega
  · intro k v
    unfold NeoCache.iter
    rw [List.mem_flatMap]
    constructor
    · rintro ⟨σ, hσ, hmem⟩
      obtain ⟨i, hi⟩ := List.mem_iff_getElem?.mp hσ
      have hv : σ.lookup k = some v := mem_pairs.mp hmem
      have hhome := h i σ hi k (by rw [hv]; simp)
      rw [h.contents_eq hhome hi, hv]
    · intro hv
      obtain ⟨σ, hσ, hlookup⟩ := List.exists_of_findSome?_eq_some hv
      exact ⟨σ, hσ, mem_pairs.mpr hlookup⟩

omit [DecidableEq K] in
theorem retainPairs_append (f : Nat → K → V → Bool × V) :
    ∀ (n : Nat) (l l' : List (K × V)), LossyMap.retainPairs f n (l ++ l')
      = LossyMap.retainPairs f n l ++ LossyMap.retainPairs f (n + l.length) l'
  | _, [], _ => rfl
  | n, (k, v) :: l, l' => by
    have ih := retainPairs_append f (n + 1) l l'
    have hn : n + 1 + l.length = n + (l.length + 1) := by omega
    rw [hn] at ih
    simp only [List.cons_append, LossyMap.retainPairs, List.length_cons, ih]
    split <;> rfl

omit [DecidableEq K] in
theorem retainSlots_pairs (f : Nat → K → V → Bool × V) :
    ∀ (n : Nat) (l : List (Slot UInt64 K (CacheEntry V))),
      (retainSlots f n l).map (fun s => (s.key, s.val.value))
        = LossyMap.retainPairs f n (l.map fun s => (s.key, s.val.value))
  | _, [] => rfl
  | n, s :: l => by
    have ih := retainSlots_pairs f (n + 1) l
    unfold retainSlots
    simp only [List.map_cons, LossyMap.retainPairs]
    split
    · rw [List.map_cons, ih]
    · exact ih

theorem foldl_retainOne_count (f : Nat → K → V → Bool × V) :
    ∀ (l : List (Slot UInt64 K (CacheEntry V))) (n : Nat) (σ : ShardData K V),
      (l.foldl (retainOne f) (n, σ)).1 = n + l.length
  | [], _, _ => rfl
  | s :: l, n, σ => by
    rw [List.foldl_cons]
    have ih := foldl_retainOne_count f l (n + 1) (retainOne f (n, σ) s).2
    rw [List.length_cons, show n + (l.length + 1) = n + 1 + l.length by omega]
    exact ih

/-- shard を順に訪ねる `retain` は、対の並び全体を一つの番号付けで処理する。 -/
theorem visit_retain_pairs (f : Nat → K → V → Bool × V) :
    ∀ (n : Nat) (l : List (ShardData K V)),
      (NeoCache.visitShards (fun n σ => σ.retain f n) n l).2.flatMap pairs
        = LossyMap.retainPairs f n (l.flatMap pairs)
  | _, [] => rfl
  | n, σ :: l => by
    have ih := visit_retain_pairs f (σ.retain f n).1 l
    have hcount : (σ.retain f n).1 = n + σ.pairs.length := by
      unfold retain pairs
      rw [foldl_retainOne_count, List.length_map]
    have hpairs : (σ.retain f n).2.pairs = LossyMap.retainPairs f n σ.pairs := by
      unfold pairs
      rw [(retain_spec σ f n).1, retainSlots_pairs]
    simp only [NeoCache.visitShards, List.flatMap_cons]
    rw [ih, hcount, hpairs, retainPairs_append]

theorem retain_iter (c : NeoCache K V) (f : Nat → K → V → Bool × V) :
    (c.retain f).iter = LossyMap.retainPairs f 0 c.iter :=
  visit_retain_pairs f 0 c.shards

theorem alterAll_iter (c : NeoCache K V) (f : Nat → K → V → V) :
    (c.alterAll f).iter = LossyMap.retainPairs (fun n k v => (true, f n k v)) 0 c.iter := by
  have h : (fun n (σ : ShardData K V) => σ.alterAll f n)
      = fun n σ => σ.retain (fun n k v => (true, f n k v)) n := by
    funext n σ
    exact alterAll_eq_retain σ f n
  unfold NeoCache.alterAll
  rw [h]
  exact visit_retain_pairs _ 0 c.shards

theorem clear_contents (c : NeoCache K V) : c.clear.contents = fun _ => none := by
  funext k
  unfold NeoCache.contents NeoCache.clear
  rw [List.findSome?_eq_none_iff]
  intro σ hσ
  obtain ⟨τ, -, rfl⟩ := List.mem_map.mp hσ
  rfl

/--
到達可能な cache では、どの操作も失敗せず、合わせた写像の上で `LossyMap.Step` の一歩になる。

`view`、`contains_key`、`try_get` は `get` を通るので、写像を変えずにその値を報告する。
-/
theorem refines_lossyMap {R : Type*} (hsize : cap < w.size) (hreq : NeoCache.Accepted w requested)
    (hr : CacheReachable w cap hasher requested c) :
    (∀ op, ∃ r c', c.exec w op = .ok (r, c') ∧
      LossyMap.Step (c.shardIndex w) (0 < cap) op c.contents r c'.contents) ∧
    (∀ k, ∃ c', c.containsKey w k = .ok ((c.contents k).isSome, c') ∧ c'.contents = c.contents) ∧
    (∀ k (f : K → V → R), ∃ c', c.view w k f = .ok ((c.contents k).map (f k), c') ∧
      c'.contents = c.contents) ∧
    (∀ k, c.tryGet w true k = .ok (.locked, c)) ∧
    ∀ k, ∃ c', c.tryGet w false k = .ok ((c.contents k).elim .absent .present, c') ∧
      c'.contents = c.contents := by
  obtain ⟨i, -, -, hl⟩ := NeoCache.layout_ok hsize hreq
  have hget := get_refines hsize hreq hl hr
  refine ⟨?_, ?_, ?_, fun k => rfl, ?_⟩
  · intro op
    cases op with
    | key k op =>
      obtain ⟨r, c', hop, hstep⟩ := keyOp_refines hsize hreq hl hr k op
      exact ⟨.key r, c', by rw [NeoCache.exec, hop]; rfl, hstep⟩
    | iter => exact ⟨_, c, rfl, .iter (iter_enumerates (hr.routed hl))⟩
    | retain f =>
      have hexec : c.exec w (.retain f) = .ok (.unit, c.retain f) := rfl
      have hr' := hr.exec hl hexec
      refine ⟨_, _, hexec, .retain (iter_enumerates (hr.routed hl)) ?_⟩
      rw [← retain_iter]
      exact iter_enumerates (hr'.routed hl)
    | alterAll f =>
      have hexec : c.exec w (.alterAll f) = .ok (.unit, c.alterAll f) := rfl
      have hr' := hr.exec hl hexec
      refine ⟨_, _, hexec, .alterAll (iter_enumerates (hr.routed hl)) ?_⟩
      rw [← alterAll_iter]
      exact iter_enumerates (hr'.routed hl)
    | clear =>
      refine ⟨_, _, rfl, ?_⟩
      rw [clear_contents]
      exact .clear
  · intro k
    obtain ⟨c', hop, hsame⟩ := hget k
    refine ⟨c', ?_, hsame⟩
    rw [NeoCache.containsKey, hop]
    cases c.contents k <;> rfl
  · intro k f
    obtain ⟨c', hop, hsame⟩ := hget k
    refine ⟨c', ?_, hsame⟩
    rw [NeoCache.view, hop]
    cases c.contents k <;> rfl
  · intro k
    obtain ⟨c', hop, hsame⟩ := hget k
    refine ⟨c', ?_, hsame⟩
    rw [NeoCache.tryGet, if_neg (by simp), hop]
    cases c.contents k <;> rfl

/-- 一杯の shard では、ある key への挿入は値を置き換え、新しい key の挿入は古い key を追い出す。 -/
theorem refines_lossyMap_insert :
    ∃ c : NeoCache Nat Nat, CacheReachable ⟨64, by decide⟩ 4 UInt64.ofNat 2 c ∧
      (c.contents 0 = some 7 ∧ c.contents 1 = some 8 ∧ c.contents 2 = none) ∧
      (∃ c', c.exec ⟨64, by decide⟩ (.key 0 (.insert 9)) = .ok (.key (.value (some 7)), c') ∧
        c'.contents 0 = some 9 ∧
        LossyMap.Step (c.shardIndex ⟨64, by decide⟩) (0 < 4) (.key 0 (.insert 9)) c.contents
          (.key (.value (some 7))) c'.contents) ∧
      ∃ c', c.exec ⟨64, by decide⟩ (.key 2 (.insert 10)) = .ok (.key (.value none), c') ∧
        (c'.contents 0 = none ∧ c'.contents 2 = some 10) ∧
        LossyMap.Step (c.shardIndex ⟨64, by decide⟩) (0 < 4) (.key 2 (.insert 10)) c.contents
          (.key (.value none)) c'.contents := by
  have hempty : CacheReachable ⟨64, by decide⟩ 4 UInt64.ofNat 2
      (⟨63, [.new 2, .new 2], UInt64.ofNat, 4⟩ : NeoCache Nat Nat) := .init rfl
  obtain ⟨c, hr, hcontents, ⟨c₁, hexec₁, hnew⟩, ⟨c₂, hexec₂, hlost⟩⟩ : ∃ c : NeoCache Nat Nat,
      CacheReachable ⟨64, by decide⟩ 4 UInt64.ofNat 2 c ∧
        (c.contents 0 = some 7 ∧ c.contents 1 = some 8 ∧ c.contents 2 = none) ∧
        (∃ c', c.exec ⟨64, by decide⟩ (.key 0 (.insert 9)) = .ok (.key (.value (some 7)), c') ∧
          c'.contents 0 = some 9) ∧
        ∃ c', c.exec ⟨64, by decide⟩ (.key 2 (.insert 10)) = .ok (.key (.value none), c') ∧
          c'.contents 0 = none ∧ c'.contents 2 = some 10 := by
    have hone := Lts.Reachable.step hempty
      (show (cacheLts Nat Nat _ _ _ _).step _ (0, .key 0 (.insert 7)) _ from ⟨rfl, _, rfl⟩)
    have htwo := Lts.Reachable.step hone
      (show (cacheLts Nat Nat _ _ _ _).step _ (0, .key 1 (.insert 8)) _ from ⟨rfl, _, rfl⟩)
    exact ⟨_, htwo, ⟨rfl, rfl, rfl⟩, ⟨_, rfl, rfl⟩, _, rfl, rfl, rfl⟩
  have hrefines := (refines_lossyMap (R := Nat) (by decide) (by decide) hr).1
  refine ⟨c, hr, hcontents, ⟨c₁, hexec₁, hnew, ?_⟩, c₂, hexec₂, hlost, ?_⟩
  · obtain ⟨r, c', hexec, hstep⟩ := hrefines (.key 0 (.insert 9))
    cases hexec₁.symm.trans hexec
    exact hstep
  · obtain ⟨r, c', hexec, hstep⟩ := hrefines (.key 2 (.insert 10))
    cases hexec₂.symm.trans hexec
    exact hstep

end Neocache
