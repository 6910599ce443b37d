import Mathlib.Data.List.Forall2
import Neocache.Cache.Bulk
import Neocache.Cache.Runs
import Neocache.Infra.Lists
import Neocache.Properties.Frequency
import Neocache.Properties.Refinement
import Neocache.Properties.Upheld
import Neocache.Shard.Values

/-!
# `clone` で写した cache

`clone` は shard を順に訪ね、共有 lock の下で entry を一つずつ写す。途中に他の thread の操作が
挟まるので、写した cache は元の cache のどの瞬間の姿でもないことがある。それでも shard ごとに見れば、
その lock を放した瞬間の写しであり、ずれるのは写している間に読まれた entry の freq だけである
（`ShardCopies`、`Snapshot`）。

この程度のずれは不変条件に響かない。queue も counter も表の loc も同じだからである。したがって、
写した cache も、それをさらに写した cache も、構築した cache と同じ約束を守る。

誰にも割り込まれない `clone` は値だけを写したものになり、後の操作にも同じように答える。
-/

namespace Neocache

open Infra Relation ShardData

variable {K V : Type*} {cloneValue : V → V}

/-! ## 写しの関係 -/

/-- slot の写し。写してから元の entry が読まれると、freq だけが遅れる。 -/
structure Copies (cloneValue : V → V) (s s' : Slot UInt64 K (CacheEntry V)) : Prop where
  hash : s'.hash = s.hash
  key : s'.key = s.key
  value : s'.val.value = cloneValue s.val.value
  loc : s'.val.loc = s.val.loc
  freq : s'.val.freq ≤ s.val.freq

/-- shard の写し。表の外は同じで、表は slot ごとの写しである。 -/
structure ShardCopies (cloneValue : V → V) (σ τ : ShardData K V) : Prop where
  slots : List.Forall₂ (Copies cloneValue) σ.map.slots τ.map.slots
  rest : τ = { σ with map := τ.map }

variable {σ τ : ShardData K V}

/-- slot の、値と freq を除いた部分。 -/
def Slot.frame (s : Slot UInt64 K (CacheEntry V)) : UInt64 × K × Loc := (s.hash, s.key, s.val.loc)

theorem ShardCopies.frame (h : ShardCopies cloneValue σ τ) :
    τ.map.slots.map Slot.frame = σ.map.slots.map Slot.frame :=
  (map_eq_of_forall₂ (fun s s' hs => by
    simp only [Slot.frame, hs.hash, hs.key, hs.loc]) h.slots).symm

theorem ShardCopies.countLoc (h : ShardCopies cloneValue σ τ) (loc : Loc) :
    τ.countLoc loc = σ.countLoc loc := by
  have hmap := congrArg (List.map fun x : UInt64 × K × Loc => if x.2.2 = loc then 1 else 0) h.frame
  simp only [List.map_map] at hmap
  exact congrArg List.sum hmap

/-- 写しの slot には、hash・key・loc の等しい元の slot がある。 -/
theorem ShardCopies.exists_slot (h : ShardCopies cloneValue σ τ)
    {s' : Slot UInt64 K (CacheEntry V)} (hs' : s' ∈ τ.map.slots) :
    ∃ s ∈ σ.map.slots, s.hash = s'.hash ∧ s.key = s'.key ∧ s.val.loc = s'.val.loc := by
  have hmem : Slot.frame s' ∈ σ.map.slots.map Slot.frame := by
    rw [← h.frame]
    exact List.mem_map_of_mem hs'
  obtain ⟨s, hs, heq⟩ := List.mem_map.mp hmem
  simp only [Slot.frame, Prod.mk.injEq] at heq
  exact ⟨s, hs, heq⟩

variable [DecidableEq K] {hash : K → UInt64} {cap : Nat}

/-- 写しの shard も不変条件を満たす。 -/
theorem ShardCopies.upheld (h : ShardCopies cloneValue σ τ) (hi : Upheld hash cap σ) :
    Upheld hash cap τ := by
  have hlinked : Linked hash τ := by
    refine ⟨fun loc => ?_, fun s' hs' => ?_⟩
    · have hq := hi.linked.queue loc
      rw [h.rest]
      cases loc <;> exact hq
    · obtain ⟨s, hs, hh, hk, -⟩ := h.exists_slot hs'
      rw [← hh, ← hk]
      exact hi.linked.table s hs
  have hcovered : Covered τ := by
    intro k e hk
    obtain ⟨s', hs', rfl, rfl⟩ := Table.get?_eq_some.mp hk
    obtain ⟨s, hs, -, hkey, hloc⟩ := h.exists_slot hs'
    have hc := hi.covered s.key s.val (Table.get?_of_mem hs)
    rw [hkey, hloc] at hc
    rw [h.rest]
    cases hl : s'.val.loc <;> rw [hl] at hc <;> exact hc
  have hcap : τ.shardCap = cap := by
    rw [h.rest]
    exact hi.shardCap
  refine ⟨hlinked, hcovered, hcap, fun hpos => ⟨hlinked, hcovered, ?_, by rw [hcap]; exact hpos⟩⟩
  have hb := (hi.healthy hpos).bounds
  have hsmall := h.countLoc .small
  have hmain := h.countLoc .main
  constructor
  · rw [h.rest]; exact hb.total
  · rw [hsmall, hmain, h.rest]; exact hb.population
  · rw [hsmall, h.rest]; exact hb.small
  · rw [hmain, h.rest]; exact hb.main
  · rw [h.rest]; exact hb.quota_pos
  · rw [h.rest]; exact hb.quota_le

/-- 写しの shard にある key は、元の shard にもある。 -/
theorem ShardCopies.lookup_ne (h : ShardCopies cloneValue σ τ) {k : K} (hk : τ.lookup k ≠ none) :
    σ.lookup k ≠ none := by
  rw [Ne, lookup_eq_none, Table.get?_eq_none, not_not] at hk ⊢
  obtain ⟨s', hs', rfl⟩ := List.mem_map.mp hk
  obtain ⟨s, hs, -, hkey, -⟩ := h.exists_slot hs'
  exact List.mem_map.mpr ⟨s, hs, hkey⟩

/-! ## 割り込まれる `clone` -/

/-- 時点 `s` より後に写した slot。freq は減っていない。 -/
def Since (s s' : Slot UInt64 K (CacheEntry V)) : Prop := s'.key = s.key ∧ s.val.freq ≤ s'.val.freq

omit [DecidableEq K] in
theorem Since.trans {s t u : Slot UInt64 K (CacheEntry V)} (h : Since s t) (h' : Since t u) :
    Since s u :=
  ⟨h'.1.trans h.1, h.2.trans h'.2⟩

omit [DecidableEq K] in
/-- 読まれる前の slot の写しは、読まれた後の slot の写しでもある。 -/
theorem Copies.of_read {s s' t : Slot UInt64 K (CacheEntry V)} (h : Copies cloneValue s s')
    (hread : Copies id t s) : Copies cloneValue t s' where
  hash := h.hash.trans hread.hash
  key := h.key.trans hread.key
  value := by rw [h.value, hread.value]; rfl
  loc := h.loc.trans hread.loc
  freq := h.freq.trans hread.freq

/-- 読み出しは、表の slot の freq を増やすだけである。 -/
theorem get_slots (σ : ShardData K V) (h : UInt64) (k : K) :
    ∃ g, (σ.get h k).2.map.slots = σ.map.slots.map g ∧ ∀ s, Copies id (g s) s := by
  unfold ShardData.get
  split
  · refine ⟨fun s => if s.key = k then { s with val := s.val.bumpFreq } else s, rfl, fun s => ?_⟩
    dsimp only
    split
    · have hfreq : s.val.freq ≤ s.val.bumpFreq.freq := by
        unfold CacheEntry.bumpFreq
        split <;> simp
      exact ⟨rfl, rfl, by simp, by simp, hfreq⟩
    · exact ⟨rfl, rfl, rfl, rfl, le_rfl⟩
  · exact ⟨id, (List.map_id _).symm, fun s => ⟨rfl, rfl, rfl, rfl, le_rfl⟩⟩

omit [DecidableEq K] in
theorem copies_clone (s : Slot UInt64 K (CacheEntry V)) :
    Copies cloneValue s { s with val := s.val.clone cloneValue } :=
  ⟨rfl, rfl, rfl, rfl, le_rfl⟩

variable {w : Word} {cacheCapacity requested : Nat} {hasher : K → UInt64} {c r : NeoCache K V}
  {tr : List (Cloning K V × CloneAct K V)} {s : Cloning K V}

/-- 操作は、shard の数と hasher と shift を変えない。 -/
structure SameFrame (c c' : NeoCache K V) : Prop where
  shift : c'.shift = c.shift
  hasher : c'.hasher = c.hasher
  count : c'.shards.length = c.shards.length

theorem sameFrame_step {a : Nat × ShardOp K V}
    (h : (cacheLts K V w cacheCapacity hasher requested).step c a r) : SameFrame c r := by
  obtain ⟨-, ret, hstep⟩ := h
  obtain ⟨σ, σ', -, -, rfl⟩ := onShard_ok hstep
  exact ⟨rfl, rfl, List.length_set⟩

omit [DecidableEq K] in
theorem SameFrame.trans {c' c'' : NeoCache K V} (h : SameFrame c c') (h' : SameFrame c' c'') :
    SameFrame c c'' :=
  ⟨h'.shift.trans h.shift, h'.hasher.trans h.hasher, h'.count.trans h.count⟩

/--
番号 `i` の shard は、記録の中でその lock を放した時点 `y` の写しである。

lock を取った時点 `x` から放すまでの間に読まれた entry の freq は、二つの時点の間の値になる。
-/
def Snapshot (cloneValue : V → V) (tr : List (Cloning K V × CloneAct K V)) (i : Nat)
    (τ : ShardData K V) : Prop :=
  ∃ pre mid post x y σ₀ σ, tr = pre ++ (x, .lock) :: (mid ++ (y, .unlock) :: post) ∧
    x.shards.length = i ∧ y.shards.length = i ∧ x.cache.shards[i]? = some σ₀ ∧
    y.cache.shards[i]? = some σ ∧ ShardCopies cloneValue σ τ ∧
    List.Forall₂ Since σ₀.map.slots τ.map.slots

/-- 写しかけの列は、lock を取った時点より後の、いまの shard の前の方の写しである。 -/
def Underway (cloneValue : V → V) (tr : List (Cloning K V × CloneAct K V)) (s : Cloning K V)
    (acc : List (Slot UInt64 K (CacheEntry V))) : Prop :=
  ∃ pre mid x σ₀ σ, tr = pre ++ (x, .lock) :: mid ∧ x.shards.length = s.shards.length ∧
    x.cache.shards[s.shards.length]? = some σ₀ ∧ s.cache.shards[s.shards.length]? = some σ ∧
    List.Forall₂ (Copies cloneValue) (σ.map.slots.take acc.length) acc ∧
    List.Forall₂ Since σ₀.map.slots (acc ++ σ.map.slots.drop acc.length)

omit [DecidableEq K] in
theorem Snapshot.snoc {i : Nat} {τ : ShardData K V} (h : Snapshot cloneValue tr i τ)
    (x : Cloning K V × CloneAct K V) : Snapshot cloneValue (tr ++ [x]) i τ := by
  obtain ⟨pre, mid, post, y, z, σ₀, σ, rfl, hrest⟩ := h
  exact ⟨pre, mid, post ++ [x], y, z, σ₀, σ, by simp, hrest⟩

omit [DecidableEq K] in
/-- slot を一つ写す。 -/
theorem Underway.load {l : List (ShardData K V)} {acc : List (Slot UInt64 K (CacheEntry V))}
    {σ : ShardData K V} {t : Slot UInt64 K (CacheEntry V)}
    (h : Underway cloneValue tr ⟨c, l, some acc⟩ acc) (hσ : c.shards[l.length]? = some σ)
    (ht : σ.map.slots[acc.length]? = some t) (x : Cloning K V × CloneAct K V) :
    Underway cloneValue (tr ++ [x]) ⟨c, l, some (acc ++ [{ t with val := t.val.clone cloneValue }])⟩
      (acc ++ [{ t with val := t.val.clone cloneValue }]) := by
  obtain ⟨pre, mid, y, σ₀, σ', rfl, hlen, hσ₀, hσ', hcopied, hsince⟩ := h
  change c.shards[l.length]? = some σ' at hσ'
  obtain rfl : σ = σ' := Option.some.inj (hσ.symm.trans hσ')
  refine ⟨pre, mid ++ [x], y, σ₀, σ, by simp, hlen, hσ₀, hσ, ?_, ?_⟩
  · rw [List.length_append, List.length_singleton, List.take_add_one, ht]
    exact List.rel_append hcopied (.cons (copies_clone t) .nil)
  · obtain ⟨hlt, hget⟩ := List.getElem?_eq_some_iff.mp ht
    rw [List.drop_eq_getElem_cons hlt, hget] at hsince
    rw [List.length_append, List.length_singleton, List.append_assoc]
    refine forall₂_trans (R := Since) (fun _ _ _ => .trans) hsince
      (List.rel_append ?_ (.cons ?_ ?_))
    · exact List.forall₂_same.mpr fun _ _ => ⟨rfl, le_rfl⟩
    · exact ⟨rfl, le_rfl⟩
    · exact List.forall₂_same.mpr fun _ _ => ⟨rfl, le_rfl⟩

/-- 写している間に他の thread が動いても、写しかけの列はそのままでよい。 -/
theorem Underway.other {l : List (ShardData K V)} {acc : List (Slot UInt64 K (CacheEntry V))}
    {a : Nat × ShardOp K V} (h : Underway cloneValue tr ⟨c, l, some acc⟩ acc)
    (hstep : (cacheLts K V w cacheCapacity hasher requested).step c a r)
    (hshared : a.1 = l.length → ∃ k, a.2 = .key k .get) (x : Cloning K V × CloneAct K V) :
    Underway cloneValue (tr ++ [x]) ⟨r, l, some acc⟩ acc := by
  obtain ⟨pre, mid, y, σ₀, σ, rfl, hlen, hσ₀, hσ, hcopied, hsince⟩ := h
  change c.shards[l.length]? = some σ at hσ
  obtain ⟨-, ret, hon⟩ := hstep
  obtain ⟨σ₁, σ₂, hσ₁, hexec, rfl⟩ := onShard_ok hon
  by_cases hi : a.1 = l.length
  · -- 写している shard に触れたのなら、読み出しである
    obtain ⟨k, hget⟩ := hshared hi
    rw [hi] at hσ₁
    obtain rfl : σ = σ₁ := Option.some.inj (hσ.symm.trans hσ₁)
    rw [hget] at hexec
    obtain rfl : (σ.get (c.hasher k) k).2 = σ₂ := congrArg Prod.snd (Except.ok.inj hexec)
    obtain ⟨g, hslots, hread⟩ := get_slots σ (c.hasher k) k
    refine ⟨pre, mid ++ [x], y, σ₀, (σ.get (c.hasher k) k).2, by simp, hlen, hσ₀, ?_, ?_, ?_⟩
    · show (c.shards.set a.1 _)[l.length]? = _
      rw [hi, List.getElem?_set_self (List.getElem?_eq_some_iff.mp hσ).1]
    · rw [hslots, ← List.map_take, List.forall₂_map_left_iff]
      exact hcopied.imp fun _ _ hs => hs.of_read (hread _)
    · rw [hslots, ← List.map_drop]
      refine forall₂_trans (R := Since) (fun _ _ _ => .trans) hsince (List.rel_append ?_ ?_)
      · exact List.forall₂_same.mpr fun _ _ => ⟨rfl, le_rfl⟩
      · rw [List.forall₂_map_right_iff]
        exact List.forall₂_same.mpr fun t _ => ⟨(hread t).key.symm, (hread t).freq⟩
  · refine ⟨pre, mid ++ [x], y, σ₀, σ, by simp, hlen, hσ₀, ?_, hcopied, hsince⟩
    show (c.shards.set a.1 _)[l.length]? = _
    rw [List.getElem?_set_ne hi]
    exact hσ

omit [DecidableEq K] in
/-- 写し終えた shard は、lock を放した時点の写しである。 -/
theorem Underway.unlock {l : List (ShardData K V)} {acc : List (Slot UInt64 K (CacheEntry V))}
    {σ : ShardData K V} {t : RawTable K V} (h : Underway cloneValue tr ⟨c, l, some acc⟩ acc)
    (hσ : c.shards[l.length]? = some σ) (hlen : acc.length = σ.map.slots.length)
    (ht : t.slots = acc) :
    Snapshot cloneValue (tr ++ [(⟨c, l, some acc⟩, .unlock)]) l.length { σ with map := t } := by
  obtain ⟨pre, mid, x, σ₀, σ', rfl, hx, hσ₀, hσ', hcopied, hsince⟩ := h
  change c.shards[l.length]? = some σ' at hσ'
  obtain rfl : σ = σ' := Option.some.inj (hσ.symm.trans hσ')
  rw [hlen, List.take_length] at hcopied
  rw [hlen, List.drop_length, List.append_nil] at hsince
  refine ⟨pre, mid, [], x, ⟨c, l, some acc⟩, σ₀, σ, by simp, hx, rfl, hσ₀, hσ, ⟨?_, rfl⟩, ?_⟩
  · rw [ht]
    exact hcopied
  · rw [ht]
    exact hsince

/--
`clone` の途中の不変条件。写し終えた shard はそれぞれ lock を放した時点の写しであり、写しかけの列は、
いま lock を取っている shard の前の方の写しである。
-/
theorem cloning_snapshots
    (h : (Cloning.lts (cacheLts K V w cacheCapacity hasher requested) cloneValue c).Path
      (.start c) tr s) :
    SameFrame c s.cache ∧ (∀ (i : Nat) τ, s.shards[i]? = some τ → Snapshot cloneValue tr i τ) ∧
      ∀ acc, s.current = some acc → Underway cloneValue tr s acc := by
  refine h.invariant (P := fun tr s => SameFrame c s.cache ∧
    (∀ (i : Nat) τ, s.shards[i]? = some τ → Snapshot cloneValue tr i τ) ∧
      ∀ acc, s.current = some acc → Underway cloneValue tr s acc) ?_ ?_
  · exact ⟨⟨rfl, rfl, rfl⟩, fun i τ hτ => (by cases hτ), fun acc hacc => (by cases hacc)⟩
  intro tr s₁ a s₂ _ ⟨hframe, hdone, hcur⟩ hstep
  have hkept : ∀ (i : Nat) τ, s₁.shards[i]? = some τ → Snapshot cloneValue (tr ++ [(s₁, a)]) i τ :=
    fun i τ hτ => (hdone i τ hτ).snoc _
  cases hstep with
  | @lock c' l hlt =>
    refine ⟨hframe, hkept, fun acc hacc => ?_⟩
    cases hacc
    have hσ := List.getElem?_eq_getElem hlt
    exact ⟨tr, [], ⟨c', l, none⟩, _, _, rfl, rfl, hσ, hσ, .nil,
      List.forall₂_same.mpr fun _ _ => ⟨rfl, le_rfl⟩⟩
  | @load c' l acc σ t hσ ht =>
    refine ⟨hframe, hkept, fun acc' hacc => ?_⟩
    cases hacc
    exact (hcur acc rfl).load hσ ht _
  | @unlock c' l acc σ t hσ hlen ht =>
    refine ⟨hframe, fun i τ hτ => ?_, fun acc hacc => by cases hacc⟩
    rcases Nat.lt_or_ge i l.length with hlt | hge
    · rw [List.getElem?_append_left hlt] at hτ
      exact hkept i τ hτ
    · rw [List.getElem?_append_right hge, List.getElem?_singleton] at hτ
      split at hτ
      · next hi =>
        cases hτ
        obtain rfl : i = l.length := by omega
        exact (hcur acc rfl).unlock hσ hlen ht
      · cases hτ
  | @other c' c'' l acc b hother hshared =>
    refine ⟨hframe.trans (sameFrame_step hother), hkept, fun acc' hacc => ?_⟩
    obtain rfl : acc = some acc' := hacc
    exact (hcur acc' rfl).other hother (hshared rfl) _

/--
写した cache の shard は、それぞれその `clone` の途中のある時点の写しである。

他の thread の操作がどのように挟まっても、番号 `i` の shard は、`clone` がその lock を放した時点の
shard と、key・値（`V` の `clone` を施したもの）・loc・queue・ghost set・counter がすべて同じである。
freq だけは、lock を取ってから放すまでに読まれた分だけ、放した時点より小さいことがあり、
取った時点より小さくはならない。
-/
theorem clone_snapshot
    (h : (Cloning.lts (cacheLts K V w cacheCapacity hasher requested) cloneValue c).Path
      (.start c) tr s) (hfin : s.Finished) :
    s.result.hasher = c.hasher ∧ s.result.shards.length = c.shards.length ∧
      ∀ (i : Nat) τ, s.result.shards[i]? = some τ →
        ∃ pre mid post x y σ₀ σ, tr = pre ++ (x, .lock) :: (mid ++ (y, .unlock) :: post) ∧
          x.shards.length = i ∧ y.shards.length = i ∧ x.cache.shards[i]? = some σ₀ ∧
          y.cache.shards[i]? = some σ ∧ ShardCopies cloneValue σ τ ∧
          List.Forall₂ Since σ₀.map.slots τ.map.slots := by
  obtain ⟨hframe, hdone, -⟩ := cloning_snapshots h
  exact ⟨hframe.hasher, hfin.2.trans hframe.count, hdone⟩

/-- 番号 0 の shard の entry を写してから lock を放すまでの間に、他の thread がその entry を読む。 -/
theorem clone_snapshot_raced : ∃ (s : Cloning Nat Nat)
    (tr : List (Cloning Nat Nat × CloneAct Nat Nat)),
    ((Cloning.lts (cacheLts Nat Nat ⟨64, by decide⟩ 4 UInt64.ofNat 2) id oneEntry).Path
        (.start oneEntry) tr s ∧ s.Finished ∧ s.result = oneEntry ∧ s.cache = readEntry) ∧
      ∀ (i : Nat) τ, s.result.shards[i]? = some τ →
        ∃ pre mid post x y σ₀ σ, tr = pre ++ (x, .lock) :: (mid ++ (y, .unlock) :: post) ∧
          x.shards.length = i ∧ y.shards.length = i ∧ x.cache.shards[i]? = some σ₀ ∧
          y.cache.shards[i]? = some σ ∧ ShardCopies id σ τ ∧
          List.Forall₂ Since σ₀.map.slots τ.map.slots := by
  let M := cacheLts Nat Nat ⟨64, by decide⟩ 4 UInt64.ofNat 2
  let σ : ShardData Nat Nat := (ShardData.new 2).register 0 0 7 .small
  have hget : M.step oneEntry (0, .key 0 .get) readEntry := ⟨rfl, .value (some 7), rfl⟩
  have hlock : Cloning.Step M id (.start oneEntry) .lock ⟨oneEntry, [], some []⟩ :=
    .lock (by decide)
  have hload : Cloning.Step M id ⟨oneEntry, [], some []⟩ .load ⟨oneEntry, [], some σ.map.slots⟩ :=
    .load (σ := σ) (s := ⟨0, 0, .new 7 .small⟩) rfl rfl
  have hread : Cloning.Step M id ⟨oneEntry, [], some σ.map.slots⟩ (.other (0, .key 0 .get))
      ⟨readEntry, [], some σ.map.slots⟩ := .other hget fun _ _ => ⟨0, rfl⟩
  have hunlock : Cloning.Step M id ⟨readEntry, [], some σ.map.slots⟩ .unlock
      ⟨readEntry, [σ], none⟩ :=
    .unlock (σ := σ.updateEntry 0 .bumpFreq) (t := σ.map) rfl rfl rfl
  have hlock' : Cloning.Step M id ⟨readEntry, [σ], none⟩ .lock ⟨readEntry, [σ], some []⟩ :=
    .lock (by decide)
  have hunlock' : Cloning.Step M id ⟨readEntry, [σ], some []⟩ .unlock
      ⟨readEntry, [σ, .new 2], none⟩ := .unlock (σ := .new 2) (t := .empty) rfl rfl rfl
  have hpath := (((((Lts.Path.nil.snoc (M := Cloning.lts M id oneEntry) hlock).snoc hload).snoc
    hread).snoc hunlock).snoc hlock').snoc hunlock'
  exact ⟨_, _, ⟨hpath, ⟨rfl, rfl⟩, rfl, rfl⟩, (clone_snapshot hpath ⟨rfl, rfl⟩).2.2⟩

omit [DecidableEq K] in
/-- `CloneReads` の導出は、写し終えるまでの実行である。 -/
theorem path_of_cloneReads {M : Lts (NeoCache K V) (Nat × ShardOp K V)}
    {l : List (ShardData K V)} {acc : Option (List (Slot UInt64 K (CacheEntry V)))}
    (h : CloneReads M cloneValue c l acc r) : ∃ tr s,
      (∀ c₀, (Cloning.lts M cloneValue c₀).Path ⟨c, l, acc⟩ tr s) ∧ s.Finished ∧ s.result = r := by
  have hcons : ∀ {s s' s₂ : Cloning K V} {a : CloneAct K V}
      {tr : List (Cloning K V × CloneAct K V)}, Cloning.Step M cloneValue s a s' →
      (∀ c₀, (Cloning.lts M cloneValue c₀).Path s' tr s₂) →
      ∀ c₀, (Cloning.lts M cloneValue c₀).Path s ((s, a) :: tr) s₂ :=
    fun {s s' _ a _} hs hp c₀ =>
      (Lts.Path.nil.snoc (M := Cloning.lts M cloneValue c₀) (a := a) hs).append (hp c₀)
  induction h with
  | @done c l hlen => exact ⟨[], ⟨c, l, none⟩, fun _ => .nil, ⟨rfl, hlen⟩, rfl⟩
  | lock hlt _ ih =>
    obtain ⟨tr, s, hp, hs⟩ := ih
    exact ⟨_, s, hcons (.lock hlt) hp, hs⟩
  | load hσ ht _ ih =>
    obtain ⟨tr, s, hp, hs⟩ := ih
    exact ⟨_, s, hcons (.load hσ ht) hp, hs⟩
  | unlock hσ hlen ht _ ih =>
    obtain ⟨tr, s, hp, hs⟩ := ih
    exact ⟨_, s, hcons (.unlock hσ hlen ht) hp, hs⟩
  | other hstep hshared _ ih =>
    obtain ⟨tr, s, hp, hs⟩ := ih
    exact ⟨_, s, hcons (.other hstep hshared) hp, hs⟩

/-! ## 操作と `clone` を繰り返した cache -/

/-- 構築した cache の約束。 -/
structure Kept (w : Word) (hasher : K → UInt64) (l : NeoCache.Layout) (c : NeoCache K V) :
    Prop where
  hasher_eq : c.hasher = hasher
  shift : c.shift = l.shift
  count : c.shards.length = l.shardCount
  upheld : ∀ (i : Nat) σ, c.shards[i]? = some σ → Upheld hasher l.shardCap σ
  routed : Routed w c

theorem kept_built {l : NeoCache.Layout} (hl : NeoCache.layout w cacheCapacity requested = .ok l)
    (h : NeoCache.withCapacityAndHasherAndShardAmount w cacheCapacity hasher requested = .ok c) :
    Kept w hasher l c := by
  have hreach : CacheReachable w cacheCapacity hasher requested c := .init h
  have hlaid := hreach.laid hl
  obtain ⟨l', hl', -, -, hshards⟩ := built_ok h
  rw [hl] at hl'
  cases hl'
  refine ⟨hlaid.hasher_eq, hlaid.shift, hlaid.count, fun i σ hσ => ?_, hreach.routed hl⟩
  rw [hshards] at hσ
  obtain ⟨-, rfl⟩ := List.mem_replicate.mp (List.mem_of_getElem? hσ)
  exact upheld_new _

theorem Kept.step {l : NeoCache.Layout} (hc : Kept w hasher l c) {a : Nat × ShardOp K V}
    (h : (cacheLts K V w cacheCapacity hasher requested).step c a r) : Kept w hasher l r := by
  obtain ⟨htarget, ret, hstep⟩ := h
  obtain ⟨σ, σ', hσ, hexec, rfl⟩ := onShard_ok hstep
  rw [hc.hasher_eq] at hexec
  have hi := hc.upheld a.1 σ hσ
  refine ⟨hc.hasher_eq, hc.shift, by rw [← hc.count]; exact List.length_set, ?_, ?_⟩
  · intro j τ hτ
    rcases getElem?_set_cases hσ hτ with ⟨-, rfl⟩ | ⟨-, hτ⟩
    · exact hi.exec hexec
    · exact hc.upheld j τ hτ
  · intro j τ hτ k hk
    rcases getElem?_set_cases hσ hτ with ⟨rfl, rfl⟩ | ⟨-, hτ⟩
    · by_cases hold : σ.lookup k = none
      · -- 新しく現れた key は、hash がこの shard を選んだものである
        by_contra hne
        have hnone := lookup_eq_none.mp hold
        refine hk (lookup_eq_none.mpr (exec_keeps_absent hi.linked hexec ?_ hnone))
        intro kop hop
        rw [hop] at htarget
        exact absurd htarget hne
      · exact hc.routed a.1 σ hσ k hold
    · exact hc.routed j τ hτ k hk

/-- 途中で他の操作が挟まっても、写した cache は約束を守る。 -/
theorem Kept.clone {l : NeoCache.Layout} (hc : Kept w hasher l c)
    (h : CloneReads (cacheLts K V w cacheCapacity hasher requested) cloneValue c [] none r) :
    Kept w hasher l r := by
  obtain ⟨tr, s, hp, hfin, rfl⟩ := path_of_cloneReads h
  obtain ⟨hframe, hcopied, -⟩ := cloning_snapshots (hp c)
  have hkept : Kept w hasher l s.cache ∧ ∀ x ∈ tr, Kept w hasher l x.1.cache := by
    refine (hp c).invariant
      (P := fun tr s => Kept w hasher l s.cache ∧ ∀ x ∈ tr, Kept w hasher l x.1.cache)
      ⟨hc, fun x hx => by cases hx⟩ ?_
    intro tr s₁ a s₂ _ ⟨hnow, hpast⟩ hstep
    have hpast' : ∀ x ∈ tr ++ [(s₁, a)], Kept w hasher l x.1.cache := by
      intro x hx
      rcases List.mem_append.mp hx with hx | hx
      · exact hpast x hx
      · rw [List.mem_singleton.mp hx]
        exact hnow
    cases hstep with
    | lock => exact ⟨hnow, hpast'⟩
    | load => exact ⟨hnow, hpast'⟩
    | unlock => exact ⟨hnow, hpast'⟩
    | other hother => exact ⟨hnow.step hother, hpast'⟩
  -- 写しの元の shard は、途中の cache のものである
  have hsource : ∀ (i : Nat) τ, s.shards[i]? = some τ → ∃ c' σ, Kept w hasher l c' ∧
      c'.shards[i]? = some σ ∧ ShardCopies cloneValue σ τ := by
    intro i τ hτ
    obtain ⟨pre, mid, post, x, y, σ₀, σ, rfl, -, -, -, hσ, hcopy, -⟩ := hcopied i τ hτ
    exact ⟨y.cache, σ, hkept.2 (y, .unlock) (by simp), hσ, hcopy⟩
  refine ⟨hframe.hasher.trans hc.hasher_eq, hframe.shift.trans hc.shift,
    (hfin.2.trans hframe.count).trans hc.count, fun i τ hτ => ?_, fun i τ hτ k hk => ?_⟩
  · obtain ⟨c', σ, hc', hσ, hcopy⟩ := hsource i τ hτ
    exact hcopy.upheld (hc'.upheld i σ hσ)
  · obtain ⟨c', σ, hc', hσ, hcopy⟩ := hsource i τ hτ
    have hi := hc'.routed i σ hσ k (hcopy.lookup_ne hk)
    -- 選ぶ番号は hasher と shift だけで決まる
    unfold NeoCache.shardIndex NeoCache.hashUsize NeoCache.determineShard at hi ⊢
    rw [hc'.hasher_eq, hc'.shift] at hi
    rw [show s.result.hasher = hasher from hframe.hasher.trans hc.hasher_eq,
      show s.result.shift = l.shift from hframe.shift.trans hc.shift]
    exact hi

theorem CacheDerived.kept {l : NeoCache.Layout}
    (hl : NeoCache.layout w cacheCapacity requested = .ok l)
    (h : CacheDerived w cacheCapacity hasher requested cloneValue c) : Kept w hasher l c := by
  induction h with
  | built h => exact kept_built hl h
  | step _ hs ih => exact ih.step hs
  | clone _ hc ih => exact ih.clone hc

/--
操作と `clone` を繰り返した cache の約束。

割り込まれた `clone` で得た cache も、それをさらに操作したり写したりした cache も、shard ごとの容量を
守り、key は hash の選ぶ shard にだけあり、queue は表の entry を漏らさない。次のどの操作も、
失敗せずに終わる。
-/
theorem derived_contract {l : NeoCache.Layout}
    (hl : NeoCache.layout w cacheCapacity requested = .ok l)
    (h : CacheDerived w cacheCapacity hasher requested cloneValue c) :
    c.shards.length = l.shardCount ∧ ∀ (i : Nat) σ, c.shards[i]? = some σ →
      (0 < l.shardCap → σ.map.len ≤ l.shardCap) ∧ Linked hasher σ ∧ Covered σ ∧
      (∀ k, σ.lookup k ≠ none → c.shardIndex w k = .ok i) ∧
      ∀ op : ShardOp K V, ∃ ret σ', op.exec c.hasher σ = .ok (ret, σ') := by
  have hc := h.kept hl
  refine ⟨hc.count, fun i σ hσ => ?_⟩
  have hi := hc.upheld i σ hσ
  refine ⟨hi.len_le, hi.linked, hi.covered, hc.routed i σ hσ, fun op => ?_⟩
  rw [hc.hasher_eq]
  exact hi.exec_ok op

theorem derived_contract_cloned : ∃ c : NeoCache Nat Nat,
    CacheDerived ⟨64, by decide⟩ 4 UInt64.ofNat 2 id c ∧
      c.shards.length = 2 ∧ ∀ (i : Nat) σ, c.shards[i]? = some σ →
        (0 < 2 → σ.map.len ≤ 2) ∧ Linked UInt64.ofNat σ ∧ Covered σ ∧
        (∀ k, σ.lookup k ≠ none → c.shardIndex ⟨64, by decide⟩ k = .ok i) ∧
        ∀ op : ShardOp Nat Nat, ∃ ret σ', op.exec c.hasher σ = .ok (ret, σ') := by
  have hlayout : NeoCache.layout ⟨64, by decide⟩ 4 2 = .ok ⟨2, 63, 2⟩ := rfl
  have hbuilt : NeoCache.withCapacityAndHasherAndShardAmount ⟨64, by decide⟩ 4 UInt64.ofNat 2
      = .ok (⟨63, [.new 2, .new 2], UInt64.ofNat, 4⟩ : NeoCache Nat Nat) := rfl
  have hone : CacheDerived ⟨64, by decide⟩ 4 UInt64.ofNat 2 id oneEntry :=
    .step (.built hbuilt) (a := (0, .key 0 (.insert 7))) ⟨rfl, .value none, rfl⟩
  have hread : CacheDerived ⟨64, by decide⟩ 4 UInt64.ofNat 2 id readEntry :=
    .clone hone readEntry_cloned
  exact ⟨readEntry, hread, derived_contract hlayout hread⟩

/-! ## 割り込まれない `clone` -/

/-- 値だけを写した cache。 -/
def NeoCache.clone (cloneValue : V → V) (c : NeoCache K V) : NeoCache K V :=
  { c with shards := c.shards.map (·.mapValues cloneValue) }

/-- 誰も動かない系。 -/
def quietLts (K V : Type*) [DecidableEq K] (w : Word) (cacheCapacity : Nat) (hasher : K → UInt64)
    (requested : Nat) : Lts (NeoCache K V) (Nat × ShardOp K V) :=
  (cacheLts K V w cacheCapacity hasher requested).restrict fun _ _ => False

/-- 割り込まれない `clone` の途中。写し終えた分は、前から順に値だけを写したものである。 -/
theorem cloneReads_quiet {l : List (ShardData K V)}
    {acc : Option (List (Slot UInt64 K (CacheEntry V)))}
    (h : CloneReads (quietLts K V w cacheCapacity hasher requested) cloneValue c l acc r)
    (hl : l = (c.shards.take l.length).map (·.mapValues cloneValue))
    (hacc : ∀ a, acc = some a → ∀ σ, c.shards[l.length]? = some σ →
      a = (σ.map.slots.take a.length).map fun s => { s with val := s.val.clone cloneValue }) :
    r = c.clone cloneValue := by
  induction h with
  | done hlen =>
    rw [hlen, List.take_length] at hl
    rw [hl]
    rfl
  | lock _ _ ih =>
    refine ih hl ?_
    intro a ha σ _
    cases ha
    rfl
  | @load c r l acc σ s hσ hs _ ih =>
    refine ih hl ?_
    intro a ha τ hτ
    cases ha
    rw [hσ] at hτ
    cases hτ
    rw [List.length_append, List.length_singleton, List.take_add_one, hs, List.map_append,
      ← hacc acc rfl σ hσ]
    rfl
  | @unlock c r l acc σ t hσ hlen ht _ ih =>
    refine ih ?_ (fun a ha => by cases ha)
    have hcopied := hacc acc rfl σ hσ
    rw [hlen, List.take_length, ← ht] at hcopied
    have hshard : ({ σ with map := t } : ShardData K V) = σ.mapValues cloneValue := by
      have ht' : t = σ.map.mapVal (·.mapValue cloneValue) := Table.ext hcopied
      rw [ht']
      rfl
    rw [List.length_append, List.length_singleton, List.take_add_one, hσ, List.map_append, ← hl,
      hshard]
    rfl
  | other hstep => exact hstep.1.elim

/-- どの shard の hash も揃っている。 -/
def AllLinked (c : NeoCache K V) : Prop :=
  ∀ (i : Nat) σ, c.shards[i]? = some σ → Linked c.hasher σ

theorem AllLinked.onShard {i : Nat} {op : ShardOp K V} {ret : Ret K V} (hc : AllLinked c)
    (h : c.onShard i op = .ok (ret, r)) : AllLinked r := by
  obtain ⟨σ, σ', hσ, hexec, rfl⟩ := onShard_ok h
  intro j τ hτ
  rcases getElem?_set_cases hσ hτ with ⟨-, rfl⟩ | ⟨-, hτ⟩
  · have hl := hc i σ hσ
    exact (moves_preserve (P := fun _ => True) (fun _ _ _ _ _ => trivial) (exec_moves hl hexec) hl
      trivial).1
  · exact hc j τ hτ

theorem onShard_clone (hc : AllLinked c) (i : Nat) {op op' : ShardOp K V}
    (h : op.Maps cloneValue op') :
    (c.clone cloneValue).onShard i op' =
      (c.onShard i op).map fun p => (p.1.mapValue cloneValue, p.2.clone cloneValue) := by
  unfold NeoCache.onShard
  have hget : (c.clone cloneValue).shards[i]? = (c.shards[i]?).map (·.mapValues cloneValue) :=
    List.getElem?_map
  rw [hget]
  cases hσ : c.shards[i]? with
  | none => rfl
  | some σ =>
    simp only [Option.map_some]
    have hexec := exec_mapValues (hc i σ hσ) h
    change op'.exec (c.clone cloneValue).hasher _ = _ at hexec
    rw [hexec]
    cases op.exec c.hasher σ with
    | error f => rfl
    | ok p => simp only [Except.map, NeoCache.clone, List.map_set]

/-- slot を一つずつ写していけば、shard を写し終える。 -/
theorem cloneReads_slots {l : List (ShardData K V)} {σ : ShardData K V}
    (hσ : c.shards[l.length]? = some σ)
    (hrest : CloneReads (quietLts K V w cacheCapacity hasher requested) cloneValue c
      (l ++ [σ.mapValues cloneValue]) none r) :
    ∀ (b a : List (Slot UInt64 K (CacheEntry V))), σ.map.slots = a ++ b →
      CloneReads (quietLts K V w cacheCapacity hasher requested) cloneValue c l
        (some (a.map fun s => { s with val := s.val.clone cloneValue })) r
  | [], a, h => by
    rw [List.append_nil] at h
    refine .unlock (t := (σ.mapValues cloneValue).map) hσ (by rw [List.length_map, h]) ?_ hrest
    rw [← h]
    rfl
  | s :: b, a, h => by
    have ih := cloneReads_slots hσ hrest b (a ++ [s]) (by rw [h]; simp)
    rw [List.map_append] at ih
    refine .load (s := s) hσ ?_ ih
    rw [List.length_map, h]
    simp

/-- shard を順に写していけば、`clone` は終わる。 -/
theorem cloneReads_shards :
    ∀ (b a : List (ShardData K V)), c.shards = a ++ b →
      CloneReads (quietLts K V w cacheCapacity hasher requested) cloneValue c
        (a.map (·.mapValues cloneValue)) none (c.clone cloneValue)
  | [], a, h => by
    rw [List.append_nil] at h
    have hdone : CloneReads (quietLts K V w cacheCapacity hasher requested) cloneValue c
        (a.map (·.mapValues cloneValue)) none
        { c with shards := a.map (·.mapValues cloneValue) } :=
      .done (by rw [List.length_map, h])
    rw [← h] at hdone ⊢
    exact hdone
  | σ :: b, a, h => by
    have ih := cloneReads_shards b (a ++ [σ]) (by rw [h]; simp)
    rw [List.map_append] at ih
    have hσ : c.shards[(a.map (·.mapValues cloneValue)).length]? = some σ := by
      rw [List.length_map, h]
      simp
    exact .lock (by rw [List.length_map, h]; simp) (cloneReads_slots hσ ih σ.map.slots [] rfl)

theorem runShards_clone {ops ops' : List (Nat × ShardOp K V)}
    (hops : List.Forall₂ (fun a a' => a'.1 = a.1 ∧ a.2.Maps cloneValue a'.2) ops ops')
    (hc : AllLinked c) :
    (c.clone cloneValue).runShards ops' = (c.runShards ops).map fun p =>
      (p.1.map (Ret.mapValue cloneValue), p.2.clone cloneValue) := by
  induction hops generalizing c with
  | nil => rfl
  | @cons a a' ops ops' ha _ ih =>
    obtain ⟨hi, hop⟩ := ha
    rw [NeoCache.runShards, NeoCache.runShards, hi, onShard_clone hc a.1 hop]
    cases hon : c.onShard a.1 a.2 with
    | error f => rfl
    | ok p =>
      obtain ⟨ret, c'⟩ := p
      have hrest := ih (hc.onShard hon)
      show Except.map _ ((c'.clone cloneValue).runShards ops') = Except.map _ (Except.map _ _)
      rw [hrest]
      cases c'.runShards ops <;> rfl

/--
割り込まれない `clone` は必ず終わり、元の cache と見分けがつかない。

写した cache に操作の列を行うと、元の cache に同じ列を行ったときの返り値と状態に、`V` の `clone` を
施したものが得られる。どの entry が追い出されるかまで同じである。closure と値は、`clone` を施した値の
上で同じことをするものに取り替えてよい。
-/
theorem clone_indistinguishable
    (hc : CacheDerived w cacheCapacity hasher requested cloneValue c) :
    CloneReads (quietLts K V w cacheCapacity hasher requested) cloneValue c [] none
        (c.clone cloneValue) ∧
      ∀ r, CloneReads (quietLts K V w cacheCapacity hasher requested) cloneValue c [] none r →
        ∀ ops ops', List.Forall₂ (fun a a' => a'.1 = a.1 ∧ a.2.Maps cloneValue a'.2) ops ops' →
          r.runShards ops' = (c.runShards ops).map fun p =>
            (p.1.map (Ret.mapValue cloneValue), p.2.clone cloneValue) := by
  refine ⟨cloneReads_shards c.shards [] rfl, fun r hr ops ops' hops => ?_⟩
  obtain rfl := cloneReads_quiet hr rfl (fun a ha => by cases ha)
  have hrange := hc.inRange
  refine runShards_clone hops fun i σ hσ => ?_
  rw [hrange.hasher_eq]
  exact (hrange.shards σ (List.mem_of_getElem? hσ)).linked

/-- 値を 1 増やす `clone` で写した cache と元の cache で、同じ挿入が同じ key 1 を追い出す。 -/
theorem clone_indistinguishable_succ :
    (CacheDerived ⟨64, by decide⟩ 4 UInt64.ofNat 2 (· + 1) oneEntry ∧
      (oneEntry.runShards [(0, .key 1 (.insert 5)), (0, .key 0 .get), (0, .key 2 (.insert 3)),
        (0, .key 1 .get)]).map Prod.fst
        = .ok [.value none, .value (some 7), .value none, .value none]) ∧
      (oneEntry.clone (· + 1)).runShards [(0, .key 1 (.insert 6)), (0, .key 0 .get),
          (0, .key 2 (.insert 4)), (0, .key 1 .get)] =
        (oneEntry.runShards [(0, .key 1 (.insert 5)), (0, .key 0 .get), (0, .key 2 (.insert 3)),
          (0, .key 1 .get)]).map fun p => (p.1.map (Ret.mapValue (· + 1)), p.2.clone (· + 1)) := by
  have hbuilt : NeoCache.withCapacityAndHasherAndShardAmount ⟨64, by decide⟩ 4 UInt64.ofNat 2
      = .ok (⟨63, [.new 2, .new 2], UInt64.ofNat, 4⟩ : NeoCache Nat Nat) := rfl
  have hone : CacheDerived ⟨64, by decide⟩ 4 UInt64.ofNat 2 (· + 1) oneEntry :=
    .step (.built hbuilt) (a := (0, .key 0 (.insert 7))) ⟨rfl, .value none, rfl⟩
  obtain ⟨hclone, hsame⟩ := clone_indistinguishable hone
  exact ⟨⟨hone, rfl⟩, hsame _ hclone _ _ (.cons ⟨rfl, .key 1 (.insert 5)⟩
    (.cons ⟨rfl, .key 0 .get⟩ (.cons ⟨rfl, .key 2 (.insert 3)⟩ (.cons ⟨rfl, .key 1 .get⟩ .nil))))⟩

end Neocache
