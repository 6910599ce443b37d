import Mathlib.Data.Fintype.Card
import Neocache.Properties.Capacity
import Neocache.Properties.ExactlyOnce
import Neocache.Properties.Guards
import Neocache.Properties.RemovalFree

/-!
# freq の数え方

`bump_freq` は共有 lock の下で何人もが同時に呼ぶ。`fetch_update` は load と compare-exchange の
繰り返しなので、他の呼び出しに先を越されれば読み直し、飽和していれば書かずに戻る。

戻った呼び出しの数を `d` とすると、freq はいつも `min maxFreq (f + d)` である（`Counted`）。
増やして戻ったのか飽和を見て戻ったのかは区別しなくてよい。
呼び出しがいつまでも終わらないのは、値が合っているのに失敗する compare-exchange が
無限に続くときだけである（`Bumps.rank_lt`）。

後半では、`clone` を含めて、得られるどの cache でも freq が `maxFreq` を超えないことを示す。
-/

namespace Neocache

open Infra Relation ShardData

variable {K V : Type*} [DecidableEq K] {hash : K → UInt64} {σ σ' : ShardData K V}

/-! ## 同時に呼ばれる `bump_freq` -/

/-- 一つの呼び出しのどこに居るか。`seen` は closure が増やすと答えた直前の値。 -/
inductive BumpPc where
  | call (seen : Option (Fin maxFreq))
  | returned
  deriving DecidableEq, Repr

/-- `fetch_update` の一歩の後。 -/
def BumpPc.after : Option (Fin maxFreq) → BumpPc
  | some f => .call (some f)
  | none => .returned

/-- 一つの entry への `n` 個の呼び出し。 -/
structure Bumps (n : Nat) (K V : Type*) where
  shard : ShardData K V
  pc : Fin n → BumpPc

namespace Bumps

variable {n : Nat} {k : K} {s s' : Bumps n K V} {i : Fin n} {f : Nat}

def start (n : Nat) (σ : ShardData K V) : Bumps n K V := ⟨σ, fun _ => .call none⟩

/-- どれか一つの呼び出しの一歩。 -/
inductive Step (k : K) (s : Bumps n K V) : Fin n → Bumps n K V → Prop
  | bump {i : Fin n} {seen next : Option (Fin maxFreq)} {σ' : ShardData K V}
      (hpc : s.pc i = .call seen) (hb : BumpStep k s.shard seen next σ') :
      Step k s i ⟨σ', Function.update s.pc i (.after next)⟩

/-- 呼び出しが好きな順に進む系。 -/
def lts (n : Nat) (k : K) (σ : ShardData K V) : Lts (Bumps n K V) (Fin n) where
  init s := s = start n σ
  step := Step k

/-- 戻った呼び出し。 -/
def returned (s : Bumps n K V) : Finset (Fin n) := Finset.univ.filter fun i => s.pc i = .returned

/-- まだ戻っておらず、次に読めば手元の値が変わる呼び出し。 -/
def stale (k : K) (s : Bumps n K V) : Finset (Fin n) :=
  Finset.univ.filter fun i => s.pc i ≠ .returned ∧ s.pc i ≠ .after (s.shard.observe k)

omit [DecidableEq K] in
theorem mem_returned {j : Fin n} : j ∈ s.returned ↔ s.pc j = .returned := by
  unfold returned
  rw [Finset.mem_filter, and_iff_right (Finset.mem_univ j)]

theorem mem_stale {j : Fin n} :
    j ∈ s.stale k ↔ s.pc j ≠ .returned ∧ s.pc j ≠ .after (s.shard.observe k) := by
  unfold stale
  rw [Finset.mem_filter, and_iff_right (Finset.mem_univ j)]

/-! ### 数え落としが無いこと -/

/-- 始めの freq に、戻った呼び出しの数を足して飽和させた値になっている。 -/
def Counted (k : K) (f : Nat) (s : Bumps n K V) : Prop :=
  ∃ e, s.shard.map.get? k = some e ∧ e.freq = min maxFreq (f + s.returned.card)

omit [DecidableEq K] in
/-- 一つの呼び出しが進んだ後に、戻っている呼び出し。 -/
theorem returned_update (hpc : s.pc i ≠ .returned) (σ' : ShardData K V)
    (next : Option (Fin maxFreq)) :
    (⟨σ', Function.update s.pc i (.after next)⟩ : Bumps n K V).returned
      = if next = none then insert i s.returned else s.returned := by
  ext j
  by_cases hj : j = i
  · subst hj
    cases next <;> simp [mem_returned, BumpPc.after, hpc]
  · cases next <;> simp [mem_returned, hj]

theorem Counted.step (h : Counted k f s) (hs : Step k s i s') : Counted k f s' := by
  obtain ⟨e, he, hfreq⟩ := h
  cases hs with
  | @bump seen next σ' hpc hb =>
    have hne : s.pc i ≠ .returned := by rw [hpc]; simp
    have hnot : i ∉ s.returned := fun hc => hne (mem_returned.mp hc)
    unfold Counted
    rw [returned_update hne]
    cases next with
    | some v =>
      rw [if_neg (by simp), hb.retried]
      exact ⟨e, he, hfreq⟩
    | none =>
      rw [if_pos rfl, Finset.card_insert_of_notMem hnot, hb.bumped]
      refine ⟨e.bumpFreq, get?_updateEntry he _, ?_⟩
      unfold CacheEntry.bumpFreq
      split
      · show e.freq + 1 = _
        omega
      · omega

theorem counted_of_reachable {e : CacheEntry V} (hk : σ.map.get? k = some e)
    (hle : e.freq ≤ maxFreq) (h : (lts n k σ).Reachable s) : Counted k e.freq s := by
  refine Lts.Reachable.invariant ?_ (fun s i s' _ hc hs => hc.step hs) h
  rintro _ rfl
  have hnone : (start n σ).returned = ∅ := by
    ext i
    simp [mem_returned, start]
  refine ⟨e, hk, ?_⟩
  rw [hnone, Finset.card_empty, Nat.add_zero, min_eq_right hle]

/-! ### 終わること -/

/-- 進むごとに減る量。freq が増えると他の呼び出しの手元の値が古くなるので、その分を重く数える。 -/
def rank (k : K) (s : Bumps n K V) : Nat :=
  (maxFreq - ((s.shard.map.get? k).map CacheEntry.freq).getD 0) * (n + 1) + (s.stale k).card

/-- 何かが変わる一歩では、量が減る。 -/
theorem rank_lt (h : ∃ e, s.shard.map.get? k = some e) (hs : Step k s i s') (hne : s' ≠ s) :
    s'.rank k < s.rank k := by
  obtain ⟨e, he⟩ := h
  cases hs with
  | @bump seen next σ' hpc hb =>
    have hcalling : s.pc i ≠ .returned := by rw [hpc]; simp
    cases hb with
    | observe =>
      -- 読み直し。進んだ呼び出しの手元だけが新しくなる
      have hself : s.pc i ≠ .after (s.shard.observe k) := by
        intro hc
        refine hne ?_
        rw [← hc, Function.update_eq_self]
      have hsub : (⟨s.shard, Function.update s.pc i (.after (s.shard.observe k))⟩ :
          Bumps n K V).stale k ⊂ s.stale k := by
        refine (Finset.ssubset_iff_of_subset ?_).mpr ⟨i, mem_stale.mpr ⟨hcalling, hself⟩, ?_⟩
        · intro j hj
          rw [mem_stale] at hj ⊢
          by_cases hji : j = i
          · subst hji
            simp at hj
          · simpa [hji] using hj
        · simp [mem_stale]
      exact Nat.add_lt_add_left (Finset.card_lt_card hsub) _
    | @swap seen e' hk hseen =>
      -- 書き換え。古くなるのは高々全員である
      have hlt : e'.freq < maxFreq := by rw [hseen]; exact seen.isLt
      have hcard := Finset.card_le_univ ((⟨s.shard.updateEntry k fun e => { e with freq := seen + 1 },
        Function.update s.pc i (.after none)⟩ : Bumps n K V).stale k)
      rw [Fintype.card_fin] at hcard
      have hmul : (maxFreq - e'.freq) * (n + 1)
          = (maxFreq - (seen + 1)) * (n + 1) + (n + 1) := by
        rw [← Nat.succ_mul]
        congr 1
        omega
      unfold rank
      rw [get?_updateEntry hk, hk]
      show (maxFreq - (seen + 1)) * (n + 1) + _ < (maxFreq - e'.freq) * (n + 1) + _
      omega

/-- 戻っていない呼び出しがあれば、何かを変える一歩が必ずある。 -/
theorem exists_progress (hpc : s.pc i ≠ .returned) : ∃ s', Step k s i s' ∧ s' ≠ s := by
  cases hi : s.pc i with
  | returned => exact absurd hi hpc
  | call seen =>
    have hmoves : ∀ {next : Option (Fin maxFreq)} {σ' : ShardData K V},
        .after next ≠ s.pc i → BumpStep k s.shard seen next σ' → ∃ s', Step k s i s' ∧ s' ≠ s := by
      intro next σ' hne hb
      refine ⟨_, .bump hi hb, fun hc => hne ?_⟩
      have hpc' : Function.update s.pc i (.after next) i = s.pc i := by
        exact congrFun (congrArg Bumps.pc hc) i
      rw [← hpc', Function.update_self]
    have hdone : BumpPc.after none ≠ s.pc i := by
      rw [hi]
      simp [BumpPc.after]
    rcases exists_bumpStep s.shard k seen with hb | ⟨v, hretry, hb⟩
    · exact hmoves hdone hb
    · by_cases hseen : seen = some v
      · exact hmoves hdone (hseen ▸ hb)
      · refine hmoves ?_ hretry
        rw [hi]
        simpa [BumpPc.after] using Ne.symm hseen

/-- 終わらない実行では、値が合っているのに失敗する（何も変えない）一歩が、いつまでも現れる。 -/
theorem exists_spurious {run : Nat → Bumps n K V} {sched : Nat → Fin n}
    (hentry : ∀ j, ∃ e, (run j).shard.map.get? k = some e)
    (hrun : ∀ j, Step k (run j) (sched j) (run (j + 1))) (m : Nat) :
    ∃ j ≥ m, run (j + 1) = run j := by
  by_contra hnone
  have hlt : ∀ j, (run (m + j)).rank k + j ≤ (run m).rank k := by
    intro j
    induction j with
    | zero => exact Nat.le_refl _
    | succ j ih =>
      have hne : run (m + j + 1) ≠ run (m + j) := fun hc => hnone ⟨m + j, by omega, hc⟩
      have hstep := rank_lt (hentry (m + j)) (hrun (m + j)) hne
      rw [← Nat.add_assoc m j 1]
      omega
  have hbound := hlt ((run m).rank k + 1)
  omega

end Bumps

/-! ## cache の freq -/

/-- 表の freq がどれも `maxFreq` 以下であること。hash の整合は操作の分解に使う。 -/
structure InRange (hash : K → UInt64) (σ : ShardData K V) : Prop where
  linked : Linked hash σ
  freq : ∀ k e, σ.map.get? k = some e → e.freq ≤ maxFreq

/-- 除いても、書き換えで freq が増えなければ、範囲に収まる。 -/
theorem freq_remove {t : RawTable K V} (h : ∀ k e, t.get? k = some e → e.freq ≤ maxFreq) (x : K) :
    ∀ k e, (t.remove x).get? k = some e → e.freq ≤ maxFreq := by
  intro k e hk
  rw [Table.get?_remove] at hk
  split at hk
  · cases hk
  · exact h k e hk

theorem freq_modify {t : RawTable K V} (h : ∀ k e, t.get? k = some e → e.freq ≤ maxFreq) (x : K)
    {f : CacheEntry V → CacheEntry V} (hf : ∀ e, (f e).freq ≤ e.freq) :
    ∀ k e, (t.modify x f).get? k = some e → e.freq ≤ maxFreq := by
  intro k e hk
  rw [Table.get?_modify] at hk
  split at hk
  · obtain ⟨e₀, he₀, rfl⟩ := Option.map_eq_some_iff.mp hk
    exact (hf e₀).trans (h x e₀ (by simp_all))
  · exact h k e hk

theorem ShardData.Sweep.inRange (h : Sweep hash σ σ') (hi : InRange hash σ) : InRange hash σ' := by
  refine ⟨h.linked hi.linked, ?_⟩
  cases h with
  | skip => simpa using hi.freq
  | promote => exact freq_modify hi.freq _ fun _ => Nat.le_refl _
  | evictSmall => exact freq_remove hi.freq _
  | secondChance => exact freq_modify hi.freq _ fun _ => Nat.sub_le _ _
  | evictMain => exact freq_remove hi.freq _

/-- 読み出しは飽和で止まり、`replace_entry` を含む他の操作は freq をそのまま引き継ぐ。 -/
theorem InRange.present {k : K} {op : KeyOp K V} {e : CacheEntry V} (hi : InRange hash σ)
    (hk : σ.map.get? k = some e) : InRange hash (σ.put k e (op.onPresent k e).2) := by
  refine ⟨(put_edit hk op).linked hi.linked, ?_⟩
  intro x e' he'
  rw [put_get? hk] at he'
  split at he'
  · have hle := hi.freq k e hk
    have hfreq := KeyOp.onPresent_freq he'
    split at hfreq
    · rw [hfreq]
      unfold CacheEntry.bumpFreq
      split
      · exact Nat.succ_le_of_lt ‹_›
      · exact hle
    · rw [hfreq]
      exact hle
  · exact hi.freq x e' he'

theorem InRange.register {k : K} (hi : InRange hash σ) (v : V) (loc : Loc) :
    InRange hash (σ.register (hash k) k v loc) := by
  refine ⟨hi.linked.register k v loc, ?_⟩
  intro x e he
  rw [register_map, Table.get?_insert] at he
  split at he
  · cases he
    exact Nat.zero_le _
  · exact hi.freq x e he

theorem InRange.retain (hi : InRange hash σ) (f : Nat → K → V → Bool × V) (n : Nat) :
    InRange hash (σ.retain f n).2 := by
  have hlinked := star_preserves (P := Linked hash) (fun _ _ hl he => he.linked hl)
    (retain_edits σ f n) hi.linked
  refine ⟨hlinked, ?_⟩
  intro k e' he'
  obtain ⟨e, he, hval⟩ := retain_old σ f n he'
  rw [hval]
  exact hi.freq k e he

theorem InRange.exec {op : ShardOp K V} {r : Ret K V} (hi : InRange hash σ)
    (h : op.exec hash σ = .ok (r, σ')) : InRange hash σ' := by
  cases exec_outcome hi.linked h with
  | present hk => exact hi.present hk
  | idle => exact hi
  | @fresh k op v σ₁ hk hv hev =>
    obtain ⟨hghost, hsweeps, -⟩ := fresh_moves (v := v) hi.linked hk hev
    have htaken : InRange hash (σ.ghostCheck (hash k)).2 := ⟨hghost.linked hi.linked, hi.freq⟩
    exact (star_preserves (fun _ _ hi hs => hs.inRange hi) hsweeps htaken).register v _
  | retain f n => exact hi.retain f n
  | alterAll f n => exact hi.retain _ n
  | clearAll => exact ⟨.clearAll, fun k e hk => by cases hk⟩

/-- どの shard でも freq が範囲に収まっている cache。 -/
structure CacheInRange (hasher : K → UInt64) (c : NeoCache K V) : Prop where
  hasher_eq : c.hasher = hasher
  shards : ∀ σ ∈ c.shards, InRange hasher σ

section Cache

variable {w : Word} {cap requested : Nat} {hasher : K → UInt64} {cloneValue : V → V}
  {c c' r : NeoCache K V}

theorem CacheInRange.built
    (h : NeoCache.withCapacityAndHasherAndShardAmount w cap hasher requested = .ok c) :
    CacheInRange hasher c := by
  obtain ⟨l, -, hhasher, -, hshards⟩ := built_ok h
  refine ⟨hhasher, ?_⟩
  intro σ hσ
  rw [hshards] at hσ
  obtain ⟨-, rfl⟩ := List.mem_replicate.mp hσ
  exact ⟨linked_new _, fun k e hk => by cases hk⟩

theorem CacheInRange.step {a : Nat × ShardOp K V} (hc : CacheInRange hasher c)
    (h : (cacheLts K V w cap hasher requested).step c a c') : CacheInRange hasher c' := by
  obtain ⟨-, ret, hstep⟩ := h
  obtain ⟨σ, σ', hσ, hexec, rfl⟩ := onShard_ok hstep
  refine ⟨hc.hasher_eq, ?_⟩
  intro τ hτ
  rcases List.mem_or_eq_of_mem_set hτ with hτ | rfl
  · exact hc.shards τ hτ
  · exact (hc.shards σ (List.mem_of_getElem? hσ)).exec (hc.hasher_eq ▸ hexec)

/-- 写した slot の列が、そのまま範囲に収まる表になること。 -/
def SlotsInRange (hasher : K → UInt64) (l : List (Slot UInt64 K (CacheEntry V))) : Prop :=
  ∀ s ∈ l, s.hash = hasher s.key ∧ s.val.freq ≤ maxFreq

theorem InRange.slots (hi : InRange hash σ) : SlotsInRange hash σ.map.slots :=
  fun s hs => ⟨hi.linked.table s hs, hi.freq s.key s.val (Table.get?_of_mem hs)⟩

theorem InRange.of_slots {t : RawTable K V} (hi : InRange hash σ)
    (ht : SlotsInRange hash t.slots) : InRange hash { σ with map := t } := by
  refine ⟨⟨fun loc => ?_, fun s hs => (ht s hs).1⟩, ?_⟩
  · cases loc
    · exact hi.linked.queue .small
    · exact hi.linked.queue .main
  · intro k e hk
    obtain ⟨s, hs, -, rfl⟩ := Table.get?_eq_some.mp hk
    exact (ht s hs).2

/-- `clone` の途中。元の cache、写し終えた shard、写しかけの slot のどれも範囲に収まっている。 -/
theorem CacheInRange.cloneReads {l : List (ShardData K V)}
    {acc : Option (List (Slot UInt64 K (CacheEntry V)))} (hc : CacheInRange hasher c)
    (hl : ∀ σ ∈ l, InRange hasher σ) (hacc : SlotsInRange hasher (acc.getD []))
    (h : CloneReads (cacheLts K V w cap hasher requested) cloneValue c l acc r) :
    CacheInRange hasher r := by
  induction h with
  | done => exact ⟨hc.hasher_eq, hl⟩
  | lock _ _ ih => exact ih hc hl hacc
  | @load c r l acc σ s hσ hs _ ih =>
    refine ih hc hl ?_
    intro x hx
    rcases List.mem_append.mp hx with hx | hx
    · exact hacc x hx
    · rw [List.mem_singleton.mp hx]
      exact (hc.shards σ (List.mem_of_getElem? hσ)).slots s (List.mem_of_getElem? hs)
  | @unlock c r l acc σ t hσ _ ht _ ih =>
    refine ih hc ?_ (fun x hx => by cases hx)
    intro τ hτ
    rcases List.mem_append.mp hτ with hτ | hτ
    · exact hl τ hτ
    · rw [List.mem_singleton.mp hτ]
      exact (hc.shards σ (List.mem_of_getElem? hσ)).of_slots (ht ▸ hacc)
  | other hstep _ _ ih => exact ih (hc.step hstep) hl hacc

theorem CacheDerived.inRange (h : CacheDerived w cap hasher requested cloneValue c) :
    CacheInRange hasher c := by
  induction h with
  | built h => exact .built h
  | step _ hs ih => exact ih.step hs
  | clone _ hc ih => exact ih.cloneReads (fun σ hσ => by cases hσ) (fun s hs => by cases hs) hc

end Cache

/-! ## まとめ -/

/--
`n` 個の `bump_freq` が、freq が `f` の entry に漏れなく効くこと。

最後に freq を言うだけでは、一つも終わらない実行でも成り立ってしまう。そこで、戻っていない
呼び出しはいつでも先へ進めること、終わらない実行では何も変えない一歩（見かけの失敗）が
いつまでも現れることを合わせて言う。
-/
structure Bumps.Exact (n : Nat) (k : K) (σ : ShardData K V) (f : Nat) : Prop where
  always : ∀ s, (lts n k σ).Reachable s →
    ∃ e, s.shard.map.get? k = some e ∧ e.freq = min maxFreq (f + s.returned.card)
  ends : ∀ s, (lts n k σ).Reachable s → (∀ i, s.pc i = .returned) →
    ∃ e, s.shard.map.get? k = some e ∧ e.freq = min maxFreq (f + n)
  progress : ∀ s, (lts n k σ).Reachable s → ∀ i, s.pc i ≠ .returned →
    ∃ s', (lts n k σ).step s i s' ∧ s' ≠ s
  spurious : ∀ (run : Nat → Bumps n K V) (sched : Nat → Fin n), (lts n k σ).init (run 0) →
    (∀ j, (lts n k σ).step (run j) (sched j) (run (j + 1))) → ∀ m, ∃ j ≥ m, run (j + 1) = run j

theorem Bumps.exact {k : K} {e : CacheEntry V} (n : Nat) (hk : σ.map.get? k = some e)
    (hle : e.freq ≤ maxFreq) : Exact n k σ e.freq where
  always s hs := counted_of_reachable hk hle hs
  ends s hs hall := by
    obtain ⟨e', he', hfreq⟩ := counted_of_reachable hk hle hs
    have hcard : s.returned.card = n := by
      have huniv : s.returned = Finset.univ := by
        ext i
        simp [mem_returned, hall i]
      rw [huniv, Finset.card_univ, Fintype.card_fin]
    exact ⟨e', he', hcard ▸ hfreq⟩
  progress s _ i hpc := exists_progress hpc
  spurious run sched hinit hrun := by
    have hreach : ∀ j, (lts n k σ).Reachable (run j) := by
      intro j
      induction j with
      | zero => exact .init hinit
      | succ j ih => exact .step ih (hrun j)
    refine exists_spurious (fun j => ?_) hrun
    obtain ⟨e', he', -⟩ := counted_of_reachable hk hle (hreach j)
    exact ⟨e', he'⟩

theorem freq_counting (K V : Type*) [DecidableEq K] :
    (∀ (n : Nat) (σ : ShardData K V) (k : K) (e : CacheEntry V), σ.map.get? k = some e →
      e.freq ≤ maxFreq → Bumps.Exact n k σ e.freq) ∧
    (∀ (w : Word) (cap requested : Nat) (hasher : K → UInt64) (cloneValue : V → V)
      (c : NeoCache K V), CacheDerived w cap hasher requested cloneValue c →
      ∀ σ ∈ c.shards, ∀ k e, σ.map.get? k = some e → e.freq ≤ maxFreq) := by
  refine ⟨fun n σ k e hk hle => Bumps.exact n hk hle, ?_⟩
  intro w cap requested hasher cloneValue c hc σ hσ
  exact (hc.inRange.shards σ hσ).freq

/-- 一度読まれた `oneEntry`。 -/
def readEntry : NeoCache Nat Nat :=
  { oneEntry with
    shards := [((ShardData.new 2).register 0 0 7 .small).updateEntry 0 .bumpFreq, .new 2] }

/-- 番号 0 の shard を写している間に他の thread が読むと、増えた freq が写る。 -/
theorem readEntry_cloned : CloneReads (cacheLts Nat Nat ⟨64, by decide⟩ 4 UInt64.ofNat 2) id
    oneEntry [] none readEntry := by
  have hget : (cacheLts Nat Nat ⟨64, by decide⟩ 4 UInt64.ofNat 2).step oneEntry (0, .key 0 .get)
      readEntry := ⟨rfl, .value (some 7), rfl⟩
  have hlast : CloneReads (cacheLts Nat Nat ⟨64, by decide⟩ 4 UInt64.ofNat 2) id readEntry
      [((ShardData.new 2).register 0 0 7 .small).updateEntry 0 .bumpFreq] none readEntry :=
    .lock (by decide) (.unlock (t := .empty) rfl rfl rfl (.done rfl))
  have hfirst : CloneReads (cacheLts Nat Nat ⟨64, by decide⟩ 4 UInt64.ofNat 2) id readEntry [] (some [])
      readEntry :=
    .load rfl rfl (.unlock (t := (((ShardData.new 2).register 0 0 7 .small).updateEntry 0
      .bumpFreq).map) rfl rfl rfl hlast)
  exact .lock (by decide) (.other hget (fun _ _ => ⟨0, rfl⟩) hfirst)

theorem freq_counting_cloned :
    (CacheDerived ⟨64, by decide⟩ 4 UInt64.ofNat 2 id readEntry ∧
      ∀ σ ∈ readEntry.shards, ∀ k e, σ.map.get? k = some e → e.freq ≤ maxFreq) ∧
    Bumps.Exact 5 0 ((ShardData.new 2).register 0 0 7 .small : ShardData Nat Nat) 0 := by
  have hbuilt : NeoCache.withCapacityAndHasherAndShardAmount ⟨64, by decide⟩ 4 UInt64.ofNat 2
      = .ok (⟨63, [.new 2, .new 2], UInt64.ofNat, 4⟩ : NeoCache Nat Nat) := rfl
  have hone : CacheDerived ⟨64, by decide⟩ 4 UInt64.ofNat 2 id oneEntry :=
    .step (.built hbuilt) (a := (0, .key 0 (.insert 7))) ⟨rfl, .value none, rfl⟩
  have hderived : CacheDerived ⟨64, by decide⟩ 4 UInt64.ofNat 2 id readEntry :=
    .clone hone readEntry_cloned
  exact ⟨⟨hderived, (freq_counting Nat Nat).2 _ _ _ _ _ _ hderived⟩,
    (freq_counting Nat Nat).1 5 _ 0 (.new 7 .small) rfl (by decide)⟩

end Neocache
