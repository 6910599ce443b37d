import Neocache.Infra.SecondChance
import Neocache.Properties.Eviction

/-!
# main queue からの追い出しが選ぶもの

`evict_from_main` は queue を何周も回ることがあり、途中で freq を書き換え、死んだ node を落とす。
死んだ node を除いて key と freq だけを見れば、これは second chance の queue
（`Infra.secondChance`）をそのまま回したものである（`evictFromMain_run`）。
だから、選ばれる key と残る列は、回し終えた結果の式から読み取れる（`evictFromMain_spec`）。

生きた key の node が二つあると、片方を回す間にもう片方の freq が動いてしまう。
node が一つしか無いことは `UniqueMain` として仮定する。

counter は別である。small に入れ直した key の古い node が main queue に残っていると、
main に生きた node があるのに `mainLive` が 0 ということが起こり、引き算が panic する
（`evictFromMain_underflow`）。追い出しの loop からの呼び出しではこうならない（`main_candidate`）。
-/

namespace Neocache

open Infra Relation ShardData

variable {K V : Type*} [DecidableEq K] {hash : K → UInt64} {σ σ' : ShardData K V}

/-! ## 生きた node の列 -/

/-- 列のうち表に残っている key を、freq と並べたもの。 -/
def liveNodes (t : RawTable K V) (ks : List K) : List (K × Nat) :=
  ks.filterMap fun k => (t.get? k).map fun e => (k, e.freq)

theorem liveNodes_append (t : RawTable K V) (ks ks' : List K) :
    liveNodes t (ks ++ ks') = liveNodes t ks ++ liveNodes t ks' :=
  List.filterMap_append

theorem liveNodes_dead {t : RawTable K V} {ks : List K} (h : ∀ k ∈ ks, t.get? k = none) :
    liveNodes t ks = [] := by
  refine List.filterMap_eq_nil_iff.mpr ?_
  intro k hk
  rw [h k hk]
  rfl

theorem liveNodes_cons {t : RawTable K V} {k : K} {e : CacheEntry V} (hk : t.get? k = some e)
    (ks : List K) : liveNodes t (k :: ks) = (k, e.freq) :: liveNodes t ks := by
  unfold liveNodes
  rw [List.filterMap_cons, hk]
  rfl

theorem liveNodes_congr {t t' : RawTable K V} {ks : List K}
    (h : ∀ k ∈ ks, (t'.get? k).map CacheEntry.freq = (t.get? k).map CacheEntry.freq) :
    liveNodes t' ks = liveNodes t ks := by
  have hpair : ∀ (t : RawTable K V) (k : K), ((t.get? k).map fun e => (k, e.freq))
      = ((t.get? k).map CacheEntry.freq).map (Prod.mk k) := by
    intro t k
    rw [Option.map_map]
    rfl
  refine List.filterMap_congr ?_
  intro k hk
  rw [hpair, hpair, h k hk]

theorem liveNodes_keys {t : RawTable K V} {ks : List K} (h : ∀ k ∈ ks, ∃ e, t.get? k = some e) :
    (liveNodes t ks).map Prod.fst = ks := by
  induction ks with
  | nil => rfl
  | cons k ks ih =>
    obtain ⟨e, he⟩ := h k List.mem_cons_self
    rw [liveNodes_cons he, List.map_cons, ih fun k' hk' => h k' (List.mem_cons_of_mem _ hk')]

theorem mem_liveNodes {t : RawTable K V} {ks : List K} {k : K} {n : Nat} :
    (k, n) ∈ liveNodes t ks ↔ k ∈ ks ∧ ∃ e, t.get? k = some e ∧ e.freq = n := by
  unfold liveNodes
  rw [List.mem_filterMap]
  constructor
  · rintro ⟨k', hk', he⟩
    obtain ⟨e, hget, heq⟩ := Option.map_eq_some_iff.mp he
    cases heq
    exact ⟨hk', e, hget, rfl⟩
  · rintro ⟨hk, e, he, rfl⟩
    exact ⟨k, hk, by rw [he]; rfl⟩

/-- 生きた key の node は main queue に高々一つである。 -/
def UniqueMain (σ : ShardData K V) : Prop :=
  ∀ k e, σ.map.get? k = some e → σ.mainKeys.count k ≤ 1

theorem uniqueMain_iff : UniqueMain σ ↔ ∀ s ∈ σ.map.slots, σ.mainKeys.count s.key ≤ 1 := by
  constructor
  · intro h s hs
    exact h _ _ (Table.get?_of_mem hs)
  · intro h k e hk
    obtain ⟨s, hs, rfl, -⟩ := Table.get?_eq_some.mp hk
    exact h s hs

/-- 先頭からの取り出しを、生きた node の列で述べたもの。 -/
theorem popLive_main (hl : Linked hash σ) (hu : UniqueMain σ) :
    (popLive σ.map σ.mainHashes σ.mainKeys = (none, [], []) ∧
        liveNodes σ.map σ.mainKeys = []) ∨
      ∃ k e rest, popLive σ.map σ.mainHashes σ.mainKeys = (some (hash k, k, e), rest.map hash, rest) ∧
        σ.map.get? k = some e ∧ k ∉ rest ∧ k ∈ σ.mainKeys ∧ rest.Sublist σ.mainKeys ∧
        liveNodes σ.map σ.mainKeys = (k, e.freq) :: liveNodes σ.map rest := by
  have hq : σ.mainHashes = σ.mainKeys.map hash := hl.queue .main
  rw [hq]
  rcases popLive_cases hl.table σ.mainKeys with ⟨hp, hdead⟩ | ⟨dead, k, e, rest, hks, hdead, hk, hp⟩
  · exact Or.inl ⟨hp, liveNodes_dead hdead⟩
  · refine Or.inr ⟨k, e, rest, hp, hk, ?_, by simp [hks], ?_, ?_⟩
    · -- 取り出した node の他にもう一つあれば、数が二つになる
      intro hmem
      have hone := hu k e hk
      have hpos := List.count_pos_iff.mpr hmem
      rw [hks, List.count_append, List.count_cons_self] at hone
      omega
    · rw [hks]
      exact (List.sublist_cons_self k rest).trans (List.sublist_append_right dead _)
    · rw [hks, liveNodes_append, liveNodes_dead hdead, liveNodes_cons hk, List.nil_append]

/-! ## 一周と一回の追い出し -/

/--
key `x` を追い出した後の表 `t` と main queue `ks`。

残る node は `left` の通りで、main queue に居なかった key の entry は変わらない。
居た key も、変わりうるのは freq だけである。
-/
structure EvictedMain (σ : ShardData K V) (x : K) (left : List (K × Nat)) (t : RawTable K V)
    (ks : List K) : Prop where
  gone : t.get? x = none
  nodes : liveNodes t ks = left
  kept : ∀ y, y ≠ x → ∀ e, σ.map.get? y = some e → ∃ n, t.get? y = some { e with freq := n }
  absent : ∀ y, σ.map.get? y = none → t.get? y = none
  other : ∀ y, y ≠ x → y ∉ σ.mainKeys → t.get? y = σ.map.get? y
  sub : ∀ y ∈ ks, y ∈ σ.mainKeys

/-- 先頭に機会が残っていたときの、一周した後の状態。 -/
def requeued (σ : ShardData K V) (hash : K → UInt64) (k : K) (rest : List K) : ShardData K V :=
  { σ with
    map := σ.map.modify k fun e => { e with freq := e.freq - 1 }
    mainHashes := rest.map hash ++ [hash k], mainKeys := rest ++ [k] }

section

variable {k : K} {e : CacheEntry V} {rest : List K}

theorem requeued_get? (hk : σ.map.get? k = some e) (y : K) :
    (requeued σ hash k rest).map.get? y =
      if y = k then some { e with freq := e.freq - 1 } else σ.map.get? y := by
  show (σ.map.modify k fun e => { e with freq := e.freq - 1 }).get? y = _
  rw [Table.get?_modify]
  by_cases hy : y = k
  · rw [if_pos hy, if_pos hy, hy, hk]; rfl
  · rw [if_neg hy, if_neg hy]

theorem requeued_linked (hl : Linked hash σ) : Linked hash (requeued σ hash k rest) := by
  refine ⟨fun loc => ?_, Table.hashed_modify hl.table _ _⟩
  cases loc with
  | small => exact hl.queue .small
  | main => simp [requeued, queueHashes, queueKeys]

theorem requeued_unique (hk : σ.map.get? k = some e) (hu : UniqueMain σ) (hnot : k ∉ rest)
    (hsub : rest.Sublist σ.mainKeys) : UniqueMain (requeued σ hash k rest) := by
  intro y e' hy
  show (rest ++ [k]).count y ≤ 1
  rw [List.count_append]
  by_cases hyk : y = k
  · subst hyk
    rw [List.count_eq_zero_of_not_mem hnot]
    simp
  · rw [requeued_get? hk, if_neg hyk] at hy
    have hle := hsub.count_le y
    have hone := hu y e' hy
    have hz : [k].count y = 0 := List.count_eq_zero_of_not_mem (by simpa using hyk)
    omega

theorem requeued_nodes (hk : σ.map.get? k = some e) (hnot : k ∉ rest) :
    liveNodes (requeued σ hash k rest).map (requeued σ hash k rest).mainKeys
      = liveNodes σ.map rest ++ [(k, e.freq - 1)] := by
  have hself : (requeued σ hash k rest).map.get? k = some { e with freq := e.freq - 1 } := by
    rw [requeued_get? hk, if_pos rfl]
  show liveNodes (requeued σ hash k rest).map (rest ++ [k]) = _
  rw [liveNodes_append, liveNodes_cons hself]
  congr 1
  refine liveNodes_congr ?_
  intro y hy
  have hyk : y ≠ k := fun h => hnot (h ▸ hy)
  rw [requeued_get? hk, if_neg hyk]

theorem requeued_totalFreq (hk : σ.map.get? k = some e) (hot : 0 < e.freq) :
    (requeued σ hash k rest).totalFreq < σ.totalFreq := by
  have hsum : (σ.map.modify k fun e => { e with freq := e.freq - 1 }).sum CacheEntry.freq + e.freq
      = σ.map.sum CacheEntry.freq + (e.freq - 1) :=
    Table.sum_modify hk (fun e => { e with freq := e.freq - 1 }) CacheEntry.freq
  show (σ.map.modify k fun e => { e with freq := e.freq - 1 }).sum CacheEntry.freq
    < σ.map.sum CacheEntry.freq
  omega

/-- 一周した後から見た結果は、一周する前から見ても同じである。 -/
theorem EvictedMain.of_requeued {x : K} {left : List (K × Nat)} {t : RawTable K V} {ks : List K}
    (h : EvictedMain (requeued σ hash k rest) x left t ks) (hk : σ.map.get? k = some e)
    (hmem : k ∈ σ.mainKeys) (hsub : rest.Sublist σ.mainKeys) : EvictedMain σ x left t ks := by
  have hkeys : ∀ y ∈ (requeued σ hash k rest).mainKeys, y ∈ σ.mainKeys := by
    intro y hy
    rcases List.mem_append.mp hy with hy | hy
    · exact hsub.subset hy
    · rw [List.mem_singleton.mp hy]; exact hmem
  refine ⟨h.gone, h.nodes, ?_, ?_, ?_, fun y hy => hkeys y (h.sub y hy)⟩
  · intro y hyx e' hy
    by_cases hyk : y = k
    · subst hyk
      rw [hk] at hy
      cases hy
      obtain ⟨n, hn⟩ := h.kept y hyx _ (by rw [requeued_get? hk, if_pos rfl])
      exact ⟨n, hn⟩
    · exact h.kept y hyx e' (by rw [requeued_get? hk, if_neg hyk]; exact hy)
  · intro y hy
    refine h.absent y ?_
    have hyk : y ≠ k := by
      rintro rfl
      rw [hk] at hy
      cases hy
    rw [requeued_get? hk, if_neg hyk]
    exact hy
  · intro y hyx hy
    have hyk : y ≠ k := fun he => hy (he ▸ hmem)
    rw [h.other y hyx fun hy' => hy (hkeys y hy'), requeued_get? hk, if_neg hyk]

/-- 機会が尽きた先頭を除いた表。 -/
theorem evictedMain_remove (σ : ShardData K V) (hnot : k ∉ rest)
    (hsub : rest.Sublist σ.mainKeys) :
    EvictedMain σ k (liveNodes σ.map rest) (σ.map.remove k) rest := by
  have hne : ∀ y, y ≠ k → (σ.map.remove k).get? y = σ.map.get? y := by
    intro y hy
    rw [Table.get?_remove, if_neg hy]
  refine ⟨by rw [Table.get?_remove, if_pos rfl], ?_, ?_, ?_, fun y hy _ => hne y hy,
    fun y hy => hsub.subset hy⟩
  · exact liveNodes_congr fun y hy => congrArg _ (hne y fun he => hnot (he ▸ hy))
  · intro y hy e' he'
    exact ⟨e'.freq, by rw [hne y hy, he']⟩
  · intro y hy
    rw [Table.get?_remove, hy, ite_self]

end

/--
`evict_from_main` の loop は、生きた node の列を `secondChance` で回したものである。

列についての再帰に沿って進む。機会が残っていれば loop はもう一周し、尽きていれば counter を
減らして抜ける。残り回数は freq の総和より多ければ足りる。
-/
theorem evictFromMain_run {x : K} {left : List (K × Nat)} {nodes : List (K × Nat)}
    (hrun : secondChance nodes = some (x, left)) {n : Nat} (hl : Linked hash σ) (hu : UniqueMain σ)
    (hnodes : liveNodes σ.map σ.mainKeys = nodes) (hn : σ.totalFreq < n) :
    ∃ t ks, EvictedMain σ x left t ks ∧ (∀ s ∈ t.slots, s.hash = hash s.key) ∧
      loop evictFromMainBody .diverge n σ = (subOne σ.mainLive).map fun m =>
        { σ with map := t, mainHashes := ks.map hash, mainKeys := ks, mainLive := m } := by
  induction nodes using secondChance.induct generalizing σ n with
  | case1 => simp at hrun
  | case2 a l =>
    obtain ⟨n, rfl⟩ : ∃ m, n = m + 1 := ⟨n - 1, by omega⟩
    rcases popLive_main hl hu with ⟨-, hnil⟩ | ⟨k, e, rest, hp, hk, hnot, -, hsub, hcons⟩
    · rw [hnil] at hnodes; cases hnodes
    · rw [hcons] at hnodes
      obtain ⟨⟨rfl, hz⟩, rfl⟩ : (k = a ∧ e.freq = 0) ∧ liveNodes σ.map rest = l := by
        simpa using hnodes
      obtain ⟨rfl, rfl⟩ : k = x ∧ liveNodes σ.map rest = left := by simpa using hrun
      refine ⟨_, rest, evictedMain_remove σ hnot hsub, Table.hashed_remove hl.table k, ?_⟩
      have hcold : ¬ 0 < e.freq := by omega
      have hbody : evictFromMainBody σ = (subOne σ.mainLive).map fun m => .done { σ with
          map := σ.map.remove k, mainHashes := rest.map hash, mainKeys := rest
          mainLive := m } := by
        unfold evictFromMainBody
        rw [hp]
        refine (if_neg hcold).trans ?_
        cases subOne σ.mainLive <;> rfl
      cases hm : subOne σ.mainLive with
      | error f => rw [loop_succ_error (by rw [hbody, hm]; rfl)]; rfl
      | ok m => rw [loop_succ_done (by rw [hbody, hm]; rfl)]; rfl
  | case3 a m l ih =>
    obtain ⟨n, rfl⟩ : ∃ m, n = m + 1 := ⟨n - 1, by omega⟩
    rcases popLive_main hl hu with ⟨-, hnil⟩ | ⟨k, e, rest, hp, hk, hnot, hmem, hsub, hcons⟩
    · rw [hnil] at hnodes; cases hnodes
    · rw [hcons] at hnodes
      obtain ⟨⟨rfl, hf⟩, rfl⟩ : (k = a ∧ e.freq = m + 1) ∧ liveNodes σ.map rest = l := by
        simpa using hnodes
      have hot : 0 < e.freq := by omega
      have hbody : evictFromMainBody σ = .ok (.again (requeued σ hash k rest)) := by
        unfold evictFromMainBody
        simp only [hp, if_pos hot]
        rfl
      have hnext : liveNodes (requeued σ hash k rest).map (requeued σ hash k rest).mainKeys
          = liveNodes σ.map rest ++ [(k, m)] := by
        rw [requeued_nodes hk hnot, hf]
        rfl
      have hless : (requeued σ hash k rest).totalFreq < σ.totalFreq := requeued_totalFreq hk hot
      obtain ⟨t, ks, hev, ht, hloop⟩ := ih (n := n) (by rw [← secondChance_succ]; exact hrun)
        (requeued_linked hl) (requeued_unique hk hu hnot hsub) hnext (by omega)
      refine ⟨t, ks, hev.of_requeued hk hmem hsub, ht, ?_⟩
      rw [loop_succ_again hbody, hloop]
      rfl

/-! ## 選ばれる key と残る列 -/

/-- 古い node のせいで、main に生きた node があるのに main の counter が 0 になる実行。 -/
def staleMainRun : List (ShardOp Nat Nat) :=
  [.key 0 (.insert 0), .key 0 .get, .key 1 (.insert 1), .key 2 (.insert 2), .key 0 .remove,
    .key 0 (.insert 3)]

/-- その状態で main から追い出そうとすると、counter の引き算が panic する。 -/
theorem evictFromMain_underflow :
    ∃ rs σ, runOps UInt64.ofNat staleMainRun (ShardData.new 2) = .ok (rs, σ) ∧
      (∀ s ∈ σ.map.slots, σ.mainKeys.count s.key ≤ 1) ∧
      liveNodes σ.map σ.mainKeys = [(0, 0)] ∧ σ.mainLive = 0 ∧
      σ.evictFromMain = .error .underflow := by
  have hrun : runOps UInt64.ofNat staleMainRun (ShardData.new 2) = .ok (_, _) := rfl
  exact ⟨_, _, hrun, by decide, by decide, by decide, rfl⟩

/-- 追い出した後の freq。残った node の freq から読み取る。 -/
theorem EvictedMain.freq {x y : K} {left : List (K × Nat)} {t : RawTable K V} {ks : List K} {n : Nat}
    {e : CacheEntry V} (h : EvictedMain σ x left t ks) (hy : σ.map.get? y = some e)
    (hmem : (y, n) ∈ left) : t.get? y = some { e with freq := n } := by
  rw [← h.nodes, mem_liveNodes] at hmem
  obtain ⟨-, e', he', hn⟩ := hmem
  have hyx : y ≠ x := by
    rintro rfl
    rw [h.gone] at he'
    cases he'
  obtain ⟨m, hm⟩ := h.kept y hyx e hy
  have heq : e' = { e with freq := m } := Option.some.inj (he'.symm.trans hm)
  rw [hm, ← hn, heq]

/-- 残った node に無い key の entry は、追い出したもの以外そのままである。 -/
theorem EvictedMain.unlisted {x y : K} {left : List (K × Nat)} {t : RawTable K V} {ks : List K}
    (h : EvictedMain σ x left t ks) (hyx : y ≠ x)
    (hlive : ∀ n, (y, n) ∉ liveNodes σ.map σ.mainKeys) : t.get? y = σ.map.get? y := by
  cases hy : σ.map.get? y with
  | none => exact h.absent y hy
  | some e =>
    rw [h.other y hyx fun hmem => hlive e.freq (mem_liveNodes.mpr ⟨hmem, e, hy, rfl⟩), hy]

/--
`evict_from_main` の結果。`L` を main queue の生きた node の列とする。

* `L` が空なら、queue を空にするだけで戻る
* そうでなければ、`L` の中で freq が最小のもののうち最初のものを表から除く。
  それより前の node の freq は一つ余計に、後ろの node の freq は最小値だけ減り、
  残る node は後ろのものが先、前のものが後に並ぶ。counter が 0 のときだけ、引き算で panic する
-/
theorem evictFromMain_spec (hl : Linked hash σ) (hu : UniqueMain σ) :
    (liveNodes σ.map σ.mainKeys = [] →
      σ.evictFromMain = .ok { σ with mainHashes := [], mainKeys := [] }) ∧
    (liveNodes σ.map σ.mainKeys ≠ [] →
      ∃ before x m after, liveNodes σ.map σ.mainKeys = before ++ (x, m) :: after ∧
        (∀ p ∈ before, m < p.2) ∧ (∀ p ∈ after, m ≤ p.2) ∧
        (σ.mainLive = 0 → σ.evictFromMain = .error .underflow) ∧
        (1 ≤ σ.mainLive → ∃ t ks,
          σ.evictFromMain = .ok
            { σ with map := t, mainHashes := ks.map hash, mainKeys := ks
                     mainLive := σ.mainLive - 1 } ∧
          (∀ s ∈ t.slots, s.hash = hash s.key) ∧
          t.get? x = none ∧
          (∀ p ∈ before, ∃ e, σ.map.get? p.1 = some e ∧ e.freq = p.2 ∧
            t.get? p.1 = some { e with freq := e.freq - (m + 1) }) ∧
          (∀ p ∈ after, ∃ e, σ.map.get? p.1 = some e ∧ e.freq = p.2 ∧
            t.get? p.1 = some { e with freq := e.freq - m }) ∧
          (∀ y, y ≠ x → y ∉ before.map Prod.fst → y ∉ after.map Prod.fst →
            t.get? y = σ.map.get? y) ∧
          liveNodes t ks = lower m after ++ lower (m + 1) before)) := by
  constructor
  · intro hnil
    rcases popLive_main hl hu with ⟨hp, -⟩ | ⟨k, e, rest, -, -, -, -, -, hcons⟩
    · refine loop_succ_done ?_
      unfold evictFromMainBody
      simp only [hp]
    · rw [hnil] at hcons; cases hcons
  · intro hne
    obtain ⟨before, x, m, after, hsplit, hf⟩ := exists_firstLeast hne
    refine ⟨before, x, m, after, hsplit, hf.lt, hf.le, ?_⟩
    have hmem : ∀ p ∈ before ++ (x, m) :: after, ∃ e, σ.map.get? p.1 = some e ∧ e.freq = p.2 := by
      intro p hp
      rw [← hsplit] at hp
      exact (mem_liveNodes.mp hp).2
    obtain ⟨t, ks, hev, ht, hloop⟩ :=
      evictFromMain_run (secondChance_eq hsplit hf) hl hu rfl (Nat.lt_succ_self _)
    change σ.evictFromMain = _ at hloop
    constructor
    · intro hz
      rw [hloop, hz]
      rfl
    · intro hpos
      refine ⟨t, ks, by rw [hloop, subOne_pos hpos]; rfl, ht, hev.gone, ?_, ?_, ?_, hev.nodes⟩
      · intro p hp
        obtain ⟨e, he, hfreq⟩ := hmem p (List.mem_append_left _ hp)
        refine ⟨e, he, hfreq, hev.freq he ?_⟩
        rw [hfreq]
        exact List.mem_append_right _ (List.mem_map_of_mem hp)
      · intro p hp
        obtain ⟨e, he, hfreq⟩ := hmem p (List.mem_append_right _ (List.mem_cons_of_mem _ hp))
        refine ⟨e, he, hfreq, hev.freq he ?_⟩
        rw [hfreq]
        exact List.mem_append_left _ (List.mem_map_of_mem hp)
      · intro y hyx hb ha
        refine hev.unlisted hyx ?_
        intro n hn
        rw [hsplit] at hn
        rcases List.mem_append.mp hn with hn | hn
        · exact hb (List.mem_map_of_mem hn)
        · rcases List.mem_cons.mp hn with heq | hn
          · exact hyx (congrArg Prod.fst heq)
          · exact ha (List.mem_map_of_mem hn)

/-- 昇格した三つの key を、二回・一回・一回の読み出しの後で並べた main queue での追い出し。 -/
theorem evictFromMain_spec_threePromoted :
    ∃ rs σ, runOps UInt64.ofNat
        [.key 0 (.insert 0), .key 1 (.insert 1), .key 2 (.insert 2), .key 3 (.insert 3),
          .key 0 .get, .key 0 .get, .key 1 .get, .key 2 .get, .key 4 (.insert 4)]
        (ShardData.new 4 : ShardData Nat Nat) = .ok (rs, σ) ∧
      liveNodes σ.map σ.mainKeys = [(0, 2), (1, 1), (2, 1)] ∧
      ∃ before x m after, liveNodes σ.map σ.mainKeys = before ++ (x, m) :: after ∧
        (∀ p ∈ before, m < p.2) ∧ (∀ p ∈ after, m ≤ p.2) ∧
        ∃ t ks, σ.evictFromMain = .ok
            { σ with map := t, mainHashes := ks.map UInt64.ofNat, mainKeys := ks
                     mainLive := σ.mainLive - 1 } ∧
          t.get? x = none ∧ liveNodes t ks = lower m after ++ lower (m + 1) before := by
  have hrun : runOps UInt64.ofNat
      [.key 0 (.insert 0), .key 1 (.insert 1), .key 2 (.insert 2), .key 3 (.insert 3),
        .key 0 .get, .key 0 .get, .key 1 .get, .key 2 .get, .key 4 (.insert 4)]
      (ShardData.new 4 : ShardData Nat Nat) = .ok (_, _) := rfl
  have hl := (reachable_runOps reachable_new hrun).linked
  obtain ⟨before, x, m, after, hsplit, hlt, hle, -, hok⟩ :=
    (evictFromMain_spec hl (uniqueMain_iff.mpr (by decide))).2 (by decide)
  obtain ⟨t, ks, hev, -, hgone, -, -, -, hnodes⟩ := hok (by decide)
  exact ⟨_, _, hrun, by decide, before, x, m, after, hsplit, hlt, hle, t, ks, hev, hgone, hnodes⟩

end Neocache
