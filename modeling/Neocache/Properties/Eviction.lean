import Mathlib.Logic.Function.Basic
import Neocache.Properties.Queues

/-!
# 追い出しの loop

`evict_one` は昇格だけして戻ることがあり、`evict_from_main` は候補が無ければ何もせずに戻る。
どちらの queue を見るかは counter で決まるので、counter だけ大きくて候補の無い状態があれば
loop は write lock を持ったまま終わらない。

到達可能な状態ではそうならない。`Bounds` から、選ばれた側の queue には必ず生きた候補があり
（`small_candidate`、`main_candidate`）、counter も 0 ではない。
したがって `evict_one` は毎回一つ昇格させるか追い出すかする（`evictOne_productive`）。
追い出すと `totalLive` が `shardCap` を下回り、loop はそこで終わる。
-/

namespace Neocache

open Infra Relation ShardData

variable {K V : Type*} [DecidableEq K] {hash : K → UInt64} {σ σ' τ τ' : ShardData K V} {cap : Nat}

/-! ## 値だけを見る見方 -/

/-- key から値への写像。追い出し用の情報は見ない。 -/
def ShardData.lookup (σ : ShardData K V) (k : K) : Option V := (σ.map.get? k).map CacheEntry.value

theorem lookup_modify (k : K) {f : CacheEntry V → CacheEntry V} (hmap : σ'.map = σ.map.modify k f)
    (hf : ∀ e, (f e).value = e.value) : σ'.lookup = σ.lookup := by
  funext x
  unfold lookup
  rw [hmap, Table.get?_modify]
  split
  · cases σ.map.get? x with
    | none => rfl
    | some e => simp [hf e]
  · rfl

theorem lookup_remove (k : K) (hmap : σ'.map = σ.map.remove k) :
    σ'.lookup = Function.update σ.lookup k none := by
  funext x
  unfold lookup
  rw [hmap, Table.get?_remove]
  by_cases hx : x = k
  · subst hx; simp
  · simp [hx]

theorem lookup_register (σ : ShardData K V) (h : UInt64) (k : K) (v : V) (loc : Loc) :
    (σ.register h k v loc).lookup = Function.update σ.lookup k (some v) := by
  funext x
  unfold lookup
  rw [register_map, Table.get?_insert]
  by_cases hx : x = k
  · subst hx; simp [CacheEntry.new]
  · simp [hx]

theorem lookup_eq_none {k : K} : σ.lookup k = none ↔ σ.map.get? k = none := by
  simp [lookup]

/-! ## 一回の `evict_one` の成果 -/

/-- small の生きた entry を一つ main に移した。 -/
def Promotes (σ σ' : ShardData K V) : Prop :=
  ∃ k e, σ.map.get? k = some e ∧ k ∈ σ.smallKeys ∧ 0 < e.freq ∧
    σ'.map = (σ.map.modify k fun e => { e with loc := .main }) ∧ k ∈ σ'.mainKeys ∧
    σ'.smallLive + 1 = σ.smallLive ∧ σ'.mainLive = σ.mainLive + 1

/-- 生きた entry を丁度一つ表から除き、どちらかの counter を一つ減らした。 -/
def Evicts (σ σ' : ShardData K V) : Prop :=
  ∃ k, σ.lookup k ≠ none ∧ σ'.lookup = Function.update σ.lookup k none ∧
    σ'.map.len + 1 = σ.map.len ∧
    (σ'.smallLive + 1 = σ.smallLive ∧ σ'.mainLive = σ.mainLive ∨
      σ'.smallLive = σ.smallLive ∧ σ'.mainLive + 1 = σ.mainLive)

/-! ## 候補があること -/

/-- その loc の entry が表に一つでもあれば、queue の先頭から生きた node が見つかる。 -/
theorem popLive_candidate {loc : Loc} (hs : Healthy hash σ) (hpos : 0 < σ.countLoc loc) :
    ∃ dead k e rest, σ.queueKeys loc = dead ++ k :: rest ∧ (∀ k' ∈ dead, σ.map.get? k' = none) ∧
      σ.map.get? k = some e ∧
      popLive σ.map (σ.queueHashes loc) (σ.queueKeys loc) = (some (hash k, k, e), rest.map hash, rest) := by
  obtain ⟨k₀, e₀, hk₀, hw⟩ := Table.sum_pos_iff.mp hpos
  have hloc : e₀.loc = loc := by
    by_contra hne
    simp [hne] at hw
  have hmem : k₀ ∈ σ.queueKeys loc := hloc ▸ hs.covered k₀ e₀ hk₀
  rw [hs.linked.queue loc]
  rcases popLive_cases hs.linked.table (σ.queueKeys loc) with ⟨-, hdead⟩ | hfound
  · -- 全部の node が死んでいれば、`Covered` が与える node も死んでいる
    rw [hdead k₀ hmem] at hk₀
    cases hk₀
  · exact hfound

/-- small を見るのは counter が `smallCap` 以上のときで、そのとき small の entry が残っている。 -/
theorem small_candidate (hs : Healthy hash σ) (quota : σ.smallCap ≤ σ.smallLive) :
    0 < σ.countLoc .small ∧ 0 < σ.smallLive := by
  have h1 := hs.bounds.small
  have h2 := hs.bounds.quota_pos
  omega

/-- main を見るのは counter が `smallCap` 未満のときで、満杯なら main の entry が残っている。 -/
theorem main_candidate (hs : Healthy hash σ) (full : σ.Over) (side : σ.smallLive < σ.smallCap) :
    0 < σ.countLoc .main ∧ 0 < σ.mainLive := by
  have h1 := hs.bounds.main
  have h2 := hs.bounds.quota_le
  have h3 : σ.shardCap ≤ σ.smallLive + σ.mainLive := full.2
  omega

theorem subOne_pos {n : Nat} (h : 0 < n) : subOne n = .ok (n - 1) := by
  unfold subOne
  rw [if_neg (by omega)]

/-! ## small からの追い出し -/

theorem evictFromSmall_productive (hs : Healthy hash σ) (quota : σ.smallCap ≤ σ.smallLive) :
    ∃ σ', σ.evictFromSmall = .ok σ' ∧ (Promotes σ σ' ∨ Evicts σ σ') := by
  obtain ⟨hcount, hlive⟩ := small_candidate hs quota
  obtain ⟨dead, k, e, rest, hq, -, hk, hpop⟩ := popLive_candidate hs hcount
  have hmem : k ∈ σ.smallKeys := by
    change σ.smallKeys = _ at hq
    rw [hq]
    simp
  change popLive σ.map σ.smallHashes σ.smallKeys = _ at hpop
  unfold evictFromSmall
  simp only [hpop, subOne_pos hlive]
  by_cases hot : 0 < e.freq
  · rw [if_pos hot]
    refine ⟨_, rfl, Or.inl ⟨k, e, hk, hmem, hot, rfl, by simp, ?_, rfl⟩⟩
    show σ.smallLive - 1 + 1 = σ.smallLive
    omega
  · rw [if_neg hot]
    refine ⟨_, rfl, Or.inr ⟨k, ?_, lookup_remove k rfl, Table.len_remove hk, Or.inl ⟨?_, rfl⟩⟩⟩
    · rw [Ne, lookup_eq_none, hk]
      simp
    · show σ.smallLive - 1 + 1 = σ.smallLive
      omega

/-! ## main からの追い出し -/

/-- second chance だけが起こった前後の関係。 -/
structure Rotated (σ τ : ShardData K V) : Prop where
  lookup : τ.lookup = σ.lookup
  len : τ.map.len = σ.map.len
  small : τ.smallLive = σ.smallLive
  main : τ.mainLive = σ.mainLive
  shardCap : τ.shardCap = σ.shardCap
  smallCap : τ.smallCap = σ.smallCap

/-- 一周は、second chance を与えて freq の総和を減らすか、一つ追い出して抜ける。 -/
theorem evictFromMainBody_productive (hs : Healthy hash σ) (full : σ.Over)
    (side : σ.smallLive < σ.smallCap) :
    (∃ σ', evictFromMainBody σ = .ok (.again σ') ∧ Healthy hash σ' ∧ Rotated σ σ' ∧
        σ'.totalFreq < σ.totalFreq) ∨
      ∃ σ', evictFromMainBody σ = .ok (.done σ') ∧ Evicts σ σ' := by
  obtain ⟨hcount, hlive⟩ := main_candidate hs full side
  obtain ⟨dead, k, e, rest, hq, hdead, hk, hpop⟩ := popLive_candidate hs hcount
  have hbody := evictFromMainBody_sweep hs.linked full (Or.inl side)
  change popLive σ.map σ.mainHashes σ.mainKeys = _ at hpop
  unfold evictFromMainBody at hbody ⊢
  simp only [hpop, subOne_pos hlive] at hbody ⊢
  by_cases hot : 0 < e.freq
  · rw [if_pos hot] at hbody ⊢
    obtain ⟨hsweep, -, -⟩ := hbody.2 _ rfl
    refine Or.inl ⟨_, rfl, sweep_healthy hsweep hs,
      ⟨lookup_modify (f := fun e => { e with freq := e.freq - 1 }) k rfl fun _ => rfl,
        Table.len_modify _ _ _, rfl, rfl, rfl, rfl⟩, ?_⟩
    have hsum : (σ.map.modify k fun e => { e with freq := e.freq - 1 }).sum CacheEntry.freq + e.freq
        = σ.map.sum CacheEntry.freq + (e.freq - 1) :=
      Table.sum_modify hk (fun e => { e with freq := e.freq - 1 }) CacheEntry.freq
    show (σ.map.modify k fun e => { e with freq := e.freq - 1 }).sum CacheEntry.freq < _
    unfold totalFreq
    omega
  · rw [if_neg hot]
    refine Or.inr ⟨_, rfl, k, ?_, lookup_remove k rfl, Table.len_remove hk, Or.inr ⟨rfl, ?_⟩⟩
    · rw [Ne, lookup_eq_none, hk]
      simp
    · show σ.mainLive - 1 + 1 = σ.mainLive
      omega

theorem Evicts.of_rotated (hr : Rotated σ τ) (h : Evicts τ τ') : Evicts σ τ' := by
  obtain ⟨k, hk, hlookup, hlen, hlive⟩ := h
  rw [hr.lookup] at hk hlookup
  rw [hr.len] at hlen
  rw [hr.small, hr.main] at hlive
  exact ⟨k, hk, hlookup, hlen, hlive⟩

theorem evictFromMain_productive (hs : Healthy hash σ) (full : σ.Over)
    (side : σ.smallLive < σ.smallCap) : ∃ σ', σ.evictFromMain = .ok σ' ∧ Evicts σ σ' := by
  refine loop_total (P := fun τ => Healthy hash τ ∧ Rotated σ τ) (μ := totalFreq) ?_
    ⟨hs, rfl, rfl, rfl, rfl, rfl, rfl⟩ (Nat.lt_succ_self _)
  rintro τ ⟨hτ, hr⟩
  have hover : τ.Over := by
    unfold Over totalLive at full ⊢
    rw [hr.shardCap, hr.small, hr.main]
    exact full
  have hside : τ.smallLive < τ.smallCap := by rw [hr.small, hr.smallCap]; exact side
  rcases evictFromMainBody_productive hτ hover hside with ⟨τ', hb, hτ', hr', hμ⟩ | ⟨τ', hb, hev⟩
  · refine Or.inl ⟨τ', hb, ⟨hτ', ?_⟩, hμ⟩
    exact ⟨hr'.lookup.trans hr.lookup, hr'.len.trans hr.len, hr'.small.trans hr.small,
      hr'.main.trans hr.main, hr'.shardCap.trans hr.shardCap, hr'.smallCap.trans hr.smallCap⟩
  · exact Or.inr ⟨τ', hb, hev.of_rotated hr⟩

/-- 追い出しが必要な状態での `evict_one` は、必ず一つ昇格させるか追い出すかする。 -/
theorem evictOne_productive (hs : Healthy hash σ) (full : σ.Over) :
    ∃ σ', σ.evictOne = .ok σ' ∧ (Promotes σ σ' ∨ Evicts σ σ') := by
  unfold evictOne
  split
  · next quota => exact evictFromSmall_productive hs quota
  · next quota =>
    obtain ⟨σ', h, hev⟩ := evictFromMain_productive hs full (by omega)
    exact ⟨σ', h, Or.inr hev⟩

/-! ## loop 全体 -/

/-- 操作が、追い出しを起こす新しい key の挿入であること。 -/
def ShardOp.Evicting (op : ShardOp K V) (σ : ShardData K V) : Prop :=
  match op with
  | .key k kop => σ.map.get? k = none ∧ kop.newValue.isSome ∧ σ.Over
  | _ => False

/-- loop の中の一回の呼び出し。 -/
def EvictCall (σ σ' : ShardData K V) : Prop := σ.Over ∧ σ.evictOne = .ok σ'

/-- 生きた entry が丁度一つ消えた。 -/
def LosesOne (σ σ' : ShardData K V) : Prop :=
  ∃ k, σ.lookup k ≠ none ∧ σ'.lookup = Function.update σ.lookup k none ∧ σ'.map.len + 1 = σ.map.len

theorem evictCall_healthy (h : ReflTransGen EvictCall σ σ') (hs : Healthy hash σ) :
    Healthy hash σ' :=
  star_preserves (P := Healthy hash)
    (fun _ _ hs hcall => sweep_healthy (evictOne_sweep hs.linked hcall.1 hcall.2) hs) h hs

/-- 昇格では値も容量に対する合計も動かない。 -/
theorem Promotes.keeps (h : Promotes σ σ') :
    σ'.lookup = σ.lookup ∧ σ'.map.len = σ.map.len ∧ σ'.totalLive = σ.totalLive ∧
      σ'.evictFuel < σ.evictFuel := by
  obtain ⟨k, e, hk, -, -, hmap, -, hsmall, hmain⟩ := h
  refine ⟨lookup_modify k hmap fun _ => rfl, by rw [hmap, Table.len_modify], ?_, ?_⟩
  · unfold totalLive; omega
  · unfold evictFuel; omega

theorem Evicts.drops (h : Evicts σ σ') :
    LosesOne σ σ' ∧ σ'.totalLive + 1 = σ.totalLive ∧ σ'.evictFuel < σ.evictFuel := by
  obtain ⟨k, hk, hlookup, hlen, hlive⟩ := h
  refine ⟨⟨k, hk, hlookup, hlen⟩, ?_, ?_⟩
  · unfold totalLive; omega
  · unfold evictFuel; omega

/--
追い出しの loop は終わり、丁度一つの entry が消える。

昇格の間は値が変わらないまま `evictFuel` が減り、最初の追い出しで空きができて抜ける。
-/
theorem evictLoop_total (hs : Healthy hash σ) (full : σ.Over) :
    ∃ σ', σ.evictLoop = .ok σ' ∧ ReflTransGen EvictCall σ σ' ∧ ¬ σ'.Over ∧ LosesOne σ σ' := by
  refine loop_total (μ := evictFuel)
    (P := fun τ => ReflTransGen EvictCall σ τ ∧
      (τ.Over ∧ τ.lookup = σ.lookup ∧ τ.map.len = σ.map.len ∨ ¬ τ.Over ∧ LosesOne σ τ))
    (Q := fun τ => ReflTransGen EvictCall σ τ ∧ ¬ τ.Over ∧ LosesOne σ τ)
    ?_ ⟨.refl, Or.inl ⟨full, rfl, rfl⟩⟩ (Nat.lt_succ_self _)
  rintro τ ⟨hcalls, hcase⟩
  have hτ := evictCall_healthy hcalls hs
  rcases hcase with ⟨hover, hlookup, hlen⟩ | ⟨hroom, hlost⟩
  · obtain ⟨τ', hcall, hprod⟩ := evictOne_productive hτ hover
    have hbody : whileBody overCap evictOne τ = .ok (.again τ') := by
      unfold whileBody
      rw [if_pos (overCap_iff.mpr hover), hcall]
      rfl
    have hcap := (sweep_caps (evictOne_sweep hτ.linked hover hcall)).1
    have hcalls' : ReflTransGen EvictCall σ τ' := hcalls.tail ⟨hover, hcall⟩
    have htotal := hτ.bounds.total
    rcases hprod with hpro | hev
    · -- 昇格では合計が変わらないので、まだ満杯である
      obtain ⟨hl, hn, ht, hμ⟩ := hpro.keeps
      refine Or.inl ⟨τ', hbody, ⟨hcalls', Or.inl ⟨?_, hl.trans hlookup, hn.trans hlen⟩⟩, hμ⟩
      unfold Over
      rw [hcap, ht]
      exact hover
    · -- 合計は `shardCap` 以下だったので、一つ追い出せば空きができる
      obtain ⟨⟨k, hk, hl, hn⟩, ht, hμ⟩ := hev.drops
      refine Or.inl ⟨τ', hbody, ⟨hcalls', Or.inr ⟨?_, k, ?_, ?_, ?_⟩⟩, hμ⟩
      · rintro ⟨-, hle⟩
        unfold totalLive at ht hle
        omega
      · rw [← hlookup]; exact hk
      · rw [hl, hlookup]
      · omega
  · refine Or.inr ⟨τ, ?_, hcalls, hroom, hlost⟩
    unfold whileBody
    rw [if_neg fun hc => hroom (overCap_iff.mp hc)]

/-- 表に無い key を入れる操作は、追い出しの結果に登録を続けたものである。 -/
theorem exec_fresh {k : K} {v : V} {op : KeyOp K V} {σ₁ : ShardData K V} (hl : Linked hash σ)
    (hk : σ.map.get? k = none) (hv : op.newValue = some v)
    (hev : (σ.ghostCheck (hash k)).2.evictLoop = .ok σ₁) :
    op.exec (hash k) k σ =
      .ok (op.absentRet, σ₁.register (hash k) k v (σ.ghostCheck (hash k)).1) := by
  rw [exec_absent hl hk op, hv]
  simp only [insertVacant, hev]
  rfl

/-- 空きがあれば、新しい key の挿入は登録だけである。 -/
theorem insertion_room {k : K} {v : V} {op : KeyOp K V} (hl : Linked hash σ)
    (hk : σ.map.get? k = none) (hv : op.newValue = some v) (hroom : ¬ σ.Over) :
    (σ.ghostCheck (hash k)).2.evictLoop = .ok (σ.ghostCheck (hash k)).2 ∧
      op.exec (hash k) k σ = .ok (op.absentRet,
        (σ.ghostCheck (hash k)).2.register (hash k) k v (σ.ghostCheck (hash k)).1) := by
  have hloop : (σ.ghostCheck (hash k)).2.evictLoop = .ok (σ.ghostCheck (hash k)).2 :=
    evictLoop_room hroom
  exact ⟨hloop, exec_fresh hl hk hv hloop⟩

/-- 容量のある shard では、どの操作も失敗しない。 -/
theorem exec_total (hs : Healthy hash σ) (op : ShardOp K V) :
    ∃ r σ', op.exec hash σ = .ok (r, σ') := by
  cases op with
  | key k op =>
    cases hk : σ.map.get? k with
    | some e => exact ⟨_, _, exec_present hs.linked hk op⟩
    | none =>
      cases hv : op.newValue with
      | none =>
        have hexec := exec_absent hs.linked hk op
        rw [hv] at hexec
        exact ⟨_, _, hexec⟩
      | some v =>
        by_cases hover : σ.Over
        · have hg : Healthy hash (σ.ghostCheck (hash k)).2 :=
            Move.healthy (Or.inr (.takeGhost _)) hs
          obtain ⟨σ₁, hloop, -⟩ := evictLoop_total hg hover
          exact ⟨_, _, exec_fresh hs.linked hk hv hloop⟩
        · exact ⟨_, _, (insertion_room hs.linked hk hv hover).2⟩
  | retain f n => exact ⟨_, _, rfl⟩
  | alterAll f n => exact ⟨_, _, rfl⟩
  | clearAll => exact ⟨_, _, rfl⟩

theorem runOps_total (hcap : 0 < cap) : ∀ (ops : List (ShardOp K V)) {σ : ShardData K V},
    ShardReachable hash cap σ → ∃ rs σ', runOps hash ops σ = .ok (rs, σ')
  | [], σ, _ => ⟨[], σ, rfl⟩
  | op :: ops, σ, hr => by
    obtain ⟨r, σ₁, hexec⟩ := exec_total (hr.healthy hcap) op
    obtain ⟨rs, σ', hrest⟩ := runOps_total hcap ops (.step hr ⟨r, hexec⟩)
    refine ⟨r :: rs, σ', ?_⟩
    rw [runOps, hexec]
    simp only [hrest]
    rfl

/--
到達可能な状態での新しい key の挿入。

満杯なら loop は終わり、loop の中の `evict_one` はどれも panic せず一つ昇格させるか追い出すかし、
全体では入れる key と違う entry を丁度一つ除く。満杯でなければ何も除かない。
-/
theorem insertion_evicts_one {v : V} (k : K) (op : KeyOp K V) (h : ShardReachable hash cap σ)
    (hcap : 0 < cap) (hk : σ.map.get? k = none) (hv : op.newValue = some v) :
    (cap ≤ σ.totalLive →
      (∀ τ, ReflTransGen EvictCall (σ.ghostCheck (hash k)).2 τ → τ.Over →
        ∃ τ', τ.evictOne = .ok τ' ∧ (Promotes τ τ' ∨ Evicts τ τ')) ∧
      ∃ σ₁, (σ.ghostCheck (hash k)).2.evictLoop = .ok σ₁ ∧
        ReflTransGen EvictCall (σ.ghostCheck (hash k)).2 σ₁ ∧ ¬ σ₁.Over ∧
        op.exec (hash k) k σ =
          .ok (op.absentRet, σ₁.register (hash k) k v (σ.ghostCheck (hash k)).1) ∧
        ∃ k', k' ≠ k ∧ σ.lookup k' ≠ none ∧ σ₁.lookup = Function.update σ.lookup k' none ∧
          σ₁.map.len + 1 = σ.map.len) ∧
    (σ.totalLive < cap →
      (σ.ghostCheck (hash k)).2.evictLoop = .ok (σ.ghostCheck (hash k)).2 ∧
        op.exec (hash k) k σ = .ok (op.absentRet,
          (σ.ghostCheck (hash k)).2.register (hash k) k v (σ.ghostCheck (hash k)).1)) := by
  have hs := h.healthy hcap
  have hs' : Healthy hash (σ.ghostCheck (hash k)).2 := Move.healthy (Or.inr (.takeGhost _)) hs
  constructor
  · intro hfull
    have hover : (σ.ghostCheck (hash k)).2.Over := by
      refine ⟨hs'.cap_pos, ?_⟩
      show σ.shardCap ≤ σ.totalLive
      rw [h.caps.1]
      exact hfull
    refine ⟨fun τ hcalls hτ => evictOne_productive (evictCall_healthy hcalls hs') hτ, ?_⟩
    obtain ⟨σ₁, hloop, hcalls, hroom, k', hk', hlookup, hlen⟩ := evictLoop_total hs' hover
    refine ⟨σ₁, hloop, hcalls, hroom, exec_fresh hs.linked hk hv hloop, k', ?_, hk', hlookup, hlen⟩
    -- 追い出された key は表にあったので、入れる key とは違う
    rintro rfl
    exact hk' (lookup_eq_none.mpr hk)
  · intro hroom
    refine insertion_room hs.linked hk hv ?_
    rintro ⟨-, hle⟩
    rw [h.caps.1] at hle
    omega

/-- 容量 1 の shard に二つ目を入れると、一つ目が追い出される。 -/
theorem insertion_evicts_one_capOne :
    ∃ rs σ, runOps UInt64.ofNat [.key 0 (.insert 7)] (ShardData.new 1 : ShardData Nat Nat)
        = .ok (rs, σ) ∧ 1 ≤ σ.totalLive ∧
      ∃ σ₁, (σ.ghostCheck 1).2.evictLoop = .ok σ₁ ∧
        ∃ k', k' ≠ 1 ∧ σ.lookup k' ≠ none ∧ σ₁.lookup = Function.update σ.lookup k' none := by
  have hrun : runOps UInt64.ofNat [.key 0 (.insert 7)] (ShardData.new 1 : ShardData Nat Nat)
      = .ok (_, _) := rfl
  have hr := reachable_runOps reachable_new hrun
  obtain ⟨-, σ₁, hloop, -, -, -, k', hne, hk', hlookup, -⟩ :=
    (insertion_evicts_one 1 (.insert 8) hr (by decide) rfl rfl).1 (by decide)
  exact ⟨_, _, hrun, by decide, σ₁, hloop, k', hne, hk', hlookup⟩

end Neocache
