import Mathlib.Logic.Relation
import Neocache.Shard.Ops

/-!
# shard の状態がどう変わりうるか

操作の本体（`Neocache/Shard/Data.lean`、`Neocache/Shard/Ops.lean`）を、状態の小さな変化に分ける。

* `Sweep` — 追い出しの loop の中で起こること。死んだ node の読み飛ばし、small からの昇格、
  small からの追い出し、main の second chance、main からの追い出し
* `Edit` — それ以外で起こること。登録、entry の書き換え、除去、全消去、ghost の取り出し

以降の不変条件はこの二つの各場合について示せばよく、操作の本体を展開し直さない。
分解そのものは `evictLoop_sweep` と `exec_moves` である。

small と main で同じ形になる事実を二度書かないため、queue と counter を loc で引く見方を用意する。
-/

namespace Neocache

open Infra Relation

variable {K V : Type*}

namespace ShardData

/-! ## loc で引く見方 -/

def queueHashes (σ : ShardData K V) : Loc → List UInt64
  | .small => σ.smallHashes
  | .main => σ.mainHashes

def queueKeys (σ : ShardData K V) : Loc → List K
  | .small => σ.smallKeys
  | .main => σ.mainKeys

def live (σ : ShardData K V) : Loc → Nat
  | .small => σ.smallLive
  | .main => σ.mainLive

def setQueue (σ : ShardData K V) (loc : Loc) (hs : List UInt64) (ks : List K) : ShardData K V :=
  match loc with
  | .small => { σ with smallHashes := hs, smallKeys := ks }
  | .main => { σ with mainHashes := hs, mainKeys := ks }

/-- その loc を持つ表の entry の個数。 -/
def countLoc (σ : ShardData K V) (loc : Loc) : Nat :=
  σ.map.sum fun e => if e.loc = loc then 1 else 0

theorem setQueue_self (σ : ShardData K V) (loc : Loc) :
    σ.setQueue loc (σ.queueHashes loc) (σ.queueKeys loc) = σ := by
  cases loc <;> rfl

@[simp] theorem setQueue_setQueue (σ : ShardData K V) (loc : Loc) (hs hs' : List UInt64)
    (ks ks' : List K) : (σ.setQueue loc hs ks).setQueue loc hs' ks' = σ.setQueue loc hs' ks' := by
  cases loc <;> rfl

@[simp] theorem queueKeys_setQueue (σ : ShardData K V) (loc : Loc) (hs : List UInt64)
    (ks : List K) : (σ.setQueue loc hs ks).queueKeys loc = ks := by
  cases loc <;> rfl

@[simp] theorem queueHashes_setQueue (σ : ShardData K V) (loc : Loc) (hs : List UInt64)
    (ks : List K) : (σ.setQueue loc hs ks).queueHashes loc = hs := by
  cases loc <;> rfl

theorem queueKeys_setQueue_ne (σ : ShardData K V) {loc loc' : Loc} (h : loc' ≠ loc)
    (hs : List UInt64) (ks : List K) :
    (σ.setQueue loc hs ks).queueKeys loc' = σ.queueKeys loc' := by
  cases loc <;> cases loc' <;> first | rfl | exact absurd rfl h

theorem queueHashes_setQueue_ne (σ : ShardData K V) {loc loc' : Loc} (h : loc' ≠ loc)
    (hs : List UInt64) (ks : List K) :
    (σ.setQueue loc hs ks).queueHashes loc' = σ.queueHashes loc' := by
  cases loc <;> cases loc' <;> first | rfl | exact absurd rfl h

@[simp] theorem setQueue_map (σ : ShardData K V) (loc : Loc) (hs : List UInt64) (ks : List K) :
    (σ.setQueue loc hs ks).map = σ.map := by
  cases loc <;> rfl

/-- 表の entry はどちらかの loc を持つ。 -/
theorem countLoc_add (σ : ShardData K V) : σ.countLoc .small + σ.countLoc .main = σ.map.len := by
  unfold countLoc
  rw [← Table.sum_one, ← Table.sum_add]
  congr 1
  funext e
  cases e.loc <;> simp

/-- hash の列が key の列に付いて回り、表の hash も揃っていること。 -/
structure Linked (hash : K → UInt64) (σ : ShardData K V) : Prop where
  queue : ∀ loc, σ.queueHashes loc = (σ.queueKeys loc).map hash
  table : ∀ s ∈ σ.map.slots, s.hash = hash s.key

/-- 追い出しが本当に必要な状態。 -/
def Over (σ : ShardData K V) : Prop := 0 < σ.shardCap ∧ σ.shardCap ≤ σ.totalLive

section

variable {hash : K → UInt64} {σ : ShardData K V}

theorem overCap_iff : σ.overCap = true ↔ σ.Over := by
  simp [overCap, Over]

theorem Linked.setQueue (hl : Linked hash σ) (loc : Loc) (ks : List K) :
    Linked hash (σ.setQueue loc (ks.map hash) ks) where
  queue loc' := by
    by_cases h : loc' = loc
    · subst h; simp
    · rw [queueHashes_setQueue_ne σ h, queueKeys_setQueue_ne σ h]; exact hl.queue loc'
  table := by rw [setQueue_map]; exact hl.table

end

variable [DecidableEq K] {hash : K → UInt64} {σ σ' : ShardData K V}

@[simp] theorem register_map (σ : ShardData K V) (h : UInt64) (k : K) (v : V) (loc : Loc) :
    (σ.register h k v loc).map = σ.map.insert h k (.new v loc) := by
  cases loc <;> rfl

theorem register_queueKeys (σ : ShardData K V) (h : UInt64) (k : K) (v : V) (loc loc' : Loc) :
    (σ.register h k v loc).queueKeys loc' =
      if loc' = loc then σ.queueKeys loc' ++ [k] else σ.queueKeys loc' := by
  cases loc <;> cases loc' <;> rfl

theorem register_live (σ : ShardData K V) (h : UInt64) (k : K) (v : V) (loc loc' : Loc) :
    (σ.register h k v loc).live loc' = if loc' = loc then σ.live loc' + 1 else σ.live loc' := by
  cases loc <;> cases loc' <;> rfl

@[simp] theorem unlink_map (σ : ShardData K V) (k : K) (loc : Loc) :
    (σ.unlink k loc).map = σ.map.remove k := by
  cases loc <;> rfl

@[simp] theorem unlink_queueKeys (σ : ShardData K V) (k : K) (loc loc' : Loc) :
    (σ.unlink k loc).queueKeys loc' = σ.queueKeys loc' := by
  cases loc <;> cases loc' <;> rfl

theorem unlink_live (σ : ShardData K V) (k : K) (loc loc' : Loc) :
    (σ.unlink k loc).live loc' = if loc' = loc then σ.live loc' - 1 else σ.live loc' := by
  cases loc <;> cases loc' <;> rfl

theorem Linked.find (hl : Linked hash σ) (k : K) : σ.map.find (hash k) k = σ.map.get? k :=
  Table.find_eq_get? hl.table k

/-! ## 追い出しの中の変化 -/

/--
追い出しの loop の中の一歩。

昇格と small からの追い出しは `smallCap ≤ smallLive` の側でしか起こらない。
main からの追い出しは反対側か、small queue を使い切った後である。
-/
inductive Sweep (hash : K → UInt64) : ShardData K V → ShardData K V → Prop
  | skip {σ : ShardData K V} {loc : Loc} {k : K} {ks : List K} (hq : σ.queueKeys loc = k :: ks)
      (dead : σ.map.get? k = none) : Sweep hash σ (σ.setQueue loc (ks.map hash) ks)
  | promote {σ : ShardData K V} {k : K} {ks : List K} {e : CacheEntry V}
      (full : σ.Over) (quota : σ.smallCap ≤ σ.smallLive) (pos : 0 < σ.smallLive)
      (hq : σ.smallKeys = k :: ks) (hk : σ.map.get? k = some e) (hot : 0 < e.freq) :
      Sweep hash σ
        { σ with
          map := σ.map.modify k fun e => { e with loc := .main }
          smallHashes := ks.map hash, smallKeys := ks, smallLive := σ.smallLive - 1
          mainHashes := σ.mainHashes ++ [hash k], mainKeys := σ.mainKeys ++ [k]
          mainLive := σ.mainLive + 1 }
  | evictSmall {σ : ShardData K V} {k : K} {ks : List K} {e : CacheEntry V}
      (full : σ.Over) (quota : σ.smallCap ≤ σ.smallLive) (pos : 0 < σ.smallLive)
      (hq : σ.smallKeys = k :: ks) (hk : σ.map.get? k = some e) (cold : e.freq = 0) :
      Sweep hash σ ({ σ with
        map := σ.map.remove k, smallHashes := ks.map hash, smallKeys := ks
        smallLive := σ.smallLive - 1 }.addToGhost (hash k))
  | secondChance {σ : ShardData K V} {k : K} {ks : List K} {e : CacheEntry V}
      (hq : σ.mainKeys = k :: ks) (hk : σ.map.get? k = some e) (hot : 0 < e.freq) :
      Sweep hash σ
        { σ with
          map := σ.map.modify k fun e => { e with freq := e.freq - 1 }
          mainHashes := ks.map hash ++ [hash k], mainKeys := ks ++ [k] }
  | evictMain {σ : ShardData K V} {k : K} {ks : List K} {e : CacheEntry V}
      (full : σ.Over) (side : σ.smallLive < σ.smallCap ∨ σ.smallKeys = [])
      (pos : 0 < σ.mainLive)
      (hq : σ.mainKeys = k :: ks) (hk : σ.map.get? k = some e) (cold : e.freq = 0) :
      Sweep hash σ
        { σ with
          map := σ.map.remove k, mainHashes := ks.map hash, mainKeys := ks
          mainLive := σ.mainLive - 1 }

/-- 追い出しの外で起こる変化の一歩。 -/
inductive Edit (hash : K → UInt64) : ShardData K V → ShardData K V → Prop
  | takeGhost {σ : ShardData K V} (h : UInt64) :
      Edit hash σ { σ with ghostSet := σ.ghostSet.erase h }
  | register {σ : ShardData K V} (k : K) (v : V) (loc : Loc) (hk : σ.map.get? k = none)
      (room : ¬ σ.Over) : Edit hash σ (σ.register (hash k) k v loc)
  | update {σ : ShardData K V} (k : K) (f : CacheEntry V → CacheEntry V)
      (hloc : ∀ e, σ.map.get? k = some e → (f e).loc = e.loc) : Edit hash σ (σ.updateEntry k f)
  | unlink {σ : ShardData K V} {k : K} {e : CacheEntry V} (hk : σ.map.get? k = some e) :
      Edit hash σ (σ.unlink k e.loc)
  | clear {σ : ShardData K V} : Edit hash σ σ.clearAll

/-! ## 追い出しの分解 -/

theorem subOne_ok {n m : Nat} (h : subOne n = .ok m) : 0 < n ∧ m = n - 1 := by
  unfold subOne at h
  split at h
  · cases h
  · cases h; exact ⟨by omega, rfl⟩

/-- 読み飛ばした node はどれも表に無い key のもので、止まった所の key は表にある。 -/
theorem popLive_cases {t : RawTable K V} (ht : ∀ s ∈ t.slots, s.hash = hash s.key) :
    ∀ ks : List K,
      (popLive t (ks.map hash) ks = (none, [], []) ∧ ∀ k ∈ ks, t.get? k = none) ∨
      ∃ dead k e rest, ks = dead ++ k :: rest ∧ (∀ k' ∈ dead, t.get? k' = none) ∧
        t.get? k = some e ∧ popLive t (ks.map hash) ks = (some (hash k, k, e), rest.map hash, rest)
  | [] => Or.inl ⟨rfl, by simp⟩
  | k :: ks => by
    have hf : t.find (hash k) k = t.get? k := Table.find_eq_get? ht k
    rw [List.map_cons, popLive, hf]
    cases hk : t.get? k with
    | some e => exact Or.inr ⟨[], k, e, ks, rfl, by simp, hk, rfl⟩
    | none =>
      -- 先頭は死んでいる。残りについての場合分けに、先頭を読み飛ばした分を足す。
      rcases popLive_cases ht ks with ⟨hp, hdead⟩ | ⟨dead, k', e, rest, rfl, hdead, hk', hp⟩
      · refine Or.inl ⟨hp, ?_⟩
        intro k' hk'
        rcases List.mem_cons.mp hk' with rfl | hk'
        · exact hk
        · exact hdead k' hk'
      · refine Or.inr ⟨k :: dead, k', e, rest, rfl, ?_, hk', hp⟩
        intro k'' hk''
        rcases List.mem_cons.mp hk'' with rfl | hk''
        · exact hk
        · exact hdead k'' hk''

/-- 死んだ node が続く間は読み飛ばしで進める。 -/
theorem sweep_skip (loc : Loc) : ∀ (dead rest : List K) {σ : ShardData K V}, Linked hash σ →
    σ.queueKeys loc = dead ++ rest → (∀ k ∈ dead, σ.map.get? k = none) →
    ReflTransGen (Sweep hash) σ (σ.setQueue loc (rest.map hash) rest)
  | [], rest, σ, hl, hq, _ => by
    -- 読み飛ばすものが無ければ、列を置き直しても状態は変わらない。
    have hself : σ.setQueue loc (rest.map hash) rest = σ := by
      have hh := hl.queue loc
      rw [hq, List.nil_append] at hh
      rw [List.nil_append] at hq
      conv_rhs => rw [← setQueue_self σ loc]
      rw [hh, hq]
    rw [hself]
  | k :: dead, rest, σ, hl, hq, hdead => by
    have hstep : Sweep hash σ (σ.setQueue loc ((dead ++ rest).map hash) (dead ++ rest)) :=
      .skip hq (hdead k List.mem_cons_self)
    have hrest := sweep_skip loc dead rest (hl.setQueue loc (dead ++ rest)) (queueKeys_setQueue _ _ _ _)
      (fun k' hk' => by rw [setQueue_map]; exact hdead k' (List.mem_cons_of_mem _ hk'))
    rw [setQueue_setQueue] at hrest
    exact ReflTransGen.head hstep hrest

/-- 追い出しの一歩は hash の対応を保つ。 -/
theorem Sweep.linked (h : Sweep hash σ σ') (hl : Linked hash σ) : Linked hash σ' := by
  have hs := hl.queue .small
  have hm := hl.queue .main
  simp only [queueHashes, queueKeys] at hs hm
  cases h with
  | skip => exact hl.setQueue _ _
  | promote =>
    refine ⟨fun loc => ?_, Table.hashed_modify hl.table _ _⟩
    cases loc
    · rfl
    · simp [queueHashes, queueKeys, hm]
  | evictSmall =>
    refine ⟨fun loc => ?_, Table.hashed_remove hl.table _⟩
    cases loc
    · rfl
    · exact hm
  | secondChance =>
    refine ⟨fun loc => ?_, Table.hashed_modify hl.table _ _⟩
    cases loc
    · exact hs
    · simp [queueHashes, queueKeys]
  | evictMain =>
    refine ⟨fun loc => ?_, Table.hashed_remove hl.table _⟩
    cases loc
    · exact hs
    · rfl

theorem sweep_linked (h : ReflTransGen (Sweep hash) σ σ') (hl : Linked hash σ) :
    Linked hash σ' :=
  star_preserves (fun _ _ hl hstep => hstep.linked hl) h hl

/-- main の loop の一周。続けるときは counter に触らない。 -/
theorem evictFromMainBody_sweep (hl : Linked hash σ) (full : σ.Over)
    (side : σ.smallLive < σ.smallCap ∨ σ.smallKeys = []) :
    (∀ σ', evictFromMainBody σ = .ok (.done σ') → ReflTransGen (Sweep hash) σ σ') ∧
    ∀ σ', evictFromMainBody σ = .ok (.again σ') → ReflTransGen (Sweep hash) σ σ' ∧
      σ'.Over ∧ (σ'.smallLive < σ'.smallCap ∨ σ'.smallKeys = []) := by
  have hq : σ.mainHashes = σ.mainKeys.map hash := hl.queue .main
  unfold evictFromMainBody
  rw [hq]
  rcases popLive_cases hl.table σ.mainKeys with ⟨hp, hdead⟩ | ⟨dead, k, e, rest, hks, hdead, hk, hp⟩
  · rw [hp]
    have hskip := sweep_skip .main σ.mainKeys [] hl (by simp [queueKeys]) hdead
    refine ⟨fun σ' h => ?_, fun σ' h => by cases h⟩
    cases h
    exact hskip
  · rw [hp]
    -- 生きた node の手前までを読み飛ばし、止まった entry の freq で分ける。
    have hskip := sweep_skip .main dead (k :: rest) hl hks hdead
    by_cases hot : 0 < e.freq
    · simp only [if_pos hot]
      refine ⟨fun σ' h => (by cases h), fun σ' h => ?_⟩
      cases h
      exact ⟨hskip.tail (.secondChance rfl hk hot), full, side⟩
    · simp only [if_neg hot]
      refine ⟨fun σ' h => ?_, fun σ' h => ?_⟩
      · cases hn : subOne σ.mainLive with
        | error f => rw [hn] at h; cases h
        | ok n =>
          rw [hn] at h
          obtain ⟨hpos, rfl⟩ := subOne_ok hn
          cases h
          exact hskip.tail (.evictMain full side hpos rfl hk (by omega))
      · cases hn : subOne σ.mainLive with
        | error f => rw [hn] at h; cases h
        | ok n => rw [hn] at h; cases h

theorem evictFromMain_sweep (hl : Linked hash σ) (full : σ.Over)
    (side : σ.smallLive < σ.smallCap ∨ σ.smallKeys = []) (h : σ.evictFromMain = .ok σ') :
    ReflTransGen (Sweep hash) σ σ' := by
  -- 不変条件は、`Sweep` で来たことと、main から追い出してよい側に居ることである。
  refine loop_induct (P := fun τ => ReflTransGen (Sweep hash) σ τ ∧ τ.Over ∧
    (τ.smallLive < τ.smallCap ∨ τ.smallKeys = [])) ?_ ?_ ⟨.refl, full, side⟩ h
  · rintro τ τ' ⟨hτ, hover, hside⟩ hb
    obtain ⟨hstep, hover', hside'⟩ :=
      (evictFromMainBody_sweep (sweep_linked hτ hl) hover hside).2 τ' hb
    exact ⟨hτ.trans hstep, hover', hside'⟩
  · rintro τ τ' ⟨hτ, hover, hside⟩ hb
    exact hτ.trans ((evictFromMainBody_sweep (sweep_linked hτ hl) hover hside).1 τ' hb)

theorem evictFromSmall_sweep (hl : Linked hash σ) (full : σ.Over)
    (quota : σ.smallCap ≤ σ.smallLive) (h : σ.evictFromSmall = .ok σ') :
    ReflTransGen (Sweep hash) σ σ' := by
  have hq : σ.smallHashes = σ.smallKeys.map hash := hl.queue .small
  unfold evictFromSmall at h
  rw [hq] at h
  rcases popLive_cases hl.table σ.smallKeys with
    ⟨hp, hdead⟩ | ⟨dead, k, e, rest, hks, hdead, hk, hp⟩
  · -- small queue が死んだ node だけなら、使い切ってから main に移る
    rw [hp] at h
    have hskip := sweep_skip .small σ.smallKeys [] hl (by simp [queueKeys]) hdead
    exact hskip.trans (evictFromMain_sweep (sweep_linked hskip hl) full (Or.inr rfl) h)
  · rw [hp] at h
    have hskip := sweep_skip .small dead (k :: rest) hl hks hdead
    cases hn : subOne σ.smallLive with
    | error f => rw [hn] at h; cases h
    | ok n =>
      rw [hn] at h
      obtain ⟨hpos, rfl⟩ := subOne_ok hn
      by_cases hot : 0 < e.freq
      · simp only [if_pos hot] at h
        cases h
        exact hskip.tail (.promote full quota hpos rfl hk hot)
      · simp only [if_neg hot] at h
        cases h
        exact hskip.tail (.evictSmall full quota hpos rfl hk (by omega))

theorem evictOne_sweep (hl : Linked hash σ) (full : σ.Over) (h : σ.evictOne = .ok σ') :
    ReflTransGen (Sweep hash) σ σ' := by
  unfold evictOne at h
  split at h
  · next quota => exact evictFromSmall_sweep hl full quota h
  · next quota => exact evictFromMain_sweep hl full (Or.inl (by omega)) h

/-- 空きがあれば、追い出しの loop は何もしない。 -/
theorem evictLoop_room (h : ¬ σ.Over) : σ.evictLoop = .ok σ := by
  have hc : ¬ σ.overCap = true := fun hc => h (overCap_iff.mp hc)
  unfold evictLoop
  rw [loop_succ_done]
  unfold whileBody
  rw [if_neg hc]

/-- 追い出しの loop は `Sweep` を繋いだもので、抜けたときには空きがある。 -/
theorem evictLoop_sweep (hl : Linked hash σ) (h : σ.evictLoop = .ok σ') :
    ReflTransGen (Sweep hash) σ σ' ∧ ¬ σ'.Over := by
  refine loop_induct (P := fun τ => ReflTransGen (Sweep hash) σ τ)
    (Q := fun τ => ReflTransGen (Sweep hash) σ τ ∧ ¬ τ.Over) ?_ ?_ .refl h
  · intro τ τ' hτ hb
    unfold whileBody at hb
    split at hb
    · next hc =>
      cases ho : τ.evictOne with
      | error f => rw [ho] at hb; cases hb
      | ok τ'' =>
        rw [ho] at hb
        cases hb
        exact hτ.trans (evictOne_sweep (sweep_linked hτ hl) (overCap_iff.mp hc) ho)
    · cases hb
  · intro τ τ' hτ hb
    unfold whileBody at hb
    split at hb
    · next hc => cases ho : τ.evictOne <;> rw [ho] at hb <;> cases hb
    · next hc =>
      cases hb
      exact ⟨hτ, fun hover => hc (overCap_iff.mpr hover)⟩

end ShardData

end Neocache
