import Neocache.Cache.Guards
import Neocache.Properties.Eviction

/-!
# 一歩ずつの計算と一息の計算

共有 lock の下の計算は、互いに重ねてよい。表の値を変えず、freq の増加だけを残すからである。
freq の増加は、どの key から先に行っても同じ状態に着く。

排他 lock の下の計算は、一人で進めれば一息の計算（`GuardedOp.exec`）と同じ結果になる。
途中の状態では queue の二本の長さも counter も揃わないので、途中の状態の不変条件は使わない。
残りの計算の結果（`WriteCode.Runs`）が一歩ごとに変わらないことを示し、始めの状態の不変条件は
追い出しの loop が終わることにだけ使う。
-/

namespace Neocache

open Infra Relation ShardData

variable {K V A : Type*} [DecidableEq K] {hash : K → UInt64} {σ σ' τ : ShardData K V} {k : K}

/-! ## `bump_freq` -/

/-- `fetch_update` の一歩は、終わるまでは何も変えず、終わるときに freq を丁度一度増やす。 -/
theorem BumpStep.spec {seen seen' : Option (Fin maxFreq)} (h : BumpStep k σ seen seen' σ') :
    σ' = if seen' = none then σ.updateEntry k .bumpFreq else σ := by
  cases h with
  | observe =>
    by_cases hnone : σ.observe k = none
    · -- 飽和した freq と、無い entry では、増やしても変わらない
      rw [if_pos hnone]
      unfold ShardData.observe at hnone
      cases hk : σ.map.get? k with
      | none =>
        unfold updateEntry
        rw [Table.modify_of_not_mem hk]
      | some e =>
        rw [hk] at hnone
        have hmax : ¬ e.freq < maxFreq := by
          intro hlt
          simp [hlt] at hnone
        have hself : σ.updateEntry k .bumpFreq = σ.updateEntry k fun _ => e := by
          refine updateEntry_congr hk ?_
          rw [CacheEntry.bumpFreq, if_neg hmax]
        rw [hself, updateEntry_self hk]
    · rw [if_neg hnone]
  | @swap seen e hk hseen =>
    rw [if_pos rfl]
    refine updateEntry_congr hk ?_
    have hlt : e.freq < maxFreq := by rw [hseen]; exact seen.isLt
    rw [CacheEntry.bumpFreq, if_pos hlt, hseen]

theorem BumpStep.bumped {seen : Option (Fin maxFreq)} (h : BumpStep k σ seen none σ') :
    σ' = σ.updateEntry k .bumpFreq := by
  rw [h.spec, if_pos rfl]

theorem BumpStep.retried {seen : Option (Fin maxFreq)} {f : Fin maxFreq}
    (h : BumpStep k σ seen (some f) σ') : σ' = σ := by
  rw [h.spec, if_neg (by simp)]

/-- `fetch_update` は、一人で進めれば高々二歩で終わる。 -/
theorem exists_bumpStep (σ : ShardData K V) (k : K) (seen : Option (Fin maxFreq)) :
    BumpStep k σ seen none (σ.updateEntry k .bumpFreq) ∨
      ∃ f, BumpStep k σ seen (some f) σ ∧ BumpStep k σ (some f) none (σ.updateEntry k .bumpFreq) := by
  cases hobs : σ.observe k with
  | none =>
    have hstep : BumpStep k σ seen none σ := hobs ▸ .observe seen
    exact Or.inl (hstep.bumped ▸ hstep)
  | some f =>
    have hobserve : BumpStep k σ seen (some f) σ := hobs ▸ .observe seen
    refine Or.inr ⟨f, hobserve, ?_⟩
    unfold ShardData.observe at hobs
    cases hk : σ.map.get? k with
    | none => rw [hk] at hobs; cases hobs
    | some e =>
      rw [hk] at hobs
      have hlt : e.freq < maxFreq := by
        by_contra hge
        simp [hge] at hobs
      have hf : e.freq = f := by
        simp only [hlt, dif_pos, Option.some.injEq] at hobs
        rw [← hobs]
      have hswap := BumpStep.swap hk hf
      exact hswap.bumped ▸ hswap

/-! ## 共有 lock の下の計算 -/

namespace ReadCode

/-- 最後まで進めたときに返す値。 -/
def out (σ : ShardData K V) : ReadCode K V A → A
  | .ret a => a
  | .find h k next => (next ((σ.map.find h k).map CacheEntry.value)).out σ
  | .read k next => (next ((σ.map.get? k).map CacheEntry.value)).out σ
  | .bump _ _ next => next.out σ

/-- これから freq を増やす key。 -/
def bumps (σ : ShardData K V) : ReadCode K V A → List K
  | .ret _ => []
  | .find h k next => (next ((σ.map.find h k).map CacheEntry.value)).bumps σ
  | .read k next => (next ((σ.map.get? k).map CacheEntry.value)).bumps σ
  | .bump k _ next => k :: next.bumps σ

end ReadCode

/-- freq を順に増やす。 -/
def ShardData.bumpAll (σ : ShardData K V) (ks : List K) : ShardData K V :=
  ks.foldl (fun σ k => σ.updateEntry k .bumpFreq) σ

/-- 最後まで進めたときの shard。 -/
def ReadCode.pend (c : ReadCode K V A) (σ : ShardData K V) : ShardData K V :=
  σ.bumpAll (c.bumps σ)

/-- 表の hash、key、値の並びが同じである。freq と loc は見ない。 -/
def SameValues (σ τ : ShardData K V) : Prop :=
  σ.map.slots.map (fun s => (s.hash, s.key, s.val.value))
    = τ.map.slots.map fun s => (s.hash, s.key, s.val.value)

theorem sameValues_bump (σ : ShardData K V) (k : K) :
    SameValues (σ.updateEntry k .bumpFreq) σ :=
  Table.slots_modify_map σ.map k CacheEntry.bumpFreq_value

theorem sameValues_bumpAll : ∀ (ks : List K) (σ : ShardData K V), SameValues (σ.bumpAll ks) σ
  | [], _ => rfl
  | k :: ks, σ => (sameValues_bumpAll ks (σ.updateEntry k .bumpFreq)).trans (sameValues_bump σ k)

theorem SameValues.find (h : SameValues σ τ) (x : UInt64) (k : K) :
    (σ.map.find x k).map CacheEntry.value = (τ.map.find x k).map CacheEntry.value :=
  Table.find_map_congr CacheEntry.value h x k

theorem SameValues.get? (h : SameValues σ τ) (k : K) :
    (σ.map.get? k).map CacheEntry.value = (τ.map.get? k).map CacheEntry.value := by
  refine Table.get?_map_congr CacheEntry.value ?_ k
  have hsnd := congrArg (List.map Prod.snd) h
  rw [List.map_map, List.map_map] at hsnd
  exact hsnd

theorem SameValues.out (h : SameValues σ τ) (c : ReadCode K V A) : c.out σ = c.out τ := by
  induction c with
  | ret a => rfl
  | find x k next ih =>
    simp only [ReadCode.out]
    rw [h.find, ih]
  | read k next ih =>
    simp only [ReadCode.out]
    rw [h.get?, ih]
  | bump k seen next ih => exact ih

theorem SameValues.bumps (h : SameValues σ τ) (c : ReadCode K V A) : c.bumps σ = c.bumps τ := by
  induction c with
  | ret a => rfl
  | find x k next ih =>
    simp only [ReadCode.bumps]
    rw [h.find, ih]
  | read k next ih =>
    simp only [ReadCode.bumps]
    rw [h.get?, ih]
  | bump k seen next ih => exact congrArg (List.cons k) ih

theorem bump_comm (σ : ShardData K V) (k k' : K) :
    (σ.updateEntry k .bumpFreq).updateEntry k' .bumpFreq
      = (σ.updateEntry k' .bumpFreq).updateEntry k .bumpFreq := by
  unfold updateEntry
  simp only [Table.modify_comm σ.map k k']

/-- freq を増やす順は、着く状態に影響しない。 -/
theorem bumpAll_perm {ks ks' : List K} (h : ks.Perm ks') (σ : ShardData K V) :
    σ.bumpAll ks = σ.bumpAll ks' :=
  h.foldl_eq' (fun x _ y _ τ => bump_comm τ x y) σ

namespace ReadCode

theorem pend_comm (c d : ReadCode K V A) (σ : ShardData K V) :
    c.pend (d.pend σ) = d.pend (c.pend σ) := by
  unfold ReadCode.pend
  rw [(sameValues_bumpAll _ σ).bumps c, (sameValues_bumpAll _ σ).bumps d]
  have happ : ∀ ks ks' : List K, (σ.bumpAll ks).bumpAll ks' = σ.bumpAll (ks ++ ks') := by
    intro ks ks'
    unfold bumpAll
    rw [List.foldl_append]
  rw [happ, happ]
  exact bumpAll_perm List.perm_append_comm σ

/-- 一歩進めても、返す値も着く先も変わらない。他の計算の見る値も変わらない。 -/
theorem Step.spec {c c' : ReadCode K V A} (h : Step σ c c' σ') :
    SameValues σ' σ ∧ c'.out σ' = c.out σ ∧ c'.pend σ' = c.pend σ := by
  cases h with
  | find => exact ⟨rfl, rfl, rfl⟩
  | read => exact ⟨rfl, rfl, rfl⟩
  | retry hb =>
    obtain rfl := hb.retried
    exact ⟨rfl, rfl, rfl⟩
  | @bumped k seen next σ' hb =>
    obtain rfl := hb.bumped
    have hsame := sameValues_bump σ k
    refine ⟨hsame, hsame.out c', ?_⟩
    show bumpAll _ _ = bumpAll σ (k :: c'.bumps σ)
    rw [hsame.bumps]
    rfl

end ReadCode

/-- 共有 lock の下の計算は、途中の他の変化を待たずに最後まで進められる。 -/
theorem ReadCode.completes (c : ReadCode K V A) :
    ∀ σ : ShardData K V, ReflTransGen
      (fun p q : Section K V A × ShardData K V => Section.Step p.2 p.1 q.1 q.2)
      (.shared c, σ) (.shared (.ret (c.out σ)), c.pend σ) := by
  induction c with
  | ret a => exact fun σ => .refl
  | find h k next ih => exact fun σ => (ih _ σ).head (.shared .find)
  | read k next ih => exact fun σ => (ih _ σ).head (.shared .read)
  | bump k seen next ih =>
    intro σ
    have hsame := sameValues_bump σ k
    have hrest := ih (σ.updateEntry k .bumpFreq)
    rw [hsame.out] at hrest
    have hpend : next.pend (σ.updateEntry k .bumpFreq) = (ReadCode.bump k seen next).pend σ := by
      show bumpAll _ _ = bumpAll σ (k :: next.bumps σ)
      rw [hsame.bumps]
      rfl
    rw [hpend] at hrest
    rcases exists_bumpStep σ k seen with hb | ⟨f, hretry, hb⟩
    · exact hrest.head (.shared (.bumped hb))
    · have hdone : Section.Step σ (.shared (.bump k (some f) next)) (.shared next)
          (σ.updateEntry k .bumpFreq) := .shared (.bumped hb)
      have hlast := hrest.head (a := (Section.shared (.bump k (some f) next), σ)) hdone
      exact hlast.head (.shared (.retry hretry))

/-- 計算が返しうる値の一つ。 -/
def WriteCode.leaf (σ : ShardData K V) : WriteCode K V A → A
  | .ret a => a
  | .find _ _ next | .read _ next => (next none).leaf σ
  | .bump _ _ next | .edit _ next | .evict next => next.leaf σ
  | .takeGhost _ next => (next .small).leaf σ
  | .downgrade next => next.out σ

/-- これから返す値。排他の区間では意味を持たない。 -/
def Section.out (l : Section K V A) (σ : ShardData K V) : A :=
  match l with
  | .shared c => c.out σ
  | .exclusive c => c.leaf σ

/-- 残っている freq の増加を行った後の shard。 -/
def Section.pend (l : Section K V A) (σ : ShardData K V) : ShardData K V :=
  match l with
  | .shared c => c.pend σ
  | .exclusive _ => σ

/-- 共有 lock の下の計算は重ねてよい。 -/
theorem guardSections_interleavable (home : K → Nat) (hash : K → UInt64) :
    (guardSections (V := V) (A := A) home hash).Interleavable Section.out Section.pend where
  keep := by
    rintro l σ l' σ' ⟨c, rfl⟩ h
    cases h with
    | shared => exact ⟨_, rfl⟩
  own := by
    rintro l σ l' σ' ⟨c, rfl⟩ h
    cases h with
    | shared hstep => exact hstep.spec.2
  finish := by
    rintro l r σ ⟨c, rfl⟩ h
    cases c with
    | ret a =>
      cases h
      exact ⟨rfl, rfl⟩
    | find => cases h
    | read => cases h
    | bump => cases h
  complete := by
    rintro l σ ⟨c, rfl⟩
    exact ⟨_, c.completes σ, rfl⟩
  comm := by
    rintro l m σ ⟨c, rfl⟩ ⟨d, rfl⟩
    exact c.pend_comm d σ
  out_pend := by
    rintro l m σ ⟨c, rfl⟩ ⟨d, rfl⟩
    exact (sameValues_bumpAll _ σ).out c
  out_step := by
    rintro l m σ m' σ' ⟨c, rfl⟩ ⟨d, rfl⟩ h
    cases h with
    | shared hstep => exact hstep.spec.1.out c

/-! ## 排他 lock の下の計算 -/

/-- 一人で最後まで進めたときの結果。追い出しの loop は、空きができるまでの呼び出しの列で表す。 -/
def WriteCode.Runs : WriteCode K V A → ShardData K V → A × ShardData K V → Prop
  | .ret a, σ, p => p = (a, σ)
  | .find h k next, σ, p => (next (σ.map.find h k)).Runs σ p
  | .read k next, σ, p => (next (σ.map.get? k)).Runs σ p
  | .bump k _ next, σ, p => next.Runs (σ.updateEntry k .bumpFreq) p
  | .edit step next, σ, p => next.Runs (step.apply σ) p
  | .takeGhost h next, σ, p => (next (σ.ghostCheck h).1).Runs (σ.ghostCheck h).2 p
  | .evict next, σ, p => ∃ σ', ReflTransGen EvictCall σ σ' ∧ ¬ σ'.Over ∧ next.Runs σ' p
  | .downgrade next, σ, p => p = (next.out σ, next.pend σ)

def Section.Runs : Section K V A → ShardData K V → A × ShardData K V → Prop
  | .shared c, σ, p => p = (c.out σ, c.pend σ)
  | .exclusive c, σ, p => c.Runs σ p

theorem WriteCode.Step.runs {c c' : WriteCode K V A} {p : A × ShardData K V}
    (h : Step σ c c' σ') (hr : c'.Runs σ' p) : c.Runs σ p := by
  cases h with
  | find => exact hr
  | read => exact hr
  | retry hb =>
    obtain rfl := hb.retried
    exact hr
  | bumped hb =>
    obtain rfl := hb.bumped
    exact hr
  | edit => exact hr
  | takeGhost => exact hr
  | evictOne full hone =>
    obtain ⟨τ, hcalls, hroom, hrest⟩ := hr
    exact ⟨τ, hcalls.head ⟨overCap_iff.mp full, hone⟩, hroom, hrest⟩
  | evicted room =>
    refine ⟨σ, .refl, fun hover => ?_, hr⟩
    rw [overCap_iff.mpr hover] at room
    cases room

theorem Section.Step.runs {l l' : Section K V A} {p : A × ShardData K V}
    (h : Section.Step σ l l' σ') (hr : l'.Runs σ' p) : l.Runs σ p := by
  cases h with
  | shared hstep =>
    obtain ⟨-, hout, hpend⟩ := hstep.spec
    simp only [Section.Runs] at hr ⊢
    rw [hr, hout, hpend]
  | exclusive hstep => exact hstep.runs hr
  | downgrade => exact hr

/-- 一人で最後まで進めた計算の結果は、始めから決まっている。 -/
theorem solo_runs {home : K → Nat} {op : K × GuardedOp K V A} {a : A}
    (h : (guardSections home hash).Solo op σ a σ') :
    (op.2.code (hash op.1) op.1).Runs σ (a, σ') := by
  obtain ⟨l, hsteps, hres⟩ := h
  refine ReflTransGen.head_induction_on (motive := fun p _ => p.1.Runs p.2 (a, σ')) hsteps ?_ ?_
  · cases l with
    | shared c =>
      cases c with
      | ret b => cases hres; exact rfl
      | find => cases hres
      | read => cases hres
      | bump => cases hres
    | exclusive c =>
      cases c with
      | ret b => cases hres; exact rfl
      | find => cases hres
      | read => cases hres
      | bump => cases hres
      | edit => cases hres
      | takeGhost => cases hres
      | evict => cases hres
      | downgrade => cases hres
  · rintro ⟨l₁, σ₁⟩ ⟨l₂, σ₂⟩ hstep - ih
    exact Section.Step.runs hstep ih

/-! ## 一息の計算との一致 -/

/-- 操作の境目で成り立つ条件。追い出しをしない shard では対応だけを求める。 -/
structure Intact (hash : K → UInt64) (σ : ShardData K V) : Prop where
  linked : Linked hash σ
  healthy : 0 < σ.shardCap → Healthy hash σ

theorem Move.intact (h : Move hash σ σ') (hs : Intact hash σ) : Intact hash σ' where
  linked := h.linked hs.linked
  healthy hcap := h.healthy (hs.healthy (by rw [← h.caps.1]; exact hcap))

/-- 空きができるまで呼び続けた結果は、追い出しの loop の結果である。 -/
theorem Intact.evictLoop (hs : Intact hash σ) (h : ReflTransGen EvictCall σ σ')
    (hroom : ¬ σ'.Over) : σ.evictLoop = .ok σ' := by
  have hstop : ∀ {τ τ' : ShardData K V}, ¬ τ.Over → ReflTransGen EvictCall τ τ' → τ' = τ := by
    intro τ τ' hτ hcalls
    rcases hcalls.cases_head with heq | ⟨τ₁, hcall, -⟩
    · exact heq.symm
    · exact absurd hcall.1 hτ
  by_cases full : σ.Over
  · obtain ⟨τ, hloop, hcalls, hτ, -⟩ := evictLoop_total (hs.healthy full.1) full
    have hunique : Relator.RightUnique (EvictCall (K := K) (V := V)) := by
      rintro a b c ⟨-, hb⟩ ⟨-, hc⟩
      exact Except.ok.inj (hb.symm.trans hc)
    rcases ReflTransGen.total_of_right_unique hunique h hcalls with hle | hle
    · rw [hloop, hstop hroom hle]
    · rw [hloop, hstop hτ hle]
  · rw [hstop full h]
    exact evictLoop_room full

theorem RefUse.code_spec (use : RefUse V A) {e : CacheEntry V} (hk : σ.map.get? k = some e) :
    (use.code k e.value).out σ = use.exec e.value ∧ (use.code k e.value).pend σ = σ := by
  induction use with
  | drop a => exact ⟨rfl, rfl⟩
  | read next ih =>
    simp only [RefUse.code, ReadCode.out, ReadCode.pend, ReadCode.bumps, RefUse.exec, hk,
      Option.map_some, Option.getD_some]
    exact ih e.value

theorem get?_setValue {e : CacheEntry V} (hk : σ.map.get? k = some e) (v : V) :
    (σ.setValue k v).map.get? k = some { e with value := v } :=
  get?_updateEntry hk _

theorem RefMutUse.runs (use : RefMutUse V A) {p : A × ShardData K V} :
    ∀ {σ : ShardData K V} {e : CacheEntry V}, σ.map.get? k = some e →
      (use.code k e.value).Runs σ p → p = use.exec k ⟨σ, e.value⟩ := by
  induction use with
  | drop a => exact fun _ h => h
  | read next ih =>
    intro σ e hk h
    simp only [RefMutUse.code, WriteCode.Runs, hk, Option.map_some, Option.getD_some] at h
    exact ih e.value hk h
  | write v next ih =>
    intro σ e hk h
    exact ih (get?_setValue hk v) h
  | downgrade next =>
    intro σ e hk h
    obtain ⟨hout, hpend⟩ := next.code_spec hk
    simp only [RefMutUse.code, WriteCode.Runs, hout, hpend] at h
    exact h

theorem OccupiedUse.runs (use : OccupiedUse K V A) {p : A × ShardData K V} :
    ∀ {σ : ShardData K V} {e : CacheEntry V}, σ.map.get? k = some e →
      (use.code k e).Runs σ p → p = use.exec ⟨σ, k, e⟩ := by
  induction use with
  | drop a => exact fun _ h => h
  | read next ih =>
    intro σ e hk h
    simp only [OccupiedUse.code, WriteCode.Runs, hk, Option.getD_some] at h
    exact ih e.value hk h
  | write v next ih =>
    intro σ e hk h
    exact ih (get?_setValue hk v) h
  | intoRef next => exact fun hk h => next.runs hk h
  | remove ret =>
    intro σ e hk h
    simp only [OccupiedUse.code, WriteCode.unlink, WriteCode.Runs, hk, Option.getD_some] at h
    rw [h]
    cases e with
    | mk v f loc => cases loc <;> rfl
  | replaceEntry v ret =>
    intro σ e hk h
    simp only [OccupiedUse.code, WriteCode.Runs, hk, Option.getD_some] at h
    exact h

/-- 一歩ずつの挿入は、まとめた挿入の後から続く。 -/
theorem insertVacant_runs {h : UInt64} {v : V} {next : Loc → WriteCode K V A}
    {p : A × ShardData K V} (hs : Intact hash σ) (hr : (WriteCode.insertVacant h k v next).Runs σ p) :
    ∃ σ₁, (σ.ghostCheck h).2.evictLoop = .ok σ₁ ∧
      (next (σ.ghostCheck h).1).Runs (σ₁.register h k v (σ.ghostCheck h).1) p := by
  obtain ⟨σ₁, hcalls, hroom, hrest⟩ := hr
  have hghost : Move hash σ (σ.ghostCheck h).2 := Or.inr (.takeGhost h)
  refine ⟨σ₁, (hghost.intact hs).evictLoop hcalls hroom, ?_⟩
  simp only [WriteCode.Runs] at hrest
  have hreg : ∀ loc : Loc,
      (TableStep.incr loc).apply ((TableStep.pushKey loc k).apply ((TableStep.pushHash loc h).apply
        ((TableStep.place h k (.new v loc)).apply σ₁))) = σ₁.register h k v loc := by
    intro loc
    cases loc <;> rfl
  rw [hreg] at hrest
  exact hrest

theorem register_get? (σ : ShardData K V) (h : UInt64) (k : K) (v : V) (loc : Loc) :
    (σ.register h k v loc).map.get? k = some (.new v loc) := by
  rw [register_map, Table.get?_insert, if_pos rfl]

theorem VacantUse.runs (use : VacantUse K V A) {h : UInt64} {p : A × ShardData K V}
    (hs : Intact hash σ) (hr : (use.code h k).Runs σ p) : use.exec ⟨σ, k, h⟩ = .ok p := by
  cases use with
  | drop a => exact congrArg Except.ok (Eq.symm hr)
  | insert v next =>
    obtain ⟨σ₁, hloop, hrest⟩ := insertVacant_runs hs hr
    simp only [VacantUse.exec, VacantEntry.insert, ShardData.insertVacant, hloop, Except.map]
    exact congrArg Except.ok (next.runs (register_get? σ₁ h k v _) hrest).symm
  | insertEntry v next =>
    obtain ⟨σ₁, hloop, hrest⟩ := insertVacant_runs hs hr
    simp only [VacantUse.exec, VacantEntry.insertEntry, ShardData.insertVacant, hloop, Except.map]
    exact congrArg Except.ok (next.runs (register_get? σ₁ h k v _) hrest).symm

theorem unlink_steps (σ : ShardData K V) (k : K) (loc : Loc) :
    (TableStep.decr loc).apply ((TableStep.erase k).apply σ) = σ.unlink k loc := by
  cases loc <;> rfl

theorem GuardedOp.runs_absent (op : GuardedOp K V A) {p : A × ShardData K V} (hs : Intact hash σ)
    (hf : σ.map.find (hash k) k = none) (hr : (op.code (hash k) k).Runs σ p) :
    op.exec (hash k) k σ = .ok p := by
  cases op with
  | insert v ret =>
    simp only [GuardedOp.code, Section.Runs, WriteCode.Runs, hf] at hr
    obtain ⟨σ₁, hloop, hrest⟩ := insertVacant_runs hs hr
    simp only [GuardedOp.exec, ShardData.insert, hf, ShardData.insertVacant, hloop, Except.map]
    exact congrArg Except.ok (Eq.symm hrest)
  | remove ret =>
    simp only [GuardedOp.code, Section.Runs, WriteCode.Runs, hf] at hr
    simp [GuardedOp.exec, ShardData.remove, hf, Ret.removed, hr]
  | removeIf f ret =>
    simp only [GuardedOp.code, Section.Runs, WriteCode.Runs, hf] at hr
    simp [GuardedOp.exec, ShardData.removeIf, hf, Ret.removed, hr]
  | removeIfMut f ret =>
    simp only [GuardedOp.code, Section.Runs, WriteCode.Runs, hf] at hr
    simp [GuardedOp.exec, ShardData.removeIfMut, hf, Ret.removed, hr]
  | get absent use =>
    simp only [GuardedOp.code, Section.Runs, ReadCode.out, ReadCode.pend, ReadCode.bumps, hf,
      Option.map_none] at hr
    simp [GuardedOp.exec, ShardData.get, hf, Ret.option, bumpAll, hr]
  | getMut absent use =>
    simp only [GuardedOp.code, Section.Runs, WriteCode.Runs, hf] at hr
    simp [GuardedOp.exec, hf, hr]
  | entry occupied vacant =>
    simp only [GuardedOp.code, Section.Runs, WriteCode.Runs, hf] at hr
    simp only [GuardedOp.exec, ShardData.entry, hf]
    exact vacant.runs hs hr

theorem GuardedOp.runs_present (op : GuardedOp K V A) {p : A × ShardData K V} {e : CacheEntry V}
    (hl : Linked hash σ) (hf : σ.map.find (hash k) k = some e)
    (hr : (op.code (hash k) k).Runs σ p) : op.exec (hash k) k σ = .ok p := by
  have hk : σ.map.get? k = some e := by rw [← hl.find, hf]
  -- freq を増やした後も、pointer の先の値は同じである
  have hbump := get?_updateEntry hk CacheEntry.bumpFreq
  cases op with
  | insert v ret =>
    simp only [GuardedOp.code, Section.Runs, WriteCode.Runs, hf] at hr
    simp [GuardedOp.exec, ShardData.insert, hf, Except.map, Ret.option, hr, TableStep.apply]
  | remove ret =>
    simp only [GuardedOp.code, Section.Runs, WriteCode.unlink, WriteCode.Runs, hf,
      unlink_steps] at hr
    simp [GuardedOp.exec, ShardData.remove, hf, Ret.removed, hr]
  | removeIf f ret =>
    simp only [GuardedOp.code, Section.Runs, WriteCode.Runs, hf] at hr
    by_cases hp : f k e.value = true
    · rw [if_pos hp] at hr
      simp only [WriteCode.unlink, WriteCode.Runs, unlink_steps] at hr
      simp [GuardedOp.exec, ShardData.removeIf, hf, hp, Ret.removed, hr]
    · rw [if_neg hp] at hr
      simp only [WriteCode.Runs] at hr
      simp [GuardedOp.exec, ShardData.removeIf, hf, hp, Ret.removed, hr]
  | removeIfMut f ret =>
    simp only [GuardedOp.code, Section.Runs, WriteCode.Runs, hf] at hr
    by_cases hp : (f k e.value).1 = true
    · rw [if_pos hp] at hr
      simp only [WriteCode.unlink, WriteCode.Runs, unlink_steps] at hr
      simp [GuardedOp.exec, ShardData.removeIfMut, hf, hp, Ret.removed, hr, TableStep.apply]
    · rw [if_neg hp] at hr
      simp only [WriteCode.Runs] at hr
      simp [GuardedOp.exec, ShardData.removeIfMut, hf, hp, Ret.removed, hr, TableStep.apply]
  | get absent use =>
    obtain ⟨hout, hpend⟩ := use.code_spec hbump
    rw [CacheEntry.bumpFreq_value] at hout hpend
    have hsame := sameValues_bump σ k
    simp only [GuardedOp.code, Section.Runs, ReadCode.out, ReadCode.pend, ReadCode.bumps, hf,
      Option.map_some] at hr
    rw [← hsame.out, hout, ← hsame.bumps] at hr
    have hstate : bumpAll σ (k :: (use.code k e.value).bumps (σ.updateEntry k .bumpFreq))
        = σ.updateEntry k .bumpFreq := hpend
    rw [hstate] at hr
    simp [GuardedOp.exec, ShardData.get, hf, Ret.option, hr]
  | getMut absent use =>
    simp only [GuardedOp.code, Section.Runs, WriteCode.Runs, hf] at hr
    rw [← CacheEntry.bumpFreq_value] at hr
    have hexec := use.runs hbump hr
    rw [CacheEntry.bumpFreq_value] at hexec
    simp only [GuardedOp.exec, hf, hexec]
  | entry occupied vacant =>
    simp only [GuardedOp.code, Section.Runs, WriteCode.Runs, hf] at hr
    simp only [GuardedOp.exec, ShardData.entry, hf]
    exact congrArg Except.ok (occupied.runs hk hr).symm

/-- 一人で最後まで進めた操作の結果は、一息に行った結果である。 -/
theorem GuardedOp.runs (op : GuardedOp K V A) {p : A × ShardData K V} (hs : Intact hash σ)
    (hr : (op.code (hash k) k).Runs σ p) : op.exec (hash k) k σ = .ok p := by
  cases hf : σ.map.find (hash k) k with
  | none => exact op.runs_absent hs hf hr
  | some e => exact op.runs_present hs.linked hf hr

/-! ## 一息の計算が shard にすること -/

theorem RefMutUse.edits (use : RefMutUse V A) :
    ∀ (σ : ShardData K V) (v : V), ReflTransGen (Edit hash) σ (use.exec k ⟨σ, v⟩).2 := by
  induction use with
  | drop a => exact fun σ v => .refl
  | read next ih => exact fun σ v => ih v σ v
  | write v next ih =>
    intro σ _
    have hwrite : Edit hash σ (σ.setValue k v) := .update _ _ fun _ _ => rfl
    exact (ih (σ.setValue k v) v).head hwrite
  | downgrade next => exact fun σ v => .refl

theorem OccupiedUse.edits (use : OccupiedUse K V A) :
    ∀ {σ : ShardData K V} {e : CacheEntry V}, σ.map.get? k = some e →
      ReflTransGen (Edit hash) σ (use.exec ⟨σ, k, e⟩).2 := by
  induction use with
  | drop a => exact fun _ => .refl
  | read next ih => exact fun hk => ih _ hk
  | write v next ih =>
    intro σ e hk
    have hwrite : Edit hash σ (σ.setValue k v) := .update _ _ fun _ _ => rfl
    exact (ih (get?_setValue hk v)).head hwrite
  | intoRef next => exact fun _ => next.edits _ _
  | remove ret => exact fun hk => .single (.unlink hk)
  | replaceEntry v ret =>
    intro σ e hk
    refine .single (.update _ _ fun e' he' => ?_)
    rw [hk] at he'
    cases he'
    rfl

/-! ## 値への効果 -/

/-- guard を落としたときの値。 -/
def RefMutUse.final (v : V) : RefMutUse V A → V
  | .drop _ => v
  | .read next => (next v).final v
  | .write v' next => next.final v'
  | .downgrade _ => v

/-- guard を落としたときの値。除いたなら `none`。 -/
def OccupiedUse.final (v : V) : OccupiedUse K V A → Option V
  | .drop _ => some v
  | .read next => (next v).final v
  | .write v' next => next.final v'
  | .intoRef next => some (next.final v)
  | .remove _ => none
  | .replaceEntry v' _ => some v'

/-- 値が `v` の key に操作を行った後の値。除いたなら `none`。 -/
def GuardedOp.onValue (op : GuardedOp K V A) (k : K) (v : V) : Option V :=
  match op with
  | .insert v' _ => some v'
  | .remove _ => none
  | .removeIf f _ => if f k v then none else some v
  | .removeIfMut f _ => if (f k v).1 then none else some (f k v).2
  | .get _ _ => some v
  | .getMut _ use => some (use.final v)
  | .entry occupied _ => occupied.final v

theorem lookup_setValue {e : CacheEntry V} (hk : σ.map.get? k = some e) (v : V) :
    (σ.setValue k v).lookup = Function.update σ.lookup k (some v) := by
  funext x
  by_cases hx : x = k
  · subst hx
    rw [Function.update_self, lookup, get?_setValue hk]
    rfl
  · rw [Function.update_of_ne hx, lookup, lookup, setValue, updateEntry, Table.get?_modify,
      if_neg hx]

theorem lookup_unlink (σ : ShardData K V) (k : K) (loc : Loc) :
    (σ.unlink k loc).lookup = Function.update σ.lookup k none :=
  lookup_remove k (unlink_map σ k loc)

theorem lookup_bump (σ : ShardData K V) (k : K) :
    (σ.updateEntry k .bumpFreq).lookup = σ.lookup :=
  lookup_modify k rfl CacheEntry.bumpFreq_value

theorem lookup_self {e : CacheEntry V} (hk : σ.map.get? k = some e) :
    Function.update σ.lookup k (some e.value) = σ.lookup := by
  have hv : σ.lookup k = some e.value := by rw [lookup, hk]; rfl
  rw [← hv, Function.update_eq_self]

theorem RefMutUse.lookup (use : RefMutUse V A) :
    ∀ {σ : ShardData K V} {e : CacheEntry V}, σ.map.get? k = some e →
      (use.exec k ⟨σ, e.value⟩).2.lookup
        = Function.update σ.lookup k (some (use.final e.value)) := by
  induction use with
  | drop a => exact fun hk => (lookup_self hk).symm
  | read next ih => exact fun hk => ih _ hk
  | write v next ih =>
    intro σ e hk
    have hrest := ih (get?_setValue hk v)
    rw [lookup_setValue hk, Function.update_idem] at hrest
    exact hrest
  | downgrade next => exact fun hk => (lookup_self hk).symm

theorem OccupiedUse.lookup (use : OccupiedUse K V A) :
    ∀ {σ : ShardData K V} {e : CacheEntry V}, σ.map.get? k = some e →
      (use.exec ⟨σ, k, e⟩).2.lookup = Function.update σ.lookup k (use.final e.value) := by
  induction use with
  | drop a => exact fun hk => (lookup_self hk).symm
  | read next ih => exact fun hk => ih _ hk
  | write v next ih =>
    intro σ e hk
    have hrest := ih (get?_setValue hk v)
    rw [lookup_setValue hk, Function.update_idem] at hrest
    exact hrest
  | intoRef next => exact fun hk => next.lookup hk
  | remove ret => exact fun {σ e} _ => lookup_unlink σ k e.loc
  | replaceEntry v ret =>
    intro σ e hk
    have heq : σ.updateEntry k (fun _ => { CacheEntry.new v e.loc with freq := e.freq })
        = σ.setValue k v := (setValue_eq hk v).symm
    show (σ.updateEntry k _).lookup = _
    rw [heq, lookup_setValue hk]
    rfl

/-- 表にある key への操作は、その key の値だけを `onValue` で書き換える。 -/
theorem GuardedOp.lookup_present (op : GuardedOp K V A) {p : A × ShardData K V}
    {e : CacheEntry V} (hl : Linked hash σ) (hk : σ.map.get? k = some e)
    (h : op.exec (hash k) k σ = .ok p) :
    p.2.lookup = Function.update σ.lookup k (op.onValue k e.value) := by
  have hf : σ.map.find (hash k) k = some e := by rw [hl.find, hk]
  cases op with
  | insert v ret =>
    simp only [GuardedOp.exec, ShardData.insert, hf, Except.map] at h
    cases h
    exact lookup_setValue hk v
  | remove ret =>
    simp only [GuardedOp.exec, ShardData.remove, hf] at h
    cases h
    exact lookup_unlink σ k e.loc
  | removeIf f ret =>
    simp only [GuardedOp.exec, ShardData.removeIf, hf, GuardedOp.onValue] at h ⊢
    by_cases hp : f k e.value = true
    · simp only [if_pos hp] at h ⊢
      cases h
      exact lookup_unlink σ k e.loc
    · simp only [if_neg hp] at h ⊢
      cases h
      exact (lookup_self hk).symm
  | removeIfMut f ret =>
    simp only [GuardedOp.exec, ShardData.removeIfMut, hf, GuardedOp.onValue] at h ⊢
    by_cases hp : (f k e.value).1 = true
    · simp only [if_pos hp] at h ⊢
      cases h
      rw [unlink_setValue]
      exact lookup_unlink σ k e.loc
    · simp only [if_neg hp] at h ⊢
      cases h
      exact lookup_setValue hk _
  | get absent use =>
    simp only [GuardedOp.exec, ShardData.get, hf, Ret.option] at h
    cases h
    exact (lookup_bump σ k).trans (lookup_self hk).symm
  | getMut absent use =>
    simp only [GuardedOp.exec, hf] at h
    have hbump := get?_updateEntry hk CacheEntry.bumpFreq
    have hlook := use.lookup hbump
    rw [CacheEntry.bumpFreq_value, lookup_bump] at hlook
    cases h
    exact hlook
  | entry occupied vacant =>
    simp only [GuardedOp.exec] at h
    rw [entry_present hl hk] at h
    cases h
    exact occupied.lookup hk

/-- 追い出しの間、値は変わらないか消えるかである。 -/
theorem sweep_lookup (h : ReflTransGen (Sweep hash) σ σ') (x : K) :
    σ'.lookup x = σ.lookup x ∨ σ'.lookup x = none := by
  refine star_preserves (P := fun τ => τ.lookup x = σ.lookup x ∨ τ.lookup x = none) ?_ h
    (Or.inl rfl)
  intro τ τ' hτ hstep
  have hone : τ'.lookup x = τ.lookup x ∨ τ'.lookup x = none := by
    cases hstep with
    | skip => exact Or.inl (by rw [lookup, lookup, setQueue_map])
    | @promote k =>
      refine Or.inl (congrFun (lookup_modify k (f := fun e => { e with loc := .main }) rfl ?_) x)
      exact fun _ => rfl
    | @secondChance k =>
      refine Or.inl (congrFun
        (lookup_modify k (f := fun e => { e with freq := e.freq - 1 }) rfl ?_) x)
      exact fun _ => rfl
    | @evictSmall k ks e =>
      by_cases hx : x = k
      · exact Or.inr (by rw [lookup_remove k rfl, hx, Function.update_self])
      · exact Or.inl (by rw [lookup_remove k rfl, Function.update_of_ne hx])
    | @evictMain k ks e =>
      by_cases hx : x = k
      · exact Or.inr (by rw [lookup_remove k rfl, hx, Function.update_self])
      · exact Or.inl (by rw [lookup_remove k rfl, Function.update_of_ne hx])
  rcases hone with hone | hone
  · rw [hone]
    exact hτ
  · exact Or.inr hone

/-- 空いている entry を使い終えた shard。挿入の後は、挿入した key の値だけが変わりうる。 -/
theorem VacantUse.exec_cases (hash : K → UInt64) (use : VacantUse K V A) {h : UInt64}
    {p : A × ShardData K V} (he : use.exec ⟨σ, k, h⟩ = .ok p) :
    p.2 = σ ∨ ∃ v σ₁ o, (σ.ghostCheck h).2.evictLoop = .ok σ₁ ∧
      ReflTransGen (Edit hash) (σ₁.register h k v (σ.ghostCheck h).1) p.2 ∧
      p.2.lookup = Function.update (σ₁.register h k v (σ.ghostCheck h).1).lookup k o := by
  cases use with
  | drop a => cases he; exact Or.inl rfl
  | insert v next =>
    simp only [VacantUse.exec, VacantEntry.insert, ShardData.insertVacant] at he
    cases hloop : (σ.ghostCheck h).2.evictLoop with
    | error f => rw [hloop] at he; cases he
    | ok σ₁ =>
      rw [hloop] at he
      cases he
      exact Or.inr ⟨v, σ₁, _, rfl, next.edits _ _, next.lookup (register_get? σ₁ h k v _)⟩
  | insertEntry v next =>
    simp only [VacantUse.exec, VacantEntry.insertEntry, ShardData.insertVacant] at he
    cases hloop : (σ.ghostCheck h).2.evictLoop with
    | error f => rw [hloop] at he; cases he
    | ok σ₁ =>
      rw [hloop] at he
      cases he
      have hget := register_get? σ₁ h k v (σ.ghostCheck h).1
      exact Or.inr ⟨v, σ₁, _, rfl, next.edits hget, next.lookup hget⟩

/-- 他の key の値は、操作の後も同じか、追い出されて無くなるかである。 -/
theorem GuardedOp.lookup_other (op : GuardedOp K V A) {p : A × ShardData K V} {x : K}
    (hl : Linked hash σ) (hx : x ≠ k) (h : op.exec (hash k) k σ = .ok p) :
    p.2.lookup x = σ.lookup x ∨ p.2.lookup x = none := by
  cases hk : σ.map.get? k with
  | some e =>
    left
    rw [op.lookup_present hl hk h, Function.update_of_ne hx]
  | none =>
    have hf : σ.map.find (hash k) k = none := by rw [hl.find, hk]
    cases op with
    | insert v ret =>
      simp only [GuardedOp.exec, ShardData.insert, hf, ShardData.insertVacant] at h
      cases hloop : (σ.ghostCheck (hash k)).2.evictLoop with
      | error f => rw [hloop] at h; cases h
      | ok σ₁ =>
        rw [hloop] at h
        cases h
        obtain ⟨-, hsw, -⟩ := fresh_moves (v := v) hl hk hloop
        rw [lookup_register, Function.update_of_ne hx]
        exact sweep_lookup hsw x
    | entry occupied vacant =>
      simp only [GuardedOp.exec] at h
      rw [entry_absent hl hk] at h
      rcases vacant.exec_cases hash h with hp | ⟨v, σ₁, o, hloop, -, hlook⟩
      · exact Or.inl (by rw [hp])
      · obtain ⟨-, hsw, -⟩ := fresh_moves (v := v) hl hk hloop
        rw [hlook, Function.update_of_ne hx, lookup_register, Function.update_of_ne hx]
        exact sweep_lookup hsw x
    | remove ret =>
      simp only [GuardedOp.exec, ShardData.remove, hf] at h
      cases h
      exact Or.inl rfl
    | removeIf f ret =>
      simp only [GuardedOp.exec, ShardData.removeIf, hf] at h
      cases h
      exact Or.inl rfl
    | removeIfMut f ret =>
      simp only [GuardedOp.exec, ShardData.removeIfMut, hf] at h
      cases h
      exact Or.inl rfl
    | get absent use =>
      simp only [GuardedOp.exec, ShardData.get, hf, Ret.option] at h
      cases h
      exact Or.inl rfl
    | getMut absent use =>
      simp only [GuardedOp.exec, hf] at h
      cases h
      exact Or.inl rfl

/-! ## 操作の分解 -/

/-- guard を持つ操作も `Move` の列に分かれる。 -/
theorem GuardedOp.moves (op : GuardedOp K V A) {p : A × ShardData K V} (hl : Linked hash σ)
    (h : op.exec (hash k) k σ = .ok p) : ReflTransGen (Move hash) σ p.2 := by
  have hkey : ∀ (kop : KeyOp K V) {r : Ret K V} {τ : ShardData K V},
      kop.exec (hash k) k σ = .ok (r, τ) → ReflTransGen (Move hash) σ τ := by
    intro kop r τ h
    have hop : ShardOp.exec hash (.key k kop) σ = .ok (r, τ) := h
    exact exec_moves hl hop
  have hedits : ∀ {τ τ' : ShardData K V}, ReflTransGen (Edit hash) τ τ' →
      ReflTransGen (Move hash) τ τ' :=
    fun h => ReflTransGen.mono (fun _ _ => Or.inr) _ _ h
  cases op with
  | insert v ret =>
    simp only [GuardedOp.exec] at h
    cases hins : σ.insert (hash k) k v with
    | error f => rw [hins] at h; cases h
    | ok p =>
      rw [hins] at h
      cases h
      exact hkey (.insert v) hins
  | remove ret => cases h; exact hkey .remove rfl
  | removeIf f ret => cases h; exact hkey (.removeIf f) rfl
  | removeIfMut f ret => cases h; exact hkey (.removeIfMut f) rfl
  | get absent use =>
    simp only [GuardedOp.exec] at h
    split at h <;> cases h <;> exact hkey .get rfl
  | getMut absent use =>
    simp only [GuardedOp.exec] at h
    split at h
    · next e hf =>
      cases h
      have hbump : Edit hash σ (σ.updateEntry k .bumpFreq) :=
        .update _ _ fun e _ => CacheEntry.bumpFreq_loc e
      exact hedits ((use.edits _ _).head hbump)
    · cases h
      exact .refl
  | entry occupied vacant =>
    simp only [GuardedOp.exec] at h
    cases hk : σ.map.get? k with
    | some e =>
      rw [entry_present hl hk] at h
      cases h
      exact hedits (occupied.edits hk)
    | none =>
      rw [entry_absent hl hk] at h
      rcases vacant.exec_cases hash h with hp | ⟨v, σ₁, o, hloop, hrest, -⟩
      · rw [hp]
      · obtain ⟨hg, hsw, hreg⟩ := fresh_moves (v := v) hl hk hloop
        have hsw' : ReflTransGen (Move hash) (σ.ghostCheck (hash k)).2 σ₁ :=
          ReflTransGen.mono (fun _ _ => Or.inl) _ _ hsw
        have hfirst : Move hash σ (σ.ghostCheck (hash k)).2 := Or.inr hg
        exact ((hsw'.head hfirst).tail (Or.inr hreg)).trans (hedits hrest)

theorem Intact.guarded (hs : Intact hash σ) {op : GuardedOp K V A} {p : A × ShardData K V}
    (h : op.exec (hash k) k σ = .ok p) : Intact hash p.2 :=
  star_preserves (P := Intact hash) (fun _ _ hs hm => hm.intact hs) (op.moves hs.linked h) hs

theorem ShardReachable.intact {cap : Nat} (h : ShardReachable hash cap σ) : Intact hash σ where
  linked := h.linked
  healthy hcap := h.healthy (by rw [← h.caps.1]; exact hcap)

end Neocache
