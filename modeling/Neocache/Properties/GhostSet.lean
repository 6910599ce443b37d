import Neocache.Properties.RemovalFree

/-!
# ghost set が覚えているもの

ghost set は hash の集まりで、いつ誰のために入れたかは残らない。満杯になると丸ごと空になり、
同じ key を入れ直すときに一つだけ取り出される。

ここでは実行の記録（`history`）を取り、ghost set の中身を記録から読み取る。
hash が入っているのは、その key が最後に small から freq 0 で追い出され、それから入れ直されも
空にされもしていないとき、かつそのときに限る（`Recalls`）。
空になる間隔は、足した回数と個数を比べれば分かる（`Spaced`）。

どちらも記録を一歩ずつ延ばす規則（`HistoryRule`）の上に置く。新しい key の挿入では、
ghost set から取り出してから登録するまでの間に追い出しが挟まるので、その間の key を
`pending` として持ち回る。
-/

namespace Neocache

open Infra Relation ShardData

variable {K V : Type*} [DecidableEq K] {hash : K → UInt64} {σ σ' : ShardData K V} {cap : Nat}

/-! ## 記録 -/

/-- 表と ghost set に起こること。`overflow` は、足すときに満杯で空にしたこと。 -/
inductive ShardEvent (K : Type*) where
  | inserted (k : K)
  | removed (k : K)
  | evictedSmall (k : K) (overflow : Bool)
  | evictedMain (k : K)
  | cleared
  deriving DecidableEq, Repr

namespace ShardEvent

/-- 表に入ったか、表から出た key。 -/
def key : ShardEvent K → Option K
  | .inserted k | .removed k | .evictedSmall k _ | .evictedMain k => some k
  | .cleared => none

/-- `add_to_ghost` を呼んだ。 -/
def adds : ShardEvent K → Bool
  | .evictedSmall _ _ => true
  | _ => false

/-- ghost set を丸ごと空にした。 -/
def clears : ShardEvent K → Bool
  | .evictedSmall _ overflow => overflow
  | .cleared => true
  | _ => false

end ShardEvent

/-- 次の `evict_one` が、`evict_from_small` の freq 0 の枝で追い出す key。 -/
def ShardData.smallVictim (σ : ShardData K V) : Option K :=
  if σ.smallCap ≤ σ.smallLive then
    match popLive σ.map σ.smallHashes σ.smallKeys with
    | (some (_, k, e), _, _) => if 0 < e.freq then none else some k
    | (none, _, _) => none
  else none

/-- 表から消えた key。 -/
def ShardData.departed (σ σ' : ShardData K V) : List K :=
  σ.map.keys.filter fun k => (σ'.map.get? k).isNone

/-- `evict_one` の一回で起こること。 -/
def ShardData.evictEvents (σ σ' : ShardData K V) : List (ShardEvent K) :=
  match σ.smallVictim with
  | some k => [.evictedSmall k (σ.ghostCap ≤ σ.ghostSet.card)]
  | none => (σ.departed σ').map .evictedMain

/-- 追い出しの loop の間に起こること。`n` は loop の残り回数。 -/
def ShardData.evictLog : Nat → ShardData K V → List (ShardEvent K)
  | 0, _ => []
  | n + 1, σ =>
    if σ.overCap then
      match σ.evictOne with
      | .ok σ' => σ.evictEvents σ' ++ evictLog n σ'
      | .error _ => []
    else []

/-- 一操作の間に起こること。 -/
def ShardOp.events (hash : K → UInt64) (op : ShardOp K V) (σ σ' : ShardData K V) :
    List (ShardEvent K) :=
  match op, op.inserted σ with
  | .clearAll, _ => [.cleared]
  | _, k :: _ =>
    (σ.ghostCheck (hash k)).2.evictLog ((σ.ghostCheck (hash k)).2.evictFuel + 1) ++ [.inserted k]
  | _, [] => (σ.departed σ').map .removed

/-- 列を行う間に起こること。 -/
def history (hash : K → UInt64) : List (ShardOp K V) → ShardData K V → List (ShardEvent K)
  | [], _ => []
  | op :: ops, σ =>
    match op.exec hash σ with
    | .error _ => []
    | .ok (_, σ') => op.events hash σ σ' ++ history hash ops σ'

/-- 最後に表から出たのが small からの freq 0 での追い出しで、それから入れ直されていない。 -/
def ColdEvicted (h : List (ShardEvent K)) (k : K) : Prop :=
  ∃ h₁ overflow h₂, h = h₁ ++ .evictedSmall k overflow :: h₂ ∧ ∀ ev ∈ h₂, ev.key ≠ some k

/-- しかもそれから ghost set が空にされていない。 -/
def Remembered (h : List (ShardEvent K)) (k : K) : Prop :=
  ∃ h₁ overflow h₂, h = h₁ ++ .evictedSmall k overflow :: h₂ ∧
    ∀ ev ∈ h₂, ev.key ≠ some k ∧ ev.clears = false

section Remembered

variable {h evs : List (ShardEvent K)} {k : K}

omit [DecidableEq K] in
theorem Remembered.coldEvicted (hr : Remembered h k) : ColdEvicted h k := by
  obtain ⟨h₁, overflow, h₂, heq, hrest⟩ := hr
  exact ⟨h₁, overflow, h₂, heq, fun ev hev => (hrest ev hev).1⟩

omit [DecidableEq K] in
theorem remembered_evictedSmall (h : List (ShardEvent K)) (k : K) (overflow : Bool) :
    Remembered (h ++ [.evictedSmall k overflow]) k :=
  ⟨h, overflow, [], rfl, by simp⟩

omit [DecidableEq K] in
/-- その key を追い出さない限り、記録が延びて覚えることはない。 -/
theorem remembered_append (hevs : ∀ overflow, ShardEvent.evictedSmall k overflow ∉ evs) :
    Remembered (h ++ evs) k ↔
      Remembered h k ∧ ∀ ev ∈ evs, ev.key ≠ some k ∧ ev.clears = false := by
  constructor
  · rintro ⟨h₁, overflow, h₂, heq, hrest⟩
    obtain ⟨h₂', hh, rfl⟩ := split_append (hevs overflow) heq
    exact ⟨⟨h₁, overflow, h₂', hh, fun ev hev => hrest ev (List.mem_append_left _ hev)⟩,
      fun ev hev => hrest ev (List.mem_append_right _ hev)⟩
  · rintro ⟨⟨h₁, overflow, h₂, rfl, hrest⟩, hnew⟩
    refine ⟨h₁, overflow, h₂ ++ evs, by simp, ?_⟩
    intro ev hev
    rcases List.mem_append.mp hev with hev | hev
    · exact hrest ev hev
    · exact hnew ev hev

end Remembered

/-! ## 追い出しの一回 -/

/-- main からの追い出しは ghost set に触らない。 -/
theorem evictFromMain_ghost (h : σ.evictFromMain = .ok σ') :
    σ'.ghostSet = σ.ghostSet ∧ σ'.ghostCap = σ.ghostCap := by
  refine loop_induct (P := fun τ => τ.ghostSet = σ.ghostSet ∧ τ.ghostCap = σ.ghostCap)
    (Q := fun τ => τ.ghostSet = σ.ghostSet ∧ τ.ghostCap = σ.ghostCap) ?_ ?_ ⟨rfl, rfl⟩ h
  all_goals
    intro τ τ' hτ hb
    unfold evictFromMainBody at hb
    split at hb
    · cases hb <;> exact hτ
    · split at hb
      · cases hb <;> exact hτ
      · cases hn : subOne τ.mainLive <;> rw [hn] at hb <;> cases hb <;> exact hτ

/-- `evict_one` の一回。small の freq 0 の枝なら hash が足され、他の枝なら ghost set は動かない。 -/
theorem evictOne_ghost (hl : Linked hash σ) (full : σ.Over) (h : σ.evictOne = .ok σ') :
    σ'.ghostCap = σ.ghostCap ∧
      ((∃ k e, σ.smallVictim = some k ∧ σ.map.get? k = some e ∧ e.freq = 0 ∧
          σ'.map = σ.map.remove k ∧ σ'.ghostSet = (σ.addToGhost (hash k)).ghostSet) ∨
        σ.smallVictim = none ∧ σ'.ghostSet = σ.ghostSet ∧
          ∀ x, σ.map.get? x = none → σ'.map.get? x = none) := by
  have habsent : ∀ x, σ.map.get? x = none → σ'.map.get? x = none :=
    fun x hx => sweep_absent (evictOne_sweep hl full h) hx
  have hq : σ.smallHashes = σ.smallKeys.map hash := hl.queue .small
  unfold evictOne at h
  unfold smallVictim
  split at h
  · next quota =>
    rw [if_pos quota]
    unfold evictFromSmall at h
    rw [hq] at h ⊢
    rcases popLive_cases hl.table σ.smallKeys with ⟨hp, -⟩ | ⟨dead, k, e, rest, -, -, hk, hp⟩
    · rw [hp] at h ⊢
      obtain ⟨hghost, hcap⟩ := evictFromMain_ghost h
      exact ⟨hcap, Or.inr ⟨rfl, hghost, habsent⟩⟩
    · rw [hp] at h ⊢
      cases hn : subOne σ.smallLive with
      | error f => rw [hn] at h; cases h
      | ok n =>
        rw [hn] at h
        by_cases hot : 0 < e.freq
        · simp only [if_pos hot] at h
          cases h
          exact ⟨rfl, Or.inr ⟨if_pos hot, rfl, habsent⟩⟩
        · simp only [if_neg hot] at h
          cases h
          exact ⟨rfl, Or.inl ⟨k, e, if_neg hot, hk, by omega, rfl, rfl⟩⟩
  · next quota =>
    rw [if_neg quota]
    obtain ⟨hghost, hcap⟩ := evictFromMain_ghost h
    exact ⟨hcap, Or.inr ⟨rfl, hghost, habsent⟩⟩

/-! ## 記録を延ばす規則 -/

/--
記録と状態の関係 `P` が、一歩ごとに保たれること。

`P` の先頭の引数は、ghost set から取り出した後、まだ登録していない key である。
-/
structure HistoryRule (hash : K → UInt64) (used : Set K)
    (P : Option K → List (ShardEvent K) → ShardData K V → Prop) : Prop where
  check : ∀ {h σ k}, k ∈ used → P none h σ → σ.map.get? k = none →
    P (some k) h (σ.ghostCheck (hash k)).2
  evictSmall : ∀ {p h σ σ' k e}, P p h σ → σ.map.get? k = some e → σ'.map = σ.map.remove k →
    σ'.ghostSet = (σ.addToGhost (hash k)).ghostSet → σ'.ghostCap = σ.ghostCap →
    P p (h ++ [.evictedSmall k (σ.ghostCap ≤ σ.ghostSet.card)]) σ'
  depart : ∀ {p h σ σ'} (mk : K → ShardEvent K), mk = .removed ∨ mk = .evictedMain → P p h σ →
    (∀ x, σ.map.get? x = none → σ'.map.get? x = none) → σ'.ghostSet = σ.ghostSet →
    σ'.ghostCap = σ.ghostCap → P p (h ++ (σ.departed σ').map mk) σ'
  register : ∀ {h σ k} (v loc), P (some k) h σ →
    P none (h ++ [.inserted k]) (σ.register (hash k) k v loc)
  clear : ∀ {h σ}, P none h σ → P none (h ++ [.cleared]) σ.clearAll

section HistoryRule

variable {used : Set K} {P : Option K → List (ShardEvent K) → ShardData K V → Prop}
  {h : List (ShardEvent K)}

/-- 追い出しの loop。 -/
theorem HistoryRule.evictLog (R : HistoryRule hash used P) :
    ∀ {n : Nat} {p : Option K} {h : List (ShardEvent K)} {σ σ' : ShardData K V}, Linked hash σ →
      P p h σ → loop (whileBody overCap evictOne) .diverge n σ = .ok σ' →
      P p (h ++ σ.evictLog n) σ'
  | 0, p, h, σ, σ', _, _, hloop => by cases hloop
  | n + 1, p, h, σ, σ', hl, hp, hloop => by
    unfold ShardData.evictLog
    by_cases hc : σ.overCap = true
    · rw [if_pos hc]
      have full := overCap_iff.mp hc
      cases hone : σ.evictOne with
      | error f =>
        rw [loop_succ_error (by unfold whileBody; rw [if_pos hc, hone]; rfl)] at hloop
        cases hloop
      | ok σ₁ =>
        rw [loop_succ_again (by unfold whileBody; rw [if_pos hc, hone]; rfl)] at hloop
        have hl₁ := sweep_linked (evictOne_sweep hl full hone) hl
        have hp₁ : P p (h ++ σ.evictEvents σ₁) σ₁ := by
          obtain ⟨hcap, hcase⟩ := evictOne_ghost hl full hone
          unfold evictEvents
          rcases hcase with ⟨k, e, hv, hk, -, hmap, hghost⟩ | ⟨hv, hghost, habsent⟩
          · rw [hv]
            exact R.evictSmall hp hk hmap hghost hcap
          · rw [hv]
            exact R.depart .evictedMain (Or.inr rfl) hp habsent hghost hcap
        have hrest := HistoryRule.evictLog R hl₁ hp₁ hloop
        rw [List.append_assoc] at hrest
        exact hrest
    · rw [loop_succ_done (by unfold whileBody; rw [if_neg hc])] at hloop
      cases hloop
      rw [if_neg hc, List.append_nil]
      exact hp

theorem put_ghost (σ : ShardData K V) (k : K) (e : CacheEntry V) (o : Option (CacheEntry V)) :
    (σ.put k e o).ghostSet = σ.ghostSet ∧ (σ.put k e o).ghostCap = σ.ghostCap := by
  cases o with
  | some e' => exact ⟨rfl, rfl⟩
  | none => cases hloc : e.loc <;> simp [put, unlink, hloc]

theorem HistoryRule.retain (R : HistoryRule hash used P) (hp : P none h σ)
    (f : Nat → K → V → Bool × V) (n : Nat) :
    P none (h ++ (σ.departed (σ.retain f n).2).map .removed) (σ.retain f n).2 := by
  refine R.depart .removed (Or.inl rfl) hp ?_ ?_ ?_
  · intro x hx
    cases hget : (σ.retain f n).2.map.get? x with
    | none => rfl
    | some e' =>
      obtain ⟨e, he, -⟩ := retain_loc σ f n hget
      rw [hx] at he
      cases he
  · rw [(retain_spec σ f n).2]
  · rw [(retain_spec σ f n).2]

/-- 一操作。 -/
theorem HistoryRule.exec (R : HistoryRule hash used P) (hl : Linked hash σ) (hp : P none h σ)
    {op : ShardOp K V} {r : Ret K V} (hused : ∀ k kop, op = .key k kop → k ∈ used)
    (hexec : op.exec hash σ = .ok (r, σ')) : P none (h ++ op.events hash σ σ') σ' := by
  cases exec_outcome hl hexec with
  | @present k op e hk =>
    have hins : (ShardOp.key k op).inserted σ = [] := by simp [ShardOp.inserted, hk]
    unfold ShardOp.events
    rw [hins]
    refine R.depart .removed (Or.inl rfl) hp ?_ ?_ ?_
    · intro x hx
      have hne : x ≠ k := by
        rintro rfl
        rw [hk] at hx
        cases hx
      rw [put_get? hk, if_neg hne]
      exact hx
    · exact (put_ghost σ k e _).1
    · exact (put_ghost σ k e _).2
  | @idle k op hk hv =>
    have hins : (ShardOp.key k op).inserted σ = [] := by simp [ShardOp.inserted, hv]
    unfold ShardOp.events
    rw [hins]
    exact R.depart .removed (Or.inl rfl) hp (fun _ hx => hx) rfl rfl
  | @fresh k op v σ₁ hk hv hev =>
    have hins : (ShardOp.key k op).inserted σ = [k] := by simp [ShardOp.inserted, hk, hv]
    unfold ShardOp.events
    rw [hins]
    have hg : Linked hash (σ.ghostCheck (hash k)).2 := ⟨hl.queue, hl.table⟩
    have hloop := R.evictLog hg (R.check (hused k op rfl) hp hk) hev
    simp only
    rw [← List.append_assoc]
    exact R.register v _ hloop
  | retain f n => exact R.retain hp f n
  | alterAll f n => exact R.retain hp _ n
  | clearAll => exact R.clear hp

/-- 実行全体。 -/
theorem HistoryRule.run (R : HistoryRule hash used P) :
    ∀ {ops : List (ShardOp K V)} {h : List (ShardEvent K)} {σ σ' : ShardData K V}
      {rs : List (Ret K V)}, Linked hash σ → P none h σ →
      (∀ k kop, .key k kop ∈ ops → k ∈ used) → runOps hash ops σ = .ok (rs, σ') →
      P none (h ++ history hash ops σ) σ'
  | [], h, σ, σ', rs, _, hp, _, hrun => by
    cases hrun
    rw [history, List.append_nil]
    exact hp
  | op :: ops, h, σ, σ', rs, hl, hp, hused, hrun => by
    obtain ⟨r, rs', σ₁, hexec, hrest, -⟩ := runOps_cons hrun
    have hl₁ : Linked hash σ₁ :=
      (moves_preserve (P := fun _ => True) (fun _ _ _ _ _ => trivial) (exec_moves hl hexec) hl
        trivial).1
    have hp₁ := R.exec hl hp (fun k kop hop => hused k kop (by rw [hop]; exact List.mem_cons_self))
      hexec
    rw [history, hexec, ← List.append_assoc]
    exact HistoryRule.run R hl₁ hp₁ (fun k kop hop => hused k kop (List.mem_cons_of_mem _ hop)) hrest

end HistoryRule

/-! ## 覚えている key -/

/-- ghost set の中身は、記録の言う通りである。 -/
structure Recalls (hash : K → UInt64) (used : Set K) (pending : Option K)
    (h : List (ShardEvent K)) (σ : ShardData K V) : Prop where
  live : ∀ x e, σ.map.get? x = some e → x ∈ used ∧ hash x ∉ σ.ghostSet
  absent : ∀ k, pending = some k → k ∈ used ∧ σ.map.get? k = none ∧ hash k ∉ σ.ghostSet
  remembered : ∀ x ∈ used, pending ≠ some x → (hash x ∈ σ.ghostSet ↔ Remembered h x)
  owned : ∀ y ∈ σ.ghostSet, ∃ x ∈ used, hash x = y

theorem mem_departed {k : K} :
    k ∈ σ.departed σ' ↔ (∃ e, σ.map.get? k = some e) ∧ σ'.map.get? k = none := by
  unfold departed
  rw [List.mem_filter, Table.mem_keys_iff, Option.isNone_iff_eq_none]

section Recalls

variable {used : Set K} {p : Option K} {h : List (ShardEvent K)} {k : K}

/-- 取り出した key の hash は、もう入っていない。 -/
theorem Recalls.check (hinj : Set.InjOn hash used) (hr : Recalls hash used none h σ) (hk : k ∈ used)
    (habsent : σ.map.get? k = none) : Recalls hash used (some k) h (σ.ghostCheck (hash k)).2 where
  live x e hx := by
    obtain ⟨hu, hx⟩ := hr.live x e hx
    exact ⟨hu, fun hc => hx (Finset.mem_of_mem_erase hc)⟩
  absent := by
    rintro _ ⟨⟩
    exact ⟨hk, habsent, Finset.notMem_erase _ _⟩
  remembered x hx hne := by
    have hhash : hash x ≠ hash k := fun hc => hne (by rw [hinj hx hk hc])
    rw [← hr.remembered x hx (by simp)]
    show hash x ∈ σ.ghostSet.erase (hash k) ↔ _
    rw [Finset.mem_erase, and_iff_right hhash]
  owned y hy := hr.owned y (Finset.mem_of_mem_erase hy)

omit [DecidableEq K] in
/-- 満杯で空にしていなければ、他の hash は残る。 -/
theorem mem_addToGhost {x : K} (hne : hash x ≠ hash k) :
    hash x ∈ (σ.addToGhost (hash k)).ghostSet ↔
      ¬ σ.ghostCap ≤ σ.ghostSet.card ∧ hash x ∈ σ.ghostSet := by
  rw [addToGhost, Finset.mem_insert, or_iff_right hne]
  split
  · next hfull => simp [hfull]
  · next hfull => simp [hfull]

theorem Recalls.evictSmall {e : CacheEntry V} (hinj : Set.InjOn hash used)
    (hr : Recalls hash used p h σ) (hk : σ.map.get? k = some e) (hmap : σ'.map = σ.map.remove k)
    (hghost : σ'.ghostSet = (σ.addToGhost (hash k)).ghostSet) :
    Recalls hash used p (h ++ [.evictedSmall k (σ.ghostCap ≤ σ.ghostSet.card)]) σ' := by
  obtain ⟨hku, -⟩ := hr.live k e hk
  have hother : ∀ x ∈ used, x ≠ k → (hash x ∈ σ'.ghostSet ↔
      ¬ σ.ghostCap ≤ σ.ghostSet.card ∧ hash x ∈ σ.ghostSet) := by
    intro x hx hne
    rw [hghost]
    exact mem_addToGhost fun hc => hne (hinj hx hku hc)
  refine ⟨?_, ?_, ?_, ?_⟩
  · intro x e' hx
    rw [hmap, Table.get?_remove] at hx
    split at hx
    · cases hx
    · next hne =>
      obtain ⟨hu, hx⟩ := hr.live x e' hx
      exact ⟨hu, fun hc => hx ((hother x hu hne).mp hc).2⟩
  · intro x hp
    obtain ⟨hu, habsent, hx⟩ := hr.absent x hp
    have hne : x ≠ k := by
      rintro rfl
      rw [hk] at habsent
      cases habsent
    refine ⟨hu, ?_, fun hc => hx ((hother x hu hne).mp hc).2⟩
    rw [hmap, Table.get?_remove, if_neg hne]
    exact habsent
  · intro x hx hp
    by_cases hxk : x = k
    · subst hxk
      refine iff_of_true ?_ (remembered_evictedSmall h x _)
      rw [hghost, addToGhost]
      exact Finset.mem_insert_self _ _
    · rw [hother x hx hxk, hr.remembered x hx hp, remembered_append (by simpa using hxk)]
      simp [ShardEvent.key, ShardEvent.clears, Ne.symm hxk, and_comm]
  · intro y hy
    rw [hghost, addToGhost] at hy
    rcases Finset.mem_insert.mp hy with rfl | hy
    · exact ⟨k, hku, rfl⟩
    · split at hy
      · cases hy
      · exact hr.owned y hy

omit [DecidableEq K] in
/-- 除去や main からの追い出しの記録が延びても、出て行った key のほかは忘れない。 -/
theorem remembered_departed {mk : K → ShardEvent K} (hmk : mk = .removed ∨ mk = .evictedMain)
    (l : List K) (x : K) : Remembered (h ++ l.map mk) x ↔ Remembered h x ∧ x ∉ l := by
  have hkey : ∀ y, (mk y).key = some y ∧ (mk y).clears = false := by
    rcases hmk with rfl | rfl <;> exact fun y => ⟨rfl, rfl⟩
  have hnot : ∀ overflow, ShardEvent.evictedSmall x overflow ∉ l.map mk := by
    intro overflow hc
    obtain ⟨y, -, hy⟩ := List.mem_map.mp hc
    rcases hmk with rfl | rfl <;> cases hy
  rw [remembered_append hnot, List.forall_mem_map]
  refine and_congr_right fun _ => ⟨fun hall hx => (hall x hx).1 (hkey x).1, fun hx y hy => ?_⟩
  refine ⟨?_, (hkey y).2⟩
  rw [(hkey y).1]
  rintro ⟨⟩
  exact hx hy

theorem Recalls.depart {mk : K → ShardEvent K} (hmk : mk = .removed ∨ mk = .evictedMain)
    (hr : Recalls hash used p h σ) (habsent : ∀ x, σ.map.get? x = none → σ'.map.get? x = none)
    (hghost : σ'.ghostSet = σ.ghostSet) :
    Recalls hash used p (h ++ (σ.departed σ').map mk) σ' := by
  refine ⟨?_, ?_, ?_, ?_⟩
  · intro x e hx
    rw [hghost]
    cases hold : σ.map.get? x with
    | none =>
      rw [habsent x hold] at hx
      cases hx
    | some e' => exact hr.live x e' hold
  · intro k hp
    obtain ⟨hu, hk, hg⟩ := hr.absent k hp
    rw [hghost]
    exact ⟨hu, habsent k hk, hg⟩
  · intro x hx hp
    rw [hghost, remembered_departed hmk, ← hr.remembered x hx hp]
    -- 出て行く key は生きていたので、その hash は入っていない
    refine ⟨fun hg => ⟨hg, fun hd => ?_⟩, fun hg => hg.1⟩
    obtain ⟨⟨e, he⟩, -⟩ := mem_departed.mp hd
    exact (hr.live x e he).2 hg
  · rw [hghost]
    exact hr.owned

theorem Recalls.register (hr : Recalls hash used (some k) h σ) (v : V) (loc : Loc) :
    Recalls hash used none (h ++ [.inserted k]) (σ.register (hash k) k v loc) := by
  obtain ⟨hku, hk, hg⟩ := hr.absent k rfl
  have hghost : (σ.register (hash k) k v loc).ghostSet = σ.ghostSet := by cases loc <;> rfl
  refine ⟨?_, (by simp), ?_, ?_⟩
  · intro x e hx
    rw [hghost]
    rw [register_map, Table.get?_insert] at hx
    split at hx
    · next hxk => rw [hxk]; exact ⟨hku, hg⟩
    · exact hr.live x e hx
  · intro x hx _
    rw [hghost, remembered_append (by simp)]
    by_cases hxk : x = k
    · subst hxk
      simp [hg, ShardEvent.key]
    · rw [hr.remembered x hx (by simpa using Ne.symm hxk)]
      simp [ShardEvent.key, ShardEvent.clears, Ne.symm hxk]
  · rw [hghost]
    exact hr.owned

theorem recalls_clear : Recalls hash used none (h ++ [.cleared]) σ.clearAll where
  live x e hx := by cases hx
  absent x hx := by cases hx
  remembered x hx _ := by
    rw [remembered_append (by simp)]
    simp [clearAll, ShardEvent.clears]
  owned y hy := by cases hy

/-- 使う key の hash が互いに違えば、どの一歩も対応を保つ。 -/
theorem recalls_rule (hinj : Set.InjOn hash used) :
    HistoryRule (V := V) hash used (Recalls hash used) where
  check hk hr habsent := hr.check hinj hk habsent
  evictSmall hr hk hmap hghost _ := hr.evictSmall hinj hk hmap hghost
  depart _ hmk hr habsent hghost _ := hr.depart hmk habsent hghost
  register v loc hr := hr.register v loc
  clear _ := recalls_clear

end Recalls

/-! ## 空になる間隔 -/

/-- 記録のうち、`add_to_ghost` を呼んだ回数。 -/
def addCount (h : List (ShardEvent K)) : Nat := h.countP ShardEvent.adds

omit [DecidableEq K] in
theorem addCount_append (h h' : List (ShardEvent K)) :
    addCount (h ++ h') = addCount h + addCount h' := List.countP_append

/-- 満杯で空にしてからの呼び出しの回数は、いまの個数以上である。 -/
structure Spaced (cap : Nat) (_pending : Option K) (h : List (ShardEvent K)) (σ : ShardData K V) :
    Prop where
  cap_eq : σ.ghostCap = cap
  card_le : σ.ghostSet.card ≤ cap
  since : ∀ h₁ a h₂, h = h₁ ++ .evictedSmall a true :: h₂ → σ.ghostSet.card ≤ addCount h₂ + 1
  gap : ∀ h₁ a h₂ b h₃, h = h₁ ++ .evictedSmall a true :: (h₂ ++ .evictedSmall b true :: h₃) →
    cap ≤ addCount h₂ + 1

section Spaced

variable {p p' : Option K} {h evs : List (ShardEvent K)}

omit [DecidableEq K] in
/-- 溢れない出来事が続いて、足した回数より多くは増えないとき。 -/
theorem Spaced.extend (hs : Spaced cap p h σ) (hevs : ∀ a, ShardEvent.evictedSmall a true ∉ evs)
    (hcap : σ'.ghostCap = σ.ghostCap) (hle : σ'.ghostSet.card ≤ cap)
    (hcard : σ'.ghostSet.card ≤ σ.ghostSet.card + addCount evs) :
    Spaced cap p' (h ++ evs) σ' := by
  refine ⟨hcap.trans hs.cap_eq, hle, ?_, ?_⟩
  · intro h₁ a h₂ heq
    obtain ⟨h₂', hh, rfl⟩ := split_append (hevs a) heq
    have hsince := hs.since h₁ a h₂' hh
    rw [addCount_append]
    omega
  · intro h₁ a h₂ b h₃ heq
    obtain ⟨h₂', hh, hsplit⟩ := split_append (hevs a) heq
    obtain ⟨h₃', hsplit', -⟩ := split_append (hevs b) hsplit.symm
    exact hs.gap h₁ a h₂ b h₃' (by rw [hh, hsplit'])

omit [DecidableEq K] in
/-- 溢れたとき。満杯だったので、前に溢れてから容量ぶんの呼び出しがある。 -/
theorem Spaced.overflow (hs : Spaced cap p h σ) {k : K} (hcap : σ'.ghostCap = σ.ghostCap)
    (hpos : 1 ≤ cap) (hcard : σ'.ghostSet.card = 1) (hfull : σ.ghostCap ≤ σ.ghostSet.card) :
    Spaced cap p' (h ++ [.evictedSmall k true]) σ' := by
  rw [hs.cap_eq] at hfull
  refine ⟨hcap.trans hs.cap_eq, by omega, fun _ _ _ _ => by omega, ?_⟩
  intro h₁ a h₂ b h₃ heq
  rcases List.eq_nil_or_concat h₃ with rfl | ⟨h₃', ev, rfl⟩
  · -- 二度目がいまの溢れである
    have hsplit : h ++ [.evictedSmall k true]
        = (h₁ ++ .evictedSmall a true :: h₂) ++ [.evictedSmall b true] := by rw [heq]; simp
    have hsince := hs.since h₁ a h₂ (List.append_inj' hsplit rfl).1
    omega
  · have hsplit : h ++ [.evictedSmall k true]
        = (h₁ ++ .evictedSmall a true :: (h₂ ++ .evictedSmall b true :: h₃')) ++ [ev] := by
      rw [heq]
      simp
    exact hs.gap h₁ a h₂ b h₃' (List.append_inj' hsplit rfl).1

end Spaced

theorem spaced_rule {used : Set K} (hpos : 1 ≤ cap) :
    HistoryRule (V := V) hash used (Spaced cap) where
  check := by
    intro h σ k _ hs _
    have hle : (σ.ghostSet.erase (hash k)).card ≤ σ.ghostSet.card := Finset.card_erase_le
    have hcap := hs.card_le
    have hnew : Spaced cap (some k) (h ++ []) (σ.ghostCheck (hash k)).2 :=
      hs.extend (by simp) rfl (Nat.le_trans hle hcap) hle
    rwa [List.append_nil] at hnew
  evictSmall := by
    intro p h σ σ' k e hs _ _ hghost hcap
    by_cases hfull : σ.ghostCap ≤ σ.ghostSet.card
    · rw [decide_eq_true hfull]
      refine hs.overflow hcap hpos ?_ hfull
      rw [hghost, addToGhost, if_pos hfull]
      simp
    · rw [decide_eq_false hfull]
      have hcard : σ'.ghostSet.card ≤ σ.ghostSet.card + 1 := by
        rw [hghost, addToGhost, if_neg hfull]
        exact Finset.card_insert_le _ _
      rw [hs.cap_eq] at hfull
      exact hs.extend (by simp) hcap (by omega) hcard
  depart := by
    intro p h σ σ' mk hmk hs _ hghost hcap
    refine hs.extend ?_ hcap (by rw [hghost]; exact hs.card_le) (by rw [hghost]; omega)
    intro a hc
    obtain ⟨y, -, hy⟩ := List.mem_map.mp hc
    rcases hmk with rfl | rfl <;> cases hy
  register := by
    intro h σ k v loc hs
    have hghost : (σ.register (hash k) k v loc).ghostSet = σ.ghostSet := by cases loc <;> rfl
    refine hs.extend (by simp) (by cases loc <;> rfl) ?_ ?_
    · rw [hghost]; exact hs.card_le
    · rw [hghost]; omega
  clear := by
    intro h σ hs
    exact hs.extend (by simp) rfl (Nat.zero_le _) (Nat.zero_le _)

/-! ## まとめ -/

/-- 操作の列に出てくる key。 -/
def usedKeys (ops : List (ShardOp K V)) : Set K := { k | ∃ kop, .key k kop ∈ ops }

/--
ghost set についての約束。`σ` は空の shard から `ops` を行った後の状態。

* `card_le` — 容量を超えない
* `live` — 生きた key の hash は入っていない
* `source` — 入っている hash は、最後に small から freq 0 で追い出されたまま入れ直されていない key のもの
* `admission` — 表に無い key を入れると、その呼び出しまでの記録で覚えていれば main に、
  そうでなければ small に入る
* `gap` — 溢れて空にしてから次に溢れるまでに、次の分を含めて容量以上の `add_to_ghost` がある
-/
structure GhostContract (hash : K → UInt64) (cap : Nat) (ops : List (ShardOp K V))
    (σ : ShardData K V) : Prop where
  card_le : σ.ghostSet.card ≤ cap
  live : ∀ k e, σ.map.get? k = some e → hash k ∉ σ.ghostSet
  source : ∀ x ∈ σ.ghostSet, ∃ k, hash k = x ∧ ColdEvicted (history hash ops (.new cap)) k
  admission : ∀ pre k kop post, ops = pre ++ .key k kop :: post →
    ∃ rs σ₁ r σ₂, runOps hash pre (.new cap) = .ok (rs, σ₁) ∧
      kop.exec (hash k) k σ₁ = .ok (r, σ₂) ∧
      (σ₁.map.get? k = none → kop.newValue.isSome →
        ∃ e, σ₂.map.get? k = some e ∧
          (e.loc = .main ↔ Remembered (history hash pre (.new cap : ShardData K V)) k))
  gap : ∀ h₁ a h₂ b h₃, history hash ops (.new cap : ShardData K V)
      = h₁ ++ .evictedSmall a true :: (h₂ ++ .evictedSmall b true :: h₃) → cap ≤ addCount h₂ + 1

theorem recalls_new {used : Set K} :
    Recalls hash used none [] (ShardData.new cap : ShardData K V) where
  live _ _ h := by cases h
  absent _ h := by cases h
  remembered x _ _ := by
    refine iff_of_false (by simp [ShardData.new]) ?_
    rintro ⟨h₁, overflow, h₂, heq, -⟩
    simp at heq
  owned y hy := by cases hy

omit [DecidableEq K] in
theorem spaced_new : Spaced cap none [] (ShardData.new cap : ShardData K V) where
  cap_eq := rfl
  card_le := Nat.zero_le _
  since _ _ _ heq := by simp at heq
  gap _ _ _ _ _ heq := by simp at heq

/-- 使う key の hash が互いに違う限り、除去や入れ直しがあっても約束は守られる。 -/
theorem ghostSet_contract (hcap : 1 ≤ cap) (ops : List (ShardOp K V))
    (hinj : Set.InjOn hash (usedKeys ops)) :
    ∃ rs σ, runOps hash ops (.new cap) = .ok (rs, σ) ∧ GhostContract hash cap ops σ := by
  have hnew : ShardReachable hash cap (ShardData.new cap : ShardData K V) := reachable_new
  obtain ⟨rs, σ, hrun⟩ := runOps_total hcap ops hnew
  have hused : ∀ k kop, .key k kop ∈ ops → k ∈ usedKeys ops := fun k kop hop => ⟨kop, hop⟩
  have hrecall := (recalls_rule hinj).run (linked_new cap) recalls_new hused hrun
  have hspaced := (spaced_rule hcap).run (linked_new cap) spaced_new hused hrun
  rw [List.nil_append] at hrecall hspaced
  refine ⟨rs, σ, hrun, ⟨hspaced.card_le, fun k e hk => (hrecall.live k e hk).2, ?_, ?_,
    hspaced.gap⟩⟩
  · intro x hx
    obtain ⟨k, hk, rfl⟩ := hrecall.owned x hx
    exact ⟨k, rfl, ((hrecall.remembered k hk (by simp)).mp hx).coldEvicted⟩
  · rintro pre k kop post rfl
    have hpre : ∀ k' kop', .key k' kop' ∈ pre → k' ∈ usedKeys (pre ++ .key k kop :: post) :=
      fun k' kop' hop => hused k' kop' (List.mem_append_left _ hop)
    obtain ⟨rs₁, σ₁, hrun₁⟩ := runOps_total hcap pre hnew
    have hr₁ := reachable_runOps hnew hrun₁
    have hrecall₁ := (recalls_rule hinj).run (linked_new cap) recalls_new hpre hrun₁
    rw [List.nil_append] at hrecall₁
    obtain ⟨r, σ₂, hexec⟩ := exec_total (hr₁.healthy hcap) (.key k kop)
    refine ⟨rs₁, σ₁, r, σ₂, hrun₁, hexec, ?_⟩
    intro hk hv
    obtain ⟨v, hv⟩ := Option.isSome_iff_exists.mp hv
    cases exec_outcome hr₁.linked hexec with
    | present hk' => rw [hk] at hk'; cases hk'
    | idle _ hv' => rw [hv] at hv'; cases hv'
    | @fresh _ _ v' τ _ _ hev =>
      refine ⟨.new v' (σ₁.ghostCheck (hash k)).1, ?_, ?_⟩
      · rw [register_map, Table.get?_insert, if_pos rfl]
      · rw [← hrecall₁.remembered k (hused k kop (by simp)) (by simp)]
        simp [CacheEntry.new, ghostCheck]

/-- 追い出した key を入れ直し、除いてまた入れる、容量 1 の実行。 -/
def returnRun : List (ShardOp Nat Nat) :=
  [.key 0 (.insert 0), .key 1 (.insert 1), .key 0 (.insert 0), .key 0 .remove, .key 2 (.insert 2),
    .key 3 (.insert 3), .key 1 (.insert 1)]

/-- 入れ直した 0 は main に入り、二度目の溢れで忘れた 1 は small に入る。 -/
theorem ghostSet_contract_returnRun :
    history UInt64.ofNat returnRun (ShardData.new 1)
        = [.inserted 0, .evictedSmall 0 false, .inserted 1, .evictedSmall 1 false, .inserted 0,
          .removed 0, .inserted 2, .evictedSmall 2 true, .inserted 3, .evictedSmall 3 true,
          .inserted 1] ∧
      ∃ rs σ, runOps UInt64.ofNat returnRun (ShardData.new 1) = .ok (rs, σ) ∧
        GhostContract UInt64.ofNat 1 returnRun σ := by
  refine ⟨by decide, ghostSet_contract (by decide) returnRun ?_⟩
  have hkeys : ∀ x ∈ usedKeys returnRun, x ∈ [0, 1, 2, 3] := by
    rintro x ⟨kop, hx⟩
    simp [returnRun] at hx
    simp
    omega
  have hinj : ∀ x ∈ [0, 1, 2, 3], ∀ y ∈ [0, 1, 2, 3], UInt64.ofNat x = UInt64.ofNat y → x = y := by
    decide
  exact fun x hx y hy => hinj x (hkeys x hx) y (hkeys y hy)

end Neocache
