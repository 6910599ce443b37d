import Neocache.Properties.GhostSet
import Neocache.Properties.Upheld

/-!
# 追い出された key の復帰

small から追い出された key の hash は ghost set に残り、残っているうちに入れ直せば、key は small を
経ずに main に入る。ghost set は満杯のときに足すと丸ごと空になるので、いつまで残るかは空きの数で
決まる。

一回の挿入は entry を一つしか追い出さないので、ghost set に足すのも高々一つである。そこで、新しい
key の数が空きの数を超えないうちは残っている。途中の読み出し、上書き、明示的な除去、`retain` は
何回挟まってもよい。
-/

namespace Neocache

open Infra Relation ShardData

variable {K V : Type*} [DecidableEq K] {hash : K → UInt64} {σ σ' : ShardData K V} {cap : Nat}
  {k : K} {y : UInt64} {b : Nat}

/-- hash `y` が残っていて、ghost set には高々 `b` 個しか入っていない。 -/
structure Remembers (y : UInt64) (b : Nat) (σ : ShardData K V) : Prop where
  mem : y ∈ σ.ghostSet
  card : σ.ghostSet.card ≤ b

omit [DecidableEq K] in
theorem Remembers.congr (h : Remembers y b σ) (hsame : σ'.ghostSet = σ.ghostSet) :
    Remembers y b σ' := ⟨hsame ▸ h.mem, hsame ▸ h.card⟩

omit [DecidableEq K] in
/-- 別の hash を取り出しても残る。 -/
theorem Remembers.check {x : UInt64} (h : Remembers y b σ) (hne : y ≠ x) :
    Remembers y b (σ.ghostCheck x).2 :=
  ⟨Finset.mem_erase.mpr ⟨hne, h.mem⟩, Finset.card_erase_le.trans h.card⟩

omit [DecidableEq K] in
/-- 空きがあれば、足しても残る。 -/
theorem Remembers.add {x : UInt64} (h : Remembers y b σ) (hb : b < σ.ghostCap) :
    Remembers y (b + 1) (σ.addToGhost x) := by
  have hroom : ¬ σ.ghostCap ≤ σ.ghostSet.card := by
    have hcard := h.card
    omega
  constructor
  · simp [addToGhost, hroom, h.mem]
  · simp only [addToGhost, if_neg hroom]
    exact (Finset.card_insert_le _ _).trans (Nat.succ_le_succ h.card)

/-- 表から一つ減らす `evict_one` の後には、空きができている。 -/
theorem evictOne_room {e : CacheEntry V} (hs : Healthy hash σ) (full : σ.Over)
    (h : σ.evictOne = .ok σ') (hk : σ.map.get? k = some e) (hmap : σ'.map = σ.map.remove k) :
    ¬ σ'.Over := by
  obtain ⟨τ, hτ, hprod⟩ := evictOne_productive hs full
  obtain rfl : τ = σ' := Except.ok.inj (hτ.symm.trans h)
  have hcap := (sweep_caps (evictOne_sweep hs.linked full h)).1
  have htotal := hs.bounds.total
  rcases hprod with hpro | hev
  · -- 昇格なら表の大きさは変わらない
    have hlen := hpro.keeps.2.1
    rw [hmap] at hlen
    have hrem := Table.len_remove hk
    omega
  · obtain ⟨-, ht, -⟩ := hev.drops
    rintro ⟨-, hle⟩
    unfold totalLive at ht hle
    omega

/-- 追い出しの loop は、ghost set に高々一つ足す。 -/
theorem Remembers.evictLoop (h : Remembers y b σ) (hs : Healthy hash σ) (hb : b < σ.ghostCap)
    (hloop : σ.evictLoop = .ok σ') : Remembers y (b + 1) σ' ∧ σ'.ghostCap = σ.ghostCap := by
  by_cases full : σ.Over
  · obtain ⟨τ, hτ, hcalls, -⟩ := evictLoop_total hs full
    obtain rfl : τ = σ' := Except.ok.inj (hτ.symm.trans hloop)
    have hinv : Healthy hash τ ∧ τ.ghostCap = σ.ghostCap ∧
        (Remembers y b τ ∨ Remembers y (b + 1) τ ∧ ¬ τ.Over) := by
      refine star_preserves (P := fun τ : ShardData K V => Healthy hash τ ∧
        τ.ghostCap = σ.ghostCap ∧ (Remembers y b τ ∨ Remembers y (b + 1) τ ∧ ¬ τ.Over))
        ?_ hcalls ⟨hs, rfl, Or.inl h⟩
      rintro τ τ' ⟨hτ, hcap, hcase⟩ ⟨hover, hone⟩
      have hsweep := evictOne_sweep hτ.linked hover hone
      refine ⟨sweep_healthy hsweep hτ, ?_⟩
      obtain ⟨hcap', hghost⟩ := evictOne_ghost hτ.linked hover hone
      refine ⟨hcap'.trans hcap, ?_⟩
      rcases hcase with hr | ⟨-, hroom⟩
      · rcases hghost with ⟨x, e, -, hx, -, hmap, hset⟩ | ⟨-, hset, -⟩
        · refine Or.inr ⟨(hr.add ?_).congr hset, evictOne_room hτ hover hone hx hmap⟩
          rw [hcap]
          exact hb
        · exact Or.inl (hr.congr hset)
      · exact (hroom hover).elim
    obtain ⟨-, hcap, hr | ⟨hr, -⟩⟩ := hinv
    · exact ⟨⟨hr.mem, hr.card.trans (Nat.le_succ b)⟩, hcap⟩
    · exact ⟨hr, hcap⟩
  · rw [evictLoop_room full] at hloop
    cases hloop
    exact ⟨⟨h.mem, h.card.trans (Nat.le_succ b)⟩, rfl⟩

theorem register_ghost (σ : ShardData K V) (h : UInt64) (k : K) (v : V) (loc : Loc) :
    (σ.register h k v loc).ghostSet = σ.ghostSet ∧
      (σ.register h k v loc).ghostCap = σ.ghostCap := by
  cases loc <;> exact ⟨rfl, rfl⟩

/-- 一操作。新しい key を入れるときだけ、個数が増える。 -/
theorem Remembers.exec (h : Remembers y b σ) (hs : Healthy hash σ) {op : ShardOp K V} {r : Ret K V}
    (hexec : op.exec hash σ = .ok (r, σ')) (hclear : op ≠ .clearAll)
    (hother : ∀ x kop, op = .key x kop → hash x ≠ y)
    (hb : b + (op.inserted σ).length ≤ σ.ghostCap) :
    Remembers y (b + (op.inserted σ).length) σ' ∧ σ'.ghostCap = σ.ghostCap := by
  have hretain : ∀ f n, Remembers y b (σ.retain f n).2 ∧
      (σ.retain f n).2.ghostCap = σ.ghostCap := by
    intro f n
    have hspec := (retain_spec σ f n).2
    exact ⟨h.congr (by rw [hspec]), by rw [hspec]⟩
  cases exec_outcome hs.linked hexec with
  | @present x kop e hx =>
    have hins : (ShardOp.key x kop).inserted σ = [] := by simp [ShardOp.inserted, hx]
    rw [hins]
    exact ⟨h.congr (put_ghost σ x e _).1, (put_ghost σ x e _).2⟩
  | @idle x kop hx hv =>
    have hins : (ShardOp.key x kop).inserted σ = [] := by simp [ShardOp.inserted, hv]
    rw [hins]
    exact ⟨h, rfl⟩
  | @fresh x kop v σ₁ hx hv hev =>
    have hins : (ShardOp.key x kop).inserted σ = [x] := by simp [ShardOp.inserted, hx, hv]
    rw [hins] at hb ⊢
    have hghost : Healthy hash (σ.ghostCheck (hash x)).2 := Move.healthy (Or.inr (.takeGhost _)) hs
    obtain ⟨hr, hcap⟩ := (h.check (hother x kop rfl).symm).evictLoop hghost hb hev
    obtain ⟨hset, hcap'⟩ := register_ghost σ₁ (hash x) x v (σ.ghostCheck (hash x)).1
    exact ⟨hr.congr hset, hcap'.trans hcap⟩
  | retain f n => exact hretain f n
  | alterAll f n => exact hretain _ n
  | clearAll => exact (hclear rfl).elim

/-- 実行の間、hash は残り、key は表に無いままである。 -/
theorem Remembers.run : ∀ {ops : List (ShardOp K V)} {b : Nat} {σ σ' : ShardData K V}
    {rs : List (Ret K V)}, Remembers (hash k) b σ → Healthy hash σ → σ.map.get? k = none →
    runOps hash ops σ = .ok (rs, σ') → (∀ op ∈ ops, op ≠ .clearAll) →
    (∀ x kop, .key x kop ∈ ops → hash x ≠ hash k) →
    b + (insertionLog hash ops σ).length ≤ σ.ghostCap →
    hash k ∈ σ'.ghostSet ∧ σ'.map.get? k = none
  | [], b, σ, σ', rs, h, _, hk, hrun, _, _, _ => by
    cases hrun
    exact ⟨h.mem, hk⟩
  | op :: ops, b, σ, σ', rs, h, hs, hk, hrun, hclear, hother, hb => by
    obtain ⟨r, rs', σ₁, hexec, hrest, -⟩ := runOps_cons hrun
    rw [insertionLog, hexec, List.length_append] at hb
    simp only at hb
    obtain ⟨h₁, hcap⟩ := h.exec hs hexec (hclear op List.mem_cons_self)
      (fun x kop hop => hother x kop (hop ▸ List.mem_cons_self)) (by omega)
    have hs₁ : Healthy hash σ₁ := star_preserves (P := Healthy hash)
      (fun _ _ hτ hmove => hmove.healthy hτ) (exec_moves hs.linked hexec) hs
    have hk₁ : σ₁.map.get? k = none := by
      refine exec_keeps_absent hs.linked hexec (fun kop hop => ?_) hk
      exact (hother k kop (hop ▸ List.mem_cons_self) rfl).elim
    exact Remembers.run h₁ hs₁ hk₁ hrest (fun op' hop => hclear op' (List.mem_cons_of_mem _ hop))
      (fun x kop hop => hother x kop (List.mem_cons_of_mem _ hop)) (by rw [hcap]; omega)

/--
追い出された key は、ghost set に空きのあるうちに戻れば main に入る。

hash が ghost set に残っている key について、`clear` を挟まず、同じ hash の key に触れず、新しく
入れた key の数が ghost set の空きの数を超えないうちは、どんな操作を何回行った後でも、その key を
入れ直すと、どの入れ方でも main の entry になる。
-/
theorem ghost_comeback (hcap : 1 ≤ cap) (h : ShardReachable hash cap σ) {v : V}
    (hghost : hash k ∈ σ.ghostSet) (hk : σ.map.get? k = none) {ops : List (ShardOp K V)}
    (hclear : ∀ op ∈ ops, op ≠ .clearAll) (hother : ∀ x kop, .key x kop ∈ ops → hash x ≠ hash k)
    (hfew : σ.ghostSet.card + (insertionLog hash ops σ).length ≤ σ.ghostCap)
    {kop : KeyOp K V} (hv : kop.newValue = some v) :
    ∃ rs σ₁ r σ₂, runOps hash ops σ = .ok (rs, σ₁) ∧ kop.exec (hash k) k σ₁ = .ok (r, σ₂) ∧
      σ₂.map.get? k = some (.new v .main) := by
  obtain ⟨rs, σ₁, hrun⟩ := runOps_total hcap ops h
  have h₁ := reachable_runOps h hrun
  obtain ⟨hmem, hk₁⟩ := Remembers.run ⟨hghost, le_rfl⟩ (h.healthy hcap) hk hrun hclear hother hfew
  obtain ⟨r, σ₂, hexec⟩ := exec_total (h₁.healthy hcap) (.key k kop)
  refine ⟨rs, σ₁, r, σ₂, hrun, hexec, ?_⟩
  have hmain : (σ₁.ghostCheck (hash k)).1 = .main := if_pos hmem
  cases exec_outcome h₁.linked hexec with
  | present hx =>
    rw [hk₁] at hx
    cases hx
  | idle _ hnone =>
    rw [hv] at hnone
    cases hnone
  | @fresh _ _ v' τ _ hv' _ =>
    obtain rfl : v = v' := Option.some.inj (hv.symm.trans hv')
    rw [hmain, register_map, Table.get?_insert, if_pos rfl]

/-- 容量 2 の shard から追い出された key は、一件の挿入を挟んで戻ると main に入る。 -/
theorem ghost_comeback_capTwo : ∃ rs σ,
    (runOps UInt64.ofNat [.key 0 (.insert 0), .key 1 (.insert 1), .key 2 (.insert 2)]
        (ShardData.new 2 : ShardData Nat Nat) = .ok (rs, σ) ∧ σ.map.get? 0 = none) ∧
      ∃ rs' σ₁ r σ₂, runOps UInt64.ofNat [.key 3 (.insert 3), .key 1 .remove] σ = .ok (rs', σ₁) ∧
        (KeyOp.insert 7).exec (UInt64.ofNat 0) 0 σ₁ = .ok (r, σ₂) ∧
        σ₂.map.get? 0 = some (.new 7 .main) := by
  obtain ⟨rs, σ, hrun, hk, hghost, hfew⟩ : ∃ rs σ, runOps UInt64.ofNat
      [.key 0 (.insert 0), .key 1 (.insert 1), .key 2 (.insert 2)]
      (ShardData.new 2 : ShardData Nat Nat) = .ok (rs, σ) ∧ σ.map.get? 0 = none ∧
      UInt64.ofNat 0 ∈ σ.ghostSet ∧ σ.ghostSet.card + (insertionLog UInt64.ofNat
        [.key 3 (.insert 3), .key 1 .remove] σ).length ≤ σ.ghostCap :=
    ⟨_, _, rfl, rfl, by decide, by decide⟩
  refine ⟨rs, σ, ⟨hrun, hk⟩, ghost_comeback (show 1 ≤ 2 by decide)
    (reachable_runOps reachable_new hrun) hghost hk ?_ ?_ hfew rfl⟩
  · intro op hop
    rcases List.mem_pair.mp hop with rfl | rfl <;> simp
  · intro x kop hop
    rcases List.mem_pair.mp hop with hop | hop <;> cases hop <;> decide

end Neocache
