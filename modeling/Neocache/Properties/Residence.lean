import Neocache.Properties.ScanResistance

/-!
# small に居られる期間

新しい key は small の末尾に入り、small が上限に達しているときにだけ、先頭から動かされる。
そこで、small に居る key が動かされるのは、後から入った key が上限に一つ足りないところまで
溜まったときである。また、一度でも読まれた key は、small から動かされるときに追い出されずに
main へ移る。

どちらも参照の S3-FIFO の一操作について示し、`Steady` を通して shard の実行に移す。
-/

namespace Neocache

open Infra ShardData

namespace S3Fifo

variable {K : Type*} {limits : Limits} {hash : K → UInt64} {P P' : Policy K} {k : K} {b : Nat}
  {ev : Event K} {evs : List (Event K)}

/-! ## 後から入った key の数 -/

/-- small に居て、後から small に入った key は高々 `b` 個である。 -/
def Policy.Trails (P : Policy K) (k : K) (b : Nat) : Prop :=
  ∃ older n younger, P.small = older ++ (k, n) :: younger ∧ younger.length ≤ b

/-- 空きを作る一歩は、後から入った key が少ないうちは、その key を動かさない。 -/
theorem evictOne_trails (h : P.Trails k b) (hb : b + 1 < limits.small)
    (he : evictOne limits hash P = some (ev, P')) : P'.Trails k b := by
  obtain ⟨older, n, younger, hs, hlen⟩ := h
  unfold evictOne at he
  split at he
  · next quota =>
    cases older with
    | nil =>
      -- 先頭に居るなら、small に居るのはその key と後から入ったものだけである
      rw [hs, List.nil_append, List.length_cons] at quota
      omega
    | cons p older =>
      obtain ⟨x, m⟩ := p
      rw [hs] at he
      cases m with
      | zero =>
        obtain ⟨-, rfl⟩ := Prod.mk.inj (Option.some.inj he)
        exact ⟨older, n, younger, rfl, hlen⟩
      | succ m =>
        obtain ⟨-, rfl⟩ := Prod.mk.inj (Option.some.inj he)
        exact ⟨older, n, younger, rfl, hlen⟩
  · obtain ⟨r, -, hr⟩ := Option.map_eq_some_iff.mp he
    obtain ⟨-, rfl⟩ := Prod.mk.inj hr
    exact ⟨older, n, younger, hs, hlen⟩

theorem MakeRoom.trails (h : MakeRoom limits hash P evs P') (hk : P.Trails k b)
    (hb : b + 1 < limits.small) : P'.Trails k b := by
  induction h with
  | room => exact hk
  | step _ hone _ ih => exact ih (evictOne_trails hk hb hone)

/-! ## 読まれた key -/

/-- small に居て、読まれたことがある。 -/
def Policy.Warm (P : Policy K) (k : K) : Prop := ∃ n, (k, n + 1) ∈ P.small

theorem evictOne_warm (h : P.Warm k) (he : evictOne limits hash P = some (ev, P')) :
    P'.Warm k ∨ ev = .promoted k := by
  obtain ⟨n, hn⟩ := h
  unfold evictOne at he
  split at he
  · cases hs : P.small with
    | nil =>
      rw [hs] at hn
      cases hn
    | cons p rest =>
      obtain ⟨x, m⟩ := p
      rw [hs] at he hn
      cases m with
      | zero =>
        obtain ⟨-, rfl⟩ := Prod.mk.inj (Option.some.inj he)
        refine Or.inl ⟨n, (List.mem_cons.mp hn).resolve_left fun heq => ?_⟩
        cases heq
      | succ m =>
        obtain ⟨rfl, rfl⟩ := Prod.mk.inj (Option.some.inj he)
        rcases List.mem_cons.mp hn with heq | hn
        · cases heq
          exact Or.inr rfl
        · exact Or.inl ⟨n, hn⟩
  · obtain ⟨r, -, hr⟩ := Option.map_eq_some_iff.mp he
    obtain ⟨-, rfl⟩ := Prod.mk.inj hr
    exact Or.inl ⟨n, hn⟩

theorem MakeRoom.warm (h : MakeRoom limits hash P evs P') (hk : P.Warm k) :
    P'.Warm k ∨ .promoted k ∈ evs := by
  induction h with
  | room => exact Or.inl hk
  | step _ hone _ ih =>
    rcases evictOne_warm hk hone with hk | rfl
    · exact (ih hk).imp_right (List.mem_cons_of_mem _)
    · exact Or.inr List.mem_cons_self

/-! ## 一操作 -/

variable [DecidableEq K] {req : Request K}

/-- 操作が新しく入れる key の数。 -/
def Request.adds (P : Policy K) : Request K → Nat
  | .write k => if k ∈ P.keys then 0 else 1
  | _ => 0

theorem Step.trails (h : Step limits hash req P evs P') (hclear : req ≠ .clear)
    (hk : P.Trails k b) (hb : b + req.adds P < limits.small) :
    P'.Trails k (b + req.adds P) := by
  cases h with
  | read x =>
    obtain ⟨older, n, younger, hs, hlen⟩ := hk
    show Policy.Trails _ k b
    refine ⟨bump x older, if k = x then (if n < 3 then n + 1 else n) else n, bump x younger, ?_, ?_⟩
    · show bump x P.small = _
      rw [hs]
      unfold bump
      rw [List.map_append, List.map_cons]
      by_cases hx : k = x <;> simp [hx]
    · rw [bump, List.length_map]
      exact hlen
  | hit hmem =>
    rw [Request.adds, if_pos hmem]
    exact hk
  | @fresh _ P₁ x _ hx room =>
    rw [Request.adds, if_neg hx] at hb ⊢
    obtain ⟨older, n, younger, hs, hlen⟩ := room.trails hk hb
    unfold Policy.push
    split
    · exact ⟨older, n, younger, hs, by omega⟩
    · refine ⟨older, n, younger ++ [(x, 0)], ?_, ?_⟩
      · show P₁.small ++ [(x, 0)] = _
        rw [hs, List.append_assoc]
        rfl
      · rw [List.length_append, List.length_singleton]
        omega
  | other => exact hk
  | clear => exact (hclear rfl).elim

theorem Step.warm (h : Step limits hash req P evs P') (hclear : req ≠ .clear) (hk : P.Warm k) :
    P'.Warm k ∨ .promoted k ∈ evs := by
  cases h with
  | read x =>
    obtain ⟨n, hn⟩ := hk
    refine Or.inl ?_
    have hmem := List.mem_map_of_mem
      (f := fun p => if p.1 = x then (p.1, if p.2 < 3 then p.2 + 1 else p.2) else p) hn
    by_cases hx : k = x
    · simp only [if_pos hx] at hmem
      by_cases h3 : n + 1 < 3
      · rw [if_pos h3] at hmem
        exact ⟨n + 1, hmem⟩
      · rw [if_neg h3] at hmem
        exact ⟨n, hmem⟩
    · simp only [if_neg hx] at hmem
      exact ⟨n, hmem⟩
  | hit => exact Or.inl hk
  | @fresh _ P₁ x _ hx room =>
    refine (room.warm hk).imp_left fun ⟨n, hn⟩ => ⟨n, ?_⟩
    unfold Policy.push
    split
    · exact hn
    · exact List.mem_append_left _ hn
  | other => exact Or.inl hk
  | clear => exact (hclear rfl).elim

end S3Fifo

/-! ## shard の側 -/

variable {K V : Type*} [DecidableEq K] {hash : K → UInt64} {cap : Nat} {σ σ₀ : ShardData K V}
  {log : List K} {k : K} {b : Nat}

/-- 参照の側で数えた新しい key は、操作が入れる key である。 -/
theorem Steady.adds (h : Steady hash cap log σ) (op : ShardOp K V) :
    op.request.adds σ.policy = (op.inserted σ).length := by
  cases op with
  | key x kop =>
    have hmem := h.mem_keys x
    rw [ShardOp.request_key]
    by_cases hreads : kop.reads = true
    · have hnone : kop.newValue = none := by
        cases kop <;> first | rfl | cases hreads
      simp [hreads, S3Fifo.Request.adds, ShardOp.inserted, hnone]
    · rw [if_neg hreads]
      cases hv : kop.newValue with
      | none => simp [S3Fifo.Request.adds, ShardOp.inserted, hv]
      | some v =>
        cases hx : σ.map.get? x with
        | none => simp [S3Fifo.Request.adds, ShardOp.inserted, hv, hx, hmem]
        | some e => simp [S3Fifo.Request.adds, ShardOp.inserted, hv, hx, hmem]
  | _ => rfl

/-- 後から入る key が少ないうちは、small に居続ける。 -/
theorem Steady.resident : ∀ {ops : List (ShardOp K V)} {log : List K} {σ : ShardData K V} {b : Nat},
    Steady hash cap log σ → AllSteps hash NoRemoval ops σ → (∀ op ∈ ops, op.request ≠ .clear) →
    σ.policy.Trails k b → b + (insertionLog hash ops σ).length < (shardLimits cap).small →
    ∃ σ' evss log', Traced hash ops σ evss σ' ∧ Steady hash cap log' σ' ∧ ∃ b, σ'.policy.Trails k b
  | [], log, σ, b, h, _, _, hk, _ => ⟨σ, [], log, .nil, h, b, hk⟩
  | op :: ops, log, σ, b, h, hok, hclear, hk, hb => by
    obtain ⟨hno, hrest⟩ := hok
    obtain ⟨r, σ₁, evs, hexec, h₁, hev, hstep⟩ := h.exec hno
    rw [hexec] at hrest
    rw [insertionLog, hexec, List.length_append] at hb
    have hadds := h.adds op
    have hk₁ := hstep.trails (hclear op List.mem_cons_self) hk (by simp only at hb; omega)
    obtain ⟨σ', evss, log', htraced, h', hk'⟩ := Steady.resident h₁ hrest
      (fun op' hop => hclear op' (List.mem_cons_of_mem _ hop)) hk₁ (by simp only at hb; omega)
    exact ⟨σ', evs :: evss, log', .cons hexec hev htraced, h', hk'⟩

/-- 読まれた key は、small に居続けるか、main へ移る。 -/
theorem Steady.warm : ∀ {ops : List (ShardOp K V)} {log : List K} {σ : ShardData K V},
    Steady hash cap log σ → AllSteps hash NoRemoval ops σ → (∀ op ∈ ops, op.request ≠ .clear) →
    σ.policy.Warm k → ∃ σ' evss log', Traced hash ops σ evss σ' ∧ Steady hash cap log' σ' ∧
      (σ'.policy.Warm k ∨ .promoted k ∈ evss.flatten)
  | [], log, σ, h, _, _, hk => ⟨σ, [], log, .nil, h, Or.inl hk⟩
  | op :: ops, log, σ, h, hok, hclear, hk => by
    obtain ⟨hno, hrest⟩ := hok
    obtain ⟨r, σ₁, evs, hexec, h₁, hev, hstep⟩ := h.exec hno
    rw [hexec] at hrest
    rcases hstep.warm (hclear op List.mem_cons_self) hk with hk₁ | hpromoted
    · obtain ⟨σ', evss, log', htraced, h', hk'⟩ := Steady.warm h₁ hrest
        (fun op' hop => hclear op' (List.mem_cons_of_mem _ hop)) hk₁
      refine ⟨σ', evs :: evss, log', .cons hexec hev htraced, h', hk'.imp_right fun hmem => ?_⟩
      rw [List.flatten_cons]
      exact List.mem_append_right _ hmem
    · obtain ⟨σ', evss, htraced, h', -⟩ := Steady.run h₁ hrest
      refine ⟨σ', evs :: evss, _, .cons hexec hev htraced, h', Or.inr ?_⟩
      rw [List.flatten_cons]
      exact List.mem_append_left _ hpromoted

theorem Steady.mem_small (h : Steady hash cap log σ) (k : K) (n : Nat) :
    (k, n) ∈ σ.policy.small ↔ ∃ e, σ.map.get? k = some e ∧ e.loc = .small ∧ e.freq = n := by
  show (k, n) ∈ liveNodes σ.map σ.smallKeys ↔ _
  rw [mem_liveNodes]
  constructor
  · rintro ⟨hk, e, he, hn⟩
    have hloc : e.loc = .small := h.faithful.loc_eq he hk
    exact ⟨e, he, hloc, hn⟩
  · rintro ⟨e, he, hloc, hn⟩
    have hk := h.healthy.covered k e he
    rw [hloc] at hk
    exact ⟨hk, e, he, hn⟩

/-- small queue での位置は、参照の列での位置である。 -/
theorem Steady.trails_of_smallKeys (h : Steady hash cap log σ) {older younger : List K}
    (hk : σ.smallKeys = older ++ k :: younger) : σ.policy.Trails k younger.length := by
  have hlive := h.live_keys .small
  change ∀ x ∈ σ.smallKeys, _ at hlive
  obtain ⟨e, he⟩ := hlive k (by rw [hk]; simp)
  refine ⟨liveNodes σ.map older, e.freq, liveNodes σ.map younger, ?_, ?_⟩
  · show liveNodes σ.map σ.smallKeys = _
    rw [hk, liveNodes_append, liveNodes_cons he]
  · have hyounger : ∀ x ∈ younger, ∃ e, σ.map.get? x = some e :=
      fun x hx => hlive x (by rw [hk]; simp [hx])
    have hlen := congrArg List.length (liveNodes_keys hyounger)
    rw [List.length_map] at hlen
    exact hlen.le

/-- 除去の無い実行で着いた状態。 -/
theorem Steady.of_run {pre : List (ShardOp K V)} {rs : List (Ret K V)} (hcap : 1 ≤ cap)
    (hσ₀ : Blank hash cap σ₀) (hno : AllSteps hash NoRemoval pre σ₀)
    (hrun : runOps hash pre σ₀ = .ok (rs, σ)) : ∃ log, Steady hash cap log σ := by
  obtain ⟨σ₁, evss, htraced, h, -⟩ := (Steady.of_blank hcap hσ₀).run hno
  obtain ⟨rs₁, hrun₁⟩ := htraced.runOps
  obtain rfl : σ₁ = σ := (Prod.mk.inj (Except.ok.inj (hrun₁.symm.trans hrun))).2
  exact ⟨_, h⟩

omit [DecidableEq K] in
theorem request_ne_clear {ops : List (ShardOp K V)} (h : ∀ op ∈ ops, op ≠ .clearAll) :
    ∀ op ∈ ops, op.request ≠ .clear := by
  intro op hop hreq
  cases op with
  | key x kop =>
    rw [ShardOp.request_key] at hreq
    split at hreq
    · cases hreq
    · split at hreq <;> cases hreq
  | retain => cases hreq
  | alterAll => cases hreq
  | clearAll => exact h _ hop rfl

/-- 入れるだけの列は、除去をしない。 -/
theorem noRemoval_inserts (f : K → V) : ∀ (l : List K) (σ : ShardData K V),
    AllSteps hash NoRemoval (l.map fun k => .key k (.insert (f k))) σ
  | [], _ => trivial
  | k :: l, σ => by
    refine ⟨fun loc => ?_, ?_⟩
    · cases hk : σ.map.get? k <;> simp [ShardOp.drops, hk, KeyOp.onPresent]
    · split
      · trivial
      · exact noRemoval_inserts f l _

/--
small に居られる期間。

除去の無い実行で、small に居る key は、後から small に入った key と、これから新しく入る key を
合わせても small の上限に届かないうちは、追い出されも動かされもしない。読み出しや上書きは、
何回挟まってもよい。
-/
theorem small_residence {pre post : List (ShardOp K V)} {rs : List (Ret K V)}
    (hσ₀ : Blank hash cap σ₀) (hno : AllSteps hash NoRemoval pre σ₀)
    (hrun : runOps hash pre σ₀ = .ok (rs, σ)) (hno' : AllSteps hash NoRemoval post σ)
    (hclear : ∀ op ∈ post, op ≠ .clearAll) {older younger : List K}
    (hk : σ.smallKeys = older ++ k :: younger)
    (hfew : younger.length + (insertionLog hash post σ).length < σ.smallCap) :
    ∃ rs' σ' e, runOps hash post σ = .ok (rs', σ') ∧ σ'.map.get? k = some e ∧ e.loc = .small := by
  have hreach := reachable_runOps hσ₀.reachable hrun
  have hcap : 1 ≤ cap := by
    rcases Nat.eq_zero_or_pos cap with rfl | hpos
    · have hzero : σ.smallCap = 0 := hreach.caps.2
      omega
    · exact hpos
  obtain ⟨log, h⟩ := Steady.of_run hcap hσ₀ hno hrun
  rw [h.smallCap] at hfew
  obtain ⟨σ', evss, log', htraced, h', b, older', n, younger', hs, -⟩ :=
    h.resident hno' (request_ne_clear hclear) (h.trails_of_smallKeys hk) hfew
  obtain ⟨rs', hrun'⟩ := htraced.runOps
  obtain ⟨e, he, hloc, -⟩ := (h'.mem_small k n).mp (by rw [hs]; simp)
  exact ⟨rs', σ', e, hrun', he, hloc⟩

/-- 容量 11 の shard を満たした後の一件の挿入は、最後に入れた key を動かさない。 -/
theorem small_residence_capEleven :
    ∃ rs σ, runOps UInt64.ofNat ((List.range 11).map fun k => .key k (.insert k))
        (ShardData.new 11 : ShardData Nat Nat) = .ok (rs, σ) ∧
      ∃ rs' σ' e, runOps UInt64.ofNat [.key 11 (.insert 11)] σ = .ok (rs', σ') ∧
        σ'.map.get? 10 = some e ∧ e.loc = .small := by
  obtain ⟨rs, σ, hrun, hsmall, hcap, hlog⟩ : ∃ rs σ, runOps UInt64.ofNat
      ((List.range 11).map fun k => .key k (.insert k)) (ShardData.new 11 : ShardData Nat Nat)
        = .ok (rs, σ) ∧ σ.smallKeys = List.range 10 ++ [10] ∧ σ.smallCap = 2 ∧
      insertionLog UInt64.ofNat [.key 11 (.insert 11)] σ = [11] := ⟨_, _, rfl, rfl, rfl, rfl⟩
  refine ⟨rs, σ, hrun, small_residence (Or.inl rfl) (noRemoval_inserts id _ _) hrun
    (noRemoval_inserts id [11] σ) ?_ hsmall (by rw [hlog, hcap]; decide)⟩
  intro op hop
  rw [List.mem_singleton.mp hop]
  simp

/--
読まれた key は small から追い出されない。

除去の無い実行で、small に居る間に一度でも読まれた key は、その後どれだけ挿入が続いても、small に
居続けるか、追い出しの loop によって main へ移されている。
-/
theorem read_protects {pre post : List (ShardOp K V)} {rs : List (Ret K V)} (hcap : 1 ≤ cap)
    (hσ₀ : Blank hash cap σ₀) (hno : AllSteps hash NoRemoval pre σ₀)
    (hrun : runOps hash pre σ₀ = .ok (rs, σ)) (hno' : AllSteps hash NoRemoval post σ)
    (hclear : ∀ op ∈ post, op ≠ .clearAll) {e : CacheEntry V} (hk : σ.map.get? k = some e)
    (hloc : e.loc = .small) (hfreq : 0 < e.freq) :
    ∃ σ' evss, Traced hash post σ evss σ' ∧
      ((∃ e', σ'.map.get? k = some e' ∧ e'.loc = .small ∧ 0 < e'.freq) ∨
        .promoted k ∈ evss.flatten) := by
  obtain ⟨log, h⟩ := Steady.of_run hcap hσ₀ hno hrun
  have hwarm : σ.policy.Warm k := by
    refine ⟨e.freq - 1, (h.mem_small k _).mpr ⟨e, hk, hloc, ?_⟩⟩
    omega
  obtain ⟨σ', evss, log', htraced, h', hk'⟩ := h.warm hno' (request_ne_clear hclear) hwarm
  refine ⟨σ', evss, htraced, hk'.imp_left fun ⟨n, hn⟩ => ?_⟩
  obtain ⟨e', he', hloc', hn'⟩ := (h'.mem_small k _).mp hn
  exact ⟨e', he', hloc', by omega⟩

/-- 容量 2 の shard で一度読まれた key は、二件の挿入を経て main へ移る。 -/
theorem read_protects_capTwo :
    ∃ rs σ, runOps UInt64.ofNat [.key 0 (.insert 0), .key 0 .get]
        (ShardData.new 2 : ShardData Nat Nat) = .ok (rs, σ) ∧
      ∃ σ' evss, Traced UInt64.ofNat [.key 1 (.insert 1), .key 2 (.insert 2)] σ evss σ' ∧
        ((∃ e', σ'.map.get? 0 = some e' ∧ e'.loc = .small ∧ 0 < e'.freq) ∨
          .promoted 0 ∈ evss.flatten) := by
  have hno : AllSteps UInt64.ofNat NoRemoval [.key 0 (.insert 0), .key 0 .get]
      (ShardData.new 2 : ShardData Nat Nat) :=
    ⟨fun loc => (by cases loc <;> decide), fun loc => (by cases loc <;> decide), trivial⟩
  obtain ⟨rs, σ, hrun, hk⟩ : ∃ rs σ, runOps UInt64.ofNat [.key 0 (.insert 0), .key 0 .get]
      (ShardData.new 2 : ShardData Nat Nat) = .ok (rs, σ) ∧
        σ.map.get? 0 = some ⟨0, 1, .small⟩ := ⟨_, _, rfl, rfl⟩
  refine ⟨rs, σ, hrun, read_protects (by decide) (Or.inl rfl) hno hrun
    (noRemoval_inserts id [1, 2] σ) ?_ hk rfl (by decide)⟩
  intro op hop
  rcases List.mem_pair.mp hop with rfl | rfl <;> simp

end Neocache
