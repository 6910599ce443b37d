import Neocache.Cache.Runs
import Neocache.Properties.Serde

/-!
# 対を移す操作

`into_iter` で取り出した対を `extend` や `collect` で別の cache に移したとき、移した先に何があるか。

容量のある cache では、移す途中で key が追い出されることがある。それでも、残っている key の値は
「移した値、移していなければ元の値」に限られ、最後に移した key は必ずある。追い出された key が、
古い値で戻ることもない。容量 0 なら何も落ちない。
-/

namespace Neocache

open Infra Relation ShardData

variable {K V : Type*} [DecidableEq K] {w : Word} {cap requested parallelism : Nat}
  {hasher : K → UInt64} {c : NeoCache K V}

/-! ## 一件の挿入 -/

/-- 挿入は失敗せず、入れた key は新しい値になり、他の key は落ちるか元のままである。 -/
theorem insert_keeps (hsize : cap < w.size) (hreq : NeoCache.Accepted w requested)
    (hr : CacheReachable w cap hasher requested c) (k : K) (v : V) :
    ∃ r c', c.keyOp w k (.insert v) = .ok (r, c') ∧ CacheReachable w cap hasher requested c' ∧
      c'.contents k = some v ∧
      ∀ x, x ≠ k → c'.contents x = none ∨ c'.contents x = c.contents x := by
  obtain ⟨i, -, -, hl⟩ := NeoCache.layout_ok hsize hreq
  obtain ⟨r, c', hop, hstep⟩ := keyOp_refines hsize hreq hl hr k (.insert v)
  have hexec : c.exec w (.key k (.insert v)) = .ok (.key r, c') := by
    rw [NeoCache.exec, hop]
    rfl
  refine ⟨r, c', hop, hr.exec hl hexec, ?_⟩
  generalize CacheRet.key r = r' at hstep
  generalize c'.contents = A' at hstep ⊢
  cases hstep with
  | present hk =>
    refine ⟨Function.update_self _ _ _, fun x hx => Or.inr (Function.update_of_ne hx _ _)⟩
  | absent _ hv => cases hv
  | fresh lost hk hv hlost hbounded =>
    cases hv
    refine ⟨Function.update_self _ _ _, fun x hx => ?_⟩
    rw [Function.update_of_ne hx, LossyMap.drop]
    split
    · exact Or.inl rfl
    · exact Or.inr rfl

/-! ## 列の挿入 -/

/-- 残っている key の値は、順に書いた写像の値である。 -/
theorem extend_keeps (hsize : cap < w.size) (hreq : NeoCache.Accepted w requested)
    (l : List (K × V)) : ∀ {c : NeoCache K V} {A : K → Option V},
    CacheReachable w cap hasher requested c → (∀ k v, c.contents k = some v → A k = some v) →
    ∃ c', c.extend w l = .ok c' ∧ CacheReachable w cap hasher requested c' ∧
      ∀ k v, c'.contents k = some v → lastWriteWins A l k = some v := by
  induction l with
  | nil => exact fun hr hA => ⟨_, rfl, hr, hA⟩
  | cons p l ih =>
    intro c A hr hA
    obtain ⟨r, c₁, hop, hr₁, hself, hother⟩ := insert_keeps hsize hreq hr p.1 p.2
    have hA₁ : ∀ k v, c₁.contents k = some v → Function.update A p.1 (some p.2) k = some v := by
      intro k v hv
      rcases eq_or_ne k p.1 with rfl | hk
      · rw [Function.update_self, ← hself]
        exact hv
      · rw [Function.update_of_ne hk]
        rcases hother k hk with hnone | hsame
        · rw [hnone] at hv
          cases hv
        · exact hA k v (hsame ▸ hv)
    obtain ⟨c', hext, hr', hkeep⟩ := ih hr₁ hA₁
    refine ⟨c', ?_, hr', hkeep⟩
    rw [NeoCache.extend, hop]
    exact hext

/-- 容量 0 なら、順に書いた写像そのものになる。 -/
theorem extend_unbounded (hreq : NeoCache.Accepted w requested) (l : List (K × V)) :
    ∀ {c : NeoCache K V}, CacheReachable w 0 hasher requested c →
      ∃ c', c.extend w l = .ok c' ∧ CacheReachable w 0 hasher requested c' ∧
        c'.contents = lastWriteWins c.contents l := by
  induction l with
  | nil => exact fun hr => ⟨_, rfl, hr, rfl⟩
  | cons p l ih =>
    intro c hr
    obtain ⟨r, c₁, hop, hr₁, hput⟩ := insert_unbounded hreq hr p.1 p.2
    obtain ⟨c', hext, hr', hcontents⟩ := ih hr₁
    refine ⟨c', ?_, hr', ?_⟩
    · rw [NeoCache.extend, hop]
      exact hext
    · rw [hcontents, hput]
      rfl

theorem extend_append (l m : List (K × V)) : ∀ c : NeoCache K V,
    c.extend w (l ++ m) = (c.extend w l).bind fun c' => c'.extend w m := by
  induction l with
  | nil => exact fun c => rfl
  | cons p l ih =>
    intro c
    simp only [List.cons_append, NeoCache.extend]
    cases c.keyOp w p.1 (.insert p.2) with
    | error f => rfl
    | ok x => exact ih x.2

/-- 最後に入れた key は、必ずある。 -/
theorem extend_last (hsize : cap < w.size) (hreq : NeoCache.Accepted w requested)
    (hr : CacheReachable w cap hasher requested c) {l : List (K × V)} {p : K × V}
    {c' : NeoCache K V} (h : c.extend w (l ++ [p]) = .ok c') : c'.contents p.1 = some p.2 := by
  obtain ⟨c₁, hext, hr₁, -⟩ := extend_keeps hsize hreq l hr fun _ _ hv => hv
  obtain ⟨r, c₂, hop, -, hself, -⟩ := insert_keeps hsize hreq hr₁ p.1 p.2
  rw [extend_append, hext] at h
  change c₁.extend w [p] = .ok c' at h
  rw [NeoCache.extend, hop] at h
  cases h
  exact hself

/-- 写像の対を並べたものを書くと、その写像にある key だけが置き換わる。 -/
theorem lastWriteWins_or {l : List (K × V)} {A B : K → Option V}
    (h : LossyMap.Enumerates l B) (k : K) : lastWriteWins A l k = (B k).or (A k) := by
  cases hB : B k with
  | some v => exact lastWriteWins_of_mem l A h.1 ((h.2 k v).mpr hB)
  | none =>
    refine lastWriteWins_of_notMem l A fun hmem => ?_
    obtain ⟨⟨k', v⟩, hp, rfl⟩ := List.mem_map.mp hmem
    cases hB.symm.trans ((h.2 k' v).mp hp)

omit [DecidableEq K] in
/-- 同じ写像の対を並べたものは、同じ長さである。 -/
theorem LossyMap.Enumerates.length_eq {l m : List (K × V)} {A : K → Option V}
    (h : LossyMap.Enumerates l A) (h' : LossyMap.Enumerates m A) : l.length = m.length := by
  refine List.Perm.length_eq ((List.perm_ext_iff_of_nodup h.1.of_map h'.1.of_map).mpr ?_)
  rintro ⟨k, v⟩
  rw [h.2, h'.2]

/-! ## まとめ -/

/--
取り出した対を移した先の中身。

`d` の `into_iter` が返す対を `c` に `extend` すると、失敗せず、残っている key の値は `d` の値、`d` に
無ければ `c` の値である。最後に移した key は必ずあり、容量が無ければ一つも落ちない。容量や hash や
shard の数は、二つの cache で違ってよい。`collect` した cache の中身と個数は `d` と同じである。
-/
theorem extend_transfers {cap' requested' : Nat} {hasher' : K → UInt64} {d : NeoCache K V}
    (hsize : cap < w.size) (hreq : NeoCache.Accepted w requested)
    (hr : CacheReachable w cap hasher requested c)
    (hsize' : cap' < w.size) (hreq' : NeoCache.Accepted w requested')
    (hr' : CacheReachable w cap' hasher' requested' d)
    (hp : 1 ≤ parallelism) (hfit : parallelism * 16 ≤ 2 ^ (w.bits - 1))
    (hasher₂ : K → UInt64) {l : List (K × V)} (hl : (OwningIter.new d).Drains l) :
    (∃ c', c.extend w l = .ok c' ∧ CacheReachable w cap hasher requested c' ∧
      (∀ k v, c'.contents k = some v → (d.contents k).or (c.contents k) = some v) ∧
      (∀ p, l.getLast? = some p → c'.contents p.1 = some p.2) ∧
      (cap = 0 → c'.contents = fun k => (d.contents k).or (c.contents k))) ∧
    ∃ c', NeoCache.fromIter w parallelism hasher₂ l = .ok c' ∧ c'.contents = d.contents ∧
      c'.len = d.len := by
  obtain ⟨i', -, -, hlayout'⟩ := NeoCache.layout_ok hsize' hreq'
  have hiter := iter_enumerates (hr'.routed hlayout')
  rw [← (OwningIter.drains_iter d l).mp hl] at hiter
  refine ⟨?_, ?_⟩
  · obtain ⟨c', hext, hreach, hkeep⟩ := extend_keeps hsize hreq l hr fun _ _ hv => hv
    refine ⟨c', hext, hreach, fun k v hv => ?_, fun p hlast => ?_, fun hzero => ?_⟩
    · rw [← lastWriteWins_or hiter]
      exact hkeep k v hv
    · obtain ⟨pre, rfl⟩ := List.getLast?_eq_some_iff.mp hlast
      exact extend_last hsize hreq hr hext
    · subst hzero
      obtain ⟨c₂, hext₂, -, hcontents⟩ := extend_unbounded hreq l hr
      obtain rfl : c₂ = c' := Except.ok.inj (hext₂.symm.trans hext)
      rw [hcontents]
      exact funext fun k => lastWriteWins_or hiter k
  · obtain ⟨n, hn, c₀, hnew, hr₀, hempty⟩ := withHasher_ok (V := V) hp hfit hasher₂
    obtain ⟨c', hext, hr₁, hcontents⟩ := extend_unbounded hn l hr₀
    have hsame : c'.contents = d.contents := by
      rw [hcontents, hempty]
      exact lastWriteWins_enumerates hiter
    refine ⟨c', ?_, hsame, ?_⟩
    · rw [NeoCache.fromIter, hnew]
      exact hext
    · obtain ⟨i, -, -, hlayout⟩ := NeoCache.layout_ok (show 0 < w.size from Nat.two_pow_pos _) hn
      have hiter' := iter_enumerates (hr₁.routed hlayout)
      rw [hsame] at hiter'
      rw [← iter_length, ← iter_length, hiter'.length_eq hiter,
        (OwningIter.drains_iter d l).mp hl]

/-- 移す先には、上書きされる key、追い出される key、古い値のまま残る key がある。 -/
theorem extend_transfers_overwriting : ∃ (c d c' : NeoCache Nat Nat) (l : List (Nat × Nat)),
    (CacheReachable ⟨64, by decide⟩ 4 UInt64.ofNat 2 c ∧
      [0, 1, 2 ^ 56, 5].map c.contents = [some 1, some 2, some 3, none]) ∧
    (CacheReachable ⟨64, by decide⟩ 0 UInt64.ofNat 2 d ∧
      [0, 1, 2 ^ 56, 5].map d.contents = [none, some 20, none, some 50]) ∧
    ((OwningIter.new d).Drains l ∧ c.extend ⟨64, by decide⟩ l = .ok c' ∧
      [0, 1, 2 ^ 56, 5].map c'.contents = [none, some 20, some 3, some 50]) ∧
    (∀ k v, c'.contents k = some v → (d.contents k).or (c.contents k) = some v) ∧
    (∀ p, l.getLast? = some p → c'.contents p.1 = some p.2) ∧
    ∃ c₂, NeoCache.fromIter ⟨64, by decide⟩ 1 UInt64.ofNat l = .ok c₂ ∧
      c₂.contents = d.contents ∧ c₂.len = d.len := by
  have hc₀ : CacheReachable ⟨64, by decide⟩ 4 UInt64.ofNat 2
      (⟨63, [.new 2, .new 2], UInt64.ofNat, 4⟩ : NeoCache Nat Nat) := .init rfl
  have hd₀ : CacheReachable ⟨64, by decide⟩ 0 UInt64.ofNat 2
      (⟨63, [.new 0, .new 0], UInt64.ofNat, 0⟩ : NeoCache Nat Nat) := .init rfl
  obtain ⟨c, hfill, hr, -⟩ := extend_keeps (by decide) (by decide)
    [(0, 1), (1, 2), (2 ^ 56, 3)] hc₀ fun _ _ hv => hv
  obtain ⟨d, hfill', hr', -⟩ := extend_keeps (by decide) (by decide)
    [(1, 20), (5, 50)] hd₀ fun _ _ hv => hv
  have hc : [0, 1, 2 ^ 56, 5].map c.contents = [some 1, some 2, some 3, none] := by
    obtain rfl := Except.ok.inj hfill
    rfl
  have hd : [0, 1, 2 ^ 56, 5].map d.contents = [none, some 20, none, some 50] ∧
      d.iter = [(1, 20), (5, 50)] := by
    obtain rfl := Except.ok.inj hfill'
    exact ⟨rfl, rfl⟩
  have hl : (OwningIter.new d).Drains [(1, 20), (5, 50)] :=
    (OwningIter.drains_iter d _).mpr hd.2.symm
  obtain ⟨⟨c', hext, -, hkeep, hlast, -⟩, hcollect⟩ := extend_transfers (w := ⟨64, by decide⟩)
    (by decide) (by decide) hr (by decide) (by decide) hr' (show 1 ≤ 1 from le_rfl) (by decide)
    UInt64.ofNat hl
  have hc' : [0, 1, 2 ^ 56, 5].map c'.contents = [none, some 20, some 3, some 50] := by
    obtain rfl := Except.ok.inj hfill
    obtain rfl := Except.ok.inj hext
    rfl
  exact ⟨c, d, c', _, ⟨hr, hc⟩, ⟨hr', hd.1⟩, ⟨hl, hext, hc'⟩, hkeep, hlast, hcollect⟩

end Neocache
