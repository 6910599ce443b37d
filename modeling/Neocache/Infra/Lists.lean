import Mathlib.Data.List.Dedup

/-!
# list の補題

重複を除いた列、`findSome?`、前から取った列、一つの要素で分けた列、一箇所を置き換えた列、
対応する二つの列についての補題。
-/

namespace Infra

variable {α β : Type*}

/-- 値を返すのが一箇所だけなら、そこで見つかる。 -/
theorem findSome?_unique {f : α → Option β} {l : List α} {i : Nat} {a : α}
    (ha : l[i]? = some a) (h : ∀ (j : Nat) b, l[j]? = some b → f b ≠ none → j = i) :
    l.findSome? f = f a := by
  have hsame : ∀ b ∈ l, f b ≠ none → b = a := by
    intro b hb hne
    obtain ⟨j, hj⟩ := List.mem_iff_getElem?.mp hb
    have hji := h j b hj hne
    rw [hji, ha] at hj
    exact (Option.some.inj hj).symm
  cases hf : l.findSome? f with
  | none =>
    rw [List.findSome?_eq_none_iff] at hf
    exact (hf a (List.mem_of_getElem? ha)).symm
  | some v =>
    obtain ⟨b, hb, hv⟩ := List.exists_of_findSome?_eq_some hf
    have hba := hsame b hb (by rw [hv]; simp)
    rw [← hba, hv]

section Dedup

variable [DecidableEq α]

/-- 列の末尾に足した要素は、重複を除くと末尾に残り、前の出現は消える。 -/
theorem dedup_concat (l : List α) (k : α) :
    (l ++ [k]).dedup = l.dedup.filter (fun x => x ≠ k) ++ [k] := by
  induction l with
  | nil => simp
  | cons a l ih =>
    rw [List.cons_append]
    by_cases hmem : a ∈ l
    · rw [List.dedup_cons_of_mem (List.mem_append_left _ hmem), List.dedup_cons_of_mem hmem, ih]
    · rw [List.dedup_cons_of_notMem hmem]
      by_cases hak : a = k
      · rw [List.dedup_cons_of_mem (by simp [hak]), ih, List.filter_cons_of_neg (by simp [hak])]
      · rw [List.dedup_cons_of_notMem (by simp [hmem, hak]), ih,
          List.filter_cons_of_pos (by simp [hak])]
        rfl

/-- 残す要素がどれも一度しか現れないなら、重複を除く必要はない。 -/
theorem filter_dedup_of_count {p : α → Bool} {l : List α} (h : ∀ k ∈ l, p k → l.count k ≤ 1) :
    l.dedup.filter p = l.filter p := by
  induction l with
  | nil => rfl
  | cons a l ih =>
    have hl : ∀ k ∈ l, p k → l.count k ≤ 1 := by
      intro k hk hp
      exact Nat.le_trans List.count_le_count_cons (h k (List.mem_cons_of_mem _ hk) hp)
    by_cases hmem : a ∈ l
    · have hnot : ¬ p a = true := by
        intro hp
        have hone := h a List.mem_cons_self hp
        have hpos := List.count_pos_iff.mpr hmem
        rw [List.count_cons_self] at hone
        omega
      rw [List.dedup_cons_of_mem hmem, ih hl, List.filter_cons_of_neg hnot]
    · rw [List.dedup_cons_of_notMem hmem, List.filter_cons, List.filter_cons, ih hl]

end Dedup

/-- 番号の順に引いて並べたものは、元の並びを順に並べたものに等しい。 -/
theorem flatMap_range (f : α → List β) :
    ∀ l : List α, (List.range l.length).flatMap (fun i => (l[i]?).elim [] f) = l.flatMap f
  | [] => rfl
  | a :: l => by
    rw [List.length_cons, List.range_succ_eq_map, List.flatMap_cons, List.flatMap_map,
      List.flatMap_cons, ← flatMap_range f l]
    rfl

/-- 前を `n` 個、残りを `m` 個取ると、続けて取ったことになる。 -/
theorem take_concat {a b : List α} {n m : Nat} (h : n ≤ a.length) :
    a.take n ++ (a.drop n ++ b).take m = (a ++ b).take (n + m) := by
  rw [List.take_add, List.take_append_of_le_length h, List.drop_append_of_le_length h]

/-- 末尾に足した分に無い要素で分けると、そこまでは元の列の分け方である。 -/
theorem split_append {x : α} {l m a b : List α} (hx : x ∉ m) (h : l ++ m = a ++ x :: b) :
    ∃ b', l = a ++ x :: b' ∧ b = b' ++ m := by
  rcases List.append_eq_append_iff.mp h with ⟨a', -, hm⟩ | ⟨c, hl, hc⟩
  · exact absurd (by rw [hm]; simp) hx
  · cases c with
    | nil => exact absurd (by rw [List.nil_append] at hc; rw [← hc]; exact List.mem_cons_self) hx
    | cons y c =>
      rw [List.cons_append, List.cons.injEq] at hc
      exact ⟨c, by rw [hl, hc.1], hc.2⟩

/-- 一箇所を置き換えた列の要素は、置き換えたものか、元のままのものである。 -/
theorem getElem?_set_cases {l : List α} {i j : Nat} {a b c : α} (ha : l[i]? = some a)
    (h : (l.set i b)[j]? = some c) : (j = i ∧ c = b) ∨ (j ≠ i ∧ l[j]? = some c) := by
  rcases eq_or_ne j i with rfl | hne
  · rw [List.getElem?_set_self (List.getElem?_eq_some_iff.mp ha).1] at h
    exact Or.inl ⟨rfl, (Option.some.inj h).symm⟩
  · rw [List.getElem?_set_ne hne.symm] at h
    exact Or.inr ⟨hne, h⟩

/-- 対応する要素が同じ値に写る二つの列は、写した列が等しい。 -/
theorem map_eq_of_forall₂ {R : α → β → Prop} {γ : Type*} {f : α → γ} {g : β → γ}
    (h : ∀ a b, R a b → f a = g b) {l : List α} {m : List β} (hlm : List.Forall₂ R l m) :
    l.map f = m.map g := by
  induction hlm with
  | nil => rfl
  | cons hr _ ih => rw [List.map_cons, List.map_cons, h _ _ hr, ih]

/-- 推移的な関係は、要素ごとに結んだ列の間でも推移的である。 -/
theorem forall₂_trans {R : α → α → Prop} (h : ∀ a b c, R a b → R b c → R a c) {l m n : List α}
    (hlm : List.Forall₂ R l m) (hmn : List.Forall₂ R m n) : List.Forall₂ R l n := by
  induction hlm generalizing n with
  | nil => exact hmn
  | cons hr _ ih =>
    cases hmn with
    | cons hr' hmn => exact .cons (h _ _ _ hr hr') (ih hmn)

end Infra
