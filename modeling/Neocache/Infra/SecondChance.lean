import Mathlib.Algebra.BigOperators.Group.List.Basic
import Mathlib.Algebra.GroupWithZero.Nat
import Mathlib.Data.List.Basic

/-!
# second chance の queue

残り機会の数を添えた列の先頭を見て、機会が残っていれば一つ減らして末尾へ戻し、
残っていなければそれを取り出す。何周も回ることがあるが、機会の総和が毎回減るので必ず終わる。

回し終えた結果は一度に書ける（`secondChance_eq`）。取り出されるのは、機会の最も少ないもののうち
最初のものである。それより前にあったものは一周多く、後ろにあったものは丁度その回数だけ減る。
-/

namespace Infra

variable {α : Type*}

/-- 一つ回すごとに、機会の総和は減る。 -/
theorem sum_rotate_lt (a : α) (n : Nat) (l : List (α × Nat)) :
    ((l ++ [(a, n)]).map Prod.snd).sum < (((a, n + 1) :: l).map Prod.snd).sum := by
  rw [List.map_append, List.sum_append, List.map_cons, List.map_cons, List.sum_cons, List.sum_cons]
  simp only [List.map_nil, List.sum_nil]
  omega

/-- 機会が尽きた先頭が出るまで回す。返すのは取り出したものと、残った列。 -/
def secondChance : List (α × Nat) → Option (α × List (α × Nat))
  | [] => none
  | (a, 0) :: l => some (a, l)
  | (a, n + 1) :: l => secondChance (l ++ [(a, n)])
termination_by l => (l.map Prod.snd).sum
decreasing_by exact sum_rotate_lt a n l

@[simp] theorem secondChance_nil : secondChance ([] : List (α × Nat)) = none := by
  rw [secondChance]

@[simp] theorem secondChance_zero (a : α) (l : List (α × Nat)) :
    secondChance ((a, 0) :: l) = some (a, l) := by
  rw [secondChance]

@[simp] theorem secondChance_succ (a : α) (n : Nat) (l : List (α × Nat)) :
    secondChance ((a, n + 1) :: l) = secondChance (l ++ [(a, n)]) := by
  rw [secondChance]

/-- 機会を `d` だけ減らす。 -/
def lower (d : Nat) (l : List (α × Nat)) : List (α × Nat) := l.map fun p => (p.1, p.2 - d)

@[simp] theorem lower_fst (d : Nat) (l : List (α × Nat)) :
    (lower d l).map Prod.fst = l.map Prod.fst := by
  simp [lower, Function.comp_def]

/--
機会の最も少ないもののうち最初のものが `(x, m)` である分け方。

前にあるものは `m` より多く、後ろにあるものは `m` 以上である。
-/
structure FirstLeast (before : List (α × Nat)) (m : Nat) (after : List (α × Nat)) : Prop where
  lt : ∀ p ∈ before, m < p.2
  le : ∀ p ∈ after, m ≤ p.2

/-- 空でない列は、最初の最小のところで分けられる。 -/
theorem exists_firstLeast : ∀ {l : List (α × Nat)}, l ≠ [] →
    ∃ before x m after, l = before ++ (x, m) :: after ∧ FirstLeast before m after
  | [], h => absurd rfl h
  | [(a, n)], _ => ⟨[], a, n, [], rfl, by simp, by simp⟩
  | (a, n) :: q :: l, _ => by
    obtain ⟨before, x, m, after, hl, hf⟩ := exists_firstLeast (List.cons_ne_nil q l)
    rw [hl]
    by_cases hn : n ≤ m
    · -- 先頭がどれよりも多くなければ、先頭が最初の最小になる。
      refine ⟨[], a, n, before ++ (x, m) :: after, rfl, by simp, ?_⟩
      intro p hp
      rcases List.mem_append.mp hp with hp | hp
      · exact Nat.le_trans hn (Nat.le_of_lt (hf.lt p hp))
      · rcases List.mem_cons.mp hp with rfl | hp
        · exact hn
        · exact Nat.le_trans hn (hf.le p hp)
    · refine ⟨(a, n) :: before, x, m, after, rfl, ?_, hf.le⟩
      intro p hp
      rcases List.mem_cons.mp hp with rfl | hp
      · exact Nat.lt_of_not_le hn
      · exact hf.lt p hp

/--
回し終えた結果。

一回の移動で分け方がどう変わるかを追う。先頭が `x` 自身なら、`x` は機会を一つ減らして末尾へ移り、
他はすべて `x` の前になる。先頭が別のものなら、それは `x` の後ろへ回る。
-/
theorem secondChance_eq {l before after : List (α × Nat)} {x : α} {m : Nat}
    (hl : l = before ++ (x, m) :: after) (hf : FirstLeast before m after) :
    secondChance l = some (x, lower m after ++ lower (m + 1) before) := by
  induction l using secondChance.induct generalizing before after m with
  | case1 => simp at hl
  | case2 a l =>
    cases before with
    | nil =>
      obtain ⟨⟨rfl, rfl⟩, rfl⟩ : (a = x ∧ 0 = m) ∧ l = after := by simpa using hl
      simp [lower]
    | cons p before =>
      obtain ⟨rfl, -⟩ : (a, 0) = p ∧ _ := by simpa using hl
      exact absurd (hf.lt _ List.mem_cons_self) (Nat.not_lt_zero m)
  | case3 a n l ih =>
    rw [secondChance_succ]
    cases before with
    | nil =>
      -- 先頭が `x` である。末尾に移り、残りは全部その前に並ぶ。
      obtain ⟨⟨rfl, rfl⟩, rfl⟩ : (a = x ∧ n + 1 = m) ∧ l = after := by simpa using hl
      rw [ih rfl ⟨fun p hp => hf.le p hp, by simp⟩]
      simp [lower]
    | cons p before =>
      obtain ⟨rfl, rfl⟩ : (a, n + 1) = p ∧ l = before ++ (x, m) :: after := by simpa using hl
      have hn : m < n + 1 := hf.lt _ List.mem_cons_self
      have hnext : FirstLeast before m (after ++ [(a, n)]) := by
        refine ⟨fun p hp => hf.lt p (List.mem_cons_of_mem _ hp), ?_⟩
        intro p hp
        rcases List.mem_append.mp hp with hp | hp
        · exact hf.le p hp
        · rw [List.mem_singleton.mp hp]
          exact Nat.le_of_lt_succ hn
      rw [ih (by simp) hnext]
      simp [lower]

end Infra
