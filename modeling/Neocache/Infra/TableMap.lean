import Neocache.Infra.Table

/-!
# 表の値の写像

表の値を一斉に写す `Table.mapVal`。hash と key と並びは変わらないので、検索・除去・挿入・書き換えの
どれとも入れ替わる。
-/

namespace Infra.Table

variable {H K E F : Type*}

/-- 値だけを写した表。 -/
def mapVal (f : E → F) (t : Table H K E) : Table H K F where
  slots := t.slots.map fun s => ⟨s.hash, s.key, f s.val⟩
  nodup := by
    rw [List.map_map]
    exact t.nodup

variable (f : E → F) (t : Table H K E)

@[simp] theorem mapVal_empty : (empty : Table H K E).mapVal f = empty := rfl

@[simp] theorem slots_mapVal :
    (t.mapVal f).slots = t.slots.map fun s => ⟨s.hash, s.key, f s.val⟩ := rfl

@[simp] theorem len_mapVal : (t.mapVal f).len = t.len := by
  simp [len]

@[simp] theorem sum_mapVal (w : F → Nat) : (t.mapVal f).sum w = t.sum fun e => w (f e) := by
  simp [sum, Function.comp_def]

variable [DecidableEq K]

@[simp] theorem find_mapVal [DecidableEq H] (h : H) (k : K) :
    (t.mapVal f).find h k = (t.find h k).map f := by
  simp [find, List.find?_map, Function.comp_def]

@[simp] theorem get?_mapVal (k : K) : (t.mapVal f).get? k = (t.get? k).map f := by
  simp [get?, List.find?_map, Function.comp_def]

@[simp] theorem remove_mapVal (k : K) : (t.mapVal f).remove k = (t.remove k).mapVal f := by
  ext1
  simp [remove, List.filter_map, Function.comp_def]

theorem modify_mapVal (k : K) {u : E → E} {u' : F → F} (h : ∀ e, u' (f e) = f (u e)) :
    (t.mapVal f).modify k u' = (t.modify k u).mapVal f := by
  ext1
  simp only [modify, slots_mapVal, List.map_map]
  refine List.map_congr_left fun s _ => ?_
  by_cases hs : s.key = k
  · simp [hs, h]
  · simp [hs]

@[simp] theorem insert_mapVal (h : H) (k : K) (e : E) :
    (t.mapVal f).insert h k (f e) = (t.insert h k e).mapVal f := by
  ext1
  have hremove := congrArg Table.slots (remove_mapVal f t k)
  simp only [insert, slots_mapVal, List.map_append, List.map_cons, List.map_nil] at hremove ⊢
  rw [hremove]

end Infra.Table
