import Mathlib.Data.List.Find
import Mathlib.Data.List.Nodup
import Mathlib.Algebra.GroupWithZero.Nat
import Mathlib.Algebra.Order.BigOperators.Group.List
import Mathlib.Algebra.Order.Group.Nat

/-!
# key で引く有限の表

hash table を「key で引く有限の表」として扱うための小さな library。
並びは list、key の重複が無いことは構造体の field に持つ。
だから表を作り変える操作は、重複が無いという事実を毎回示し直さなくてよい。
新しい slot は末尾に置くが、並びの順に意味は無い。

slot には格納したときの hash も残す。`find` は hash と key の両方が合う slot だけを返すので、
格納と検索で hash が食い違えば見つからない。
key だけで引く `get?` は仕様の側で使い、hash が揃っている表では `find` と一致する
（`Table.find_eq_get?`）。

表の上の量（個数、ある条件を満たす個数、値の総和）は重み `w` の総和 `Table.sum` に統一し、
各操作での増減を一つずつ示す。
-/

namespace Infra

variable {H K E : Type*}

/-- 表の一マス。格納時の hash を key と値に添えて持つ。 -/
structure Slot (H K E : Type*) where
  hash : H
  key : K
  val : E
  deriving DecidableEq, Repr

/-- 重複しない key で引く有限の表。 -/
structure Table (H K E : Type*) where
  slots : List (Slot H K E)
  nodup : (slots.map Slot.key).Nodup
  deriving DecidableEq

namespace Table

/-- 空の表。 -/
def empty : Table H K E := ⟨[], List.nodup_nil⟩

def keys (t : Table H K E) : List K := t.slots.map Slot.key

def len (t : Table H K E) : Nat := t.slots.length

@[ext]
theorem ext {t u : Table H K E} (h : t.slots = u.slots) : t = u := by
  cases t; cases u; simp_all

theorem nodup_keys (t : Table H K E) : t.keys.Nodup := t.nodup

theorem mem_unique {t : Table H K E} {s s' : Slot H K E} (hs : s ∈ t.slots) (hs' : s' ∈ t.slots)
    (h : s.key = s'.key) : s = s' :=
  List.inj_on_of_nodup_map t.nodup hs hs' h

/-- 表にある値の重みの総和。個数も条件つきの個数もこの形で表す。 -/
def sum (t : Table H K E) (w : E → Nat) : Nat := (t.slots.map fun s => w s.val).sum

theorem sum_one (t : Table H K E) : t.sum (fun _ => 1) = t.len := by
  simp [sum, len]

theorem sum_add (t : Table H K E) (w w' : E → Nat) :
    t.sum (fun e => w e + w' e) = t.sum w + t.sum w' := by
  simp [sum, List.sum_map_add]

variable [DecidableEq K]

/-- hash と key の両方が合う slot を探す。 -/
def find [DecidableEq H] (t : Table H K E) (h : H) (k : K) : Option E :=
  (t.slots.find? fun s => s.hash = h ∧ s.key = k).map Slot.val

/-- hash が合い、key が条件を満たす slot を探し、key ごと返す。 -/
def findBy [DecidableEq H] (t : Table H K E) (h : H) (eq : K → Bool) : Option (K × E) :=
  (t.slots.find? fun s => s.hash = h ∧ eq s.key).map fun s => (s.key, s.val)

/-- key だけで引く。 -/
def get? (t : Table H K E) (k : K) : Option E :=
  (t.slots.find? fun s => s.key = k).map Slot.val

/-- 指定した key の slot を取り除く。 -/
def remove (t : Table H K E) (k : K) : Table H K E where
  slots := t.slots.filter fun s => s.key ≠ k
  nodup := t.nodup.sublist (List.filter_sublist.map _)

/-- 指定した key の slot の値を書き換える。hash と key は変えない。 -/
def modify (t : Table H K E) (k : K) (f : E → E) : Table H K E where
  slots := t.slots.map fun s => if s.key = k then { s with val := f s.val } else s
  nodup := by
    have hk : (fun s : Slot H K E => (if s.key = k then { s with val := f s.val } else s).key)
        = Slot.key := by
      funext s
      split <;> rfl
    rw [List.map_map]
    show (t.slots.map fun s => (if s.key = k then { s with val := f s.val } else s).key).Nodup
    rw [hk]
    exact t.nodup

/-- 末尾に slot を足す。同じ key の古い slot があれば置き換える。 -/
def insert (t : Table H K E) (h : H) (k : K) (e : E) : Table H K E where
  slots := (t.remove k).slots ++ [⟨h, k, e⟩]
  nodup := by
    rw [List.map_append, List.nodup_append]
    refine ⟨(t.remove k).nodup, by simp, ?_⟩
    intro a ha b hb
    obtain ⟨s, hs, rfl⟩ := List.mem_map.mp ha
    have hsk : s.key ≠ k := by simpa using (List.mem_filter.mp hs).2
    simp only [List.map_cons, List.map_nil, List.mem_singleton] at hb
    rw [hb]
    exact hsk

/-! ## `get?` と slot -/

theorem get?_eq_some {t : Table H K E} {k : K} {e : E} :
    t.get? k = some e ↔ ∃ s ∈ t.slots, s.key = k ∧ s.val = e := by
  unfold get?
  constructor
  · intro h
    obtain ⟨s, hs, he⟩ := Option.map_eq_some_iff.mp h
    exact ⟨s, List.mem_of_find?_eq_some hs, by simpa using List.find?_some hs, he⟩
  · rintro ⟨s, hs, hk, he⟩
    cases hf : t.slots.find? (fun s => s.key = k) with
    | none =>
      have := List.find?_eq_none.mp hf s hs
      simp [hk] at this
    | some s' =>
      have hk' : s'.key = k := by simpa using List.find?_some hf
      have hss : s' = s := mem_unique (List.mem_of_find?_eq_some hf) hs (by rw [hk', hk])
      simp [hss, he]

theorem get?_of_mem {t : Table H K E} {s : Slot H K E} (h : s ∈ t.slots) :
    t.get? s.key = some s.val :=
  get?_eq_some.mpr ⟨s, h, rfl, rfl⟩

theorem get?_eq_none {t : Table H K E} {k : K} : t.get? k = none ↔ k ∉ t.keys := by
  unfold get? keys
  simp only [Option.map_eq_none_iff, List.find?_eq_none, decide_eq_true_eq, List.mem_map, not_exists,
    not_and]

theorem mem_keys_iff {t : Table H K E} {k : K} : k ∈ t.keys ↔ ∃ e, t.get? k = some e := by
  cases h : t.get? k with
  | none => simpa using get?_eq_none.mp h
  | some e =>
    obtain ⟨s, hs, rfl, -⟩ := get?_eq_some.mp h
    exact iff_of_true (List.mem_map_of_mem hs) ⟨e, rfl⟩

/-- 格納時の hash が `hash` で揃っている表では、`find` は key だけで決まる。 -/
theorem find_eq_get? [DecidableEq H] {t : Table H K E} {hash : K → H}
    (ht : ∀ s ∈ t.slots, s.hash = hash s.key) (k : K) : t.find (hash k) k = t.get? k := by
  unfold find get?
  congr 1
  refine List.find?_congr ?_
  intro s hs
  by_cases hk : s.key = k
  · simp [hk, ht s hs]
  · simp [hk]

omit [DecidableEq K] in
/-- 一つの key だけが満たす条件で探せば、その key の slot が見つかる。 -/
theorem findBy_of_mem [DecidableEq H] {t : Table H K E} {s : Slot H K E} (hs : s ∈ t.slots)
    {eq : K → Bool} (heq : ∀ k, eq k = true ↔ k = s.key) :
    t.findBy s.hash eq = some (s.key, s.val) := by
  unfold findBy
  cases hf : t.slots.find? (fun s' => s'.hash = s.hash ∧ eq s'.key) with
  | none =>
    have hno := List.find?_eq_none.mp hf s hs
    simp [(heq s.key).mpr rfl] at hno
  | some s' =>
    have hp := List.find?_some hf
    simp only [decide_eq_true_eq] at hp
    have hss : s' = s := mem_unique (List.mem_of_find?_eq_some hf) hs ((heq s'.key).mp hp.2)
    rw [hss]
    rfl

/-- 値の一部だけを見るなら、key とその部分の並びが同じ二つの表は同じに引ける。 -/
theorem get?_map_congr {B : Type*} {t u : Table H K E} (g : E → B)
    (h : u.slots.map (fun s => (s.key, g s.val)) = t.slots.map fun s => (s.key, g s.val)) (k : K) :
    (u.get? k).map g = (t.get? k).map g := by
  have hfind : ∀ t : Table H K E, (t.get? k).map g
      = ((t.slots.map fun s => (s.key, g s.val)).find? fun p => p.1 = k).map Prod.snd := by
    intro t
    unfold get?
    rw [List.find?_map, Option.map_map, Option.map_map]
    rfl
  rw [hfind, hfind, h]

theorem find_map_congr {B : Type*} [DecidableEq H] {t u : Table H K E} (g : E → B)
    (h : u.slots.map (fun s => (s.hash, s.key, g s.val))
      = t.slots.map fun s => (s.hash, s.key, g s.val)) (x : H) (k : K) :
    (u.find x k).map g = (t.find x k).map g := by
  have hfind : ∀ t : Table H K E, (t.find x k).map g
      = ((t.slots.map fun s => (s.hash, s.key, g s.val)).find? fun p => p.1 = x ∧ p.2.1 = k).map
          fun p => p.2.2 := by
    intro t
    unfold find
    rw [List.find?_map, Option.map_map, Option.map_map]
    rfl
  rw [hfind, hfind, h]

/-! ## 操作と `get?` -/

theorem get?_remove (t : Table H K E) (k k' : K) :
    (t.remove k).get? k' = if k' = k then none else t.get? k' := by
  unfold get? remove
  rw [List.find?_filter]
  by_cases h : k' = k
  · subst h
    rw [if_pos rfl, Option.map_eq_none_iff, List.find?_eq_none]
    intro s _
    by_cases hs : s.key = k' <;> simp [hs]
  · rw [if_neg h]
    congr 1
    refine List.find?_congr ?_
    intro s _
    by_cases hs : s.key = k'
    · simp [hs, h]
    · simp [hs]

theorem get?_modify (t : Table H K E) (k k' : K) (f : E → E) :
    (t.modify k f).get? k' = if k' = k then (t.get? k').map f else t.get? k' := by
  unfold get? modify
  simp only [List.find?_map]
  have hp : ((fun s : Slot H K E => decide (s.key = k')) ∘
      fun s => if s.key = k then { s with val := f s.val } else s)
      = fun s => decide (s.key = k') := by
    funext s
    simp only [Function.comp_apply]
    split <;> rfl
  rw [hp]
  cases hf : t.slots.find? (fun s => s.key = k') with
  | none => simp
  | some s =>
    have hs : s.key = k' := by simpa using List.find?_some hf
    by_cases h : k' = k
    · simp [hs, h]
    · simp [hs, h]

theorem get?_insert (t : Table H K E) (h : H) (k k' : K) (e : E) :
    (t.insert h k e).get? k' = if k' = k then some e else t.get? k' := by
  have hr := get?_remove t k k'
  unfold get? insert at *
  rw [List.find?_append]
  by_cases hk : k' = k
  · subst hk
    rw [if_pos rfl] at hr ⊢
    rw [Option.map_eq_none_iff.mp hr]
    simp
  · rw [if_neg hk] at hr ⊢
    rw [← hr]
    cases (t.remove k).slots.find? (fun s => s.key = k') with
    | some s => simp
    | none => simp [Ne.symm hk]

/-! ## 操作と key の並び -/

theorem remove_of_not_mem {t : Table H K E} {k : K} (h : t.get? k = none) : t.remove k = t := by
  refine Table.ext ?_
  refine List.filter_eq_self.mpr ?_
  intro s hs
  have : s.key ≠ k := by
    rintro rfl
    rw [get?_of_mem hs] at h
    cases h
  simpa using this

theorem modify_congr {t : Table H K E} {k : K} {e : E} {f g : E → E} (h : t.get? k = some e)
    (hfg : f e = g e) : t.modify k f = t.modify k g := by
  refine Table.ext (List.map_congr_left ?_)
  intro s hs
  split
  · next hk =>
    have he : s.val = e := by
      have := get?_of_mem hs
      rw [hk, h] at this
      exact (Option.some.inj this).symm
    rw [he, hfg]
  · rfl

theorem modify_id (t : Table H K E) (k : K) : t.modify k id = t := by
  refine Table.ext ((List.map_congr_left ?_).trans (List.map_id _))
  intro s _
  simp

theorem modify_of_not_mem {t : Table H K E} {k : K} (h : t.get? k = none) (f : E → E) :
    t.modify k f = t := by
  refine Table.ext ((List.map_congr_left ?_).trans (List.map_id _))
  intro s hs
  have hne : s.key ≠ k := by
    rintro rfl
    rw [get?_of_mem hs] at h
    cases h
  simp [hne]

theorem modify_modify (t : Table H K E) (k : K) (f g : E → E) :
    (t.modify k f).modify k g = t.modify k (g ∘ f) := by
  refine Table.ext ?_
  show (List.map _ (List.map _ _)) = _
  rw [List.map_map]
  refine List.map_congr_left ?_
  intro s _
  by_cases hk : s.key = k
  · simp [hk]
  · simp [hk]

/-- 同じ書き換えは、どちらの key から先に行ってもよい。 -/
theorem modify_comm (t : Table H K E) (k k' : K) (f : E → E) :
    (t.modify k f).modify k' f = (t.modify k' f).modify k f := by
  rcases eq_or_ne k k' with rfl | hne
  · rfl
  refine Table.ext ?_
  show (List.map _ (List.map _ _)) = List.map _ (List.map _ _)
  rw [List.map_map, List.map_map]
  refine List.map_congr_left ?_
  intro s _
  by_cases hk : s.key = k
  · simp [hk, hne]
  · by_cases hk' : s.key = k'
    · simp [hk', Ne.symm hne]
    · simp [hk, hk']

/-- 見ている部分を変えない書き換えでは、hash と key とその部分の並びは変わらない。 -/
theorem slots_modify_map {B : Type*} (t : Table H K E) (k : K) {f : E → E} {g : E → B}
    (h : ∀ e, g (f e) = g e) :
    (t.modify k f).slots.map (fun s => (s.hash, s.key, g s.val))
      = t.slots.map fun s => (s.hash, s.key, g s.val) := by
  show List.map _ (List.map _ _) = _
  rw [List.map_map]
  refine List.map_congr_left ?_
  intro s _
  by_cases hk : s.key = k
  · simp [hk, h]
  · simp [hk]

theorem remove_modify (t : Table H K E) (k : K) (f : E → E) :
    (t.modify k f).remove k = t.remove k := by
  refine Table.ext ?_
  show List.filter _ (List.map _ _) = _
  rw [List.filter_map]
  refine (List.map_congr_left (g := id) ?_).trans ?_
  · intro s hs
    have hk : ¬ s.key = k := by
      have := (List.mem_filter.mp hs).2
      simp only [Function.comp_apply, decide_eq_true_eq] at this
      intro hc
      rw [if_pos hc] at this
      exact this hc
    simp [hk]
  · rw [List.map_id]
    refine List.filter_congr ?_
    intro s _
    by_cases hk : s.key = k <;> simp [hk]

/-- 途中の slot を書き換えても、前後の slot は動かない。 -/
theorem slots_modify_mid {t : Table H K E} {a b : List (Slot H K E)} {s : Slot H K E}
    (h : t.slots = a ++ s :: b) (f : E → E) :
    (t.modify s.key f).slots = a ++ { s with val := f s.val } :: b := by
  have hnd := t.nodup
  rw [h, List.map_append, List.map_cons, List.nodup_append] at hnd
  obtain ⟨-, hb, hab⟩ := hnd
  show List.map _ t.slots = _
  have hrest : ∀ l : List (Slot H K E), (∀ x ∈ l, x.key ≠ s.key) →
      l.map (fun x => if x.key = s.key then { x with val := f x.val } else x) = l := by
    intro l hl
    refine (List.map_congr_left ?_).trans (List.map_id _)
    intro x hx
    simp [hl x hx]
  rw [h, List.map_append, List.map_cons, if_pos rfl, hrest a, hrest b]
  · intro x hx he
    exact (List.nodup_cons.mp hb).1 (he ▸ List.mem_map_of_mem hx)
  · intro x hx
    exact hab _ (List.mem_map_of_mem hx) _ List.mem_cons_self

/-- 途中の slot を除いても、前後の slot は動かない。 -/
theorem slots_remove_mid {t : Table H K E} {a b : List (Slot H K E)} {s : Slot H K E}
    (h : t.slots = a ++ s :: b) : (t.remove s.key).slots = a ++ b := by
  have hnd := t.nodup
  rw [h, List.map_append, List.map_cons, List.nodup_append] at hnd
  obtain ⟨-, hb, hab⟩ := hnd
  show List.filter _ t.slots = _
  rw [h, List.filter_append, List.filter_cons_of_neg (by simp)]
  congr 1
  · refine List.filter_eq_self.mpr ?_
    intro x hx
    simpa using hab _ (List.mem_map_of_mem hx) _ List.mem_cons_self
  · refine List.filter_eq_self.mpr ?_
    intro x hx
    have : x.key ≠ s.key := fun he => (List.nodup_cons.mp hb).1 (he ▸ List.mem_map_of_mem hx)
    simpa using this

theorem slots_insert {t : Table H K E} {k : K} (h : H) (e : E) (hk : t.get? k = none) :
    (t.insert h k e).slots = t.slots ++ [⟨h, k, e⟩] := by
  show (t.remove k).slots ++ _ = _
  rw [remove_of_not_mem hk]

/-- hash が揃っていることは、どの操作でも保たれる。 -/
theorem hashed_remove {t : Table H K E} {hash : K → H} (ht : ∀ s ∈ t.slots, s.hash = hash s.key)
    (k : K) : ∀ s ∈ (t.remove k).slots, s.hash = hash s.key :=
  fun s hs => ht s (List.mem_filter.mp hs).1

theorem hashed_modify {t : Table H K E} {hash : K → H} (ht : ∀ s ∈ t.slots, s.hash = hash s.key)
    (k : K) (f : E → E) : ∀ s ∈ (t.modify k f).slots, s.hash = hash s.key := by
  intro s hs
  obtain ⟨s', hs', rfl⟩ := List.mem_map.mp hs
  split
  · exact ht s' hs'
  · exact ht s' hs'

theorem hashed_insert {t : Table H K E} {hash : K → H} (ht : ∀ s ∈ t.slots, s.hash = hash s.key)
    (k : K) (e : E) : ∀ s ∈ (t.insert (hash k) k e).slots, s.hash = hash s.key := by
  intro s hs
  rcases List.mem_append.mp hs with hs | hs
  · exact hashed_remove ht k s hs
  · rw [List.mem_singleton.mp hs]

/-! ## 重みの総和 -/

/-- slot の list の上での取り除き。`nodup` を使うのはここだけである。 -/
theorem sum_filter_ne {l : List (Slot H K E)} (hnd : (l.map Slot.key).Nodup) {s : Slot H K E}
    (hs : s ∈ l) (w : E → Nat) :
    ((l.filter fun s' => s'.key ≠ s.key).map fun s => w s.val).sum + w s.val
      = (l.map fun s => w s.val).sum := by
  induction l with
  | nil => cases hs
  | cons a l ih =>
    rw [List.map_cons, List.nodup_cons] at hnd
    rcases List.mem_cons.mp hs with rfl | hs'
    · have hrest : l.filter (fun s' => s'.key ≠ s.key) = l := by
        refine List.filter_eq_self.mpr ?_
        intro b hb
        have : b.key ≠ s.key := fun he => hnd.1 (he ▸ List.mem_map_of_mem hb)
        simpa using this
      rw [List.filter_cons_of_neg (by simp), hrest]
      simp [Nat.add_comm]
    · have hne : a.key ≠ s.key := fun he => hnd.1 (he ▸ List.mem_map_of_mem hs')
      rw [List.filter_cons_of_pos (by simpa using hne)]
      have := ih hnd.2 hs'
      simp only [List.map_cons, List.sum_cons] at *
      omega

theorem sum_remove {t : Table H K E} {k : K} {e : E} (h : t.get? k = some e) (w : E → Nat) :
    (t.remove k).sum w + w e = t.sum w := by
  obtain ⟨s, hs, rfl, rfl⟩ := get?_eq_some.mp h
  exact sum_filter_ne t.nodup hs w

theorem sum_insert {t : Table H K E} {k : K} (h : H) (e : E) (hk : t.get? k = none) (w : E → Nat) :
    (t.insert h k e).sum w = t.sum w + w e := by
  unfold sum
  rw [slots_insert h e hk]
  simp

theorem sum_modify {t : Table H K E} {k : K} {e : E} (h : t.get? k = some e) (f : E → E)
    (w : E → Nat) : (t.modify k f).sum w + w e = t.sum w + w (f e) := by
  -- 書き換えた表から key を除いたものは、元の表から除いたものと同じである
  have hnew : (t.modify k f).get? k = some (f e) := by rw [get?_modify, if_pos rfl, h]; rfl
  have h1 := sum_remove h w
  have h2 := sum_remove hnew w
  rw [remove_modify] at h2
  omega

theorem len_remove {t : Table H K E} {k : K} {e : E} (h : t.get? k = some e) :
    (t.remove k).len + 1 = t.len := by
  rw [← sum_one, ← sum_one]
  exact sum_remove h _

theorem len_insert {t : Table H K E} {k : K} (h : H) (e : E) (hk : t.get? k = none) :
    (t.insert h k e).len = t.len + 1 := by
  rw [← sum_one, ← sum_one]
  exact sum_insert h e hk _

@[simp] theorem len_modify (t : Table H K E) (k : K) (f : E → E) : (t.modify k f).len = t.len := by
  simp [len, modify]

/-- 重みが 0 でない値が一つでもあれば総和は正であり、逆も言える。 -/
theorem sum_pos_iff {t : Table H K E} {w : E → Nat} :
    0 < t.sum w ↔ ∃ k e, t.get? k = some e ∧ 0 < w e := by
  unfold sum
  constructor
  · intro h
    by_contra hc
    have hz : (t.slots.map fun s => w s.val).sum = 0 := by
      refine List.sum_eq_zero ?_
      intro n hn
      obtain ⟨s, hs, rfl⟩ := List.mem_map.mp hn
      by_contra hw
      exact hc ⟨s.key, s.val, get?_of_mem hs, Nat.pos_of_ne_zero hw⟩
    omega
  · rintro ⟨k, e, hk, hw⟩
    obtain ⟨s, hs, -, rfl⟩ := get?_eq_some.mp hk
    exact lt_of_lt_of_le hw (List.single_le_sum (by simp) _ (List.mem_map.mpr ⟨s, hs, rfl⟩))

end Table

end Infra
