import Mathlib.Order.Preorder.Finite

/-!
# lock の順序

thread が lock をいつも番号の順に待つなら、待ち合う thread の輪はできない。
-/

namespace Infra

namespace Locking

variable {T R : Type*}

/-- 集まりのどの thread も、集まりの誰かが持つ lock を待っている。 -/
def CircularWait (held : T → Set R) (wanted : T → Option R) (D : Set T) : Prop :=
  D.Nonempty ∧ ∀ t ∈ D, ∃ r, wanted t = some r ∧ ∃ u ∈ D, r ∈ held u

/-- 待たれる lock が有限個で、持っているものより後の lock だけを待つなら、待ち合う輪はない。 -/
theorem not_circularWait [Preorder R] {held : T → Set R} {wanted : T → Option R}
    (hfin : {r | ∃ t, wanted t = some r}.Finite)
    (h : ∀ t r, wanted t = some r → ∀ r' ∈ held t, r' < r) (D : Set T) :
    ¬ CircularWait held wanted D := by
  rintro ⟨⟨t₀, ht₀⟩, hwait⟩
  obtain ⟨r₀, hr₀, -⟩ := hwait t₀ ht₀
  -- 待たれている lock のうち、最も後のものを持つ thread を考える
  have hsub : {r | ∃ t ∈ D, wanted t = some r} ⊆ {r | ∃ t, wanted t = some r} := by
    rintro r ⟨t, -, hr⟩
    exact ⟨t, hr⟩
  obtain ⟨r, ⟨t, ht, hr⟩, hmax⟩ := (hfin.subset hsub).exists_maximal ⟨r₀, t₀, ht₀, hr₀⟩
  obtain ⟨r', hr', u, hu, hheld⟩ := hwait t ht
  obtain rfl : r' = r := Option.some.inj (hr'.symm.trans hr)
  obtain ⟨r₁, hr₁, -⟩ := hwait u hu
  have hlt := h u r₁ hr₁ r' hheld
  exact hlt.not_ge (hmax ⟨u, hu, hr₁⟩ hlt.le)

end Locking

end Infra
