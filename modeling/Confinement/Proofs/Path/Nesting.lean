import Mathlib.Data.List.Infix
import Confinement.Path

/-!
# Nesting of paths

`p.isBelow q` compares components, so it is an order up to the spelling of
paths: every path lies at or below itself, nesting is transitive, and of two
paths at or above a third one lies at or above the other.
-/

namespace Confinement.Path

variable {p q r : Path}

theorem isBelow_iff : p.isBelow q ↔ q.components <+: p.components := by
  rw [isBelow, List.isPrefixOf_iff_prefix]

theorem isBelow_refl (p : Path) : p.isBelow p := isBelow_iff.mpr (List.prefix_refl _)

theorem isBelow_trans (hpq : p.isBelow q) (hqr : q.isBelow r) : p.isBelow r :=
  isBelow_iff.mpr ((isBelow_iff.mp hqr).trans (isBelow_iff.mp hpq))

/-- The paths at or above one path form a chain. -/
theorem isBelow_or_isBelow_of_isBelow (hq : p.isBelow q) (hr : p.isBelow r) :
    q.isBelow r ∨ r.isBelow q := by
  have hchain := List.prefix_or_prefix_of_prefix (isBelow_iff.mp hr) (isBelow_iff.mp hq)
  exact hchain.imp isBelow_iff.mpr isBelow_iff.mpr

theorem same_iff_isBelow : p.Same q ↔ p.isBelow q ∧ q.isBelow p := by
  constructor
  · intro hsame
    have hsame : p.components = q.components := hsame
    exact ⟨isBelow_iff.mpr (by rw [hsame]), isBelow_iff.mpr (by rw [hsame])⟩
  · rintro ⟨hpq, hqp⟩
    exact List.IsPrefix.eq_of_length_le (isBelow_iff.mp hqp) (isBelow_iff.mp hpq).length_le

theorem componentsBelow_of_eq_append {rest : List Component}
    (h : p.components = q.components ++ rest) : p.componentsBelow q = rest := by
  rw [componentsBelow, List.isPrefixOf?_eq_some_iff_append_eq.mpr h.symm, Option.getD_some]

/-- Neither of two paths equals the other or lies below it. -/
def Apart (p q : Path) : Prop := ¬ p.isBelow q ∧ ¬ q.isBelow p

instance (p q : Path) : Decidable (p.Apart q) := inferInstanceAs (Decidable (_ ∧ _))

end Confinement.Path
