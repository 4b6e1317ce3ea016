import Confinement.Proofs.Path.Words

/-!
# The order of paths

`Path.precedes` compares lists of components.  A component has a key, a byte
string that ranks the roots and the dots before the names, and paths stand in
the order of the lists of their keys (`Path.precedes_iff`), so the order is
total and what `Path.sort` puts first precedes all the others.  Of two entries
of one directory that is the one with the lesser name (`Path.precedes_child_iff`).
-/

namespace Confinement.Path

variable {p q : Path} {a b : Component} {cs ds : List Component} {f g : Bytes} {ps : List Path}

theorem bytesLE_iff : bytesLE f g ↔ f ≤ g := by
  induction f generalizing g with
  | nil => simp [bytesLE]
  | cons x f ih =>
      cases g with
      | nil => simp [bytesLE]
      | cons y g => simp [bytesLE, List.cons_le_cons_iff, ih]

/-! ## Keys -/

/-- The rank of a component, and its bytes. -/
def Component.key : Component → Bytes
  | .root => [0]
  | .here => [1]
  | .parent => [2]
  | .normal name => 3 :: name

/-- The keys of a path, one for each component. -/
def keys (p : Path) : List Bytes := p.components.map Component.key

theorem Component.order_normal_eq_eq_iff :
    (Component.normal f).order (.normal g) = .eq ↔ f = g := by
  rw [order]
  by_cases heq : f = g
  · exact iff_of_true (if_pos heq) heq
  · rw [if_neg heq]
    refine iff_of_false ?_ heq
    split <;> exact Ordering.noConfusion

theorem Component.order_normal_eq_lt_iff :
    (Component.normal f).order (.normal g) = .lt ↔ f < g := by
  rw [order]
  by_cases heq : f = g
  · rw [if_pos heq]
    exact iff_of_false Ordering.noConfusion (heq ▸ Std.lt_irrefl)
  · rw [if_neg heq]
    by_cases hle : bytesLE f g
    · exact iff_of_true (if_pos hle) (Std.lt_of_le_of_ne (bytesLE_iff.mp hle) heq)
    · rw [if_neg hle]
      exact iff_of_false Ordering.noConfusion fun hlt => hle (bytesLE_iff.mpr (Std.le_of_lt hlt))

theorem Component.order_eq_eq_iff : a.order b = .eq ↔ a.key = b.key := by
  cases a with
  | normal f =>
      cases b with
      | normal g => rw [order_normal_eq_eq_iff, key, key, List.cons_inj_right]
      | root | here | parent => simp [order, key]
  | root | here | parent => cases b <;> simp [order, key]

theorem Component.order_eq_lt_iff : a.order b = .lt ↔ a.key < b.key := by
  cases a with
  | normal f =>
      cases b with
      | normal g => rw [order_normal_eq_lt_iff, key, key, List.cons_lt_cons_self]
      | root | here | parent => simp [order, key, List.cons_lt_cons_iff]
  | root | here | parent => cases b <;> simp [order, key, List.cons_lt_cons_iff]

theorem orderComponents_ne_gt_iff :
    orderComponents cs ds ≠ .gt ↔ cs.map Component.key ≤ ds.map Component.key := by
  induction cs generalizing ds with
  | nil => cases ds <;> simp [orderComponents]
  | cons a cs ih =>
      cases ds with
      | nil => simp [orderComponents]
      | cons b ds =>
          rw [List.map_cons, List.map_cons, List.cons_le_cons_iff, ← ih,
            ← Component.order_eq_lt_iff, ← Component.order_eq_eq_iff, orderComponents]
          cases a.order b <;> simp

theorem precedes_iff : p.precedes q ↔ p.keys ≤ q.keys := by
  rw [precedes, bne_iff_ne]
  exact orderComponents_ne_gt_iff

theorem precedes_trans (p q r : Path) (hpq : p.precedes q) (hqr : q.precedes r) : p.precedes r :=
  precedes_iff.mpr (Std.le_trans (precedes_iff.mp hpq) (precedes_iff.mp hqr))

theorem precedes_total (p q : Path) : p.precedes q || q.precedes p := by
  rw [Bool.or_eq_true, precedes_iff, precedes_iff]
  exact Std.le_total

/-- Below one directory the names decide. -/
theorem precedes_child_iff (hf : IsName f) (hg : IsName g) :
    (p.child f).precedes (p.child g) ↔ f ≤ g := by
  have happend : ∀ ks : List Bytes, ks ++ [3 :: f] ≤ ks ++ [3 :: g] ↔ f ≤ g := by
    intro ks
    -- What the two have in common decides nothing, so the induction takes it off.
    induction ks with
    | nil => simp [List.cons_lt_cons_iff, Std.le_iff_lt_or_eq]
    | cons k ks ih => simpa [List.cons_le_cons_iff, Std.lt_irrefl] using ih
  rw [precedes_iff, keys, keys, components_child p hf, components_child p hg, List.map_append,
    List.map_append]
  exact happend _

/-! ## What comes first -/

theorem mem_sort : p ∈ sort ps ↔ p ∈ ps := (List.mergeSort_perm ps precedes).mem_iff

theorem pairwise_sort (ps : List Path) : (sort ps).Pairwise fun p q => p.precedes q :=
  List.pairwise_mergeSort precedes_trans precedes_total ps

theorem precedes_of_head?_sort (hhead : (sort ps).head? = some p) (hq : q ∈ ps) : p.precedes q := by
  obtain ⟨rest, hrest⟩ := List.head?_eq_some_iff.mp hhead
  have hsorted := pairwise_sort ps
  rw [hrest, List.pairwise_cons] at hsorted
  rcases List.mem_cons.mp (hrest ▸ mem_sort.mpr hq) with rfl | hmem
  · simpa using precedes_total q q
  · exact hsorted.1 q hmem

end Confinement.Path
