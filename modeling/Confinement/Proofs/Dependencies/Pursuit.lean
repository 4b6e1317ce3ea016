import Confinement.Proofs.Session.Answers
import Mathlib.Data.List.Nodup
import Mathlib.Data.List.Perm.Basic
import Mathlib.Logic.Relation

/-!
# The course of a pursuit

With answers that do not change, the course of a pursuit is settled by the
names it begins with and those it has seen.  `Pursuit names seen calls opened
after` describes it without a loader and without a bound on its depth: looking
at `names` one after the other asks `calls`, opens the objects `opened`, and
leaves `after` as the names seen.

* `Pursuit.fresh`, `Pursuit.nodup`: each object is opened by a name of its own,
  not seen before;
* `Pursuit.chain`: a chain of links leads to the object that needs this name;
* `Pursuit.complete`: a name that is seen on the way and is missing is opened,
  and all that its object needs is seen, too;
* `Pursuit.opened_eq`, `Pursuit.examined_perm`: what is asked of the loader.

A name is *missing* for a path if an object behind that path needs it, it is
not mapped, and it leads somewhere (`Answers.Missing`).  A pursuit that begins
with nothing seen opens exactly the names that are missing
(`Pursuit.mem_iff_missing`).
-/

namespace Confinement

open Relation

namespace Answers

variable (answers : Answers) (find : String → Option Path)

/-- The object at `path` needs a name that is not mapped and leads to
`found`. -/
def Link (path found : Path) : Prop :=
  ∃ name ∈ answers.needs path, answers.mapped name = false ∧ find name = some found

/-- The name is needed by the object at `path` or by one that a chain of links
leads to; it is not mapped, and it leads somewhere. -/
def Missing (path : Path) (name : String) : Prop :=
  ∃ p, ReflTransGen (answers.Link find) path p ∧
    name ∈ answers.needs p ∧ answers.mapped name = false ∧ (find name).isSome

end Answers

/-- Names looked at one after the other. -/
inductive Pursuit (answers : Answers) (find : String → Option Path) :
    (names seen : List String) → List Call → List (String × Path) → (after : List String) → Prop
  | nothing {seen : List String} : Pursuit answers find [] seen [] [] seen
  | again {name : String} {seen : List String} (hseen : name ∈ seen) :
      Pursuit answers find [name] seen [] [] seen
  | idle {name : String} {seen : List String} (hnew : name ∉ seen)
      (hidle : answers.mapped name = false → find name = none) :
      Pursuit answers find [name] seen [.isResident name] [] (name :: seen)
  | opened {name : String} {found : Path} {seen after : List String} {calls : List Call}
      {below : List (String × Path)} (hnew : name ∉ seen) (hmapped : answers.mapped name = false)
      (hfind : find name = some found)
      (hbelow : Pursuit answers find (answers.needs found) (name :: seen) calls below after) :
      Pursuit answers find [name] seen
        (.isResident name :: .needed found :: calls ++ [.load found .global])
        (below ++ [(name, found)]) after
  | append {names names' seen middle after : List String} {calls calls' : List Call}
      {opened opened' : List (String × Path)}
      (h : Pursuit answers find names seen calls opened middle)
      (h' : Pursuit answers find names' middle calls' opened' after) :
      Pursuit answers find (names ++ names') seen (calls ++ calls') (opened ++ opened') after

namespace Pursuit

variable {answers : Answers} {find : String → Option Path} {names seen after : List String}
  {calls : List Call} {opened : List (String × Path)}

/-! ## Names seen -/

theorem kept (h : Pursuit answers find names seen calls opened after) : seen ⊆ after := by
  induction h with
  | nothing => exact List.Subset.refl _
  | again => exact List.Subset.refl _
  | idle => exact List.subset_cons_self _ _
  | opened _ _ _ _ ih => exact List.Subset.trans (List.subset_cons_self _ _) ih
  | append _ _ ih ih' => exact List.Subset.trans ih ih'

theorem looked (h : Pursuit answers find names seen calls opened after) : names ⊆ after := by
  induction h with
  | nothing => exact List.nil_subset _
  | again hseen => simpa using hseen
  | idle => simp
  | opened _ _ _ hbelow _ => simpa using hbelow.kept List.mem_cons_self
  | append _ h' ih ih' =>
      exact List.append_subset_of_subset_of_subset (List.Subset.trans ih h'.kept) ih'

/-! ## Objects opened -/

theorem found (h : Pursuit answers find names seen calls opened after) :
    ∀ x ∈ opened, answers.mapped x.1 = false ∧ find x.1 = some x.2 := by
  induction h with
  | nothing => simp
  | again => simp
  | idle => simp
  | opened _ hmapped hfind _ ih =>
      intro x hx
      rcases List.mem_append.mp hx with hx | hx
      · exact ih x hx
      · obtain rfl := List.mem_singleton.mp hx
        exact ⟨hmapped, hfind⟩
  | append _ _ ih ih' =>
      intro x hx
      exact (List.mem_append.mp hx).elim (ih x) (ih' x)

theorem fresh (h : Pursuit answers find names seen calls opened after) :
    ∀ x ∈ opened, x.1 ∉ seen ∧ x.1 ∈ after := by
  induction h with
  | nothing => simp
  | again => simp
  | idle => simp
  | opened hnew _ _ hbelow ih =>
      intro x hx
      rcases List.mem_append.mp hx with hx | hx
      · obtain ⟨hunseen, hafter⟩ := ih x hx
        exact ⟨fun hmem => hunseen (List.mem_cons_of_mem _ hmem), hafter⟩
      · obtain rfl := List.mem_singleton.mp hx
        exact ⟨hnew, hbelow.kept List.mem_cons_self⟩
  | append h h' ih ih' =>
      intro x hx
      rcases List.mem_append.mp hx with hx | hx
      · exact ⟨(ih x hx).1, h'.kept (ih x hx).2⟩
      · exact ⟨fun hmem => (ih' x hx).1 (h.kept hmem), (ih' x hx).2⟩

theorem nodup (h : Pursuit answers find names seen calls opened after) :
    (opened.map Prod.fst).Nodup := by
  induction h with
  | nothing => exact List.nodup_nil
  | again => exact List.nodup_nil
  | idle => exact List.nodup_nil
  | @opened name found _ _ _ below _ _ _ hbelow ih =>
      have hname : name ∉ below.map Prod.fst := by
        intro hmem
        obtain ⟨x, hx, rfl⟩ := List.mem_map.mp hmem
        exact (hbelow.fresh x hx).1 List.mem_cons_self
      rw [List.map_append, List.nodup_append]
      refine ⟨ih, List.nodup_singleton _, ?_⟩
      rintro other hother _ hlast rfl
      obtain rfl := List.mem_singleton.mp hlast
      exact hname hother
  | append h h' ih ih' =>
      rw [List.map_append, List.nodup_append]
      refine ⟨ih, ih', ?_⟩
      rintro name hname _ hname' rfl
      obtain ⟨x, hx, rfl⟩ := List.mem_map.mp hname
      obtain ⟨y, hy, heq⟩ := List.mem_map.mp hname'
      -- The second stretch knows the names that the first one has seen.
      exact (h'.fresh y hy).1 (heq ▸ (h.fresh x hx).2)

/-- A chain of links leads to an object that needs what is opened. -/
theorem chain (h : Pursuit answers find names seen calls opened after) {path : Path}
    (hnames : names ⊆ answers.needs path) :
    ∀ x ∈ opened, ∃ p, ReflTransGen (answers.Link find) path p ∧ x.1 ∈ answers.needs p := by
  induction h generalizing path with
  | nothing => simp
  | again => simp
  | idle => simp
  | @opened name found _ _ _ _ _ hmapped hfind _ ih =>
      have hname : name ∈ answers.needs path := hnames List.mem_cons_self
      intro x hx
      rcases List.mem_append.mp hx with hx | hx
      · obtain ⟨p, hchain, hneeds⟩ := ih (List.Subset.refl _) x hx
        exact ⟨p, .head ⟨name, hname, hmapped, hfind⟩ hchain, hneeds⟩
      · obtain rfl := List.mem_singleton.mp hx
        exact ⟨path, .refl, hname⟩
  | append _ _ ih ih' =>
      obtain ⟨hleft, hright⟩ := List.append_subset.mp hnames
      intro x hx
      exact (List.mem_append.mp hx).elim (ih hleft x) (ih' hright x)

/-- A name first seen on the way that is not mapped and leads somewhere is
opened, and all that its object needs is seen. -/
theorem complete (h : Pursuit answers find names seen calls opened after) {name : String}
    {path : Path} (hafter : name ∈ after) (hnew : name ∉ seen)
    (hmapped : answers.mapped name = false) (hfind : find name = some path) :
    (name, path) ∈ opened ∧ answers.needs path ⊆ after := by
  induction h with
  | nothing => exact absurd hafter hnew
  | again => exact absurd hafter hnew
  | idle _ hidle =>
      rcases List.mem_cons.mp hafter with rfl | hafter
      · rw [hidle hmapped] at hfind
        cases hfind
      · exact absurd hafter hnew
  | @opened other found _ _ _ _ _ _ hfound hbelow ih =>
      by_cases heq : name = other
      · subst heq
        obtain rfl : path = found := Option.some.inj (hfind.symm.trans hfound)
        exact ⟨List.mem_append_right _ (List.mem_singleton.mpr rfl), hbelow.looked⟩
      · -- The name is another one, so it was first seen among the needs of the object.
        have hlater : name ∉ other :: _ := List.not_mem_cons_of_ne_of_not_mem heq hnew
        obtain ⟨hmem, hneeds⟩ := ih hafter hlater
        exact ⟨List.mem_append_left _ hmem, hneeds⟩
  | @append _ _ _ middle _ _ _ _ _ h h' ih ih' =>
      -- Either the first names led to it, or it was still new to the later ones.
      by_cases hmiddle : name ∈ middle
      · obtain ⟨hmem, hneeds⟩ := ih hmiddle hnew
        exact ⟨List.mem_append_left _ hmem, List.Subset.trans hneeds h'.kept⟩
      · obtain ⟨hmem, hneeds⟩ := ih' hafter hmiddle
        exact ⟨List.mem_append_right _ hmem, hneeds⟩

/-- A pursuit that begins with the needs of an object and nothing seen opens
the names that are missing for it, and no others. -/
theorem mem_iff_missing {path : Path}
    (h : Pursuit answers find (answers.needs path) [] calls opened after) {name : String} :
    name ∈ opened.map Prod.fst ↔ answers.Missing find path name := by
  constructor
  · intro hmem
    obtain ⟨x, hx, rfl⟩ := List.mem_map.mp hmem
    obtain ⟨p, hchain, hneeds⟩ := h.chain (List.Subset.refl _) x hx
    obtain ⟨hmapped, hfind⟩ := h.found x hx
    exact ⟨p, hchain, hneeds, hmapped, by rw [hfind]; rfl⟩
  · rintro ⟨p, hchain, hneeds, hmapped, hsome⟩
    -- All that the objects along the chain need is seen.
    have hseen : ∀ {q}, ReflTransGen (answers.Link find) path q → answers.needs q ⊆ after := by
      intro q hchain
      induction hchain with
      | refl => exact h.looked
      | tail _ hlink ih =>
          obtain ⟨other, hother, hunmapped, hfind⟩ := hlink
          exact (h.complete (ih hother) List.not_mem_nil hunmapped hfind).2
    obtain ⟨found, hfind⟩ := Option.isSome_iff_exists.mp hsome
    have hopened := (h.complete (hseen hchain hneeds) List.not_mem_nil hmapped hfind).1
    exact List.mem_map.mpr ⟨_, hopened, rfl⟩

/-! ## Questions -/

/-- Each object is asked for in its turn, and for all to use. -/
theorem opened_eq (h : Pursuit answers find names seen calls opened after) :
    calls.filterMap Call.opened? = opened.map fun x => (x.2, .global) := by
  induction h with
  | nothing => rfl
  | again => rfl
  | idle => rfl
  | opened _ _ _ _ ih =>
      simp only [List.cons_append, List.filterMap_cons, List.filterMap_append, Call.opened?,
        List.filterMap_nil, List.map_append, List.map_cons, List.map_nil, ih]
  | append _ _ ih ih' => rw [List.filterMap_append, List.map_append, ih, ih']

/-- The objects that are opened are those whose needs are asked for. -/
theorem examined_perm (h : Pursuit answers find names seen calls opened after) :
    (calls.filterMap Call.examined?).Perm (opened.map Prod.snd) := by
  induction h with
  | nothing => exact .refl _
  | again => exact .refl _
  | idle => exact .refl _
  | @opened _ found _ _ calls below _ _ _ _ ih =>
      simp only [List.cons_append, List.filterMap_cons, List.filterMap_append, Call.examined?,
        List.filterMap_nil, List.append_nil, List.map_append, List.map_cons, List.map_nil]
      exact (ih.cons found).trans (List.perm_append_singleton found _).symm
  | append _ _ ih ih' =>
      rw [List.filterMap_append, List.map_append]
      exact ih.append ih'

end Pursuit

end Confinement
