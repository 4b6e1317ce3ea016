import Confinement.Proofs.Dependencies.Exact

/-!
# Needs come first

With answers that do not change, an object is opened after the objects that it
needs, except those that lead back to it (`loadDependencies_ordered`).  So
where no chain of links runs in a circle, all that a chain leads to is opened
before the object that it starts from.

A name that is left alone because it was seen may belong to an object that is
still waiting for its own needs.  Such an object leads to the one at hand
(`Pursuit.reached`), and this is the only way in which a need can come late
(`Pursuit.ordered`).
-/

namespace Confinement

open Relation

namespace Pursuit

variable {answers : Answers} {find : String → Option Path} {names seen after : List String}
  {calls : List Call} {opened : List (String × Path)} {path : Path}

theorem reached (h : Pursuit answers find names seen calls opened after)
    (hnames : names ⊆ answers.needs path) :
    ∀ x ∈ opened, TransGen (answers.Link find) path x.2 := by
  intro x hx
  obtain ⟨p, hchain, hneeds⟩ := h.chain hnames x hx
  obtain ⟨hmapped, hfind⟩ := h.found x hx
  exact TransGen.tail' hchain ⟨x.1, hneeds, hmapped, hfind⟩

/-- An object is opened before one that it needs only if this one leads back to
it. -/
theorem ordered (h : Pursuit answers find names seen calls opened after) :
    opened.Pairwise fun x y =>
      y.1 ∈ answers.needs x.2 → TransGen (answers.Link find) y.2 x.2 := by
  induction h with
  | nothing => exact .nil
  | again => exact .nil
  | idle => exact .nil
  | opened _ _ _ hbelow ih =>
      rw [List.pairwise_append]
      refine ⟨ih, List.pairwise_singleton _ _, ?_⟩
      -- The object that waits leads to all that is opened meanwhile.
      rintro x hx y hy -
      obtain rfl := List.mem_singleton.mp hy
      exact hbelow.reached (List.Subset.refl _) x hx
  | append h h' ih ih' =>
      rw [List.pairwise_append]
      refine ⟨ih, ih', ?_⟩
      -- All that the first stretch needs was seen before the second begins.
      intro x hx y hy hneeds
      obtain ⟨hmapped, hfind⟩ := h.found x hx
      obtain ⟨hunseen, hseen⟩ := h.fresh x hx
      have hknown := (h.complete hseen hunseen hmapped hfind).2 hneeds
      exact absurd hknown (h'.fresh y hy).1

theorem mem_iff_reached (h : Pursuit answers find (answers.needs path) [] calls opened after)
    {q : Path} : q ∈ opened.map Prod.snd ↔ TransGen (answers.Link find) path q := by
  constructor
  · intro hmem
    obtain ⟨x, hx, rfl⟩ := List.mem_map.mp hmem
    exact h.reached (List.Subset.refl _) x hx
  · intro hreached
    obtain ⟨p, hchain, name, hneeds, hmapped, hfind⟩ := TransGen.tail'_iff.mp hreached
    have hmissing : answers.Missing find path name :=
      ⟨p, hchain, hneeds, hmapped, by rw [hfind]; rfl⟩
    obtain ⟨x, hx, rfl⟩ := List.mem_map.mp (h.mem_iff_missing.mpr hmissing)
    have hsame : q = x.2 := Option.some.inj (hfind.symm.trans (h.found x hx).2)
    exact List.mem_map.mpr ⟨x, hx, hsame.symm⟩

/-- The questions keep the order in which objects are opened, if different
names lead to different objects. -/
theorem ordered_calls (h : Pursuit answers find names seen calls opened after)
    (hfind : ∀ {name name' p}, find name = some p → find name' = some p → name = name') :
    calls.Pairwise fun call call' => ∀ p q, call = .load p .global → call' = .load q .global →
      answers.Link find p q → TransGen (answers.Link find) q p := by
  have hopened : (calls.filterMap Call.opened?).Pairwise fun x y =>
      answers.Link find x.1 y.1 → TransGen (answers.Link find) y.1 x.1 := by
    rw [h.opened_eq, List.pairwise_map]
    refine h.ordered.imp_of_mem fun {x y} _ hy hordered hlink => ?_
    obtain ⟨name, hneeds, -, hname⟩ := hlink
    obtain rfl := hfind hname (h.found y hy).2
    exact hordered hneeds
  refine (List.pairwise_filterMap.mp hopened).imp fun {call call'} hordered p q hcall hcall' => ?_
  subst hcall hcall'
  exact hordered (p, .global) rfl (q, .global) rfl

end Pursuit

namespace Action

variable {σ : Type} {answers : Answers} {find : String → Option Path} {path p q : Path}
  {calls : List Call} {units : List CodeUnit} {i j : Nat}

/-- The object at `p` is opened, for all to use, by the question in place `i`. -/
def OpenedAt (calls : List Call) (i : Nat) (p : Path) : Prop := calls[i]? = some (.load p .global)

/-- Every object that links lead to is opened, and after the objects that it
needs.  Only those that lead back to it may come later. -/
structure Ordered (answers : Answers) (find : String → Option Path) (path : Path)
    (calls : List Call) : Prop where
  reached : ∀ q, (∃ i, OpenedAt calls i q) ↔ TransGen (answers.Link find) path q
  before : ∀ i j p q, OpenedAt calls i p → OpenedAt calls j q →
    ∀ name ∈ answers.needs p, find name = some q → ¬ TransGen (answers.Link find) q p → j < i
  acyclic : (∀ i q, OpenedAt calls i q → ¬ TransGen (answers.Link find) q q) →
    ∀ i j p q, OpenedAt calls i p → OpenedAt calls j q → TransGen (answers.Link find) p q → j < i

/-- Along a chain each object is opened before the one that the chain starts
from, if that is so along a link. -/
theorem lt_of_transGen (hreached : ∀ q, TransGen (answers.Link find) p q → ∃ i, OpenedAt calls i q)
    (hlink : ∀ i j p q, OpenedAt calls i p → OpenedAt calls j q → answers.Link find p q → j < i)
    (hi : OpenedAt calls i p) (hj : OpenedAt calls j q)
    (hchain : TransGen (answers.Link find) p q) : j < i := by
  induction hchain generalizing j with
  | single hlast => exact hlink i j _ _ hi hj hlast
  | tail hfront hlast ih =>
      obtain ⟨k, hk⟩ := hreached _ hfront
      exact Nat.lt_trans (hlink k j _ _ hk hj hlast) (ih hk)

namespace Course

theorem openedAt_iff (h : Course answers find path units calls) :
    (∃ i, OpenedAt calls i q) ↔ TransGen (answers.Link find) path q := by
  obtain ⟨rest, opened, after, rfl, hpursuit, -⟩ := h
  have hasked : (∃ i, OpenedAt (.needed path :: rest) i q) ↔
      (q, .global) ∈ (Call.needed path :: rest).filterMap Call.opened? := by
    unfold OpenedAt
    rw [← List.mem_iff_getElem?, List.mem_filterMap]
    constructor
    · intro hmem
      exact ⟨_, hmem, rfl⟩
    · rintro ⟨call, hmem, hcall⟩
      cases call <;> cases hcall
      exact hmem
  rw [hasked, List.filterMap_cons_none rfl, hpursuit.opened_eq, ← hpursuit.mem_iff_reached]
  simp

/-- A link leads to an object that is opened earlier, or that leads back. -/
theorem lt_of_link (h : Course answers find path units calls)
    (hfind : ∀ {name name' p}, find name = some p → find name' = some p → name = name')
    (hi : OpenedAt calls i p) (hj : OpenedAt calls j q) (hlink : answers.Link find p q)
    (hback : ¬ TransGen (answers.Link find) q p) : j < i := by
  obtain ⟨rest, opened, after, rfl, hpursuit, -⟩ := h
  have hpairs : (Call.needed path :: rest).Pairwise _ :=
    List.pairwise_cons.mpr
      ⟨fun _ _ _ _ h => Call.noConfusion h, hpursuit.ordered_calls hfind⟩
  obtain ⟨hilt, hi⟩ := List.getElem?_eq_some_iff.mp hi
  obtain ⟨hjlt, hj⟩ := List.getElem?_eq_some_iff.mp hj
  rcases Nat.lt_trichotomy i j with hlt | rfl | hlt
  · exact absurd (List.pairwise_iff_getElem.mp hpairs i j hilt hjlt hlt p q hi hj hlink) hback
  · -- An object that needs itself leads back to itself.
    cases hi.symm.trans hj
    exact absurd (.single hlink) hback
  · exact hlt

theorem ordered (h : Course answers find path units calls)
    (hfind : ∀ {name name' p}, find name = some p → find name' = some p → name = name') :
    Ordered answers find path calls where
  reached q := h.openedAt_iff
  before := by
    intro i j p q hi hj name hneeds hname hback
    -- A name that is needed and opened is not mapped.
    obtain ⟨r, -, name', -, hmapped, hname'⟩ := TransGen.tail'_iff.mp (h.openedAt_iff.mp ⟨j, hj⟩)
    obtain rfl := hfind hname hname'
    exact h.lt_of_link hfind hi hj ⟨name, hneeds, hmapped, hname⟩ hback
  acyclic := by
    intro hacyclic i j p q hi hj hchain
    have hstart := h.openedAt_iff.mp ⟨i, hi⟩
    refine lt_of_transGen (fun q hq => h.openedAt_iff.mpr (hstart.trans hq)) ?_ hi hj hchain
    intro i j p q hi hj hlink
    exact h.lt_of_link hfind hi hj hlink fun hback => hacyclic j q hj (hback.tail hlink)

end Course

/-- With answers that do not change and do not fail, objects are opened after
those that they need, unless these lead back to them; without circles, after
all that chains of needs lead to. -/
theorem loadDependencies_ordered (ld : Loader σ) (path : Path) (directories : List Path)
    (s : Session σ) :
    ∃ calls, Asks calls s ((loadDependencies ld path directories).run s).2 ∧
      ∀ answers, ld.Consistent s.fs answers s.loader calls →
        (∃ units, ((loadDependencies ld path directories).run s).1 = .ok units) ∧
        Ordered answers (findLibrary s.fs · directories) path calls := by
  obtain ⟨calls, hasks, -⟩ := traces_loadDependencies path s rfl
  refine ⟨calls, hasks, fun answers hconsistent => ?_⟩
  obtain ⟨calls', hasks', hcourse⟩ := exists_course answers path directories s
  obtain rfl := hasks.unique hasks'
  obtain ⟨units, hunits, hcourse⟩ := hcourse hconsistent
  exact ⟨⟨units, hunits⟩, hcourse.ordered fun h h' => eq_of_findLibrary_same h h' rfl⟩

/-- A process that sees five objects. -/
def tangledHost : Session Unit where
  fs := { tree := .directory 0o755 [
    (Utf8.encode "u", .directory 0o755 (["a.so", "b.so", "c.so", "d.so", "e.so"].map fun name =>
      (Utf8.encode name, .file 0o644 [])))] }
  loader := ()

/-- Two of them need a third, and that one and a fourth need each other. -/
def tangledNeeds (path : Path) : List String :=
  if path = "/u/a.so" then ["b.so", "c.so"]
  else if path = "/u/b.so" then ["d.so"]
  else if path = "/u/c.so" then ["d.so", "b.so"]
  else if path = "/u/d.so" then ["e.so"]
  else if path = "/u/e.so" then ["d.so"]
  else []

/-- The object that two others need is opened before them, though it is still
waiting when the object that it needs asks for it in turn. -/
theorem loadDependencies_ordered_tangled : ∃ calls,
    Asks calls tangledHost
      ((loadDependencies (.listing tangledNeeds) "/u/a.so" ["/u"]).run tangledHost).2 ∧
    Ordered ⟨tangledNeeds, fun _ => false⟩ (findLibrary tangledHost.fs · ["/u"]) "/u/a.so" calls ∧
    calls.filterMap Call.opened? =
      (["/u/e.so", "/u/d.so", "/u/b.so", "/u/c.so"].map fun p => (Path.ofString p, .global)) := by
  obtain ⟨calls, hasks, hordered⟩ :=
    loadDependencies_ordered (.listing tangledNeeds) "/u/a.so" ["/u"] tangledHost
  refine ⟨calls, hasks, (hordered _ (Loader.consistent_listing _ _ _ _)).2, ?_⟩
  have hjournal : ((loadDependencies (.listing tangledNeeds) "/u/a.so" ["/u"]).run
      tangledHost).2.journal.filterMap (Call.opened? ∘ Record.call) =
        (["/u/e.so", "/u/d.so", "/u/b.so", "/u/c.so"].map fun p =>
          (Path.ofString p, .global)) := by
    decide +kernel
  rw [← hjournal, hasks.journal_eq]
  simp [tangledHost, List.filterMap_map, Function.comp_def, Session.entry]

end Action

end Confinement
