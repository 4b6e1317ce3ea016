import Mathlib.Data.List.Perm.Subperm
import Confinement.Proofs.Staging.Copy

/-!
# The entries a walk comes to

A copy is made while its source is walked.  `travel` copies given entries of a
tree, one after the other, and then stops, with or without a failure; it does
not look at the tree to find them.  A walk into a directory does what `travel`
does for some entries (`travels`).  If the copy does not lie in the
source, the entries are distinct and were all there when the walk began
(`Toured`): what is copied on the way never comes into the walk's sight.

An entry is given by its names, from the top of the source, and the node that
was seen there.
-/

namespace Confinement

open FileSystem
open Node (IsEntryName)

namespace Stage

variable {fs fs' : FileSystem} {s s' s₁ : Scene} {source copy root : Path} {ls lt x : Location}
  {name : Bytes} {node : Node} {t t' t₁ : Tally} {depth : Nat} {r : Except Failure Tally}
  {entries entries' : List (List Bytes × Node)} {stop : Option Failure} {e : Bytes × Node}
  {children : Entries}

/-- Entries of a tree copied one after the other, before the walk stops. -/
def travel (source copy : Path) (entries : List (List Bytes × Node)) (stop : Option Failure)
    (t : Tally) : Work Tally := do
  let t ← entries.foldlM (fun t e =>
    copyEntry (e.1.foldl Path.child source) (e.1.foldl Path.child copy) e.2 t) t
  match stop with
  | some e => throw e
  | none => return t

/-- The entries are distinct, and are what was to be seen at and below a
location. -/
structure Toured (fs : FileSystem) (ls : Location) (entries : List (List Bytes × Node)) :
    Prop where
  found : ∀ e ∈ entries, fs.tree.look (ls ++ e.1) = some e.2.face
  nodup : (entries.map Prod.fst).Nodup

namespace Toured

theorem nil (fs : FileSystem) (ls : Location) : Toured fs ls [] :=
  ⟨fun _ he => absurd he List.not_mem_nil, List.nodup_nil⟩

theorem singleton {names : List Bytes} (h : fs.tree.look (ls ++ names) = some node.face) :
    Toured fs ls [(names, node)] :=
  ⟨fun _ he => List.mem_singleton.mp he ▸ h, List.nodup_singleton names⟩

/-- What was to be seen later was to be seen before if nothing changed. -/
theorem of_look_eq (h : Toured fs' ls entries)
    (hsame : ∀ m, ls <+: m → fs'.tree.look m = fs.tree.look m) : Toured fs ls entries :=
  ⟨fun e he => (hsame _ (List.prefix_append ls e.1)).symm.trans (h.found e he), h.nodup⟩

theorem append (h : Toured fs ls entries) (h' : Toured fs ls entries')
    (hdisjoint : ∀ e ∈ entries, ∀ e' ∈ entries', e.1 ≠ e'.1) :
    Toured fs ls (entries ++ entries') := by
  constructor
  · intro e he
    rcases List.mem_append.mp he with he | he
    · exact h.found e he
    · exact h'.found e he
  · rw [List.map_append]
    refine h.nodup.append h'.nodup fun names hleft hright => ?_
    obtain ⟨e, he, rfl⟩ := List.mem_map.mp hleft
    obtain ⟨e', he', heq⟩ := List.mem_map.mp hright
    exact hdisjoint e he e' he' heq.symm

/-- The entries below an entry, named from further up. -/
theorem below (h : Toured fs (ls ++ [name]) entries) :
    Toured fs ls (entries.map fun e => (name :: e.1, e.2)) := by
  constructor
  · intro e he
    obtain ⟨e, hmem, rfl⟩ := List.mem_map.mp he
    rw [List.append_cons]
    exact h.found e hmem
  · rw [List.map_map]
    have hcons : Prod.fst ∘ (fun e : List Bytes × Node => (name :: e.1, e.2)) =
        (fun names => name :: names) ∘ Prod.fst := rfl
    rw [hcons, ← List.map_map]
    exact h.nodup.map fun _ _ heq => (List.cons.inj heq).2

/-- There are no more entries than nodes at and below the location. -/
theorem length_le (h : Toured fs ls entries) (hat : fs.tree.at? ls = some node) :
    entries.length ≤ node.faces.length := by
  -- No entry comes twice, and each is one of the faces; so they are no more than those.
  have hnodup : (entries.map fun e => (e.1, e.2.face)).Nodup := by
    refine List.Nodup.of_map Prod.fst ?_
    rw [List.map_map]
    exact h.nodup
  have hsub : (entries.map fun e => (e.1, e.2.face)) ⊆ node.faces := by
    intro f hf
    obtain ⟨e, he, rfl⟩ := List.mem_map.mp hf
    apply Node.mem_faces
    rw [← Node.look_append hat]
    exact h.found e he
  calc entries.length = (entries.map fun e => (e.1, e.2.face)).length := (List.length_map _).symm
    _ ≤ node.faces.length := (List.subperm_of_subset hnodup hsub).length_le

end Toured

/-! ## Travelling -/

theorem travel_append (h : (travel source copy entries none t).run s = (.ok t₁, s₁)) :
    (travel source copy (entries ++ entries') stop t).run s =
      (travel source copy entries' stop t₁).run s₁ := by
  obtain ⟨t₂, s₂, hfold, hpure⟩ := run_bind_eq_ok.mp h
  obtain ⟨rfl, rfl⟩ := run_pure_eq_ok.mp hpure
  unfold travel
  rw [List.foldlM_append, bind_assoc, run_bind_of_ok hfold]

theorem travel_singleton (source copy : Path) (names : List Bytes) (node : Node) (t : Tally) :
    travel source copy [(names, node)] none t =
      copyEntry (names.foldl Path.child source) (names.foldl Path.child copy) node t := by
  unfold travel
  simp

/-- Entries of a directory named from above it. -/
theorem travel_below (source copy : Path) (name : Bytes) (entries : List (List Bytes × Node))
    (stop : Option Failure) (t : Tally) :
    travel source copy (entries.map fun e => (name :: e.1, e.2)) stop t =
      travel (source.child name) (copy.child name) entries stop t := by
  unfold travel
  rw [List.foldlM_map]
  rfl

/-- A walk that gets through did not stop. -/
theorem stop_eq_none (h : (travel source copy entries stop t).run s = (.ok t', s')) :
    stop = none := by
  cases stop with
  | none => rfl
  | some e =>
      obtain ⟨_, _, -, hthrow⟩ := run_bind_eq_ok.mp h
      exact absurd hthrow run_throw_ne_ok

/-! ## Into a directory -/

/-- A directory whose copy does not lie in it. -/
structure Aside (fs : FileSystem) (copy : Path) (ls lt : Location) : Prop where
  wellFormed : fs.tree.WellFormed
  leads_copy : fs.Leads copy lt
  there : (fs.tree.look ls).isSome
  apart : ¬ ls <+: lt

namespace Aside

/-- What is copied to one entry leaves the directory aside. -/
theorem mono (h : Aside fs copy ls lt) (hadds : Adds (fun l _ => lt ++ [name] <+: l) fs fs')
    (hwell : fs'.tree.WellFormed) : Aside fs' copy ls lt := by
  obtain ⟨face, hface⟩ := Option.isSome_iff_exists.mp h.there
  exact ⟨hwell, h.leads_copy.mono hadds.toKeeps, by rw [hadds.look _ _ hface]; rfl, h.apart⟩

theorem look_eq (h : Aside fs copy ls lt) (hfree : fs.tree.look (lt ++ [name]) = none)
    (hadds : Adds (fun l _ => lt ++ [name] <+: l) fs fs') {m : Location} (hm : ls <+: m) :
    fs'.tree.look m = fs.tree.look m :=
  look_eq_of_apart h.there h.apart hfree hadds hm

end Aside

/-- What is found under the path of an entry that is no link is the entry. -/
theorem eq_of_find_child (hleads : fs.Leads source ls) (hname : IsEntryName name)
    (hlook : fs.tree.look (ls ++ [name]) = some node.face) (hnode : node.isDirectory)
    {found : Node} (hfind : fs.find true (source.child name) = .ok (x, found)) :
    x = ls ++ [name] := by
  have hnames := hleads.names_of_find_child hname.toIsName hfind
  obtain ⟨-, hx, -⟩ := find_true_eq_ok_iff.mp hfind
  refine hx.unique (hnames.leads hlook fun target hlink => ?_)
  cases node <;> cases hnode
  cases hlink

/-- Walks down to a depth come to entries that were there. -/
def Travels (depth : Nat) : Prop :=
  ∀ {root source copy : Path} {t : Tally} {r : Except Failure Tally} {s s' : Scene}
    {ls lt : Location},
    (copyBelow root depth source copy t).run s = (r, s') → Aside s.fs copy ls lt →
    (∀ name, s.fs.tree.look (lt ++ [name]) = none) →
    (∀ x found, s.fs.find true source = .ok (x, found) → x = ls) →
    ∃ entries stop, (travel source copy entries stop t).run s = (r, s') ∧
      Toured s.fs ls entries ∧ ∀ e ∈ entries, e.1 ≠ []

/-- One entry, and what is below it. -/
theorem copyDeep_travels (hbelow : Travels depth)
    (hrun : (copyDeep root depth source copy t e).run s = (r, s')) (h : Aside s.fs copy ls lt)
    (hleads : s.fs.Leads source ls) (hname : IsEntryName e.1)
    (hlook : s.fs.tree.look (ls ++ [e.1]) = some e.2.face)
    (hfree : s.fs.tree.look (lt ++ [e.1]) = none) :
    ∃ entries stop, (travel source copy entries stop t).run s = (r, s') ∧
      Toured s.fs ls entries ∧ ∀ e' ∈ entries, [e.1] <+: e'.1 := by
  obtain ⟨name, node⟩ := e
  have hone : Toured s.fs ls [([name], node)] := .singleton hlook
  have hbegins : ∀ e' ∈ [([name], node)], [name] <+: e'.1 :=
    fun e' he' => List.mem_singleton.mp he' ▸ List.prefix_refl _
  have htravel : ∀ t, travel source copy [([name], node)] none t =
      copyEntry (source.child name) (copy.child name) node t :=
    travel_singleton source copy [name] node
  rcases run_bind_cases hrun with ⟨e', hfail, rfl⟩ | ⟨t₁, s₁, hentry, hrun⟩
  · exact ⟨[([name], node)], none, by rw [htravel, hfail], hone, hbegins⟩
  rw [← htravel] at hentry
  split at hrun
  · rename_i hdirectory
    have hentry' := hentry
    rw [htravel] at hentry'
    obtain ⟨hadds, hwell, hthere, -⟩ := copyEntry_spec h.leads_copy hname hfree hentry'
    have hnew : Adds (fun l _ => lt ++ [name] <+: l) s.fs s₁.fs :=
      hadds.mono fun l face hnew => hnew.1 ▸ List.prefix_refl _
    have hlook₁ : s₁.fs.tree.look (ls ++ [name]) = some node.face := hadds.look _ _ hlook
    -- One step down the directory and its copy lie aside as before.
    have haside : Aside s₁.fs (copy.child name) (ls ++ [name]) (lt ++ [name]) :=
      ⟨hwell h.wellFormed, hthere hdirectory, by rw [hlook₁]; rfl, apart_child h.apart name⟩
    obtain ⟨below, stop, hdeep, htoured, hproper⟩ := hbelow hrun haside
      (look_below_entry hadds hfree) fun x found hfind =>
        eq_of_find_child (hleads.mono hadds.toKeeps) hname hlook₁ hdirectory hfind
    have hsame : ∀ m, ls ++ [name] <+: m → s₁.fs.tree.look m = s.fs.tree.look m :=
      fun m hm => h.look_eq hfree hnew ((List.prefix_append ls [name]).trans hm)
    refine ⟨[([name], node)] ++ below.map fun e => (name :: e.1, e.2), stop, ?_, ?_, ?_⟩
    · rw [travel_append hentry, travel_below, hdeep]
    · refine hone.append (htoured.of_look_eq hsame).below fun e he e' he' heq => ?_
      obtain ⟨e', hmem, rfl⟩ := List.mem_map.mp he'
      rw [List.mem_singleton.mp he] at heq
      exact hproper e' hmem (List.cons.inj heq).2.symm
    · intro e' he'
      rcases List.mem_append.mp he' with he' | he'
      · exact hbegins e' he'
      · obtain ⟨e', -, rfl⟩ := List.mem_map.mp he'
        exact List.cons_prefix_cons.mpr ⟨rfl, List.nil_prefix⟩
  · cases hrun
    exact ⟨[([name], node)], none, hentry, hone, hbegins⟩

/-- The entries of a directory, one after the other. -/
theorem foldlM_copyDeep_travels (hbelow : Travels depth)
    (hrun : (children.foldlM (copyDeep root depth source copy) t).run s = (r, s'))
    (h : Aside s.fs copy ls lt) (hleads : s.fs.Leads source ls)
    (hroom : Room s.fs lt children)
    (hlook : ∀ e ∈ children, s.fs.tree.look (ls ++ [e.1]) = some e.2.face) :
    ∃ entries stop, (travel source copy entries stop t).run s = (r, s') ∧
      Toured s.fs ls entries ∧ ∀ e' ∈ entries, ∃ e ∈ children, [e.1] <+: e'.1 := by
  induction children generalizing s t with
  | nil => exact ⟨[], none, hrun, .nil _ _, fun e' he' => absurd he' List.not_mem_nil⟩
  | cons e children ih =>
      rw [List.foldlM_cons] at hrun
      have hhead : e ∈ e :: children := List.mem_cons_self
      have hrest : ∀ e' ∈ children, e' ∈ e :: children := fun _ => List.mem_cons_of_mem e
      have hdeep : ∀ {r' s₁}, (copyDeep root depth source copy t e).run s = (r', s₁) →
          ∃ entries stop, (travel source copy entries stop t).run s = (r', s₁) ∧
            Toured s.fs ls entries ∧ ∀ e' ∈ entries, [e.1] <+: e'.1 := fun hone =>
        copyDeep_travels hbelow hone h hleads hroom.name_head (hlook e hhead) hroom.free_head
      rcases run_bind_cases hrun with ⟨e', hfail, rfl⟩ | ⟨t₁, s₁, hone, hrun⟩
      · obtain ⟨entries, stop, htravel, htoured, hbegins⟩ := hdeep hfail
        exact ⟨entries, stop, htravel, htoured, fun e' he' => ⟨e, hhead, hbegins e' he'⟩⟩
      obtain ⟨entries, stop, htravel, htoured, hbegins⟩ := hdeep hone
      obtain rfl := stop_eq_none htravel
      obtain ⟨hadds, hwell, -⟩ := copyDeep_spec (addsBelow depth) hone h.wellFormed h.leads_copy
        hroom.name_head hroom.free_head
      obtain ⟨entries', stop, htravel', htoured', hbegins'⟩ := ih hrun (h.mono hadds hwell)
        (hleads.mono hadds.toKeeps) (hroom.tail hadds)
        fun e' he' => hadds.look _ _ (hlook e' (hrest e' he'))
      refine ⟨entries ++ entries', stop, ?_, ?_, ?_⟩
      · rw [travel_append htravel, htravel']
      · refine htoured.append
          (htoured'.of_look_eq fun m hm => h.look_eq hroom.free_head hadds hm) ?_
        intro e₁ he₁ e₂ he₂ heq
        obtain ⟨e', he', hother⟩ := hbegins' e₂ he₂
        have hbegin := hbegins e₁ he₁
        rw [heq] at hbegin
        -- An entry toured twice would begin with the names of two children, which are different.
        have hsame := (List.prefix_or_prefix_of_prefix hother hbegin).elim
          (fun h => h.eq_of_length rfl) fun h => (h.eq_of_length rfl).symm
        exact hroom.ne_head e' he' (List.singleton_inj.mp hsame)
      · intro e' he'
        rcases List.mem_append.mp he' with he' | he'
        · exact ⟨e, hhead, hbegins e' he'⟩
        · obtain ⟨e'', he'', hbegin⟩ := hbegins' e' he'
          exact ⟨e'', hrest e'' he'', hbegin⟩

theorem travels (depth : Nat) : Travels depth := by
  induction depth with
  | zero =>
      intro root source copy t r s s' ls lt hrun h hempty honly
      exact ⟨[], none, hrun, .nil _ _, fun e he => absurd he List.not_mem_nil⟩
  | succ depth ih =>
      intro root source copy t r s s' ls lt hrun h hempty honly
      rw [copyBelow_succ, run_bind_of_ok (run_get s)] at hrun
      cases hlist : s.fs.list source with
      | error e =>
          simp only [hlist] at hrun
          exact ⟨[], some (.staging root (walkFailure source e)), hrun, .nil _ _,
            fun e he => absurd he List.not_mem_nil⟩
      | ok es =>
          simp only [hlist] at hrun
          obtain ⟨x, mode, hfind, -⟩ := list_eq_ok_iff.mp hlist
          -- The path leads to this directory and no other, so what is listed is what it holds.
          obtain rfl := honly x _ hfind
          obtain ⟨-, hleads, hat, -⟩ := find_true_eq_ok_iff.mp hfind
          have hlook : ∀ e ∈ es, s.fs.tree.look (x ++ [e.1]) = some e.2.face := by
            intro e he
            rw [← List.append_nil (x ++ [e.1]), Node.look_of_mem h.wellFormed hat he]
            rfl
          obtain ⟨entries, stop, htravel, htoured, hbegins⟩ :=
            foldlM_copyDeep_travels ih hrun h hleads (.of_empty h.wellFormed hat hempty) hlook
          refine ⟨entries, stop, htravel, htoured, fun e' he' hnil => ?_⟩
          obtain ⟨e, -, hbegin⟩ := hbegins e' he'
          rw [hnil] at hbegin
          cases List.prefix_nil.mp hbegin

end Stage

end Confinement
