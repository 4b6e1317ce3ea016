import Confinement.Proofs.Staging.Replica
import Confinement.Proofs.Staging.Total

/-!
# Copies that are exact

Where all is set, what comes of copying the contents of a directory is its copy,
and its entries are counted one by one (`copyBelow_exact`).  The induction is on
the depth to which the walk may still go.  It never runs out: the path of the
source grows by a byte at least with every step down, and a path of 4096 bytes
is refused.

What is copied to one entry shows neither in the source nor at another entry,
so each copy is as exact in the end as when it was made.
-/

namespace Confinement

open FileSystem
open Node (IsEntryName)

namespace Stage

variable {s s' : Scene} {source copy root : Path} {ls lt : Location} {name : Bytes} {mode : Mode}
  {node : Node} {t t' : Tally} {depth : Nat} {es entries : Entries} {e : Bytes × Node}

/-! ## One entry -/

/-- What is no directory is copied as it was seen, and counted once. -/
theorem copyEntry_exact (h : Ready s.fs source copy ls lt mode) (hname : IsEntryName name)
    (hlook : s.fs.tree.look (ls ++ [name]) = some node.face)
    (hfree : s.fs.tree.look (lt ++ [name]) = none) (hleaf : ¬ node.isDirectory)
    (hok : (copyEntry (source.child name) (copy.child name) node t).run s = (.ok t', s')) :
    t' = t + node.tally ∧ CopyOf s'.fs (lt ++ [name]) node := by
  have hslash := Path.endsWithSlash_child source hname.toIsName
  obtain ⟨found, hat, hface⟩ := Option.map_eq_some_iff.mp hlook
  rw [Node.tally_leaf hleaf]
  cases node with
  | directory => exact absurd rfl hleaf
  | link target =>
      obtain ⟨_, s₁, hcopy, hok⟩ := run_bind_eq_ok.mp hok
      obtain ⟨rfl, rfl⟩ := run_pure_eq_ok.mp hok
      obtain ⟨target', hread, hfills⟩ := copyLink_spec h.leads_copy hname hcopy
      obtain ⟨x, hfind⟩ := readLink_eq_ok_iff.mp hread
      -- The link that was read is the one that was seen.
      have hnames := h.leads_source.names_of_find_child hname.toIsName hfind
      rw [hnames.find_false hslash hat] at hfind
      obtain ⟨-, rfl⟩ := Prod.mk.inj (Except.ok.inj hfind)
      obtain rfl := Face.link.inj hface
      exact ⟨rfl, copyOf_fills hfills hleaf rfl⟩
  | file m c =>
      obtain ⟨_, s₁, hcopy, hok⟩ := run_bind_eq_ok.mp hok
      obtain ⟨rfl, rfl⟩ := run_pure_eq_ok.mp hok
      obtain ⟨x, found', hfind, hfills⟩ := copyFile_spec h.leads_copy hname hfree hcopy
      obtain rfl := h.eq_of_find_child hname hat (fun _ => hface ▸ Face.noConfusion) hfind
      rw [Node.content_eq_of_face hface, Node.mode_eq_of_face hface] at hfills
      exact ⟨rfl, copyOf_fills hfills hleaf rfl⟩
  | pipe m =>
      obtain ⟨_, s₁, hnote, hok⟩ := run_bind_eq_ok.mp hok
      obtain ⟨rfl, rfl⟩ := run_pure_eq_ok.mp hok
      refine ⟨(add_zero t).symm, copyOf_pipe ?_⟩
      rwa [run_note_eq_ok hnote]

/-! ## The contents of a directory -/

/-- Copies down to a depth are exact where the depth is enough for all paths. -/
def Duplicates (depth : Nat) : Prop :=
  ∀ {root source copy : Path} {t t' : Tally} {s s' : Scene} {ls lt : Location} {mode : Mode}
    {es : Entries},
    (copyBelow root depth source copy t).run s = (.ok t', s') →
    Ready s.fs source copy ls lt mode → (∀ name, s.fs.tree.look (lt ++ [name]) = none) →
    pathLimit ≤ source.length + depth → s.fs.tree.at? ls = some (.directory mode es) →
    t' = t + (es.map fun e => e.2.tally).sum ∧ CopyOf s'.fs lt (.directory mode es)

/-- An entry is copied with all below it. -/
theorem copyDeep_exact (hbelow : Duplicates depth)
    (hok : (copyDeep root depth source copy t e).run s = (.ok t', s'))
    (h : Ready s.fs source copy ls lt mode) (hlength : pathLimit ≤ source.length + (depth + 1))
    (hname : IsEntryName e.1) (hnode : e.2.WellFormed)
    (hlook : ∀ names, s.fs.tree.look (ls ++ [e.1] ++ names) = e.2.look names)
    (hfree : s.fs.tree.look (lt ++ [e.1]) = none) :
    t' = t + e.2.tally ∧ CopyOf s'.fs (lt ++ [e.1]) e.2 := by
  obtain ⟨name, node⟩ := e
  have hhere : s.fs.tree.look (ls ++ [name]) = some node.face := by
    have hnil := hlook []
    rwa [List.append_nil] at hnil
  obtain ⟨t₁, s₁, hentry, hok⟩ := run_bind_eq_ok.mp hok
  by_cases hdirectory : node.isDirectory
  · rw [if_pos hdirectory] at hok
    cases node with
    | file | pipe | link => cases hdirectory
    | directory m es =>
        obtain ⟨s₂, hcopy, hadds, hready, hempty⟩ := h.exists_copyDirectory hname hhere hfree
        obtain ⟨_, s₃, hcopy', hentry⟩ := run_bind_eq_ok.mp hentry
        obtain ⟨rfl, rfl⟩ := run_pure_eq_ok.mp hentry
        rw [hcopy] at hcopy'
        obtain ⟨-, rfl⟩ := Prod.mk.inj hcopy'
        -- The directory walked into looks as it did when it was listed.
        obtain ⟨es', hat⟩ := Node.look_eq_directory_iff.mp hready.look_source
        have hsame : ∀ names,
            (Node.directory m es).look names = (Node.directory m es').look names := by
          intro names
          rw [← Node.look_append hat, ← hlook,
            h.look_eq hfree hadds ((List.prefix_append ls [name]).trans (List.prefix_append _ _))]
        have hdeep : pathLimit ≤ (source.child name).length + depth := by
          have hlt : source.length < (source.child name).length :=
            Path.length_child_lt source hname.toIsName
          omega
        obtain ⟨rfl, hcopies⟩ := hbelow hok hready hempty hdeep hat
        refine ⟨?_, hcopies.of_look hsame⟩
        rw [Node.tally_eq_of_look hnode (hready.wellFormed.at? hat) hsame, Node.tally_directory,
          ← add_assoc]
        rfl
  · rw [if_neg hdirectory] at hok
    obtain ⟨rfl, rfl⟩ := run_pure_eq_ok.mp hok
    exact copyEntry_exact h hname hhere hfree hdirectory hentry

theorem look_siblings {fs fs' : FileSystem}
    (h : Adds (fun l _ => ∃ e ∈ entries, lt ++ [e.1] <+: l) fs fs')
    (hne : ∀ e ∈ entries, name ≠ e.1) {m : Location} (hm : lt ++ [name] <+: m) :
    fs'.tree.look m = fs.tree.look m := by
  apply h.look_eq
  rintro face ⟨e, he, hbelow⟩
  apply hne e he
  have hlength : (lt ++ [name]).length = (lt ++ [e.1]).length := by simp
  have heq : lt ++ [name] = lt ++ [e.1] := by
    rcases List.prefix_or_prefix_of_prefix hm hbelow with hbegins | hbegins
    · exact hbegins.eq_of_length hlength
    · exact (hbegins.eq_of_length hlength.symm).symm
  exact List.singleton_inj.mp (List.append_cancel_left heq)

/-- The entries of a directory are copied one after the other. -/
theorem foldlM_copyDeep_exact (hbelow : Duplicates depth)
    (hok : (entries.foldlM (copyDeep root depth source copy) t).run s = (.ok t', s'))
    (h : Ready s.fs source copy ls lt mode) (hlength : pathLimit ≤ source.length + (depth + 1))
    (hroom : Room s.fs lt entries) (hnodes : ∀ e ∈ entries, e.2.WellFormed)
    (hlook : ∀ e ∈ entries, ∀ names, s.fs.tree.look (ls ++ [e.1] ++ names) = e.2.look names) :
    t' = t + (entries.map fun e => e.2.tally).sum ∧
      Adds (fun l _ => ∃ e ∈ entries, lt ++ [e.1] <+: l) s.fs s'.fs ∧
      ∀ e ∈ entries, CopyOf s'.fs (lt ++ [e.1]) e.2 := by
  induction entries generalizing s t with
  | nil =>
      obtain ⟨rfl, rfl⟩ := run_pure_eq_ok.mp hok
      exact ⟨(add_zero t).symm, .refl _ _, fun e he => absurd he List.not_mem_nil⟩
  | cons e entries ih =>
      rw [List.foldlM_cons] at hok
      obtain ⟨t₁, s₁, hdeep, hok⟩ := run_bind_eq_ok.mp hok
      have hhead : e ∈ e :: entries := List.mem_cons_self
      have hrest : ∀ e' ∈ entries, e' ∈ e :: entries := fun _ => List.mem_cons_of_mem e
      obtain ⟨hadds, hwell, -⟩ := copyDeep_spec (addsBelow depth) hdeep h.wellFormed h.leads_copy
        hroom.name_head hroom.free_head
      obtain ⟨rfl, hcopy⟩ := copyDeep_exact hbelow hdeep h hlength hroom.name_head (hnodes e hhead)
        (hlook e hhead) hroom.free_head
      -- The other entries look as they did.
      have hlook₁ : ∀ e' ∈ entries, ∀ names,
          s₁.fs.tree.look (ls ++ [e'.1] ++ names) = e'.2.look names := by
        intro e' he' names
        rw [h.look_eq hroom.free_head hadds
          ((List.prefix_append ls [e'.1]).trans (List.prefix_append _ _))]
        exact hlook e' (hrest e' he') names
      obtain ⟨rfl, hadds', hcopies⟩ := ih hok (h.mono hroom.free_head hadds hwell)
        (hroom.tail hadds) (fun e' he' => hnodes e' (hrest e' he')) hlook₁
      refine ⟨?_, ?_, fun e' he' => ?_⟩
      · rw [List.map_cons, List.sum_cons, ← add_assoc]
      · exact (hadds.mono fun l _ hnew => ⟨e, hhead, hnew⟩).trans
          (hadds'.mono fun l _ ⟨e', he', hnew⟩ => ⟨e', hrest e' he', hnew⟩)
      · rcases List.mem_cons.mp he' with rfl | he'
        · exact hcopy.mono hadds'.superuser_eq fun m hm =>
            look_siblings hadds' (fun e' he' => (hroom.ne_head e' he').symm) hm
        · exact hcopies e' he'

theorem duplicates (depth : Nat) : Duplicates depth := by
  induction depth with
  | zero =>
      intro root source copy t t' s s' ls lt mode es hok h hempty hlength hat
      -- The source was found, so its path is not that long.
      obtain ⟨es', hlist⟩ := h.copyable.readable_here h.look_source
      obtain ⟨l, mode', hfind, -⟩ := list_eq_ok_iff.mp hlist
      have hfits := (find_true_eq_ok_iff.mp hfind).1
      exact absurd hfits.length_lt (Nat.not_lt.mpr hlength)
  | succ depth ih =>
      intro root source copy t t' s s' ls lt mode es hok h hempty hlength hat
      obtain ⟨es', hlist⟩ := h.copyable.readable_here h.look_source
      obtain ⟨l, mode', hfind, -⟩ := list_eq_ok_iff.mp hlist
      obtain ⟨-, hleads, hat', -⟩ := find_true_eq_ok_iff.mp hfind
      obtain rfl := hleads.unique h.leads_source
      rw [hat] at hat'
      cases hat'
      rw [copyBelow_succ] at hok
      obtain ⟨_, _, hget, hok⟩ := run_bind_eq_ok.mp hok
      obtain ⟨rfl, rfl⟩ := run_get_eq_ok.mp hget
      simp only [hlist] at hok
      have hdirectory := h.wellFormed.at? hat
      have hlook : ∀ e ∈ es, ∀ names, s.fs.tree.look (l ++ [e.1] ++ names) = e.2.look names :=
        fun e he names => Node.look_of_mem h.wellFormed hat he names
      cases hdirectory with
      | directory _ nodup names nodes =>
          obtain ⟨ht, hadds, hcopies⟩ := foldlM_copyDeep_exact ih hok h hlength
            (.of_empty h.wellFormed hat hempty) nodes hlook
          refine ⟨ht, copyOf_directory (.directory mode nodup names nodes)
            (hadds.look _ _ h.look_copy) hcopies fun key hkey => ?_⟩
          rw [look_siblings hadds (fun e he heq => hkey e he heq.symm) (List.prefix_refl _)]
          exact hempty key

/-- What is in a directory is copied exactly where all is set and the copy is
empty. -/
theorem copyBelow_exact (root : Path) (h : Ready s.fs source copy ls lt mode)
    (hempty : ∀ name, s.fs.tree.look (lt ++ [name]) = none)
    (hat : s.fs.tree.at? ls = some (.directory mode es)) (t : Tally) :
    ∃ s', (copyBelow root pathLimit source copy t).run s =
        (.ok (t + (es.map fun e => e.2.tally).sum), s') ∧ CopyOf s'.fs lt (.directory mode es) := by
  obtain ⟨t', s', hok⟩ := copyBelow_ok h hempty
  obtain ⟨rfl, hcopies⟩ := duplicates pathLimit hok h hempty (Nat.le_add_left _ _) hat
  exact ⟨s', hok, hcopies⟩

end Stage

end Confinement
