import Confinement.Proofs.FileSystem.Lineage

/-!
# Directories made with all above them

A path descends from a directory `b` when it is walked to `b` and from there
down names that no link stands in the way of (`Descends`).  Its ancestors down
to `b` are then the rungs of a ladder, and making the path fills the missing
ones, from the outside in: nothing else changes (`makeDirectories_spec`), and
nothing fails where `b` may be written and has no entry for the first name
(`makeDirectories_ok`).
-/

namespace Confinement

open Confinement.Path (IsName)
open Node (IsEntryName)

namespace FileSystem

variable {fs fs' : FileSystem} {p q : Path} {n : Nat} {b l d : Location} {above : List Bytes}
  {name : Bytes} {xs : List Bytes} {mode : Mode} {node : Node} {fuel : Nat}

/-! ## Paths that descend -/

/-- A path leads to the directory `b` and from there down names, `name` the
last, that no link stands in the way of. -/
structure Descends (fs : FileSystem) (p : Path) (b : Location) (above : List Bytes)
    (name : Bytes) : Prop where
  fits : p.Fits
  words : ∃ front lead, p.words = front ++ [name] ∧
    front.filter (· ≠ Path.dot) = lead ++ above ∧ ∃ n ≤ linkLimit, fs.Walk n (fs.start p) lead b
  entryNames : ∀ key ∈ above ++ [name], IsEntryName key
  clear : fs.Clear b (above ++ [name])

namespace Descends

theorem isName (h : fs.Descends p b above name) : ∀ key ∈ above ++ [name], IsName key :=
  fun key hkey => (h.entryNames key hkey).toIsName

/-- The steps before the last lead straight down from `b`. -/
theorem front (h : fs.Descends p b above name) (hwords : p.words = xs ++ [name])
    (hwalk : fs.Walk n (fs.start p) xs d) :
    d = b ++ above ∧ ∀ before, before <+: above → before ≠ above → fs.Searchable (b ++ before) := by
  obtain ⟨front, lead, hfront, hlead, m, hm, hwalkLead⟩ := h.words
  obtain ⟨rfl, -⟩ := List.append_inj' (hwords.symm.trans hfront) rfl
  have hturns := hwalk.unpad (pads_filter xs)
  rw [hlead] at hturns
  obtain ⟨n₁, n₂, d', -, hleft, hright⟩ := hturns.split
  obtain ⟨-, rfl⟩ := hleft.unique hwalkLead
  have hnames : ∀ key ∈ above, IsName key :=
    fun key hkey => h.isName key (List.mem_append_left _ hkey)
  obtain ⟨-, hd, hsearch⟩ :=
    hright.straight hnames (h.clear.initial (List.prefix_append above [name]))
  exact ⟨hd, hsearch⟩

theorem names (h : fs.Descends p b above name)
    (hsearch : ∀ before, before <+: above → fs.Searchable (b ++ before)) :
    fs.Names p (b ++ above) name := by
  obtain ⟨front, lead, hfront, hlead, n, hn, hwalk⟩ := h.words
  have habove := hsearch above (List.prefix_refl above)
  obtain ⟨mode, hlook, -⟩ := habove
  have hdown : fs.Walk 0 b above (b ++ above) :=
    walk_straight
      (fun key hkey => ⟨h.isName key (List.mem_append_left _ hkey),
        (h.entryNames key (List.mem_append_left _ hkey)).length_le⟩)
      (fun before hbefore _ => hsearch before hbefore) hlook fun target => Face.noConfusion
  have hwhole : fs.Walk n (fs.start p) (lead ++ above) (b ++ above) := hwalk.append hdown
  have hpadded := hwhole.pad (hsearch above (List.prefix_refl above)) (hlead ▸ pads_filter front)
  have hname := h.entryNames name (List.mem_append_right _ (List.mem_singleton_self name))
  exact ⟨h.fits, ⟨front, hfront, n, hn, hpadded⟩, hsearch above (List.prefix_refl above),
    hname.ne_dot, hname.ne_dotdot, hname.length_le⟩

/-- A path that descends leads nowhere else. -/
theorem of_leads (h : fs.Descends p b above name) (hp : fs.Leads p l) :
    l = b ++ above ++ [name] ∧ ∀ before, before <+: above → fs.Searchable (b ++ before) := by
  obtain ⟨n, hn, hwalk⟩ := hp
  obtain ⟨front, lead, hfront, -⟩ := h.words
  rw [hfront] at hwalk
  obtain ⟨n₁, n₂, d, -, hleft, hright⟩ := hwalk.split
  obtain ⟨rfl, hsearch⟩ := h.front hfront hleft
  have hname : ∀ key ∈ [name], IsName key :=
    fun key hkey => h.isName key (List.mem_append_right _ hkey)
  -- A link in last place would be in the way of the descent.
  have hclear : fs.Clear (b ++ above) [name] := by
    intro before hbefore hne target
    rw [List.append_assoc]
    exact h.clear (above ++ before) ((List.prefix_append_right_inj above).mpr hbefore)
      (by simp [hne]) target
  obtain ⟨-, hl, hlast⟩ := hright.straight hname hclear
  refine ⟨hl, fun before hbefore => ?_⟩
  -- The walk to the last name passes all that is above it, and so asks to search it.
  by_cases heq : before = above
  · have hhere := hlast [] List.nil_prefix (by simp)
    rwa [List.append_nil, ← heq] at hhere
  · exact hsearch before hbefore heq

theorem mono {new : Location → Face → Prop} (h : fs.Descends p b above name)
    (hadds : Adds new fs fs') (hnew : ∀ l face, new l face → ∀ target, face ≠ .link target) :
    fs'.Descends p b above name := by
  obtain ⟨front, lead, hfront, hlead, n, hn, hwalk⟩ := h.words
  refine ⟨h.fits, ⟨front, lead, hfront, hlead, n, hn, ?_⟩, h.entryNames, h.clear.mono hadds hnew⟩
  rw [hadds.start_eq]
  exact hwalk.mono hadds.toKeeps

/-- From `b` on a path that descends goes on by its names. -/
theorem heads (h : fs.Descends p b above name) : fs.Heads p b (above ++ [name]) := by
  obtain ⟨front, lead, hfront, hlead, n, hn, hwalk⟩ := h.words
  refine ⟨⟨lead, ?_, n, hwalk⟩, h.isName, h.clear⟩
  have hname := h.isName name (List.mem_append_right _ (List.mem_singleton_self name))
  rw [Path.turns_eq, hfront, List.filter_append, hlead, List.append_assoc]
  simp [hname.ne_dot]

/-- A path that descends through directories descends from the last of them. -/
theorem lower {before after : List Bytes} (h : fs.Descends p b (before ++ after) name)
    (hsearch : ∀ xs, xs <+: before → xs ≠ before → fs.Searchable (b ++ xs))
    (hdir : fs.tree.look (b ++ before) = some (.directory mode)) :
    fs.Descends p (b ++ before) after name := by
  obtain ⟨front, lead, hfront, hlead, n, hn, hwalk⟩ := h.words
  have hdown : fs.Walk 0 b before (b ++ before) := by
    refine walk_straight (fun key hkey => ?_) hsearch hdir fun target => Face.noConfusion
    have hname := h.entryNames key (List.mem_append_left _ (List.mem_append_left _ hkey))
    exact ⟨hname.toIsName, hname.length_le⟩
  refine ⟨h.fits, ⟨front, lead ++ before, hfront, ?_, n, hn, hwalk.append hdown⟩, ?_, ?_⟩
  · rw [hlead, List.append_assoc]
  · intro key hkey
    apply h.entryNames key
    rw [List.append_assoc]
    exact List.mem_append_right _ hkey
  · intro xs hxs hne target
    rw [List.append_assoc]
    refine h.clear (before ++ xs) ?_ (List.append_ne_nil_of_right_ne_nil _ hne) target
    rw [List.append_assoc, List.prefix_append_right_inj]
    exact hxs

/-- The parent of a path that descends by two names at least descends to the
name before the last. -/
theorem parent {last : Bytes} (h : fs.Descends p b (above ++ [name]) last) :
    ∃ q, p.parent? = some q ∧ fs.Descends q b above name ∧ q.length < p.length := by
  obtain ⟨front, lead, hfront, hlead, n, hn, hwalk⟩ := h.words
  rw [← List.append_assoc] at hlead
  have hlast : last ≠ Path.dot :=
    (h.isName last (List.mem_append_right _ (List.mem_singleton_self last))).ne_dot
  obtain ⟨q, hq, habs, ⟨front', hfront', hlead'⟩, rest, hbytes⟩ :=
    Path.exists_parent?_eq_some hfront hlast hlead
  have hlength : q.length < p.length := by
    rw [Path.length, Path.length, hbytes, List.length_append, List.length_cons]
    omega
  have hfits : q.Fits :=
    h.fits.of_bytes_eq (Path.bytes_ne_nil_of_words (by rw [hfront']; simp)) hbytes
  refine ⟨q, hq, ⟨hfits, ⟨front', lead, hfront', hlead', n, hn, ?_⟩, ?_, ?_⟩, hlength⟩
  · rwa [start, habs]
  · exact fun key hkey => h.entryNames key (List.mem_append_left _ hkey)
  · exact h.clear.initial (List.prefix_append _ _)

end Descends

/-! ## Climbing down -/

namespace Descends

/-- Below a missing name there is nothing to make a directory in. -/
theorem makeDirectory_eq_noEntry {first : Bytes} {rest : List Bytes}
    (h : fs.Descends p b (first :: rest) name) (hs : fs.Searchable b)
    (hfree : fs.tree.look (b ++ [first]) = none) :
    fs.makeDirectory p = .error (.system .noEntry) := by
  obtain ⟨front, lead, hfront, hlead, n, hn, hwalk⟩ := h.words
  -- The path may say `.` between its names, so the first missing one is found by splitting it.
  obtain ⟨before, after, hsplit, hbefore⟩ :
      ∃ before after, front = before ++ first :: after ∧
        before.filter (· ≠ Path.dot) = lead := by
    obtain ⟨before, tail, rfl, hbefore, htail⟩ := List.filter_eq_append_iff.mp hlead
    obtain ⟨dots, after, rfl, hdots, -, -⟩ := List.filter_eq_cons_iff.mp htail
    refine ⟨before ++ dots, after, by rw [List.append_assoc], ?_⟩
    rw [List.filter_append, hbefore, List.filter_eq_nil_iff.mpr hdots, List.append_nil]
  have hwalk' := hwalk.pad hs (hbefore ▸ pads_filter before)
  have hfirst := h.entryNames first (by simp)
  have henters : fs.Enters b first :=
    ⟨hs, hfirst.ne_dot, hfirst.ne_dotdot, hfirst.length_le⟩
  have hleg : fs.leg true b (first :: after) =
      if after.isEmpty then .free b first else .failed .noEntry := leg_of_look_none henters hfree
  have hsteps : p.segments.filter (!·.isEmpty) = front ++ [name] := hfront
  -- The route stops at the missing name: as a free place if it is the last step, else in error.
  have hroute : fs.route true linkLimit (fs.start p) front = .ok (.free b first) ∨
      fs.route true linkLimit (fs.start p) front = .error .noEntry := by
    rw [hsplit, route_of_walk hwalk' hn (Or.inr rfl)]
    split at hleg
    · exact Or.inl (route_of_free hleg _)
    · exact Or.inr (route_of_failed hleg _)
  have hslot : fs.slot p = .error (.system .noEntry) := by
    unfold slot
    rw [checkName_eq_ok_iff.mpr h.fits.nul_notMem,
      checkLength_eq_ok_iff.mpr ⟨h.fits.ne_nil, h.fits.length_lt⟩]
    simp only [hsteps, List.getLast?_concat, List.dropLast_concat, bind, Except.bind,
      Except.mapError]
    rcases hroute with hroute | hroute
    · simp only [hroute]
    · simp only [hroute]
  rw [makeDirectory, hslot]
  rfl

end Descends

namespace Descends

theorem placed_of_base {mode : Mode} (h : fs.Descends p b [] name)
    (hbase : fs.tree.look b = some (.directory mode)) (hsearch : fs.permits .search mode)
    (hwrite : fs.permits .write mode) (hfree : fs.tree.look (b ++ [name]) = none) :
    fs.Placed p b name mode := by
  have hnames : fs.Names p (b ++ []) name := by
    apply h.names
    intro before hbefore
    rw [List.prefix_nil.mp hbefore, List.append_nil]
    exact ⟨mode, hbase, hsearch⟩
  rw [List.append_nil] at hnames
  exact ⟨hnames, hbase, hwrite, hfree⟩

/-- Once the path above it was made, in a free place, the last directory can
be made. -/
theorem placed_of_parent {made : FileSystem} {first key : Bytes} {rest : List Bytes}
    (h : fs.Descends p b (above ++ [key]) name) (hq : fs.Descends q b above key)
    (hnames : above ++ [key] = first :: rest) (hfree : fs.tree.look (b ++ [first]) = none)
    (hadds : Adds (Rung b (above ++ [key])) fs made) (hdir : made.isDirectory q) :
    ∃ mode, made.Placed p (b ++ (above ++ [key])) name mode := by
  have hp := h.mono hadds fun l face hrung => hrung.not_link
  obtain ⟨l, mode', es, hfind⟩ := isDirectory_iff.mp hdir
  obtain ⟨-, hleads, hat, -⟩ := find_true_eq_ok_iff.mp hfind
  obtain ⟨rfl, hsearch⟩ := (hq.mono hadds fun l face hrung => hrung.not_link).of_leads hleads
  rw [List.append_assoc] at hat
  have hlook : made.tree.look (b ++ (above ++ [key])) = some (.directory mode') :=
    Node.look_eq_directory_iff.mpr ⟨es, hat⟩
  -- The directory above was free, so it was made, and grants everything.
  have hfresh : ∀ right, made.permits right mode' := by
    intro right
    have hold : fs.tree.look (b ++ (above ++ [key])) = none := by
      rw [hnames]
      exact look_cons_eq_none hfree rest
    obtain ⟨-, -, -, -, mode, heq⟩ := hadds.added _ _ hold hlook
    rw [Face.directory.inj heq]
    exact permits_freshMode made right mode
  have hpnames : made.Names p (b ++ (above ++ [key])) name := by
    apply hp.names
    intro before hbefore
    rcases List.prefix_concat_iff.mp hbefore with rfl | hbefore
    · exact ⟨mode', hlook, hfresh .search⟩
    · exact hsearch before hbefore
  refine ⟨mode', hpnames, hlook, hfresh .write, ?_⟩
  -- The last directory was free and is no rung of the path above it.
  have hold : fs.tree.look (b ++ (above ++ [key]) ++ [name]) = none := by
    rw [hnames, List.append_assoc]
    exact look_cons_eq_none hfree (rest ++ [name])
  rw [Option.eq_none_iff_forall_ne_some]
  intro face hface
  obtain ⟨before, hbefore, -, heq, -⟩ := hadds.added _ _ hold hface
  rw [List.append_assoc] at heq
  have hlength := hbefore.length_le
  rw [← List.append_cancel_left heq] at hlength
  simp at hlength

/-- A path that descends from a directory that may be written, and that has no
entry for the first name, can be made with all above it. -/
theorem makeEach_ok {mode : Mode} (h : fs.Descends p b above name)
    (hbase : fs.tree.look b = some (.directory mode)) (hsearch : fs.permits .search mode)
    (hwrite : fs.permits .write mode) {first : Bytes} {rest : List Bytes}
    (hnames : above ++ [name] = first :: rest) (hfree : fs.tree.look (b ++ [first]) = none)
    (hfuel : p.length ≤ fuel) : ∃ fs', fs.makeEach (lineage fuel p) = (.ok (), fs') := by
  have hs : fs.Searchable b := ⟨mode, hbase, hsearch⟩
  have hempty : p.isEmpty = false := by simpa [Path.isEmpty] using h.fits.ne_nil
  -- The induction is from the outermost directory inwards: making the path above comes first.
  induction above using List.reverseRecOn generalizing p name fuel rest with
  | nil =>
      obtain ⟨ps, hps⟩ := exists_lineage_eq fuel p
      obtain ⟨rfl, -⟩ := List.cons.inj hnames
      have hmake := makeDirectory_of_placed (h.placed_of_base hbase hsearch hwrite hfree)
      refine ⟨fs.put (b ++ [name]) (.directory (freshMode mode) []), ?_⟩
      rw [hps, makeEach]
      simp only [hempty, Bool.false_eq_true, if_false, hmake]
  | append_singleton above key ih =>
      obtain ⟨q, hq, hdescends, hlt⟩ := h.parent
      obtain ⟨fuel', hlineage, hfuel'⟩ := lineage_of_parent hq hlt hfuel
      have hqEmpty : q.isEmpty = false := by simpa [Path.isEmpty] using hdescends.fits.ne_nil
      obtain ⟨rest', hrest⟩ : ∃ rest', above ++ [key] = first :: rest' := by
        cases above with
        | nil => exact ⟨[], by rw [List.nil_append, (List.cons.inj hnames).1]⟩
        | cons head above => exact ⟨above ++ [key], by rw [← (List.cons.inj hnames).1]; rfl⟩
      obtain ⟨made, heach⟩ := ih hdescends hrest hfuel' hqEmpty
      have hadds := (hdescends.heads.adds_makeEach (fun _ => begins_of_mem_lineage) heach).1
      have hdir : made.isDirectory q := by
        obtain ⟨ps, hps⟩ := exists_lineage_eq fuel' q
        rw [hps] at heach
        exact isDirectory_makeEach hdescends.fits.ne_nil heach
      obtain ⟨mode', hplaced⟩ := h.placed_of_parent hdescends hrest hfree hadds hdir
      have hmake := makeDirectory_of_placed hplaced
      -- At first the path cannot be made, as the one above it is missing.
      have hnoEntry : fs.makeDirectory p = .error (.system .noEntry) := by
        rw [hrest] at h
        exact h.makeDirectory_eq_noEntry hs hfree
      refine ⟨made.put (b ++ (above ++ [key]) ++ [name]) (.directory (freshMode mode') []), ?_⟩
      rw [hlineage, makeEach]
      simp only [hempty, Bool.false_eq_true, if_false, hnoEntry, if_true, heach, hmake]

/-- What making a path that descends does when it succeeds: missing rungs are
made, and the path leads to a directory. -/
theorem makeDirectories_spec (h : fs.Descends p b above name)
    (hok : fs.makeDirectories p = (.ok (), fs')) :
    Adds (Rung b (above ++ [name])) fs fs' ∧ (fs.tree.WellFormed → fs'.tree.WellFormed) ∧
      ∃ mode es, fs'.find true p = .ok (b ++ above ++ [name], .directory mode es) := by
  obtain ⟨hadds, hwell⟩ := h.heads.adds_makeDirectories hok
  obtain ⟨l, mode, es, hfind⟩ := isDirectory_iff.mp (isDirectory_makeDirectories h.fits.ne_nil hok)
  obtain ⟨-, hleads, -⟩ := find_true_eq_ok_iff.mp hfind
  obtain ⟨rfl, -⟩ := (h.mono hadds fun l face hrung => hrung.not_link).of_leads hleads
  exact ⟨hadds, hwell, mode, es, hfind⟩

end Descends

/-! ## The last rung with other permission bits -/

/-- What may be new where the directory at the end of the way down is given
permission bits of its own. -/
def Foundation (b : Location) (above : List Bytes) (name : Bytes) (l : Location) (face : Face) :
    Prop :=
  Rung b above l face ∨ (l = b ++ above ++ [name] ∧ ∃ mode, face = .directory mode)

theorem Foundation.not_link {face : Face} (h : Foundation b above name l face) (target : Path) :
    face ≠ .link target := by
  rcases h with hrung | ⟨-, mode, rfl⟩
  · exact hrung.not_link target
  · exact Face.noConfusion

theorem Foundation.not_below {key : Bytes} {face : Face} :
    ¬ Foundation b above name (b ++ above ++ [name] ++ [key]) face := by
  rintro (⟨before, hbefore, -, heq, -⟩ | ⟨heq, -⟩)
  · have hlength := hbefore.length_le
    have hlengths := congrArg List.length heq
    simp only [List.length_append, List.length_singleton] at hlengths
    omega
  · exact absurd (congrArg List.length heq) (by simp)

namespace Descends

theorem append_ne_above {before : List Bytes} (hbefore : before <+: above) :
    b ++ before ≠ b ++ above ++ [name] := by
  intro heq
  rw [List.append_assoc] at heq
  have hlength := hbefore.length_le
  rw [List.append_cancel_left heq, List.length_append, List.length_singleton] at hlength
  omega

/-- New permission bits for the directory at the end keep the way to it: the
walk passes above it only. -/
theorem setMode_spec {mode : Mode} {es : Entries} (h : fs.Descends p b above name)
    (hfree : fs.tree.look (b ++ above ++ [name]) = none)
    (hadds : Adds (Rung b (above ++ [name])) fs fs')
    (hfind : fs'.find true p = .ok (b ++ above ++ [name], .directory mode es)) (mode' : Mode) :
    let fs'' := fs'.put (b ++ above ++ [name]) ((Node.directory mode es).withMode mode')
    Adds (Foundation b above name) fs fs'' ∧
      (fs'.tree.WellFormed → fs''.tree.WellFormed) ∧ fs''.Leads p (b ++ above ++ [name]) ∧
      fs''.tree.look (b ++ above ++ [name]) = some (.directory mode') := by
  intro fs''
  obtain ⟨-, hleads, hat, -⟩ := find_true_eq_ok_iff.mp hfind
  have hlook : ∀ m, fs''.tree.look m =
      if m = b ++ above ++ [name] then some (.directory mode') else fs'.tree.look m :=
    fun m => Node.look_put_withMode hat mode' m
  have hself : fs''.tree.look (b ++ above ++ [name]) = some (.directory mode') := by
    rw [hlook, if_pos rfl]
  have hkeeps : Keeps fs fs'' := by
    refine ⟨hadds.root_eq, hadds.cwd_eq, hadds.superuser_eq, fun m face hm => ?_⟩
    have hne : m ≠ b ++ above ++ [name] := by
      rintro rfl
      rw [hfree] at hm
      cases hm
    rw [hlook, if_neg hne, hadds.look _ _ hm]
  -- What is new are the rungs, and the last of them has another mode.
  have hadds' : Adds (Foundation b above name) fs fs'' := by
    refine ⟨hkeeps, fun m face hnone hm => ?_⟩
    rw [hlook] at hm
    split at hm
    · rename_i heq
      exact Or.inr ⟨heq, mode', (Option.some.inj hm).symm⟩
    · rename_i hne
      obtain ⟨before, hbefore, hnil, heq, hmode⟩ := hadds.added m face hnone hm
      rcases List.prefix_concat_iff.mp hbefore with rfl | hbefore
      · exact absurd (heq.trans (List.append_assoc _ _ _).symm) hne
      · exact Or.inl ⟨before, hbefore, hnil, heq, hmode⟩
  have hthere := h.mono hadds' fun m face hnew => hnew.not_link
  have hmade := h.mono hadds fun m face hrung => hrung.not_link
  -- The walk searches the directories above the last one only, so its new mode does not matter.
  have hnames : fs''.Names p (b ++ above) name := by
    apply hthere.names
    intro before hbefore
    obtain ⟨mode, hdir, hpermits⟩ := (hmade.of_leads hleads).2 before hbefore
    exact ⟨mode, by rw [hlook, if_neg (append_ne_above hbefore), hdir], hpermits⟩
  refine ⟨hadds', fun hwell => ?_, hnames.leads hself fun target => Face.noConfusion, hself⟩
  refine hwell.put ((hwell.at? hat).withMode mode') (Node.hasPlace_of_at? (by rw [hat]; rfl))
    fun before last heq => ?_
  have hlast := List.singleton_inj.mp (List.append_inj' heq rfl).2
  exact hlast ▸ h.entryNames name (List.mem_append_right _ (List.mem_singleton_self name))

end Descends

theorem Leads.descends_child (h : fs.Leads p d) (hname : IsEntryName name)
    (hfree : fs.tree.look (d ++ [name]) = none) (hfits : (p.child name).Fits) :
    fs.Descends (p.child name) d [] name := by
  obtain ⟨n, hn, hwalk⟩ := h
  have hwords := Path.words_child p hname.toIsName
  refine ⟨hfits, ⟨p.words, p.turns, hwords, (List.append_nil _).symm, n, hn, ?_⟩, ?_, ?_⟩
  · rw [start, Path.isAbsolute_child p hname.toIsName]
    exact hwalk.unpad (pads_filter p.words)
  · exact fun key hkey => List.mem_singleton.mp hkey ▸ hname
  · exact clear_of_free hfree []

end FileSystem

end Confinement
