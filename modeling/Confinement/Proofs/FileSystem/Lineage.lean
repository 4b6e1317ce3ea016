import Confinement.Proofs.FileSystem.Making
import Confinement.Proofs.Path.Parent

/-!
# What is touched on the way to a path

Making a path with all above it may fail halfway, and then keeps what was made.
Whatever comes of it, only directories were made, and these stand where the
path goes on by names from a directory that was there (`Heads.adds_makeEach`).
Nothing changes at all unless one path of the lineage can be made at once
(`exists_makeDirectory_of_makeEach`).
-/

namespace Confinement

open Confinement.Path (IsName)
open Node (IsEntryName)

namespace FileSystem

variable {fs fs' : FileSystem} {p q : Path} {b d : Location} {names xs : List Bytes} {name : Bytes}
  {mode : Mode} {fuel : Nat} {ps : List Path} {result : Except IoError Unit}

/-! ## The paths that are made -/

theorem exists_lineage_eq (fuel : Nat) (p : Path) : ∃ ps, lineage fuel p = p :: ps := by
  cases fuel with
  | zero => exact ⟨[], rfl⟩
  | succ fuel =>
      rw [lineage]
      cases p.parent? with
      | none => exact ⟨[], rfl⟩
      | some q => exact ⟨_, rfl⟩

theorem lineage_of_parent (hq : p.parent? = some q) (hlt : q.length < p.length)
    (hfuel : p.length ≤ fuel) :
    ∃ fuel', lineage fuel p = p :: lineage fuel' q ∧ q.length ≤ fuel' := by
  obtain ⟨fuel, rfl⟩ : ∃ fuel', fuel = fuel' + 1 := ⟨fuel - 1, by omega⟩
  exact ⟨fuel, by rw [lineage, hq], by omega⟩

theorem exists_makeEach_eq (fs : FileSystem) (p : Path) :
    ∃ ps, fs.makeDirectories p = fs.makeEach (p :: ps) := by
  obtain ⟨ps, hps⟩ := exists_lineage_eq p.length p
  exact ⟨ps, by rw [makeDirectories, hps]⟩

theorem begins_of_mem_lineage (hq : q ∈ lineage fuel p) : q.Begins p := by
  induction fuel generalizing p with
  | zero =>
      rw [lineage, List.mem_singleton] at hq
      exact hq ▸ .refl p
  | succ fuel ih =>
      rw [lineage] at hq
      cases hparent : p.parent? with
      | none =>
          rw [hparent, List.mem_singleton] at hq
          exact hq ▸ .refl p
      | some above =>
          rw [hparent, List.mem_cons] at hq
          rcases hq with rfl | hq
          · exact .refl _
          · exact (ih hq).trans (Path.begins_of_parent? hparent)

/-- Nothing but directories is new. -/
def AddsDirectories : FileSystem → FileSystem → Prop :=
  Adds fun _ face => ∃ mode, face = .directory mode

theorem adds_makeDirectory (h : fs.makeDirectory p = .ok fs') : AddsDirectories fs fs' := by
  obtain ⟨d, name, mode, hplaced, rfl⟩ := makeDirectory_eq_ok h
  have hadds := adds_put (x := .directory (freshMode mode) [])
    (Node.hasPlace_concat hplaced.directory name) hplaced.free rfl
  exact hadds.mono fun l face hnew => ⟨_, hnew.2⟩

theorem isDirectory_makeDirectory (h : fs.makeDirectory p = .ok fs') : fs'.isDirectory p := by
  have hkeeps := (adds_makeDirectory h).toKeeps
  obtain ⟨d, name, mode, hplaced, rfl⟩ := makeDirectory_eq_ok h
  have hplace := Node.hasPlace_concat hplaced.directory name
  have hlook := look_put_self hplace (.directory (freshMode mode) [])
  obtain ⟨es, hat⟩ := Node.look_eq_directory_iff.mp hlook
  refine isDirectory_iff.mpr ⟨_, _, es, (hplaced.names.mono hkeeps).find_true hat ?_ ?_⟩
  · exact fun target => Node.noConfusion
  · exact fun _ => ⟨_, hlook, permits_freshMode _ _ _⟩

/-- A path that does not fit is refused for another reason than a missing
directory. -/
theorem fits_of_makeDirectory_eq_noEntry (hne : p.bytes ≠ [])
    (h : fs.makeDirectory p = .error (.system .noEntry)) : p.Fits := by
  have hempty : p.isEmpty = false := by simpa [Path.isEmpty] using hne
  by_contra hfits
  unfold makeDirectory slot at h
  by_cases hnul : 0 ∈ p.bytes
  · simp [checkName, hnul, bind, Except.bind] at h
  · have hlong : pathLimit ≤ p.length := Nat.le_of_not_lt fun hlt => hfits ⟨hne, hnul, hlt⟩
    simp [checkName, hnul, checkLength, hempty, hlong, bind, Except.bind, Except.mapError] at h
    cases h

/-- Where something above a path is missing, what is above comes first.  If that
went well, the path is tried once more. -/
theorem exists_makeEach_of_noEntry (hne : ¬ p.isEmpty)
    (hmake : fs.makeDirectory p = .error (.system .noEntry))
    (h : fs.makeEach (p :: ps) = (result, fs')) :
    ∃ above made, fs.makeEach ps = (above, made) ∧
      (made.makeDirectory p = .ok fs' ∨ (fs' = made ∧ (result = .ok () → made.isDirectory p))) := by
  rw [makeEach, if_neg hne] at h
  simp only [hmake, if_true] at h
  cases heach : fs.makeEach ps with
  | mk above made =>
      refine ⟨above, made, rfl, ?_⟩
      cases above with
      | error e =>
          simp only [heach] at h
          cases h
          exact Or.inr ⟨rfl, fun hok => by cases hok⟩
      | ok =>
          simp only [heach] at h
          cases hagain : made.makeDirectory p with
          | ok done =>
              simp only [hagain] at h
              exact Or.inl (congrArg Except.ok (Prod.mk.inj h).2)
          | error e =>
              simp only [hagain] at h
              split at h
              · rename_i hdir
                cases h
                exact Or.inr ⟨rfl, fun _ => hdir⟩
              · cases h
                exact Or.inr ⟨rfl, fun hok => by cases hok⟩

/-- How making a path with all above it ends, whatever the result: the path is
made at once, or nothing is, or those above it come first. -/
theorem makeEach_cons_cases (h : fs.makeEach (p :: ps) = (result, fs')) :
    fs.makeDirectory p = .ok fs' ∨
      (fs' = fs ∧ (result = .ok () → p.bytes ≠ [] → fs.isDirectory p)) ∨
      ∃ above made, p.Fits ∧ fs.makeEach ps = (above, made) ∧
        (made.makeDirectory p = .ok fs' ∨
          (fs' = made ∧ (result = .ok () → made.isDirectory p))) := by
  by_cases hempty : p.isEmpty
  · rw [makeEach, if_pos hempty] at h
    cases h
    exact Or.inr (Or.inl ⟨rfl, fun _ hne => absurd (List.isEmpty_iff.mp hempty) hne⟩)
  have hne : p.bytes ≠ [] := fun hnil => hempty (by simp [Path.isEmpty, hnil])
  -- Only the answer that something above is missing leads any further.
  by_cases hnoEntry : fs.makeDirectory p = .error (.system .noEntry)
  · obtain ⟨above, made, heach, hlast⟩ := exists_makeEach_of_noEntry hempty hnoEntry h
    exact Or.inr (Or.inr ⟨above, made, fits_of_makeDirectory_eq_noEntry hne hnoEntry, heach, hlast⟩)
  rw [makeEach, if_neg hempty] at h
  cases hmake : fs.makeDirectory p with
  | ok made =>
      simp only [hmake] at h
      exact Or.inl (congrArg Except.ok (Prod.mk.inj h).2)
  | error e =>
      have he : e ≠ .system .noEntry := by
        rintro rfl
        exact hnoEntry hmake
      simp only [hmake, if_neg he] at h
      split at h
      · rename_i hdir
        cases h
        exact Or.inr (Or.inl ⟨rfl, fun _ _ => hdir⟩)
      · cases h
        exact Or.inr (Or.inl ⟨rfl, fun hok => by cases hok⟩)

/-- Whatever comes of making paths. -/
theorem adds_makeEach (h : fs.makeEach ps = (result, fs')) : AddsDirectories fs fs' := by
  induction ps generalizing result fs' with
  | nil =>
      cases h
      exact .refl _ fs
  | cons p ps ih =>
      rcases makeEach_cons_cases h with hmake | ⟨rfl, -⟩ | ⟨above, made, -, heach, hlast⟩
      · exact adds_makeDirectory hmake
      · exact .refl _ _
      · rcases hlast with hmake | ⟨rfl, -⟩
        · exact (ih heach).trans (adds_makeDirectory hmake)
        · exact ih heach

theorem adds_makeDirectories (h : fs.makeDirectories p = (result, fs')) : AddsDirectories fs fs' :=
  adds_makeEach h

theorem isDirectory_makeEach (hne : p.bytes ≠ []) (h : fs.makeEach (p :: ps) = (.ok (), fs')) :
    fs'.isDirectory p := by
  rcases makeEach_cons_cases h with hmake | ⟨rfl, hdir⟩ | ⟨-, made, -, -, hmake | ⟨rfl, hdir⟩⟩
  · exact isDirectory_makeDirectory hmake
  · exact hdir rfl hne
  · exact isDirectory_makeDirectory hmake
  · exact hdir rfl

/-- Nothing changes unless one of the paths can be made as all is. -/
theorem exists_makeDirectory_of_makeEach (h : fs.makeEach ps = (result, fs')) (hne : fs' ≠ fs) :
    ∃ q ∈ ps, ∃ made, fs.makeDirectory q = .ok made := by
  induction ps generalizing result fs' with
  | nil => exact absurd (Prod.mk.inj h).2.symm hne
  | cons p ps ih =>
      rcases makeEach_cons_cases h with hmake | ⟨rfl, -⟩ | ⟨above, made, -, heach, hlast⟩
      · exact ⟨p, List.mem_cons_self, fs', hmake⟩
      · exact absurd rfl hne
      · by_cases hmade : made = fs
        · subst hmade
          rcases hlast with hmake | ⟨rfl, -⟩
          · exact ⟨p, List.mem_cons_self, fs', hmake⟩
          · exact absurd rfl hne
        · obtain ⟨q, hq, hmake⟩ := ih heach hmade
          exact ⟨q, List.mem_cons_of_mem _ hq, hmake⟩

theorem fits_of_makeEach (h : fs.makeEach (p :: ps) = (result, fs')) (hne : fs' ≠ fs) : p.Fits := by
  rcases makeEach_cons_cases h with hmake | ⟨rfl, -⟩ | ⟨-, -, hfits, -⟩
  · obtain ⟨d, name, mode, hplaced, -⟩ := makeDirectory_eq_ok hmake
    exact hplaced.names.fits
  · exact absurd rfl hne
  · exact hfits

theorem isDirectory_makeDirectories (hne : p.bytes ≠ [])
    (hok : fs.makeDirectories p = (.ok (), fs')) : fs'.isDirectory p := by
  obtain ⟨ps, hps⟩ := exists_makeEach_eq fs p
  exact isDirectory_makeEach hne (hps ▸ hok)

theorem fits_of_makeDirectories (hne : p.bytes ≠ [])
    (hok : fs.makeDirectories p = (.ok (), fs')) : p.Fits := by
  obtain ⟨l, mode, es, hfind⟩ := isDirectory_iff.mp (isDirectory_makeDirectories hne hok)
  exact (find_true_eq_ok_iff.mp hfind).1

/-! ## Ways without links -/

theorem Clear.initial {names : List Bytes} (h : fs.Clear b names) (hxs : xs <+: names) :
    fs.Clear b xs :=
  fun before hbefore hne target => h before (hbefore.trans hxs) hne target

/-- New nodes that are no links stand in no way. -/
theorem Clear.mono {new : Location → Face → Prop} (h : fs.Clear b names) (hadds : Adds new fs fs')
    (hnew : ∀ l face, new l face → ∀ target, face ≠ .link target) : fs'.Clear b names := by
  intro before hbefore hne target hlook
  cases hold : fs.tree.look (b ++ before) with
  | none => exact hnew _ _ (hadds.added _ _ hold hlook) target rfl
  | some face =>
      rw [hadds.look _ _ hold] at hlook
      exact h before hbefore hne target (hold.trans hlook)

theorem look_cons_eq_none {first : Bytes} (hfree : fs.tree.look (b ++ [first]) = none)
    (rest : List Bytes) : fs.tree.look (b ++ first :: rest) = none := by
  refine look_eq_none_below hfree ((List.prefix_append_right_inj b).mpr ?_)
  exact List.cons_prefix_cons.mpr ⟨rfl, List.nil_prefix⟩

theorem clear_of_free {first : Bytes} (hfree : fs.tree.look (b ++ [first]) = none)
    (rest : List Bytes) : fs.Clear b (first :: rest) := by
  intro before hbefore hne target
  rcases List.prefix_cons_iff.mp hbefore with rfl | ⟨more, rfl, -⟩
  · exact absurd rfl hne
  · rw [look_cons_eq_none hfree more]
    exact nofun

/-- What may be new on the way from `b` down the names. -/
def Rung (b : Location) (names : List Bytes) (l : Location) (face : Face) : Prop :=
  ∃ before, before <+: names ∧ before ≠ [] ∧ l = b ++ before ∧
    ∃ mode, face = .directory (freshMode mode)

theorem Rung.not_link {names : List Bytes} {face : Face} (h : Rung b names l face)
    (target : Path) : face ≠ .link target := by
  obtain ⟨-, -, -, -, mode, rfl⟩ := h
  exact Face.noConfusion

/-! ## Where they go on by names -/

/-- A path is walked to `b` and goes on by names, in whose way no link
stands. -/
structure Heads (fs : FileSystem) (p : Path) (b : Location) (names : List Bytes) : Prop where
  lead : ∃ lead, p.turns = lead ++ names ∧ ∃ n, fs.Walk n (fs.start p) lead b
  isName : ∀ key ∈ names, IsName key
  clear : fs.Clear b names

theorem Placed.isEntryName (h : fs.Placed p d name mode) : IsEntryName name := by
  obtain ⟨hfits, ⟨xs, hxs, -⟩, henters⟩ := h.names
  have hword : name ∈ p.words := by
    rw [hxs]
    exact List.mem_append_right _ (List.mem_singleton_self name)
  have hsegment : name ∈ p.segments := (List.mem_filter.mp hword).1
  refine ⟨⟨Path.ne_nil_of_mem_words hword, henters.ne_dot, henters.ne_dotdot,
    Path.slash_notMem_of_mem_segments hsegment⟩, fun hnul => ?_, henters.length_le⟩
  exact hfits.nul_notMem (Path.mem_of_mem_segments hsegment hnul)

/-- The turns of a path that can be made, and where those before the last
lead. -/
theorem Placed.exists_turns (h : fs.Placed p d name mode) :
    ∃ front, p.turns = front ++ [name] ∧ ∃ n ≤ linkLimit, fs.Walk n (fs.start p) front d := by
  obtain ⟨-, ⟨xs, hxs, n, hn, hwalk⟩, henters⟩ := h.names
  refine ⟨xs.filter (· ≠ Path.dot), ?_, n, hn, hwalk.unpad (pads_filter xs)⟩
  rw [Path.turns_eq, hxs, List.filter_append]
  simp [henters.ne_dot]

/-- A path is not made on the way to a place that is there. -/
theorem Placed.not_turns_prefix {lead : List Bytes} {n : Nat} (h : fs.Placed q d name mode)
    (hwalk : fs.Walk n (fs.start q) lead b) : ¬ q.turns <+: lead := by
  rintro ⟨rest, hlead⟩
  obtain ⟨front, hturns, m, -, hfront⟩ := h.exists_turns
  rw [hturns, List.append_assoc] at hlead
  rw [← hlead] at hwalk
  obtain ⟨n₁, n₂, x, -, hleft, hright⟩ := hwalk.split
  obtain ⟨-, rfl⟩ := hleft.unique hfront
  have hthere := (hright.enters h.isEntryName.toIsName).2
  rw [h.free] at hthere
  cases hthere

/-- What can be made on the way to a path stands beyond what there is of the
way. -/
theorem Placed.exists_beyond {lead : List Bytes} {m : Nat} (h : fs.Placed q d name mode)
    (hq : q.turns <+: lead ++ names) (hwalk : fs.Walk m (fs.start q) lead b) :
    ∃ before n, q.turns = lead ++ before ++ [name] ∧ before ++ [name] <+: names ∧
      m + n ≤ linkLimit ∧ fs.Walk n b before d := by
  rcases List.prefix_or_prefix_of_prefix hq (List.prefix_append lead names) with hwithin | hbeyond
  · exact absurd hwithin (h.not_turns_prefix hwalk)
  · obtain ⟨front, hturns, n, hn, hfront⟩ := h.exists_turns
    obtain ⟨beyond, hbeyond⟩ := hbeyond
    rcases List.eq_nil_or_concat' beyond with rfl | ⟨before, last, rfl⟩
    · rw [List.append_nil] at hbeyond
      exact absurd (hbeyond ▸ List.prefix_refl lead) (h.not_turns_prefix hwalk)
    · rw [← hbeyond, List.prefix_append_right_inj] at hq
      rw [← List.append_assoc] at hbeyond
      rw [← hbeyond] at hturns
      obtain ⟨rfl, hlast⟩ := List.append_inj' hturns rfl
      obtain rfl := List.singleton_inj.mp hlast
      obtain ⟨n₁, n₂, x, rfl, hleft, hright⟩ := hfront.split
      obtain ⟨rfl, rfl⟩ := hleft.unique hwalk
      exact ⟨before, n₂, hbeyond.symm, hq, hn, hright⟩

/-- A path that what can be made lies beyond is one of a directory. -/
theorem Placed.isDirectory_above {rest : List Bytes} (h : fs.Placed q d name mode) (hp : p.Fits)
    (hsame : q.isAbsolute = p.isAbsolute) (hturns : q.turns = p.turns ++ rest ++ [name]) :
    fs.isDirectory p := by
  obtain ⟨front, hfront, n, hn, hwalk⟩ := h.exists_turns
  obtain rfl := List.append_cancel_right (hturns.symm.trans hfront)
  obtain ⟨n₁, n₂, x, rfl, hleft, hright⟩ := hwalk.split
  have hx := hright.searchable h.names.enters.searchable
  obtain ⟨mode', hmode, -⟩ := id hx
  refine isDirectory_of_leads hp ⟨n₁, Nat.le_trans (Nat.le_add_right _ _) hn, ?_⟩ hmode fun _ => hx
  rw [start, ← hsame]
  exact hleft.pad hx (pads_filter p.words)

namespace Heads

theorem mono {new : Location → Face → Prop} (h : fs.Heads p b names) (hadds : Adds new fs fs')
    (hnew : ∀ l face, new l face → ∀ target, face ≠ .link target) : fs'.Heads p b names := by
  obtain ⟨lead, hlead, n, hwalk⟩ := h.lead
  refine ⟨⟨lead, hlead, n, ?_⟩, h.isName, h.clear.mono hadds hnew⟩
  rw [hadds.start_eq]
  exact hwalk.mono hadds.toKeeps

/-- What can be made on the way of the path is one of the names. -/
theorem exists_of_placed (h : fs.Heads p b names) (hq : q.Begins p)
    (hplaced : fs.Placed q d name mode) :
    ∃ before, d = b ++ before ∧ before ++ [name] <+: names := by
  obtain ⟨lead, hlead, n, hwalk⟩ := h.lead
  have hstart : fs.start q = fs.start p := by rw [start, start, hq.isAbsolute_eq]
  obtain ⟨before, m, -, hbefore, -, hdown⟩ :=
    hplaced.exists_beyond (hlead ▸ hq.turns_prefix) (hstart ▸ hwalk)
  have hnames : before <+: names := (List.prefix_append before [name]).trans hbefore
  obtain ⟨-, hd, -⟩ :=
    hdown.straight (fun key hkey => h.isName key (hnames.subset hkey)) (h.clear.initial hnames)
  exact ⟨before, hd, hbefore⟩

theorem adds_makeDirectory (h : fs.Heads p b names) (hq : q.Begins p)
    (hmake : fs.makeDirectory q = .ok fs') :
    Adds (Rung b names) fs fs' ∧ (fs.tree.WellFormed → fs'.tree.WellFormed) := by
  obtain ⟨d, name, mode, hplaced, rfl⟩ := makeDirectory_eq_ok hmake
  obtain ⟨before, rfl, hbefore⟩ := h.exists_of_placed hq hplaced
  have hfills := fills_makeDirectory hplaced hplaced.isEntryName
  refine ⟨hfills.adds.mono fun l face hnew => ?_, hfills.wellFormed⟩
  exact ⟨before ++ [name], hbefore, by simp, by rw [hnew.1, List.append_assoc], mode, hnew.2⟩

/-- Whatever comes of making paths that begin this one, nothing but
directories on its way is new. -/
theorem adds_makeEach (h : fs.Heads p b names) (hps : ∀ q ∈ ps, q.Begins p)
    (hmake : fs.makeEach ps = (result, fs')) :
    Adds (Rung b names) fs fs' ∧ (fs.tree.WellFormed → fs'.tree.WellFormed) := by
  induction ps generalizing result fs' with
  | nil =>
      cases hmake
      exact ⟨.refl _ _, id⟩
  | cons q ps ih =>
      have hq := hps q List.mem_cons_self
      rcases makeEach_cons_cases hmake with hmake | ⟨rfl, -⟩ | ⟨above, made, -, heach, hlast⟩
      · exact h.adds_makeDirectory hq hmake
      · exact ⟨.refl _ _, id⟩
      · obtain ⟨hadds, hwell⟩ := ih (fun q hq => hps q (List.mem_cons_of_mem _ hq)) heach
        rcases hlast with hlast | ⟨rfl, -⟩
        · have hthere := h.mono hadds fun l face hrung => hrung.not_link
          obtain ⟨hadds', hwell'⟩ := hthere.adds_makeDirectory hq hlast
          exact ⟨hadds.trans hadds', hwell' ∘ hwell⟩
        · exact ⟨hadds, hwell⟩

theorem adds_makeDirectories (h : fs.Heads p b names)
    (hmake : fs.makeDirectories p = (result, fs')) :
    Adds (Rung b names) fs fs' ∧ (fs.tree.WellFormed → fs'.tree.WellFormed) :=
  h.adds_makeEach (fun _ => begins_of_mem_lineage) hmake

end Heads

theorem Leads.heads_child (h : fs.Leads p d) (hname : IsName name)
    (hfree : fs.tree.look (d ++ [name]) = none) : fs.Heads (p.child name) d [name] := by
  obtain ⟨n, -, hwalk⟩ := h
  refine ⟨⟨p.turns, Path.turns_child p hname, n, ?_⟩, ?_, clear_of_free hfree []⟩
  · rw [start, Path.isAbsolute_child p hname]
    exact hwalk.unpad (pads_filter p.words)
  · exact fun key hkey => List.mem_singleton.mp hkey ▸ hname

end FileSystem

end Confinement
