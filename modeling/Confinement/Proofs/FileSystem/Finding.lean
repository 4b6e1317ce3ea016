import Confinement.Proofs.FileSystem.Growth
import Confinement.Proofs.Outcome

/-!
# What a path leads to

A path that fits, which is neither empty nor too long and has no NUL byte,
leads where its words are walked to.  `fs.Leads p l` is that walk, and finding
a node is a walk to it (`find_true_eq_ok_iff`).

`fs.Names p d name` cuts off the last step: `p` is read as the entry `name` of
the directory `d`, whether or not there is such an entry.  This is what makes
and finds nodes (`Names.find_false`).
-/

namespace Confinement

open Confinement.Path (IsName)

/-- A path that can be handed to the system. -/
structure Path.Fits (p : Path) : Prop where
  ne_nil : p.bytes ≠ []
  nul_notMem : 0 ∉ p.bytes
  length_lt : p.length < FileSystem.pathLimit

theorem Path.Fits.of_bytes_eq {p q : Path} {rest : Bytes} (h : p.Fits) (hq : q.bytes ≠ [])
    (hbytes : p.bytes = q.bytes ++ rest) : q.Fits := by
  refine ⟨hq, fun hmem => h.nul_notMem ?_, ?_⟩
  · rw [hbytes]
    exact List.mem_append_left _ hmem
  · have hlength := h.length_lt
    rw [Path.length, hbytes, List.length_append] at hlength
    exact Nat.lt_of_le_of_lt (Nat.le_add_right _ _) hlength

/-- A path with turns fits if these have no NUL and it is short enough. -/
theorem Path.fits_of_turns {p : Path} (hne : p.turns ≠ []) (hnul : ∀ turn ∈ p.turns, 0 ∉ turn)
    (hlength : p.length < FileSystem.pathLimit) : p.Fits := by
  refine ⟨Path.bytes_ne_nil_of_words fun hnil =>
    hne (by rw [Path.turns_eq, hnil]; rfl), ?_, hlength⟩
  intro hmem
  rcases Path.exists_of_mem_bytes hmem with hslash | ⟨word, hword, hin⟩
  · cases hslash
  · by_cases hdot : word = Path.dot
    · rw [hdot] at hin
      exact absurd hin (by decide)
    · exact hnul word (List.mem_filter.mpr ⟨hword, by simpa using hdot⟩) hin

theorem Path.Fits.nul_notMem_turns {p : Path} {turn : Bytes} (h : p.Fits) (hturn : turn ∈ p.turns) :
    0 ∉ turn := by
  intro hnul
  have hword := (List.mem_filter.mp hturn).1
  exact h.nul_notMem (Path.mem_of_mem_segments (List.mem_filter.mp hword).1 hnul)

/-- The names of a path that fits can name entries, unless one is too long. -/
theorem Path.Fits.isEntryName {p : Path} {name : Bytes} (h : p.Fits) (hname : name ∈ p.names)
    (hlength : name.length ≤ FileSystem.nameLimit) : Node.IsEntryName name := by
  refine ⟨Path.isName_of_mem_names hname, fun hnul => h.nul_notMem ?_, hlength⟩
  exact Path.mem_of_mem_segments (List.mem_filter.mp (Path.mem_words_of_mem_names hname)).1 hnul

namespace FileSystem

variable {fs fs' : FileSystem} {p q : Path} {follow : Bool} {n : Nat} {here l d : Location}
  {name : Bytes} {xs ys : List Bytes} {mode : Mode} {node : Node} {face : Face} {es : Entries}

/-- The words of a path lead to a location. -/
def Leads (fs : FileSystem) (p : Path) (l : Location) : Prop :=
  ∃ n ≤ linkLimit, fs.Walk n (fs.start p) p.words l

theorem stepsOf_eq (p : Path) :
    stepsOf p = p.words ++ if p.endsWithSlash then [Path.dot] else [] := rfl

theorem checkName_eq_ok_iff : checkName p = .ok () ↔ 0 ∉ p.bytes := by
  unfold checkName
  split
  · rename_i h
    simp at h
    simp [h]
  · rename_i h
    simp at h
    simp [h]

theorem checkLength_eq_ok_iff : checkLength p = .ok () ↔ p.bytes ≠ [] ∧ p.length < pathLimit := by
  unfold checkLength Path.isEmpty
  split
  · rename_i h
    simp [List.isEmpty_iff.mp h]
  · rename_i h
    split
    · rename_i hlong
      simp [Nat.not_lt.mpr hlong]
    · rename_i hshort
      exact iff_of_true rfl ⟨by simpa using h, Nat.lt_of_not_le hshort⟩

theorem resolve_eq_route (hfits : p.Fits) :
    fs.resolve follow p = fs.route follow linkLimit (fs.start p) (stepsOf p) := by
  rw [resolve, checkLength_eq_ok_iff.mpr ⟨hfits.ne_nil, hfits.length_lt⟩]
  rfl

theorem find_eq_ok_iff : fs.find follow p = .ok (l, node) ↔
    p.Fits ∧ fs.route follow linkLimit (fs.start p) (stepsOf p) = .ok (.taken l node) := by
  constructor
  · intro h
    unfold find at h
    obtain ⟨_, hname, h⟩ := bind_eq_ok.mp h
    cases hresolve : fs.resolve follow p with
    | error e =>
        rw [hresolve] at h
        cases h
    | ok spot =>
        rw [hresolve] at h
        obtain ⟨_, hlength, hroute⟩ := bind_eq_ok.mp hresolve
        obtain ⟨hne, hlt⟩ := checkLength_eq_ok_iff.mp hlength
        cases spot <;> cases h
        exact ⟨⟨hne, checkName_eq_ok_iff.mp hname, hlt⟩, hroute⟩
  · rintro ⟨hfits, hroute⟩
    unfold find
    rw [checkName_eq_ok_iff.mpr hfits.nul_notMem, resolve_eq_route hfits, hroute]
    rfl

/-- A node is found where the words of its path lead; a slash at the end needs
a directory that may be searched. -/
theorem find_true_eq_ok_iff : fs.find true p = .ok (l, node) ↔
    p.Fits ∧ fs.Leads p l ∧ fs.tree.at? l = some node ∧ (p.endsWithSlash → fs.Searchable l) := by
  constructor
  · intro hfind
    obtain ⟨hfits, hroute⟩ := find_eq_ok_iff.mp hfind
    obtain ⟨n, hn, hwalk, hat⟩ := exists_walk_of_route hroute
    rw [stepsOf_eq] at hwalk
    obtain ⟨n₁, n₂, d, rfl, hleft, hright⟩ := hwalk.split
    have hn₁ : n₁ ≤ linkLimit := Nat.le_trans (Nat.le_add_right n₁ n₂) hn
    -- A slash at the end is one more step, which stays where it is and only asks.
    split at hright
    · cases hright with
      | stay searchable tail =>
          cases tail
          exact ⟨hfits, ⟨n₁, hn₁, hleft⟩, hat, fun _ => searchable⟩
      | down enters | follow enters => exact absurd rfl enters.ne_dot
    · rename_i hslash
      cases hright
      exact ⟨hfits, ⟨n₁, hn₁, hleft⟩, hat, fun h => absurd h hslash⟩
  · rintro ⟨hfits, ⟨n, hn, hwalk⟩, hat, hslash⟩
    have hstop : ∀ b, fs.route true b l [] = .ok (.taken l node) :=
      route_of_arrived leg_nil hat
    -- What the words lead to has the last step left, if there is one.
    have hend : ∀ b, fs.route true b l (if p.endsWithSlash then [Path.dot] else []) =
        .ok (.taken l node) := by
      intro b
      split
      · rename_i h
        rw [route_congr (leg_of_dot (hslash h))]
        exact hstop b
      · exact hstop b
    refine find_eq_ok_iff.mpr ⟨hfits, ?_⟩
    rw [stepsOf_eq, route_of_walk hwalk hn (Or.inr rfl), hend]

/-- A path that does not fit is refused unread. -/
theorem exists_find_eq_error (hfits : ¬ p.Fits) :
    ∃ e, ∀ (fs : FileSystem) (follow : Bool), fs.find follow p = .error e := by
  cases hname : checkName p with
  | error e =>
      refine ⟨e, fun fs follow => ?_⟩
      rw [find, hname]
      rfl
  | ok =>
      cases hlength : checkLength p with
      | error e =>
          refine ⟨.system e, fun fs follow => ?_⟩
          rw [find, hname, resolve, hlength]
          rfl
      | ok =>
          obtain ⟨hne, hlt⟩ := checkLength_eq_ok_iff.mp hlength
          exact absurd ⟨hne, checkName_eq_ok_iff.mp hname, hlt⟩ hfits

/-- A path that is no link is found whether or not links are followed. -/
theorem find_false_eq_or (fs : FileSystem) (p : Path) :
    fs.find false p = fs.find true p ∨ ∃ l target, fs.find false p = .ok (l, .link target) := by
  by_cases hfits : p.Fits
  · rcases fs.route_false_eq_or linkLimit (fs.start p) (stepsOf p) with hroute | ⟨l, target, hroute⟩
    · apply Or.inl
      rw [find, find, resolve_eq_route hfits, resolve_eq_route hfits, hroute]
    · exact Or.inr ⟨l, target, find_eq_ok_iff.mpr ⟨hfits, hroute⟩⟩
  · obtain ⟨e, he⟩ := exists_find_eq_error hfits
    exact Or.inl (by rw [he, he])

theorem stat_eq_ok_iff : fs.stat p = .ok node ↔ ∃ l, fs.find true p = .ok (l, node) := by
  unfold stat
  rw [map_eq_ok]
  simp [Prod.exists]

theorem lstat_eq_ok_iff : fs.lstat p = .ok node ↔ ∃ l, fs.find false p = .ok (l, node) := by
  unfold lstat
  rw [map_eq_ok]
  simp [Prod.exists]

/-- The location a path leads to. -/
def locate (fs : FileSystem) (p : Path) : Except IoError Location := (fs.find true p).map Prod.fst

theorem locate_eq_ok_iff : fs.locate p = .ok l ↔ ∃ node, fs.find true p = .ok (l, node) := by
  unfold locate
  rw [map_eq_ok]
  simp [Prod.exists]

theorem isDirectory_iff :
    fs.isDirectory p ↔ ∃ l mode es, fs.find true p = .ok (l, .directory mode es) := by
  unfold isDirectory stat
  cases fs.find true p with
  | error e => simp [Except.map]
  | ok found =>
      obtain ⟨l, node⟩ := found
      cases node <;> simp [Except.map, Node.isDirectory]

theorem isFile_iff :
    fs.isFile p ↔ ∃ l mode content, fs.find true p = .ok (l, .file mode content) := by
  unfold isFile stat
  cases fs.find true p with
  | error e => simp [Except.map]
  | ok found =>
      obtain ⟨l, node⟩ := found
      cases node <;> simp [Except.map, Node.isFile]

theorem isDirectory_of_leads (hfits : p.Fits) (hleads : fs.Leads p l)
    (hlook : fs.tree.look l = some (.directory mode)) (hslash : p.endsWithSlash → fs.Searchable l) :
    fs.isDirectory p := by
  obtain ⟨es, hat⟩ := Node.look_eq_directory_iff.mp hlook
  exact isDirectory_iff.mpr ⟨l, mode, es, find_true_eq_ok_iff.mpr ⟨hfits, hleads, hat, hslash⟩⟩

theorem lstat_eq_ok_of_find (hfind : fs.find true p = .ok (l, node))
    (hplain : ∀ target, fs.lstat p ≠ .ok (.link target)) : fs.lstat p = .ok node := by
  rcases fs.find_false_eq_or p with hsame | ⟨x, target, hlink⟩
  · exact lstat_eq_ok_iff.mpr ⟨l, hsame.trans hfind⟩
  · exact absurd (lstat_eq_ok_iff.mpr ⟨x, hlink⟩) (hplain target)

theorem exists_find_of_lstat (hstat : fs.lstat p = .ok node)
    (hplain : ∀ target, node ≠ .link target) : ∃ l, fs.find true p = .ok (l, node) := by
  obtain ⟨l, hfind⟩ := lstat_eq_ok_iff.mp hstat
  rcases fs.find_false_eq_or p with hsame | ⟨x, target, hlink⟩
  · exact ⟨l, hsame.symm.trans hfind⟩
  · rw [hfind] at hlink
    obtain ⟨-, rfl⟩ := Prod.mk.inj (Except.ok.inj hlink)
    exact absurd rfl (hplain target)

theorem list_eq_ok_iff : fs.list p = .ok es ↔
    ∃ l mode, fs.find true p = .ok (l, .directory mode es) ∧ fs.permits .read mode := by
  unfold list
  rw [bind_eq_ok]
  constructor
  · rintro ⟨node, hstat, h⟩
    obtain ⟨l, hfind⟩ := stat_eq_ok_iff.mp hstat
    cases node with
    | directory mode entries =>
        simp only at h
        split at h
        · rename_i hread
          cases h
          exact ⟨l, mode, hfind, hread⟩
        · cases h
    | file | link | pipe => cases h
  · rintro ⟨l, mode, hfind, hread⟩
    refine ⟨.directory mode es, stat_eq_ok_iff.mpr ⟨l, hfind⟩, ?_⟩
    simp only [hread, if_true]

theorem readBytes_eq_ok_iff : (∃ content, fs.readBytes p = .ok content) ↔
    ∃ l node, fs.find true p = .ok (l, node) ∧ fs.permits .read node.mode ∧ ¬ node.isDirectory := by
  unfold readBytes
  simp only [bind_eq_ok]
  constructor
  · rintro ⟨content, node, hstat, h⟩
    obtain ⟨l, hfind⟩ := stat_eq_ok_iff.mp hstat
    by_cases hread : fs.permits .read node.mode
    · refine ⟨l, node, hfind, hread, fun hdir => ?_⟩
      cases node <;> simp [Node.isDirectory, hread] at h hdir
    · simp [hread] at h
  · rintro ⟨l, node, hfind, hread, hdir⟩
    cases node with
    | file mode content =>
        exact ⟨content, _, stat_eq_ok_iff.mpr ⟨l, hfind⟩, by simp [hread]⟩
    | link | pipe => exact ⟨[], _, stat_eq_ok_iff.mpr ⟨l, hfind⟩, by simp [hread]⟩
    | directory => exact absurd rfl hdir

theorem readLink_eq_ok_iff {target : Path} :
    fs.readLink p = .ok target ↔ ∃ l, fs.find false p = .ok (l, .link target) := by
  unfold readLink
  rw [bind_eq_ok]
  constructor
  · rintro ⟨node, hstat, h⟩
    obtain ⟨l, hfind⟩ := lstat_eq_ok_iff.mp hstat
    cases node <;> cases h
    exact ⟨l, hfind⟩
  · rintro ⟨l, hfind⟩
    exact ⟨.link target, lstat_eq_ok_iff.mpr ⟨l, hfind⟩, rfl⟩

theorem at?_of_route {b : Nat} (h : fs.route follow b here xs = .ok (.taken l node)) :
    fs.tree.at? l = some node := by
  -- Only a leg that turns at a link leads to another route, with less of the budget.
  induction b using Nat.strongRecOn generalizing here xs with
  | ind b ih =>
      unfold route at h
      cases hleg : fs.leg follow here xs with
      | arrived location =>
          cases hat : fs.tree.at? location with
          | none => simp [hleg, hat] at h
          | some found =>
              simp only [hleg, hat] at h
              cases h
              exact hat
      | free | failed => simp [hleg] at h
      | turned directory target rest =>
          cases b with
          | zero => simp [hleg] at h
          | succ b =>
              simp only [hleg] at h
              split at h
              · cases h
              · exact ih b (Nat.lt_succ_self b) h

theorem at?_of_find (h : fs.find follow p = .ok (l, node)) : fs.tree.at? l = some node :=
  at?_of_route (find_eq_ok_iff.mp h).2

/-- What is found stays where it is while nothing that shows is changed. -/
theorem Keeps.find (h : Keeps fs fs') (hfind : fs.find follow p = .ok (l, node)) :
    ∃ node', fs'.find follow p = .ok (l, node') ∧ node'.face = node.face := by
  obtain ⟨hfits, hroute⟩ := find_eq_ok_iff.mp hfind
  obtain ⟨node', hroute', hface⟩ := h.route hroute
  rw [← h.start_eq] at hroute'
  exact ⟨node', find_eq_ok_iff.mpr ⟨hfits, hroute'⟩, hface⟩

theorem Keeps.eq_of_find {found : Node} {x : Location} (h : Keeps fs fs')
    (hfind : fs.find follow p = .ok (l, node)) (hfind' : fs'.find follow p = .ok (x, found)) :
    x = l := by
  obtain ⟨kept, hkept, -⟩ := h.find hfind
  rw [hfind'] at hkept
  exact (Prod.mk.inj (Except.ok.inj hkept)).1

/-- A path that names a directory goes on naming one with the same permission
bits. -/
theorem Keeps.lstat_directory (h : Keeps fs fs') (hstat : fs.lstat p = .ok (.directory mode es)) :
    ∃ es', fs'.lstat p = .ok (.directory mode es') := by
  obtain ⟨l, hfind⟩ := lstat_eq_ok_iff.mp hstat
  obtain ⟨node, hfind', hface⟩ := h.find hfind
  cases node with
  | directory mode' es' =>
      rw [Face.directory.inj hface] at hfind'
      exact ⟨es', lstat_eq_ok_iff.mpr ⟨l, hfind'⟩⟩
  | file | link | pipe => cases hface

theorem Leads.mono (hleads : fs.Leads p l) (h : Keeps fs fs') : fs'.Leads p l := by
  obtain ⟨n, hn, hwalk⟩ := hleads
  exact ⟨n, hn, by rw [h.start_eq]; exact hwalk.mono h⟩

theorem Leads.unique (h : fs.Leads p l) (h' : fs.Leads p d) : l = d := by
  obtain ⟨n, -, hwalk⟩ := h
  obtain ⟨m, -, hwalk'⟩ := h'
  exact (hwalk.unique hwalk').2

/-- Paths with the same components lead to one place, over as many links. -/
theorem Walk.unique_of_same {m : Nat} (hsame : p.Same q) (h : fs.Walk n (fs.start p) p.words l)
    (h' : fs.Walk m (fs.start q) q.words d) : n = m ∧ l = d := by
  have hturns := h.unpad (pads_filter p.words)
  rw [start, hsame.isAbsolute_eq, ← start, ← Path.turns_eq, hsame.turns_eq] at hturns
  exact hturns.unique (h'.unpad (pads_filter q.words))

/-- The names of a path that was found can name entries. -/
theorem isEntryName_of_mem_names (hfind : fs.find true p = .ok (l, node)) (hname : name ∈ p.names) :
    Node.IsEntryName name := by
  obtain ⟨hfits, ⟨n, -, hwalk⟩, -⟩ := find_true_eq_ok_iff.mp hfind
  exact hfits.isEntryName hname (hwalk.length_le (Path.mem_words_of_mem_names hname))

/-! ## The entry a path names -/

/-- A path names the entry `name`, present or not, of the directory `d`. -/
structure Names (fs : FileSystem) (p : Path) (d : Location) (name : Bytes) : Prop where
  fits : p.Fits
  words : ∃ xs, p.words = xs ++ [name] ∧ ∃ n ≤ linkLimit, fs.Walk n (fs.start p) xs d
  enters : fs.Enters d name

namespace Names

theorem mono (hp : fs.Names p d name) (h : Keeps fs fs') : fs'.Names p d name := by
  obtain ⟨hfits, ⟨xs, hxs, n, hn, hwalk⟩, henters⟩ := hp
  exact ⟨hfits, ⟨xs, hxs, n, hn, by rw [h.start_eq]; exact hwalk.mono h⟩, h.enters henters⟩

theorem leads (h : fs.Names p d name) (hlook : fs.tree.look (d ++ [name]) = some face)
    (hface : ∀ target, face ≠ .link target) : fs.Leads p (d ++ [name]) := by
  obtain ⟨-, ⟨xs, hxs, n, hn, hwalk⟩, henters⟩ := h
  refine ⟨n, hn, ?_⟩
  rw [hxs]
  exact hwalk.append (.down henters hlook hface (.done _))

theorem find_true (h : fs.Names p d name) (hat : fs.tree.at? (d ++ [name]) = some node)
    (hnode : ∀ target, node ≠ .link target)
    (hslash : p.endsWithSlash → fs.Searchable (d ++ [name])) :
    fs.find true p = .ok (d ++ [name], node) := by
  have hlook : fs.tree.look (d ++ [name]) = some node.face := by rw [Node.look, hat]; rfl
  have hface : ∀ target, node.face ≠ .link target := by
    intro target heq
    cases node <;> simp [Node.face] at heq
    exact hnode _ rfl
  exact find_true_eq_ok_iff.mpr ⟨h.fits, h.leads hlook hface, hat, hslash⟩

theorem steps_eq (h : fs.Names p d name) (hslash : p.endsWithSlash = false) :
    ∃ n ≤ linkLimit, ∀ follow, fs.route follow linkLimit (fs.start p) (stepsOf p) =
      fs.route follow (linkLimit - n) d [name] := by
  obtain ⟨-, ⟨xs, hxs, n, hn, hwalk⟩, -⟩ := h
  refine ⟨n, hn, fun follow => ?_⟩
  rw [stepsOf_eq, hslash, hxs]
  simp only [Bool.false_eq_true, if_false, List.append_nil]
  exact route_of_walk hwalk hn (Or.inl (List.cons_ne_nil _ _))

theorem find_false (h : fs.Names p d name) (hslash : p.endsWithSlash = false)
    (hat : fs.tree.at? (d ++ [name]) = some node) : fs.find false p = .ok (d ++ [name], node) := by
  obtain ⟨n, -, hroute⟩ := h.steps_eq hslash
  refine find_eq_ok_iff.mpr ⟨h.fits, ?_⟩
  have hleg := leg_of_look_last h.enters (by rw [Node.look, hat]; rfl)
  rw [hroute, route_of_arrived hleg hat]

theorem resolve_free (h : fs.Names p d name) (hslash : p.endsWithSlash = false)
    (hnone : fs.tree.look (d ++ [name]) = none) : fs.resolve true p = .ok (.free d name) := by
  obtain ⟨n, -, hroute⟩ := h.steps_eq hslash
  rw [resolve_eq_route h.fits, hroute, route_of_free (leg_of_look_none h.enters hnone)]

end Names

theorem Leads.names_child (h : fs.Leads p d) (hname : IsName name)
    (hlength : name.length ≤ nameLimit) (hs : fs.Searchable d) (hfits : (p.child name).Fits) :
    fs.Names (p.child name) d name := by
  obtain ⟨n, hn, hwalk⟩ := h
  refine ⟨hfits, ⟨p.words, Path.words_child p hname, n, hn, ?_⟩,
    hs, hname.ne_dot, hname.ne_dotdot, hlength⟩
  rw [start, Path.isAbsolute_child p hname]
  exact hwalk

/-- The child of a path that leads somewhere fits if it is short enough. -/
theorem Leads.fits_child (h : fs.Leads p d) (hwell : fs.tree.WellFormed)
    (hname : Node.IsEntryName name) (hlength : (p.child name).length < pathLimit) :
    (p.child name).Fits := by
  obtain ⟨n, -, hwalk⟩ := h
  have hturns := Path.turns_child p hname.toIsName
  refine Path.fits_of_turns (by rw [hturns]; simp) (fun turn hturn => ?_) hlength
  rw [hturns] at hturn
  rcases List.mem_append.mp hturn with hturn | hturn
  · exact (hwalk.unpad (pads_filter p.words)).nul_notMem hwell hturn
  · exact List.mem_singleton.mp hturn ▸ hname.nul_notMem

theorem Leads.eq_of_names_child {d' : Location} {key : Bytes} (h : fs.Leads p d)
    (hname : IsName name) (hp : fs.Names (p.child name) d' key) : d' = d ∧ key = name := by
  obtain ⟨-, ⟨xs, hxs, m, -, hwalk'⟩, -⟩ := hp
  obtain ⟨n, -, hwalk⟩ := h
  rw [Path.words_child p hname] at hxs
  obtain ⟨rfl, hkey⟩ := List.append_inj' hxs rfl
  rw [start, Path.isAbsolute_child p hname] at hwalk'
  exact ⟨(hwalk'.unique hwalk).2, (List.singleton_inj.mp hkey).symm⟩

theorem enters_of_route {b : Nat} {spot : Spot} (hname : IsName name)
    (h : fs.route follow b d (name :: xs) = .ok spot) : fs.Enters d name := by
  rcases fs.leg_cons_cases d name xs with ⟨e, he⟩ | ⟨-, hdot⟩ | ⟨-, hdotdot⟩ | henters
  · rw [route_of_failed (he follow)] at h
    cases h
  · exact absurd hdot hname.ne_dot
  · exact absurd hdotdot hname.ne_dotdot
  · exact henters

/-- What is found as a child of a directory's path is an entry of the
directory, or lies behind one. -/
theorem Leads.names_of_find_child (h : fs.Leads p d) (hname : IsName name)
    (hfind : fs.find follow (p.child name) = .ok (l, node)) : fs.Names (p.child name) d name := by
  obtain ⟨hfits, hroute⟩ := find_eq_ok_iff.mp hfind
  obtain ⟨m, hm, hparent⟩ := h
  rw [stepsOf_eq, Path.endsWithSlash_child p hname, Path.words_child p hname, List.append_assoc,
    start, Path.isAbsolute_child p hname, ← start] at hroute
  rw [route_of_walk hparent hm (Or.inl (by simp))] at hroute
  refine ⟨hfits, ⟨p.words, Path.words_child p hname, m, hm, ?_⟩, enters_of_route hname hroute⟩
  rw [start, Path.isAbsolute_child p hname]
  exact hparent

/-- What is found behind a name is found from the directory before it, and the
name is that of an entry there. -/
theorem exists_names_of_find_child (hname : IsName name)
    (hfind : fs.find true (p.child name) = .ok (l, node)) :
    ∃ d, fs.Leads p d ∧ fs.Names (p.child name) d name ∧ (fs.tree.look (d ++ [name])).isSome := by
  obtain ⟨-, ⟨n, hn, hwalk⟩, -, -⟩ := find_true_eq_ok_iff.mp hfind
  rw [Path.words_child p hname, start, Path.isAbsolute_child p hname] at hwalk
  obtain ⟨n₁, n₂, d, rfl, hleft, hright⟩ := hwalk.split
  have hleads : fs.Leads p d := ⟨n₁, Nat.le_trans (Nat.le_add_right n₁ n₂) hn, hleft⟩
  exact ⟨d, hleads, hleads.names_of_find_child hname hfind, (hright.enters hname).2⟩

theorem Leads.isFile_child {m : Mode} {c : Bytes} (h : fs.Leads p d) (hname : Node.IsEntryName name)
    (hs : fs.Searchable d) (hlook : fs.tree.look (d ++ [name]) = some (.file m c))
    (hfits : (p.child name).Fits) : fs.isFile (p.child name) := by
  have hnames := h.names_child hname.toIsName hname.length_le hs hfits
  obtain ⟨node, hat, hface⟩ := Option.map_eq_some_iff.mp hlook
  have hslash := Path.endsWithSlash_child p hname.toIsName
  cases node with
  | file m c =>
      refine isFile_iff.mpr ⟨_, m, c, hnames.find_true hat (fun target => Node.noConfusion) ?_⟩
      intro h
      rw [hslash] at h
      cases h
  | link | pipe | directory => cases hface

end FileSystem

end Confinement
