import Confinement.Proofs.Staging.Stageable

/-!
# Verbatim staging

Search directories that are no links, whose places are parted and that do not
contain the staging root, are staged as they are: each place holds the copy of
its directory and nothing else, the report counts what was copied, and nothing
is changed anywhere else but for the directories made on the way to the places
(`run_verbatim`).

Files are copied with their bytes, and a superuser's copies have the same modes.
For any other process writing the bytes clears the bit by which a file runs as
its owner and, where its group may run it, the bit by which it runs as its group
(`copiedMode`).
-/

namespace Confinement

open FileSystem
open Node (IsEntryName)

namespace Stage

variable {fs : FileSystem} {stage : Stage} {p : Path} {r b l : Location} {K : List Bytes}
  {ps : List Path} {mode : Mode} {es : Entries}

/-- A directory that does not contain the missing staging root contains no
place below it. -/
theorem Vacant.not_prefix_place {root : Path} (h : Vacant fs root b K)
    (hl : (fs.tree.look l).isSome)
    (houtside : ¬ l <+: b ++ K) (names : List Bytes) : ¬ l <+: b ++ (K ++ names) :=
  h.unmade.not_prefix_place hl (fun hb => houtside (hb.trans (List.prefix_append b K))) names

/-- What a pass may ask of directories outside the staging root. -/
theorem Vacant.stageable (h : Vacant fs stage.root b K)
    (hcopyable : ∀ p ∈ ps, ∀ l, fs.locate p = .ok l → Copyable fs p (stage.copyPath p) l)
    (hparted : ps.Pairwise fun p q => Parted p.names q.names)
    (houtside : ∀ p ∈ ps, ∀ l, fs.locate p = .ok l → ¬ l <+: b ++ K) :
    Stageable fs stage b K ps := by
  refine ⟨hcopyable, hparted, fun p hp q _ l hl => ?_⟩
  obtain ⟨node, hfind⟩ := locate_eq_ok_iff.mp hl
  exact h.not_prefix_place (by rw [Node.look, at?_of_find hfind]; rfl) (houtside p hp l hl) q.names

/-- Every search directory is staged as it is, the report counts the copies,
and elsewhere directories are made on the way to the places and nothing else is
changed. -/
theorem run_verbatim (hwell : fs.tree.WellFormed) (hvacant : Vacant fs stage.root b K)
    (hdirs : ∀ p ∈ ps, ∃ mode es, fs.lstat p = .ok (.directory mode es))
    (hparted : ps.Pairwise fun p q => Parted p.names q.names)
    (houtside : ∀ p ∈ ps, ∀ l, fs.locate p = .ok l → ¬ l <+: b ++ K)
    (hcopyable : ∀ p ∈ ps, ∀ l, fs.locate p = .ok l → Copyable fs p (stage.copyPath p) l) :
    ∃ w, stage.run fs ps = (.ok ⟨stage.root, false, (ps.map fs.tallyOf).sum⟩, w) ∧
      w.fs.superuser = fs.superuser ∧
      (∀ p ∈ ps, ∀ node, fs.lstat p = .ok node →
        w.fs.locate (stage.location p) = .ok (b ++ (K ++ p.names)) ∧
          CopyOf w.fs (b ++ (K ++ p.names)) node) ∧
      ∀ m, (∀ p ∈ ps, ¬ b ++ (K ++ p.names) <+: m) →
        w.fs.tree.look m = fs.tree.look m ∨
          fs.tree.look m = none ∧ (∃ mode, w.fs.tree.look m = some (.directory mode)) ∧
            ∃ p ∈ ps, m <+: b ++ (K ++ p.names) := by
  have hplain : ∀ p ∈ ps, ∀ target, fs.lstat p ≠ .ok (.link target) := by
    intro p hp target hlink
    obtain ⟨mode, es, hstat⟩ := hdirs p hp
    rw [hstat] at hlink
    cases hlink
  have hfind : ∀ p ∈ ps, ∃ l mode es, fs.find true p = .ok (l, .directory mode es) := by
    intro p hp
    obtain ⟨mode, es, hstat⟩ := hdirs p hp
    obtain ⟨l, hfind⟩ := exists_find_of_lstat hstat fun target => Node.noConfusion
    exact ⟨l, mode, es, hfind⟩
  have hisDirectory : ∀ p ∈ ps, fs.isDirectory p := fun p hp => isDirectory_iff.mpr (hfind p hp)
  have hstageable := hvacant.stageable hcopyable hparted houtside
  -- The exact pass tells the copies and the counts; what the pass adds, and where, is told by the
  -- one for any pass that comes to an end.
  obtain ⟨w₁, hpass, hcopies⟩ :=
    (staged_nil hwell).pass_exact (w := ⟨fs, []⟩) (t := {}) hwell hvacant
    hstageable hisDirectory hplain fun q hq => absurd hq List.not_mem_nil
  have hstaged := (staged_nil hwell).pass hvacant.site hvacant.look_root hisDirectory
    (by rwa [List.nil_append]) (fun q _ => List.append_ne_nil_of_left_ne_nil hvacant.ne_nil _) hpass
  obtain ⟨w, hrun, hfs⟩ := run_of_foldlM hvacant.not_isDirectory hpass
  have hzero : ({} : Tally) + (ps.map fs.tallyOf).sum = (ps.map fs.tallyOf).sum := zero_add _
  rw [List.nil_append] at hcopies hstaged
  rw [hzero] at hrun
  rw [← hfs] at hcopies hstaged
  refine ⟨w, hrun, hstaged.adds.superuser_eq,
    fun p hp node hnode => ⟨?_, hcopies p hp node hnode⟩, fun m hm => ?_⟩
  · obtain ⟨l, mode, es, hfound⟩ := hfind p hp
    have hfits := hvacant.fits hwell (fun key hkey => isEntryName_of_mem_names hfound hkey)
      ((hcopyable p hp l (locate_eq_ok_iff.mpr ⟨_, hfound⟩)).length_lt
        (Node.look_eq_directory_iff.mpr ⟨es, at?_of_find hfound⟩))
    obtain ⟨_, _, hplace⟩ :=
      (hstaged.copied p hp).exists_find hvacant.site.bytes_ne_nil hvacant.noSlash hfits
    exact locate_eq_ok_iff.mpr ⟨_, hplace⟩
  · -- Elsewhere a face that was there is kept, and one that is new stands on the way to a place.
    cases hold : fs.tree.look m with
    | some face => exact Or.inl (hstaged.adds.look m face hold)
    | none =>
        cases hnew : w.fs.tree.look m with
        | none => exact Or.inl rfl
        | some face =>
            obtain ⟨q, hq, ⟨before, hbefore, -, rfl, mode, rfl⟩ | hbelow⟩ :=
              hstaged.adds.added m face hold hnew
            · exact Or.inr ⟨rfl, ⟨_, rfl⟩, q, hq, (List.prefix_append_right_inj b).mpr hbefore⟩
            · exact absurd hbelow (hm q hq)

end Stage

/-- Two directories are staged with what is in them but for the pipe, and the
program among it no longer runs as its owner. -/
theorem run_verbatim_mergedHost :
    ∃ w, mergedStage.run mergedHost ["/opt", "/usr/lib"] =
        (.ok ⟨mergedStage.root, false, { directories := 3, files := 2, links := 1 }⟩, w) ∧
      (∀ p ∈ [Path.ofString "/opt", "/usr/lib"], ∀ node, mergedHost.lstat p = .ok node →
        CopyOf w.fs (["jail", "stage"].map Utf8.encode ++ p.names) node) ∧
      w.fs.tree.look (["jail", "stage", "usr", "lib", "x"].map Utf8.encode) =
        some (.file 0o755 (Utf8.encode "s")) := by
  have hnodes : ∀ p ∈ [Path.ofString "/opt", "/usr/lib"],
      (mergedHost.lstat p).map Node.isDirectory = .ok true := by decide +kernel
  have hdirs : ∀ p ∈ [Path.ofString "/opt", "/usr/lib"], ∃ mode es,
      mergedHost.lstat p = .ok (.directory mode es) := by
    intro p hp
    obtain ⟨node, hstat, hnode⟩ := map_eq_ok.mp (hnodes p hp)
    cases node with
    | directory mode es => exact ⟨mode, es, hstat⟩
    | file | link | pipe => cases hnode
  have houtside : ∀ p ∈ [Path.ofString "/opt", "/usr/lib"], ∀ l ∈ (mergedHost.locate p).toOption,
      ¬ l <+: [Utf8.encode "jail"] ++ [Utf8.encode "stage"] := by decide +kernel
  obtain ⟨w, hrun, -, hcopies, -⟩ := Stage.run_verbatim (by decide +kernel) vacant_mergedHost hdirs
    stageable_mergedHost.parted (fun p hp l hl => houtside p hp l (by rw [hl]; rfl))
    stageable_mergedHost.copyable
  have htally : ([Path.ofString "/opt", "/usr/lib"].map mergedHost.tallyOf).sum =
      { directories := 3, files := 2, links := 1 } := by decide +kernel
  rw [htally] at hrun
  refine ⟨w, hrun, fun p hp node hnode => (hcopies p hp node hnode).2, ?_⟩
  have hw : (mergedStage.run mergedHost ["/opt", "/usr/lib"]).2 = w := by rw [hrun]
  rw [← hw]
  decide +kernel

/-- A file that runs as its owner is staged as one that does not, unless a
superuser stages it. -/
theorem run_clears_setUserBit :
    let lib := Utf8.encode "lib"
    let x := Utf8.encode "x"
    let jail := Utf8.encode "jail"
    let host : FileSystem := { tree := .directory 0o755 [
      (lib, .directory 0o755 [(x, .file 0o4755 (Utf8.encode "s"))]), (jail, .directory 0o755 [])] }
    let result := Stage.run ⟨"/jail", "/stage"⟩ host ["/lib"]
    let result' := Stage.run ⟨"/jail", "/stage"⟩ { host with superuser := true } ["/lib"]
    host.tree.WellFormed ∧ host.superuser = false ∧ host.locate "/jail" = .ok [jail] ∧
      host.tree.look [jail, Utf8.encode "stage"] = none ∧
      (host.lstat "/lib").map Node.isDirectory = .ok true ∧
      result.1 = .ok ⟨"/jail/stage", false, { directories := 1, files := 1 }⟩ ∧
      host.tree.look [lib, x] = some (.file 0o4755 (Utf8.encode "s")) ∧
      result.2.fs.tree.look [jail, Utf8.encode "stage", lib, x] =
        some (.file 0o755 (Utf8.encode "s")) ∧
      result'.2.fs.tree.look [jail, Utf8.encode "stage", lib, x] =
        some (.file 0o4755 (Utf8.encode "s")) := by
  decide +kernel

end Confinement
