import Confinement.Proofs.FileSystem.Finding

/-!
# Names of files

A search joins a name to the path of a directory.  If that leads to a file and
the name has no slash, then it can be the name of an entry
(`FileSystem.isName_of_find_file`), and a file that is no link is an entry of the
directory that the path leads to (`FileSystem.exists_entry_of_lstat`).
-/

namespace Confinement

open FileSystem
open Node (IsEntryName)

/-! ## Names as bytes -/

/-- No character but the slash itself is spelled with its byte. -/
theorem Utf8.eq_slash_of_mem_utf8EncodeChar {c : Char} (h : Path.slash ∈ String.utf8EncodeChar c) :
    c = '/' := by
  have hbyte : ∀ n : Nat, Path.slash = UInt8.ofNat n → n % 256 = 47 := by
    intro n hn
    have hslash : Path.slash.toNat = 47 := rfl
    rwa [hn] at hslash
  -- The bytes of a longer spelling are 128 and above.
  have hlong : ∀ n : Nat, 128 ≤ n % 256 → Path.slash ≠ UInt8.ofNat n := by
    intro n hle hn
    have hvalue := hbyte n hn
    omega
  have hvalue : c.val.toNat = 47 := by
    simp only [String.utf8EncodeChar] at h
    split at h
    · have hlast := hbyte _ (List.mem_singleton.mp h)
      omega
    · simp only [apply_ite (Path.slash ∈ ·), List.mem_cons, List.not_mem_nil, or_false] at h
      split at h
      · rcases h with h | h <;> exact absurd h (hlong _ (by omega))
      · split at h
        · rcases h with h | h | h <;> exact absurd h (hlong _ (by omega))
        · rcases h with h | h | h | h <;> exact absurd h (hlong _ (by omega))
  exact Char.ext (UInt32.toNat_inj.mp hvalue)

theorem Utf8.slash_notMem_encode {s : String} (h : '/' ∉ s.toList) :
    Path.slash ∉ Utf8.encode s := by
  intro hmem
  obtain ⟨c, hc, hslash⟩ := List.mem_flatMap.mp hmem
  exact h (Utf8.eq_slash_of_mem_utf8EncodeChar hslash ▸ hc)

/-- Different texts are spelled differently. -/
theorem Utf8.encode_injective {s t : String} (h : encode s = encode t) : s = t := by
  have hbytes : s.toList.utf8Encode = t.toList.utf8Encode := congrArg List.toByteArray h
  apply String.toList_inj.mp
  apply String.ofList_injective
  simp only [String.ofList, hbytes]

/-! ## Files under a directory's path -/

section

variable {fs : FileSystem} {e p : Path} {d l : Location} {f : Bytes} {mode : Mode} {content : Bytes}

/-- What joined to a directory's path leads to a file is a name, if it has no
slash. -/
theorem FileSystem.isName_of_find_file (hslash : Path.slash ∉ f)
    (hfind : fs.find true (e.join ⟨f⟩) = .ok (l, .file mode content)) : Path.IsName f := by
  have hrelative := Path.not_isAbsolute_of_notMem hslash
  obtain ⟨hfits, ⟨n, -, hwalk⟩, hat, hend⟩ := find_true_eq_ok_iff.mp hfind
  have hnoDirectory : ∀ mode', fs.tree.look l ≠ some (.directory mode') := by
    intro mode' hdir
    rw [Node.look, hat] at hdir
    cases hdir
  -- An empty name would leave a slash at the end, and ask for a directory.
  have hne : f ≠ [] := by
    rintro rfl
    have hbytes : e.bytes ≠ [] := by
      intro hnil
      apply hfits.ne_nil
      obtain ⟨bytes⟩ := e
      obtain rfl : bytes = [] := hnil
      rfl
    obtain ⟨mode', hdir, -⟩ := hend (Path.endsWithSlash_join_nil hbytes)
    exact hnoDirectory mode' hdir
  rw [Path.words_join e hrelative, Path.words_of_notMem hslash hne] at hwalk
  obtain ⟨n₁, n₂, d, -, -, hright⟩ := hwalk.split
  -- Of one more step `.` and `..` end in a directory.
  cases hright with
  | stay searchable tail =>
      cases tail
      obtain ⟨mode', hdir, -⟩ := searchable
      exact absurd hdir (hnoDirectory mode')
  | up searchable tail =>
      cases tail
      obtain ⟨mode', hdir⟩ := searchable.exists_directory_above
      exact absurd hdir (hnoDirectory mode')
  | down enters => exact ⟨hne, enters.ne_dot, enters.ne_dotdot, hslash⟩
  | follow enters => exact ⟨hne, enters.ne_dot, enters.ne_dotdot, hslash⟩

/-- A file seen through a directory's path is an entry of the directory. -/
theorem FileSystem.exists_entry_of_lstat (hslash : Path.slash ∉ f)
    (hfile : (fs.lstat (e.join ⟨f⟩)).map Node.isFile = .ok true) :
    IsEntryName f ∧ ∃ n d mode content, fs.Walk n (fs.start e) e.words d ∧ fs.Searchable d ∧
      fs.tree.at? (d ++ [f]) = some (.file mode content) := by
  obtain ⟨mode, content, hstat⟩ :
      ∃ mode content, fs.lstat (e.join ⟨f⟩) = .ok (.file mode content) := by
    cases hstat : fs.lstat (e.join ⟨f⟩) with
    | error e => simp [hstat, Except.map] at hfile
    | ok node => cases node <;> simp [hstat, Except.map, Node.isFile] at hfile ⊢
  obtain ⟨x, hfind⟩ := exists_find_of_lstat hstat fun target => Node.noConfusion
  have hname := isName_of_find_file hslash hfind
  obtain ⟨d, ⟨n, -, hwalk⟩, hnames, hsome⟩ := exists_names_of_find_child hname hfind
  have hnul : 0 ∉ f := by
    intro hmem
    obtain ⟨between, -, hbytes⟩ := Path.exists_join_bytes_eq e hname.not_isAbsolute
    apply hnames.fits.nul_notMem
    rw [Path.child, hbytes]
    exact List.mem_append_right _ hmem
  refine ⟨⟨hname, hnul, hnames.enters.length_le⟩, n, d, mode, content, hwalk,
    hnames.enters.searchable, ?_⟩
  -- The entry is no link: it is seen as a file.
  rw [Node.look, Option.isSome_map] at hsome
  obtain ⟨node, hentry⟩ := Option.isSome_iff_exists.mp hsome
  have hseen := lstat_eq_ok_iff.mpr
    ⟨_, hnames.find_false (Path.endsWithSlash_child e hname) hentry⟩
  rw [Path.child, hstat] at hseen
  rw [hentry, Except.ok.inj hseen]

end

end Confinement
