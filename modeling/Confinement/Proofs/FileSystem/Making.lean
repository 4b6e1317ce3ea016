import Confinement.Proofs.FileSystem.Finding

/-!
# What elementary changes do

`Fills fs l face fs'` says that `fs'` shows one face more than `fs`, at a place
that was free.  Making a directory, making a link and copying a file to a new
name do that and nothing else.  Each is stated twice: what must hold when it
succeeds (`makeDirectory_eq_ok`), and that it succeeds where the entry is
named by the path, free, and in a directory that may be written
(`makeDirectory_of_placed`).
-/

namespace Confinement

open Confinement.Path (IsName)
open Node (IsEntryName)

namespace FileSystem

variable {fs fs' fs'' : FileSystem} {p source target : Path} {n : Nat} {here l m d : Location}
  {name : Bytes} {xs : List Bytes} {mode : Mode} {node x : Node} {face : Face} {es : Entries}

/-! ## Free places filled -/

/-- `fs'` shows one face more than `fs`. -/
structure Fills (fs : FileSystem) (l : Location) (face : Face) (fs' : FileSystem) : Prop where
  root_eq : fs'.root = fs.root
  cwd_eq : fs'.cwd = fs.cwd
  superuser_eq : fs'.superuser = fs.superuser
  free : fs.tree.look l = none
  look : ∀ m, fs'.tree.look m = if m = l then some face else fs.tree.look m
  wellFormed : fs.tree.WellFormed → fs'.tree.WellFormed

namespace Fills

theorem look_self (h : Fills fs l face fs') : fs'.tree.look l = some face := by
  rw [h.look, if_pos rfl]

theorem look_of_ne (h : Fills fs l face fs') (hne : m ≠ l) :
    fs'.tree.look m = fs.tree.look m := by
  rw [h.look, if_neg hne]

theorem adds (h : Fills fs l face fs') : Adds (fun m f => m = l ∧ f = face) fs fs' := by
  refine ⟨⟨h.root_eq, h.cwd_eq, h.superuser_eq, fun m f hm => ?_⟩, fun m f hnone hsome => ?_⟩
  · have hne : m ≠ l := by
      rintro rfl
      rw [h.free] at hm
      cases hm
    rw [h.look_of_ne hne, hm]
  · by_cases heq : m = l
    · rw [heq, h.look_self] at hsome
      exact ⟨heq, (Option.some.inj hsome).symm⟩
    · rw [h.look_of_ne heq, hnone] at hsome
      cases hsome

theorem look_below (h : Fills fs l face fs') (hlm : l <+: m) (hne : l ≠ m) :
    fs'.tree.look m = none := by
  rw [h.look_of_ne hne.symm]
  exact look_eq_none_below h.free hlm

/-- A filled place filled once more, with a node that has nothing below it. -/
theorem put (h : Fills fs l face fs') (hx : x.entries = []) (hwell : x.WellFormed)
    (hname : ∀ above name, l = above ++ [name] → IsEntryName name) :
    Fills fs l x.face (fs'.put l x) := by
  -- The node is there, so there is a place for another.
  have hplace : fs'.tree.HasPlace l := by
    refine Node.hasPlace_of_at? ?_
    have hself := h.look_self
    rw [Node.look] at hself
    rw [← Option.isSome_map (f := Node.face), hself]
    rfl
  refine ⟨h.root_eq, h.cwd_eq, h.superuser_eq, h.free, fun m => ?_, fun hfs => ?_⟩
  · show (fs'.tree.put l x).look m = _
    rw [Node.look_put hplace]
    by_cases heq : m = l
    · rw [if_pos heq, heq, if_pos (List.prefix_refl l), List.drop_length]
      rfl
    · rw [if_neg heq]
      split
      · rename_i hlm
        obtain ⟨rest, rfl⟩ := hlm
        -- The old node was new itself, and so is all below it.
        cases rest with
        | nil => exact absurd (List.append_nil l) heq
        | cons key rest =>
            have hfree : fs.tree.look (l ++ key :: rest) = none := by
              rw [← h.look_of_ne heq]
              exact h.look_below (List.prefix_append _ _) (Ne.symm heq)
            rw [List.drop_left, hfree]
            simp [Node.look, Node.at?, hx]
      · rw [h.look_of_ne heq]
  · exact (h.wellFormed hfs).put hwell hplace hname

end Fills

theorem fills_put (hdir : fs.tree.look d = some (.directory mode))
    (hfree : fs.tree.look (d ++ [name]) = none) (hname : IsEntryName name) (hx : x.entries = [])
    (hwell : x.WellFormed) : Fills fs (d ++ [name]) x.face (fs.put (d ++ [name]) x) := by
  have hplace := Node.hasPlace_concat hdir name
  have hadds := adds_put hplace hfree hx
  refine ⟨rfl, rfl, rfl, hfree, fun m => ?_, fun hfs => ?_⟩
  · split
    · rename_i heq
      rw [heq, look_put_self hplace]
    · rename_i hne
      exact hadds.look_eq fun face hface => hne hface.1
  · apply hfs.put hwell hplace
    intro above last heq
    obtain ⟨-, heq⟩ := List.append_inj' heq rfl
    exact List.singleton_inj.mp heq ▸ hname

/-! ## The place a path names -/

theorem slot_of_names (h : fs.Names p d name) (hat : fs.tree.at? d = some (.directory mode es)) :
    fs.slot p = .ok ⟨d, mode, name, es.lookup name, p.endsWithSlash⟩ := by
  obtain ⟨hfits, ⟨xs, hxs, n, hn, hwalk⟩, hs, hdot, hdotdot, hlength⟩ := h
  have hsteps : p.segments.filter (!·.isEmpty) = xs ++ [name] := hxs
  -- The walk goes as far as the last name, and the directory it ends in is looked up.
  have hroute : fs.route true linkLimit (fs.start p) xs = .ok (.taken d (.directory mode es)) := by
    have hwhole : fs.route true linkLimit (fs.start p) (xs ++ []) =
        fs.route true (linkLimit - n) d [] := route_of_walk hwalk hn (Or.inr rfl)
    rw [List.append_nil] at hwhole
    rw [hwhole, route_of_arrived leg_nil hat]
  have hpermits : fs.permits .search mode := by
    obtain ⟨mode', hlook, hpermits⟩ := hs
    obtain ⟨es', hat'⟩ := Node.look_eq_directory_iff.mp hlook
    rw [hat] at hat'
    cases hat'
    exact hpermits
  have hplain : ¬ (name = [0x2E] ∨ name = [0x2E, 0x2E]) := by
    rintro (heq | heq)
    · exact hdot heq
    · exact hdotdot heq
  unfold slot
  rw [checkName_eq_ok_iff.mpr hfits.nul_notMem,
    checkLength_eq_ok_iff.mpr ⟨hfits.ne_nil, hfits.length_lt⟩]
  simp only [hsteps, List.getLast?_concat, List.dropLast_concat, hroute, bind, Except.bind,
    Except.mapError, hpermits, hplain, Nat.not_lt.mpr hlength, Bool.not_true, Bool.false_eq_true,
    if_false]

theorem names_of_slot {s : Slot} (h : fs.slot p = .ok s) :
    fs.Names p s.directory s.name ∧ s.directoryOnly = p.endsWithSlash ∧
      ∃ es, fs.tree.at? s.directory = some (.directory s.mode es) ∧
        s.present = es.lookup s.name := by
  unfold slot at h
  obtain ⟨_, hname, h⟩ := bind_eq_ok.mp h
  obtain ⟨_, hlength, h⟩ := bind_eq_ok.mp h
  obtain ⟨hne, hlt⟩ := checkLength_eq_ok_iff.mp (mapError_eq_ok.mp hlength)
  have hfits : p.Fits := ⟨hne, checkName_eq_ok_iff.mp hname, hlt⟩
  have hsteps : p.segments.filter (!·.isEmpty) = p.words := rfl
  simp only [hsteps] at h
  -- Only a path with a last name, in a directory that may be searched, has a slot.
  cases hlast : p.words.getLast? with
  | none => simp [hlast] at h
  | some name =>
      obtain ⟨xs, hxs⟩ := List.getLast?_eq_some_iff.mp hlast
      simp only [hxs, List.getLast?_concat, List.dropLast_concat] at h
      cases hroute : fs.route true linkLimit (fs.start p) xs with
      | error e => simp [hroute, Except.mapError] at h
      | ok spot =>
          simp only [hroute, Except.mapError] at h
          cases spot with
          | free => cases h
          | taken d node =>
              obtain ⟨n, hn, hwalk, hat⟩ := exists_walk_of_route hroute
              cases node with
              | directory mode es =>
                  simp only at h
                  split at h
                  · cases h
                  split at h
                  · cases h
                  split at h
                  · cases h
                  rename_i hpermits hplain hlength
                  cases h
                  rw [not_or] at hplain
                  have hs : fs.Searchable d :=
                    ⟨mode, Node.look_eq_directory_iff.mpr ⟨es, hat⟩, by simpa using hpermits⟩
                  have henters : fs.Enters d name :=
                    ⟨hs, hplain.1, hplain.2, Nat.le_of_not_lt hlength⟩
                  exact ⟨⟨hfits, ⟨xs, hxs, n, hn, hwalk⟩, henters⟩, rfl, es, hat, rfl⟩
              | file | link | pipe => cases h

/-! ## New directories -/

/-- The mode of a new directory below one with the given mode. -/
def freshMode (mode : Mode) : Mode := 0o755 ||| mode &&& setGroupBit

/-- A new directory grants its owner everything. -/
theorem permits_freshMode (fs : FileSystem) (right : Right) (mode : Mode) :
    fs.permits right (freshMode mode) := by
  have hbit : freshMode mode &&& right.bit ≠ 0 := by
    rw [freshMode, Nat.and_or_distrib_right]
    intro hzero
    have hleft := (Nat.or_eq_zero_iff.mp hzero).1
    cases right <;> simp [Right.bit] at hleft
  simp [permits, hbit]

/-- What holds when a node was put in a free place. -/
structure Placed (fs : FileSystem) (p : Path) (d : Location) (name : Bytes)
    (mode : Mode) : Prop where
  names : fs.Names p d name
  directory : fs.tree.look d = some (.directory mode)
  writable : fs.permits .write mode
  free : fs.tree.look (d ++ [name]) = none

theorem Placed.lookup_eq_none (h : fs.Placed p d name mode)
    (hat : fs.tree.at? d = some (.directory mode es)) : es.lookup name = none := by
  rw [Node.lookup_of_at? hat name]
  exact Option.map_eq_none_iff.mp h.free

theorem placed_of_slot {s : Slot} (h : fs.slot p = .ok s) (hpresent : s.present = none)
    (hwrite : fs.permits .write s.mode) : fs.Placed p s.directory s.name s.mode := by
  obtain ⟨hnames, -, es, hat, hlookup⟩ := names_of_slot h
  refine ⟨hnames, Node.look_eq_directory_iff.mpr ⟨es, hat⟩, hwrite, ?_⟩
  rw [Node.look, ← Node.lookup_of_at? hat, ← hlookup, hpresent]
  rfl

theorem makeDirectory_of_placed (h : fs.Placed p d name mode) :
    fs.makeDirectory p = .ok (fs.put (d ++ [name]) (.directory (freshMode mode) [])) := by
  obtain ⟨es, hat⟩ := Node.look_eq_directory_iff.mp h.directory
  have hlookup := h.lookup_eq_none hat
  have hwrite := h.writable
  -- The directory lists no such entry, and grants that one is added.
  unfold makeDirectory
  rw [slot_of_names h.names hat]
  simp only [bind, Except.bind, hlookup, fill, hwrite, Option.isSome_none, Bool.false_eq_true,
    if_false, if_true]
  rfl

theorem makeDirectory_eq_ok (h : fs.makeDirectory p = .ok fs') :
    ∃ d name mode, fs.Placed p d name mode ∧
      fs' = fs.put (d ++ [name]) (.directory (freshMode mode) []) := by
  unfold makeDirectory at h
  obtain ⟨s, hslot, h⟩ := bind_eq_ok.mp h
  split at h
  · cases h
  · rename_i hpresent
    rw [Bool.not_eq_true, Option.isSome_eq_false_iff, Option.isNone_iff_eq_none] at hpresent
    unfold fill at h
    split at h
    · rename_i hwrite
      exact ⟨_, _, _, placed_of_slot hslot hpresent hwrite, (Except.ok.inj h).symm⟩
    · cases h

theorem fills_makeDirectory (h : fs.Placed p d name mode) (hname : IsEntryName name) :
    Fills fs (d ++ [name]) (.directory (freshMode mode))
      (fs.put (d ++ [name]) (.directory (freshMode mode) [])) :=
  fills_put h.directory h.free hname rfl (.directory _ (by simp) (by simp) (by simp))

/-! ## New links -/

theorem makeLink_of_placed (h : fs.Placed p d name mode) (hslash : p.endsWithSlash = false)
    (htarget : target.Fits) : fs.makeLink target p = .ok (fs.put (d ++ [name]) (.link target)) := by
  obtain ⟨es, hat⟩ := Node.look_eq_directory_iff.mp h.directory
  have hlookup := h.lookup_eq_none hat
  have hwrite := h.writable
  have hlength : (checkLength target).mapError IoError.system = .ok () := by
    rw [checkLength_eq_ok_iff.mpr ⟨htarget.ne_nil, htarget.length_lt⟩]
    rfl
  unfold makeLink
  rw [checkName_eq_ok_iff.mpr htarget.nul_notMem, checkName_eq_ok_iff.mpr h.names.fits.nul_notMem,
    hlength, slot_of_names h.names hat]
  simp only [bind, Except.bind, hlookup, hslash, fill, hwrite, Option.isSome_none,
    Bool.false_eq_true, if_false, if_true]

theorem makeLink_eq_ok (h : fs.makeLink target p = .ok fs') :
    p.endsWithSlash = false ∧ target.Fits ∧
      ∃ d name mode, fs.Placed p d name mode ∧ fs' = fs.put (d ++ [name]) (.link target) := by
  unfold makeLink at h
  obtain ⟨_, hname, h⟩ := bind_eq_ok.mp h
  obtain ⟨_, -, h⟩ := bind_eq_ok.mp h
  obtain ⟨_, hlength, h⟩ := bind_eq_ok.mp h
  obtain ⟨hne, hlt⟩ := checkLength_eq_ok_iff.mp (mapError_eq_ok.mp hlength)
  obtain ⟨s, hslot, h⟩ := bind_eq_ok.mp h
  split at h
  · cases h
  split at h
  · cases h
  rename_i hpresent hslash
  rw [Bool.not_eq_true, Option.isSome_eq_false_iff, Option.isNone_iff_eq_none] at hpresent
  rw [Bool.not_eq_true, (names_of_slot hslot).2.1] at hslash
  unfold fill at h
  split at h
  · rename_i hwrite
    exact ⟨hslash, ⟨hne, checkName_eq_ok_iff.mp hname, hlt⟩, _, _, _,
      placed_of_slot hslot hpresent hwrite, (Except.ok.inj h).symm⟩
  · cases h

/-! ## Permission bits -/

theorem setMode_of_find (h : fs.find true p = .ok (l, node)) (mode : Mode) :
    fs.setMode p mode = .ok (fs.put l (node.withMode mode)) := by
  rw [setMode, h]
  rfl

theorem setMode_eq_ok (h : fs.setMode p mode = .ok fs') :
    ∃ l node, fs.find true p = .ok (l, node) ∧ fs' = fs.put l (node.withMode mode) := by
  unfold setMode at h
  obtain ⟨⟨l, node⟩, hfind, h⟩ := bind_eq_ok.mp h
  exact ⟨l, node, hfind, (Except.ok.inj h).symm⟩

/-! ## Copied files -/

theorem openEmpty_of_placed (h : fs.Placed p d name mode) (hslash : p.endsWithSlash = false)
    (mode' : Mode) : fs.openEmpty p mode' =
      .ok (d ++ [name], fs.put (d ++ [name]) (.file (mode' &&& 0o7755) [])) := by
  obtain ⟨es, hat⟩ := Node.look_eq_directory_iff.mp h.directory
  have hwrite : fs.permits .write (Node.directory mode es).mode := h.writable
  have hfits := h.names.fits
  unfold openEmpty
  rw [checkName_eq_ok_iff.mpr hfits.nul_notMem,
    checkLength_eq_ok_iff.mpr ⟨hfits.ne_nil, hfits.length_lt⟩]
  simp only [bind, Except.bind, Except.mapError, hslash, Bool.false_eq_true, if_false,
    h.names.resolve_free hslash h.free, hat, hwrite, if_true]

/-- A path whose last name is free is opened only where it may be placed. -/
theorem placed_of_openEmpty {mode' : Mode} {opened : Location × FileSystem}
    (hwords : p.words = xs ++ [name]) (hn : n ≤ linkLimit) (hwalk : fs.Walk n (fs.start p) xs d)
    (hname : IsName name) (hslash : p.endsWithSlash = false)
    (hfree : fs.tree.look (d ++ [name]) = none) (h : fs.openEmpty p mode' = .ok opened) :
    ∃ mode, fs.Placed p d name mode := by
  unfold openEmpty at h
  obtain ⟨_, hcheck, h⟩ := bind_eq_ok.mp h
  obtain ⟨_, hlength, h⟩ := bind_eq_ok.mp h
  obtain ⟨hne, hlt⟩ := checkLength_eq_ok_iff.mp (mapError_eq_ok.mp hlength)
  have hfits : p.Fits := ⟨hne, checkName_eq_ok_iff.mp hcheck, hlt⟩
  -- The path does not ask for a directory, so its words are all its steps.
  have hroute : fs.resolve true p = fs.route true (linkLimit - n) d [name] := by
    rw [resolve_eq_route hfits, stepsOf_eq, hslash, hwords]
    simp only [Bool.false_eq_true, if_false, List.append_nil]
    exact route_of_walk hwalk hn (Or.inr rfl)
  simp only [hslash, Bool.false_eq_true, if_false] at h
  -- Whatever comes of the last name, the directory was entered to look it up.
  have henters : fs.Enters d name := by
    cases hspot : fs.resolve true p with
    | error e =>
        rw [hspot] at h
        cases h
    | ok spot => exact enters_of_route hname (hroute ▸ hspot)
  have hnames : fs.Names p d name := ⟨hfits, ⟨xs, hwords, n, hn, hwalk⟩, henters⟩
  obtain ⟨mode, hdir, -⟩ := henters.searchable
  obtain ⟨es, hat⟩ := Node.look_eq_directory_iff.mp hdir
  simp only [hnames.resolve_free hslash hfree, hat] at h
  split at h
  · rename_i hwrite
    exact ⟨mode, hnames, hdir, hwrite, hfree⟩
  · cases h

theorem openEmpty_ne_ok {mode' : Mode} {opened : Location × FileSystem} (hslash : p.endsWithSlash) :
    fs.openEmpty p mode' ≠ .ok opened := by
  intro h
  unfold openEmpty at h
  obtain ⟨_, -, h⟩ := bind_eq_ok.mp h
  obtain ⟨_, -, h⟩ := bind_eq_ok.mp h
  rw [if_pos hslash] at h
  split at h <;> cases h

theorem copyFile_eq_ok (h : fs.copyFile source target = (.ok (), fs')) :
    ∃ l node opened content, fs.find true source = .ok (l, node) ∧ fs.permits .read node.mode ∧
      node.isFile ∧ fs.openEmpty target node.mode = .ok opened ∧
      fs' = opened.2.fillFile opened.1 node.mode content := by
  unfold copyFile at h
  cases hfind : fs.find true source with
  | error e => simp [hfind] at h
  | ok found =>
      obtain ⟨l, node⟩ := found
      simp only [hfind] at h
      split at h
      · cases h
      split at h
      · cases h
      rename_i hread hfile
      cases hopen : fs.openEmpty target node.mode with
      | error e => simp [hopen] at h
      | ok opened =>
          simp only [hopen] at h
          exact ⟨l, node, opened, _, rfl, by simpa using hread, by simpa using hfile, hopen,
            (Prod.mk.inj h).2.symm⟩

/-- A file that is not copied leaves everything as it was. -/
theorem copyFile_eq_error {e : IoError} (h : fs.copyFile source target = (.error e, fs')) :
    fs' = fs := by
  unfold copyFile at h
  -- All that can fail comes before the first byte is written.
  split at h
  · exact (Prod.mk.inj h).2.symm
  · split at h
    · exact (Prod.mk.inj h).2.symm
    split at h
    · exact (Prod.mk.inj h).2.symm
    split at h
    · exact (Prod.mk.inj h).2.symm
    · cases h

theorem testBit_cleared (mode bits : Mode) (i : Nat) :
    (cleared mode bits).testBit i = (mode.testBit i && !bits.testBit i) := by
  rw [cleared, Nat.testBit_xor, Nat.testBit_and]
  cases mode.testBit i <;> cases bits.testBit i <;> rfl

/-- The bits that a file lacks to which bytes were copied. -/
def lostBits (superuser : Bool) (mode : Mode) (content : Bytes) : Mode :=
  if superuser ∨ content = [] then 0
  else if mode &&& groupRunBit = 0 then setUserBit
  else setUserBit ||| setGroupBit

/-- The mode of a file to which bytes were copied. -/
def copiedMode (superuser : Bool) (mode : Mode) (content : Bytes) : Mode :=
  cleared mode (lostBits superuser mode content)

/-- A file filled with bytes has the mode of a copy. -/
theorem copiedMode_eq (fs : FileSystem) (mode : Mode) (content : Bytes) :
    (if content.isEmpty then mode else fs.modeAfterWrite mode) =
      copiedMode fs.superuser mode content := by
  -- Whether the group may run the file does not depend on its owner's bit.
  have hgroup : cleared mode setUserBit &&& groupRunBit = mode &&& groupRunBit := by
    apply Nat.eq_of_testBit_eq
    intro i
    have hapart : (setUserBit &&& groupRunBit).testBit i = false := Nat.zero_testBit i
    rw [Nat.testBit_and] at hapart
    rw [Nat.testBit_and, Nat.testBit_and, testBit_cleared]
    cases hi : groupRunBit.testBit i <;> simp_all
  apply Nat.eq_of_testBit_eq
  intro i
  rw [copiedMode, testBit_cleared, lostBits, modeAfterWrite]
  simp only [hgroup]
  split_ifs <;> simp_all [testBit_cleared, Bool.and_assoc]

/-- A file copied to a free name fills it with a file of the same bytes. -/
theorem copyFile_of_placed (hfind : fs.find true source = .ok (l, node)) (hfile : node.isFile)
    (hread : fs.permits .read node.mode) (h : fs.Placed target d name mode)
    (hslash : target.endsWithSlash = false) (hname : IsEntryName name) :
    ∃ fs', fs.copyFile source target = (.ok (), fs') ∧
      Fills fs (d ++ [name])
        (.file (copiedMode fs.superuser node.mode node.content) node.content) fs' := by
  have hfills := fills_put (x := .file (node.mode &&& 0o7755) []) h.directory h.free hname rfl
    (.file _ _)
  have hlast : ∀ above last, d ++ [name] = above ++ [last] → IsEntryName last := by
    intro above last heq
    exact List.singleton_inj.mp (List.append_inj' heq rfl).2 ▸ hname
  have hat : (fs.put (d ++ [name]) (.file (node.mode &&& 0o7755) [])).tree.at? (d ++ [name]) =
      some (.file (node.mode &&& 0o7755) []) := by
    have hput := Node.at?_put_append (Node.hasPlace_concat h.directory name)
      (.file (node.mode &&& 0o7755) []) []
    rwa [List.append_nil] at hput
  -- The source is another node than the copy, so it has its bytes still.
  obtain ⟨node', hsource, hface⟩ := hfills.adds.toKeeps.exists_at? (at?_of_find hfind)
  rw [← Node.content_eq_of_face hface, ← copiedMode_eq]
  unfold copyFile
  simp only [hfind, hread, hfile, Bool.not_true, Bool.false_eq_true, if_false,
    openEmpty_of_placed h hslash, fillFile, hat, hsource]
  refine ⟨_, rfl, ?_⟩
  cases node' <;> exact hfills.put rfl (.file _ _) hlast

end FileSystem

end Confinement
