import Confinement.Proofs.Catalog.Marker
import Confinement.Proofs.Catalog.Walk
import Confinement.Proofs.FileSystem.Retention
import Confinement.Proofs.Text.Utf8

/-!
# What a catalog lists

A catalog lists the names of the extensions below its search directories, in
order and each once, and nothing else (`Catalog.mem_build_iff`).  A list in order
is given by its members (`Catalog.eq_of_pairwise_lt`), so neither the order of the
walk nor that of the directories counts.

An extension is there in all file systems that show the same on the way to it
(`Catalog.HasExtension.transfer`).  A directory that can no longer be listed is
on the way to what is below it, and to nothing else.  `Catalog.build_exact` puts
this together.
-/

namespace Confinement

open FileSystem

variable {fs fs' : FileSystem} {p path : Path} {directories : List Path} {suffix n : String}
  {way : List Bytes} {node : Node} {d l : Location} {names more : List String}

namespace Catalog

/-! ## Names in order -/

theorem pairwise_lt_squeeze (h : names.Pairwise (· ≤ ·)) : (squeeze names).Pairwise (· < ·) := by
  fun_induction squeeze names with
  | case1 a rest ih => exact ih h.tail
  | case2 a b rest hne ih =>
      rw [List.pairwise_cons] at h ⊢
      refine ⟨fun c hc => ?_, ih h.2⟩
      have hle := h.1 c (mem_squeeze.mp hc)
      refine Std.lt_of_le_of_ne hle fun heq => hne ?_
      -- A name equal to the first one is the next, as the names stand in order.
      rcases List.mem_cons.mp (mem_squeeze.mp hc) with hb | hrest
      · rw [heq, hb]
      · subst heq
        exact String.le_antisymm (h.1 b List.mem_cons_self) ((List.pairwise_cons.mp h.2).1 a hrest)
  | case3 names hshort =>
      cases names with
      | nil => exact .nil
      | cons a rest =>
          cases rest with
          | nil => exact List.pairwise_singleton _ a
          | cons b rest => exact absurd rfl (hshort a b rest)

/-- Names are sorted, and equal ones are neighbours then. -/
theorem pairwise_ofNames (names : List String) : (ofNames names).names.Pairwise (· < ·) := by
  have htrans (a b c : String) (hab : decide (a ≤ b)) (hbc : decide (b ≤ c)) : decide (a ≤ c) :=
    decide_eq_true (String.le_trans (of_decide_eq_true hab) (of_decide_eq_true hbc))
  have htotal (a b : String) : decide (a ≤ b) || decide (b ≤ a) := by
    simpa using String.le_total a b
  apply pairwise_lt_squeeze
  exact (List.pairwise_mergeSort htrans htotal names).imp of_decide_eq_true

theorem mem_ofNames : n ∈ (ofNames names).names ↔ n ∈ names := by
  rw [ofNames, mem_squeeze, List.mem_mergeSort]

theorem eq_of_pairwise_lt {xs ys : List String} (hxs : xs.Pairwise (· < ·))
    (hys : ys.Pairwise (· < ·)) (h : ∀ n, n ∈ xs ↔ n ∈ ys) : xs = ys := by
  have hnodup {zs : List String} (hzs : zs.Pairwise (· < ·)) : zs.Nodup := by
    refine hzs.imp fun {a b} hlt heq => ?_
    subst heq
    exact String.lt_irrefl a hlt
  refine List.Perm.eq_of_pairwise (fun a b _ _ hab hba => ?_) hxs hys
    ((List.perm_ext_iff_of_nodup (hnodup hxs) (hnodup hys)).mpr h)
  exact absurd (String.lt_trans hab hba) (String.lt_irrefl a)

theorem ofNames_ext (h : ∀ n, n ∈ (ofNames names).names ↔ n ∈ (ofNames more).names) :
    ofNames names = ofNames more :=
  congrArg Catalog.mk (eq_of_pairwise_lt (pairwise_ofNames names) (pairwise_ofNames more) h)

theorem ofNames_eq (hmore : more.Pairwise (· < ·)) (h : ∀ n, n ∈ more ↔ n ∈ names) :
    ofNames names = ⟨more⟩ :=
  congrArg Catalog.mk (eq_of_pairwise_lt (pairwise_ofNames names) hmore fun n =>
    mem_ofNames.trans (h n).symm)

/-! ## Extensions -/

/-- An extension called `n` is met below a search directory, by the names that
lead to it. -/
structure HasExtension (fs : FileSystem) (suffix : String) (p : Path) (way : List Bytes)
    (n : String) : Prop where
  meets : ∃ node, fs.Meets p way node ∧ ¬ node.isDirectory
  ends : ∃ text, (way.foldl Path.child p).fileName?.bind Utf8.decode? = some text ∧
    suffix.toList <:+ text.toList
  called : extensionName? p (way.foldl Path.child p) = some n

theorem nameOf?_eq_some_iff : nameOf? p suffix (.entry path node) = some n ↔ ¬ node.isDirectory ∧
    (∃ text, path.fileName?.bind Utf8.decode? = some text ∧ suffix.toList <:+ text.toList) ∧
      extensionName? p path = some n := by
  rw [nameOf?]
  by_cases hdir : node.isDirectory
  · simp [hdir]
  · cases htext : path.fileName?.bind Utf8.decode? with
    | none => simp [hdir]
    | some text => simp [hdir]

theorem extensionName?_self (p : Path) : extensionName? p p = none := by
  rw [extensionName?_eq, textsBelow_self]
  rfl

theorem mem_build_iff (hwell : fs.tree.WellFormed) : n ∈ (build fs directories suffix).names ↔
    ∃ p ∈ directories, ∃ way, HasExtension fs suffix p way n := by
  simp only [build, mem_ofNames, List.mem_flatMap, List.mem_filterMap]
  refine exists_congr fun p => and_congr_right fun _ => ?_
  constructor
  · rintro ⟨meeting, hmem, hname⟩
    cases meeting with
    | failed path e => cases hname
    | entry path node =>
        obtain ⟨hdir, hends, hcalled⟩ := nameOf?_eq_some_iff.mp hname
        rcases (mem_meetings_iff hwell).mp hmem with ⟨rfl, -⟩ | ⟨way, hmeets, rfl⟩
        · rw [extensionName?_self] at hcalled
          cases hcalled
        · exact ⟨way, ⟨node, hmeets, hdir⟩, hends, hcalled⟩
  · rintro ⟨way, ⟨node, hmeets, hdir⟩, hends, hcalled⟩
    exact ⟨.entry _ node, (mem_meetings_iff hwell).mpr (.inr ⟨way, hmeets, rfl⟩),
      nameOf?_eq_some_iff.mpr ⟨hdir, hends, hcalled⟩⟩

theorem HasExtension.exists_locate (h : HasExtension fs suffix p way n) :
    ∃ d, fs.locate p = .ok d := by
  obtain ⟨node, hmeets, -⟩ := h.meets
  exact hmeets.exists_locate

/-- An extension is there wherever the same shows on the way to it. -/
theorem HasExtension.transfer (h : HasExtension fs suffix p way n) (hwell : fs.tree.WellFormed)
    (hwell' : fs'.tree.WellFormed) (hsuper : fs'.superuser = fs.superuser)
    (hp : fs.locate p = .ok d) (hp' : fs'.locate p = .ok d)
    (hlook : ∀ before, before <+: way → fs'.tree.look (d ++ before) = fs.tree.look (d ++ before)) :
    HasExtension fs' suffix p way n := by
  obtain ⟨⟨node, hmeets, hdir⟩, hends, hcalled⟩ := h
  obtain ⟨node', hmeets', hface⟩ := hmeets.transfer hwell hwell' hsuper hp hp' hlook
  refine ⟨⟨node', hmeets', ?_⟩, hends, hcalled⟩
  rwa [Node.isDirectory_eq_of_face hface]

theorem HasExtension.of_sameFiles (h : HasExtension fs suffix p way n) (hsame : SameFiles fs fs')
    (hwell : fs.tree.WellFormed) (hwell' : fs'.tree.WellFormed) :
    HasExtension fs' suffix p way n := by
  obtain ⟨d, hp⟩ := h.exists_locate
  obtain ⟨node, hfind⟩ := locate_eq_ok_iff.mp hp
  obtain ⟨node', hfind', -⟩ := hsame.keeps.find hfind
  exact h.transfer hwell hwell' hsame.superuser_eq hp (locate_eq_ok_iff.mpr ⟨node', hfind'⟩)
    fun before _ => hsame.look (d ++ before)

/-- The directory `l` is on the way from `d` to what stands at `d ++ way`. -/
def OnTheWay (l d : Location) (way : List Bytes) : Prop := d <+: l ∧ l <+: d ++ way

theorem onTheWay_iff : OnTheWay l d way ↔ ∃ before, before <+: way ∧ l = d ++ before := by
  constructor
  · rintro ⟨⟨before, rfl⟩, h⟩
    exact ⟨before, (List.prefix_append_right_inj d).mp h, rfl⟩
  · rintro ⟨before, h, rfl⟩
    exact ⟨List.prefix_append _ _, (List.prefix_append_right_inj d).mpr h⟩

/-- A walk comes to no extension through a directory that it cannot list. -/
theorem HasExtension.not_onTheWay (h : HasExtension fs suffix p way n) (hwell : fs.tree.WellFormed)
    (hp : fs.locate p = .ok d) {mode : Mode} (hl : fs.tree.look l = some (.directory mode))
    (hread : ¬ fs.permits .read mode) : ¬ OnTheWay l d way := by
  obtain ⟨⟨node, hmeets, hdir⟩, -, -⟩ := h
  obtain ⟨hat, hreadable⟩ := hmeets.places hwell hp
  rw [onTheWay_iff]
  rintro ⟨before, hbefore, rfl⟩
  by_cases hend : before = way
  · subst hend
    rw [Node.look, hat] at hl
    cases node <;> simp [Node.face, Node.isDirectory] at hl hdir
  · obtain ⟨mode', hmode', hread'⟩ := hreadable before hbefore hend
    rw [hl] at hmode'
    obtain rfl := Face.directory.inj (Option.some.inj hmode')
    exact hread hread'

/-- Below a directory that can no longer be listed extensions are lost, and only
there. -/
theorem hasExtension_veiled_iff (h : Veiled fs fs' directories l) (hwell : fs.tree.WellFormed)
    (hmem : p ∈ directories) (hp : fs.locate p = .ok d) : HasExtension fs' suffix p way n ↔
      HasExtension fs suffix p way n ∧ ¬ OnTheWay l d way := by
  obtain ⟨mode, hmode, hread⟩ := h.unreadable
  have hp' := (h.locate p hmem d).mpr hp
  have hlook (haway : ¬ OnTheWay l d way) (before : List Bytes) (hbefore : before <+: way) :
      fs'.tree.look (d ++ before) = fs.tree.look (d ++ before) :=
    h.look _ fun heq => haway (onTheWay_iff.mpr ⟨before, hbefore, heq.symm⟩)
  constructor
  · intro hext
    have haway := hext.not_onTheWay h.wellFormed hp' hmode hread
    exact ⟨hext.transfer h.wellFormed hwell h.superuser_eq.symm hp' hp
      fun before hbefore => (hlook haway before hbefore).symm, haway⟩
  · rintro ⟨hext, haway⟩
    exact hext.transfer hwell h.wellFormed h.superuser_eq hp hp' (hlook haway)

/-- A catalog is the set of the extensions below its directories, in order.  So
neither the order nor the repetition of directories counts, nor the order in
which directories list their entries; the catalog of more directories is the
union of their catalogs; and a directory that can no longer be listed takes away
the extensions below it, and no other. -/
theorem build_exact (hwell : fs.tree.WellFormed) (directories : List Path) (suffix : String) :
    (build fs directories suffix).names.Pairwise (fun m n => Utf8.encode m < Utf8.encode n) ∧
    (∀ n, n ∈ (build fs directories suffix).names ↔
      ∃ p ∈ directories, ∃ way, HasExtension fs suffix p way n) ∧
    (∀ others, (∀ p, p ∈ others ↔ p ∈ directories) →
      build fs others suffix = build fs directories suffix) ∧
    (∀ fs', SameFiles fs fs' → fs'.tree.WellFormed →
      build fs' directories suffix = build fs directories suffix) ∧
    (∀ others, build fs (directories ++ others) suffix =
      ofNames ((build fs directories suffix).names ++ (build fs others suffix).names)) ∧
    ∀ fs' l, Veiled fs fs' directories l → ∀ n, n ∈ (build fs' directories suffix).names ↔
      ∃ p ∈ directories, ∃ d way, fs.locate p = .ok d ∧ HasExtension fs suffix p way n ∧
        ¬ OnTheWay l d way := by
  refine ⟨?_, fun n => mem_build_iff hwell, fun others h => ?_, fun fs' hsame hwell' => ?_,
    fun others => ?_, fun fs' l hveiled n => ?_⟩
  · exact (pairwise_ofNames _).imp Utf8.encode_lt_encode
  · refine ofNames_ext fun n =>
      (mem_build_iff hwell).trans (Iff.trans ?_ (mem_build_iff hwell).symm)
    exact exists_congr fun p => and_congr_left fun _ => h p
  · refine ofNames_ext fun n =>
      (mem_build_iff hwell').trans (Iff.trans ?_ (mem_build_iff hwell).symm)
    exact exists_congr fun p => and_congr_right fun _ => exists_congr fun way =>
      ⟨fun hext => hext.of_sameFiles hsame.symm hwell' hwell,
        fun hext => hext.of_sameFiles hsame hwell hwell'⟩
  · refine ofNames_ext fun n => (mem_build_iff hwell).trans (Iff.trans ?_ mem_ofNames.symm)
    rw [List.mem_append, mem_build_iff hwell, mem_build_iff hwell]
    simp only [List.mem_append, or_and_right, exists_or]
  · -- Each directory is where it was, and below it the extensions on the way through the veil are
    -- lost.
    rw [mem_build_iff hveiled.wellFormed]
    refine exists_congr fun p => and_congr_right fun hmem => ?_
    constructor
    · rintro ⟨way, hext⟩
      obtain ⟨d, hp'⟩ := hext.exists_locate
      have hp := (hveiled.locate p hmem d).mp hp'
      exact ⟨d, way, hp, (hasExtension_veiled_iff hveiled hwell hmem hp).mp hext⟩
    · rintro ⟨d, way, hp, hext⟩
      exact ⟨way, (hasExtension_veiled_iff hveiled hwell hmem hp).mpr hext⟩

/-- A search directory with a link, a pipe and a directory called like extensions,
and another one behind a link. -/
def sharedHost : FileSystem where
  tree := .directory 0o755 [
    (Utf8.encode "lib", .directory 0o755 [
      (Utf8.encode "site-packages", .directory 0o755 [
        (Utf8.encode "zeta", .directory 0o755 [
          (Utf8.encode "fast.so", .file 0o644 []),
          (Utf8.encode "dir.so", .directory 0o755 [(Utf8.encode "slow.so", .pipe 0o644)])]),
        (Utf8.encode "link.so", .link "zeta"),
        (Utf8.encode "readme", .file 0o644 [])]),
      (Utf8.encode "math.so", .file 0o644 [])]),
    (Utf8.encode "opt", .directory 0o755 [
      (Utf8.encode "math.so", .file 0o644 []),
      (Utf8.encode "fast.so", .file 0o644 [])]),
    (Utf8.encode "local", .link "opt")]
  superuser := false

/-- A package that can no longer be listed loses its names, and nothing else
does. -/
theorem build_exact_sealed :
    sharedHost.tree.WellFormed ∧
    (build sharedHost ["/lib", "/local"] ".so").names =
      ["fast", "link", "math", "zeta.dir.so.slow", "zeta.fast"] ∧
    build sharedHost ["/local", "/lib", "/local"] ".so" =
      build sharedHost ["/lib", "/local"] ".so" ∧
    ∃ sealed, sharedHost.setMode "/lib/site-packages/zeta" 0o311 = .ok sealed ∧
      (build sealed ["/lib", "/local"] ".so").names = ["fast", "link", "math"] ∧
      ∀ n, n ∈ ["fast", "link", "math"] ↔ ∃ p ∈ (["/lib", "/local"] : List Path), ∃ d way,
        sharedHost.locate p = .ok d ∧ HasExtension sharedHost ".so" p way n ∧
          ¬ OnTheWay (["lib", "site-packages", "zeta"].map Utf8.encode) d way := by
  have hwell : sharedHost.tree.WellFormed := by decide +kernel
  have hnames : build sharedHost ["/lib", "/local"] ".so" =
      ⟨["fast", "link", "math", "zeta.dir.so.slow", "zeta.fast"]⟩ := by
    have hmeet : (["/lib", "/local"] : List Path).flatMap (fun d =>
        (meetings sharedHost d).filterMap (nameOf? d ".so")) =
          ["zeta.fast", "zeta.dir.so.slow", "link", "math", "math", "fast"] := by decide +kernel
    rw [build, hmeet]
    exact ofNames_eq (by decide +kernel) fun n => by simp only [List.mem_cons]; grind
  have hsealed : ∃ sealed, sharedHost.setMode "/lib/site-packages/zeta" 0o311 = .ok sealed ∧
      (["/lib", "/local"] : List Path).flatMap (fun d =>
        (meetings sealed d).filterMap (nameOf? d ".so")) = ["link", "math", "math", "fast"] :=
    ⟨_, rfl, by decide +kernel⟩
  obtain ⟨sealed, hmode, hmeet⟩ := hsealed
  have hnames' : build sealed ["/lib", "/local"] ".so" = ⟨["fast", "link", "math"]⟩ := by
    rw [build, hmeet]
    exact ofNames_eq (by decide +kernel) fun n => by simp only [List.mem_cons]; grind
  have hveiled : Veiled sharedHost sealed ["/lib", "/local"]
      (["lib", "site-packages", "zeta"].map Utf8.encode) :=
    veiled_setMode hwell rfl hmode (by decide) (by decide) _
  obtain ⟨-, -, hrepeat, -, -, hveil⟩ := build_exact hwell ["/lib", "/local"] ".so"
  refine ⟨hwell, congrArg Catalog.names hnames, hrepeat _ fun p => ?_, sealed, hmode,
    congrArg Catalog.names hnames', fun n => ?_⟩
  · simp only [List.mem_cons]
    grind
  · rw [← hveil sealed _ hveiled n, hnames']

end Catalog

end Confinement
