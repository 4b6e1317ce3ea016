import Confinement.Proofs.FileSystem.Finding

/-!
# How far a path reaches

`reach? fs p names` is the last place that the path `p` leads to when it goes
on by the names one after the other, with all links on the way followed.  A
walk that comes to a missing name ends there (`reach?_of_walk`).
-/

namespace Confinement

open Confinement.Path (IsName)

namespace FileSystem

variable {fs : FileSystem} {p : Path} {d : Location} {names : List Bytes} {name : Bytes} {n : Nat}

/-- The last place to which a path leads when it goes on by the names one after
the other. -/
def reach? (fs : FileSystem) (p : Path) : (names : List Bytes) → Option Location
  | [] => (fs.locate p).toOption
  | name :: names => fs.reach? (p.child name) names <|> (fs.locate p).toOption

theorem toOption_locate_eq_none (hnone : ∀ l, fs.locate p ≠ .ok l) :
    (fs.locate p).toOption = none := by
  cases hlocate : fs.locate p with
  | error => rfl
  | ok l => exact absurd hlocate (hnone l)

/-- A path that leads nowhere at all has no such place. -/
theorem reach?_eq_none
    (hnone : ∀ before, before <+: names → ∀ l, fs.locate (before.foldl Path.child p) ≠ .ok l) :
    fs.reach? p names = none := by
  induction names generalizing p with
  | nil => exact toOption_locate_eq_none (hnone [] List.nil_prefix)
  | cons name names ih =>
      have hbeyond : ∀ before, before <+: names →
          ∀ l, fs.locate (before.foldl Path.child (p.child name)) ≠ .ok l :=
        fun before hbefore => hnone (name :: before) (List.cons_prefix_cons.mpr ⟨rfl, hbefore⟩)
      have hhere : (fs.locate p).toOption = none :=
        toOption_locate_eq_none (hnone [] List.nil_prefix)
      rw [reach?, ih hbeyond, hhere]
      rfl

/-- A place that the path leads to, and beyond which it leads nowhere, is the
last one. -/
theorem reach?_append {before more : List Bytes}
    (hlead : fs.locate (before.foldl Path.child p) = .ok d)
    (hstop : ∀ beyond, beyond <+: more → beyond ≠ [] →
      ∀ l, fs.locate ((before ++ beyond).foldl Path.child p) ≠ .ok l) :
    fs.reach? p (before ++ more) = some d := by
  induction before generalizing p with
  | nil =>
      have hhere : fs.locate p = .ok d := hlead
      cases more with
      | nil => rw [List.nil_append, reach?, hhere]; rfl
      | cons name more =>
          have hnone : fs.reach? (p.child name) more = none := reach?_eq_none fun beyond hbeyond =>
            hstop (name :: beyond) (List.cons_prefix_cons.mpr ⟨rfl, hbeyond⟩) (List.cons_ne_nil _ _)
          rw [List.nil_append, reach?, hnone, hhere]
          rfl
  | cons name before ih =>
      rw [List.cons_append, reach?, ih hlead hstop]
      rfl

/-- A path that leads somewhere has a last such place. -/
theorem exists_reach?_eq_some (hlead : fs.locate p = .ok d) (names : List Bytes) :
    ∃ b, fs.reach? p names = some b := by
  cases names with
  | nil => exact ⟨d, by rw [reach?, hlead]; rfl⟩
  | cons name names =>
      rw [reach?, hlead]
      cases fs.reach? (p.child name) names with
      | none => exact ⟨d, rfl⟩
      | some b => exact ⟨b, rfl⟩

/-- A path is walked down to the first missing name. -/
theorem reach?_of_walk {before more : List Bytes} (hp : p.bytes ≠ [])
    (hnames : ∀ key ∈ before ++ name :: more, IsName key)
    (hfits : ((before ++ name :: more).foldl Path.child p).Fits) (hn : n ≤ linkLimit)
    (hwalk : fs.Walk n (fs.start p) (p.words ++ before) d) (hd : fs.Searchable d)
    (hfree : fs.tree.look (d ++ [name]) = none) :
    fs.reach? p (before ++ name :: more) = some d := by
  have hbefore : ∀ key ∈ before, IsName key :=
    fun key hkey => hnames key (List.mem_append_left _ hkey)
  have hmore : ∀ key ∈ name :: more, IsName key :=
    fun key hkey => hnames key (List.mem_append_right _ hkey)
  refine reach?_append ?_ fun beyond hbeyond hne l hl => ?_
  · -- The beginning of the path that is walked fits, as the whole does.
    obtain ⟨mode, hmode, -⟩ := id hd
    obtain ⟨es, hat⟩ := Node.look_eq_directory_iff.mp hmode
    obtain ⟨start, hstart⟩ := Path.exists_foldl_child_bytes_eq p hbefore
    obtain ⟨rest, hrest⟩ := Path.exists_foldl_child_bytes_eq (before.foldl Path.child p) hmore
    have hbytes : (before.foldl Path.child p).bytes ≠ [] := by
      rw [hstart]
      exact List.append_ne_nil_of_left_ne_nil hp _
    rw [List.foldl_append] at hfits
    refine locate_eq_ok_iff.mpr ⟨_, find_true_eq_ok_iff.mpr
      ⟨hfits.of_bytes_eq hbytes hrest, ⟨n, hn, ?_⟩, hat, fun _ => hd⟩⟩
    rwa [Path.words_foldl_child p hbefore, FileSystem.start, Path.isAbsolute_foldl_child p hbefore]
  · -- A place further on would lie behind the missing name.
    obtain ⟨key, beyond, rfl⟩ := List.exists_cons_of_ne_nil hne
    have hinit : before ++ key :: beyond <+: before ++ name :: more :=
      (List.prefix_append_right_inj before).mpr hbeyond
    obtain ⟨rfl, -⟩ := List.cons_prefix_cons.mp hbeyond
    have hall : ∀ key' ∈ before ++ key :: beyond, IsName key' :=
      fun key' hkey => hnames key' (hinit.subset hkey)
    obtain ⟨node, hfind⟩ := locate_eq_ok_iff.mp hl
    obtain ⟨-, ⟨m, -, hwalk'⟩, -⟩ := find_true_eq_ok_iff.mp hfind
    rw [Path.words_foldl_child p hall, start, Path.isAbsolute_foldl_child p hall,
      ← List.append_assoc]
      at hwalk'
    obtain ⟨n₁, n₂, x, -, hleft, hright⟩ := hwalk'.split
    obtain ⟨-, rfl⟩ := hleft.unique hwalk
    have hthere := (hright.enters (hmore key List.mem_cons_self)).2
    rw [hfree] at hthere
    cases hthere

end FileSystem

end Confinement
