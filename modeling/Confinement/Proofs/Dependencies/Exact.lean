import Confinement.Proofs.Dependencies.Depth
import Confinement.Proofs.Dependencies.Pursuit

/-!
# Exactly what is missing is opened

With a loader whose answers do not change and do not fail, the dependencies of
an object are opened without fail, and they are the objects that are missing
for it, each once (`loadDependencies_exact`).  Needed names may run in a
circle, and may lead back to the object itself.

* `answered_loadNeeded`: where there is room, what the actions do is a
  `Pursuit`;
* `eq_of_findLibrary_same`: names that are found nowhere but below search
  directories are found at different paths.
-/

namespace Confinement

/-! ## One path, one name -/

section

variable {fs : FileSystem} {directories : List Path} {name name' : String} {found found' : Path}

/-- Different names lead to different paths, even as paths are compared by
their components. -/
theorem eq_of_findLibrary_same (h : findLibrary fs name directories = some found)
    (h' : findLibrary fs name' directories = some found') (hsame : found.Same found') :
    name = name' := by
  obtain ⟨directory, -, rfl, hname, -⟩ := exists_child_of_findLibrary h
  obtain ⟨directory', -, rfl, hname', -⟩ := exists_child_of_findLibrary h'
  have hturns := hsame.turns_eq
  rw [Path.turns_child _ hname, Path.turns_child _ hname'] at hturns
  exact Utf8.encode_injective (List.singleton_inj.mp (List.append_inj' hturns rfl).2)

end

/-- A loader that lists what objects need, and has nothing mapped, answers as it
lists. -/
theorem Loader.consistent_listing (needs : Path → List String) (fs : FileSystem) (st : Unit)
    (calls : List Call) :
    (Loader.listing needs).Consistent fs ⟨needs, fun _ => false⟩ st calls := by
  apply Loader.Consistent.of_forall
  intro st call
  cases call with
  | load path binding => exact ⟨0, rfl⟩
  | needed path => rfl
  | isResident name => rfl
  | invoke origin symbol => trivial

namespace Action

variable {σ : Type} {ld : Loader σ} {fs : FileSystem} {answers : Answers}
  {directories : List Path} {path : Path}

/-! ## What the actions do -/

/-- Between two visits names were looked at, and the objects opened on the way
were added to those open before. -/
def Pursues (fs : FileSystem) (answers : Answers) (directories : List Path) (names : List String)
    (before after : Visit) (calls : List Call) : Prop :=
  ∃ opened units, Pursuit answers (findLibrary fs · directories) names before.seen calls opened
      after.seen ∧
    after.opened = before.opened ++ units ∧ units.map CodeUnit.origin = opened.map Prod.snd

namespace Pursues

variable {names names' : List String} {before middle after : Visit} {calls calls' : List Call}

theorem append (h : Pursues fs answers directories names before middle calls)
    (h' : Pursues fs answers directories names' middle after calls') :
    Pursues fs answers directories (names ++ names') before after (calls ++ calls') := by
  obtain ⟨opened, units, hpursuit, hunits, horigins⟩ := h
  obtain ⟨opened', units', hpursuit', hunits', horigins'⟩ := h'
  refine ⟨opened ++ opened', units ++ units', hpursuit.append hpursuit', ?_, ?_⟩
  · rw [hunits', hunits, List.append_assoc]
  · rw [List.map_append, List.map_append, horigins, horigins']

theorem kept (h : Pursues fs answers directories names before after calls) :
    before.seen ⊆ after.seen := by
  obtain ⟨_, _, hpursuit, -⟩ := h
  exact hpursuit.kept

theorem opened {visit : Visit} {name : String} {found : Path} {unit : CodeUnit}
    (hnew : name ∉ visit.seen) (hmapped : answers.mapped name = false)
    (hfind : findLibrary fs name directories = some found) (hunit : unit.origin = found)
    (h : Pursues fs answers directories (answers.needs found)
      { visit with seen := name :: visit.seen } after calls) :
    Pursues fs answers directories [name] visit { after with opened := after.opened ++ [unit] }
      (.isResident name :: .needed found :: calls ++ [.load found .global]) := by
  obtain ⟨opened, units, hpursuit, hunits, horigins⟩ := h
  refine ⟨opened ++ [(name, found)], units ++ [unit], .opened hnew hmapped hfind hpursuit, ?_, ?_⟩
  · rw [hunits, List.append_assoc]
  · rw [List.map_append, List.map_append, horigins, List.map_singleton, List.map_singleton, hunit]

end Pursues

/-- Where there is room, a name is looked at as a pursuit has it. -/
theorem answered_pursue {depth : Nat}
    (hdeeper : ∀ found visit, Answered ld fs answers (loadNeeded ld directories depth found visit)
      fun after calls => Room fs directories depth visit.seen →
        ∃ rest, calls = .needed found :: rest ∧
          Pursues fs answers directories (answers.needs found) visit after rest)
    (visit : Visit) (name : String) :
    Answered ld fs answers (pursue ld directories depth path visit name)
      fun after calls => Room fs directories (depth + 1) visit.seen →
        Pursues fs answers directories [name] visit after calls := by
  rw [pursue]
  split
  · rename_i hcontains
    exact answered_pure fun _ => ⟨[], [], .again (by simpa using hcontains), by simp, rfl⟩
  · rename_i hcontains
    have hnew : name ∉ visit.seen := by simpa using hcontains
    -- A name that is mapped, or leads nowhere, is left alone.
    have hidle (h : answers.mapped name = false → findLibrary fs name directories = none) :
        Pursues fs answers directories [name] visit { visit with seen := name :: visit.seen }
          [.isResident name] :=
      ⟨[], [], .idle hnew h, by simp, rfl⟩
    apply answered_isResident.bind
    intro mapped
    cases mapped with
    | true =>
        apply answered_pure
        rintro _ ⟨hmapped, rfl⟩ -
        exact hidle fun h => by rw [h] at hmapped; cases hmapped
    | false =>
        apply Answered.files_bind
        cases hfind : findLibrary fs name directories with
        | none =>
            apply Answered.note_bind
            apply answered_pure
            rintro _ ⟨-, rfl⟩ -
            exact hidle fun _ => hfind
        | some found =>
            apply (hdeeper found _).bind
            intro after
            apply Answered.note_bind
            apply answered_load.bind
            intro unit
            apply answered_pure
            rintro _ ⟨hunit, rfl⟩ below hbelow _ ⟨hmapped, rfl⟩ hroom
            obtain ⟨rest, rfl, hpursues⟩ := hbelow (hroom.deeper hnew (by rw [hfind]; rfl))
            exact .opened hnew hmapped.symm hfind hunit hpursues

theorem answered_foldlM_pursue {depth : Nat}
    (hdeeper : ∀ found visit, Answered ld fs answers (loadNeeded ld directories depth found visit)
      fun after calls => Room fs directories depth visit.seen →
        ∃ rest, calls = .needed found :: rest ∧
          Pursues fs answers directories (answers.needs found) visit after rest)
    (names : List String) (visit : Visit) :
    Answered ld fs answers (names.foldlM (pursue ld directories depth path) visit)
      fun after calls => Room fs directories (depth + 1) visit.seen →
        Pursues fs answers directories names visit after calls := by
  induction names generalizing visit with
  | nil => exact answered_pure fun _ => ⟨[], [], .nothing, by simp, rfl⟩
  | cons name names ih =>
      rw [List.foldlM_cons]
      apply (answered_pursue hdeeper visit name).bind
      intro middle
      apply (ih middle).mono
      intro after calls' hrest calls hfirst hroom
      have hname := hfirst hroom
      exact hname.append (hrest (hroom.mono hname.kept))

theorem answered_loadNeeded (depth : Nat) (path : Path) (visit : Visit) :
    Answered ld fs answers (loadNeeded ld directories depth path visit)
      fun after calls => Room fs directories depth visit.seen →
        ∃ rest, calls = .needed path :: rest ∧
          Pursues fs answers directories (answers.needs path) visit after rest := by
  induction depth generalizing path visit with
  | zero => exact answered_pure fun hroom => absurd hroom Room.not_zero
  | succ depth ih =>
      rw [loadNeeded_succ]
      apply answered_needed.bind
      intro names
      apply (answered_foldlM_pursue ih names visit).mono
      rintro after calls hcalls _ ⟨rfl, rfl⟩ hroom
      exact ⟨calls, rfl, hcalls hroom⟩

/-! ## The dependencies of an object -/

/-- The units are those that were asked for; they go by the names that are
missing, each at a path of its own, and the needs of each were asked for. -/
structure Exact (answers : Answers) (find : String → Option Path) (path : Path)
    (units : List CodeUnit) (calls : List Call) : Prop where
  opened : calls.filterMap Call.opened? = units.map fun unit => (unit.origin, .global)
  missing : ∃ names : List String, names.Nodup ∧
    names.map find = units.map (fun unit => some unit.origin) ∧
    ∀ name, name ∈ names ↔ answers.Missing find path name
  once : (units.map CodeUnit.origin).Pairwise fun p q => ¬ p.Same q
  examined : ∃ rest, calls.filterMap Call.examined? = path :: rest ∧
    rest.Perm (units.map CodeUnit.origin)

theorem Pursuit.exact {calls : List Call} {opened : List (String × Path)} {after : List String}
    {units : List CodeUnit}
    (h : Pursuit answers (findLibrary fs · directories) (answers.needs path) [] calls opened after)
    (hunits : units.map CodeUnit.origin = opened.map Prod.snd) :
    Exact answers (findLibrary fs · directories) path units (.needed path :: calls) where
  opened := by
    have hpairs := congrArg (List.map fun p => (p, Binding.global)) hunits
    rw [List.map_map, List.map_map] at hpairs
    exact h.opened_eq.trans hpairs.symm
  missing := by
    refine ⟨opened.map Prod.fst, h.nodup, ?_, fun name => h.mem_iff_missing⟩
    have hsome := congrArg (List.map some) hunits
    rw [List.map_map, List.map_map] at hsome
    rw [List.map_map]
    exact (List.map_congr_left fun x hx => (h.found x hx).2).trans hsome.symm
  once := by
    rw [hunits, List.pairwise_map]
    have hnames := List.pairwise_map.mp h.nodup
    refine hnames.imp_of_mem fun {x y} hx hy hne hsame => hne ?_
    exact eq_of_findLibrary_same (h.found x hx).2 (h.found y hy).2 hsame
  examined := ⟨_, rfl, hunits ▸ h.examined_perm⟩

/-- The units were opened, in order, by the pursuit of what the object at `path`
needs, begun with nothing seen. -/
def Course (answers : Answers) (find : String → Option Path) (path : Path)
    (units : List CodeUnit) (calls : List Call) : Prop :=
  ∃ rest opened after, calls = .needed path :: rest ∧
    Pursuit answers find (answers.needs path) [] rest opened after ∧
    units.map CodeUnit.origin = opened.map Prod.snd

theorem exists_course (answers : Answers) (path : Path) (directories : List Path)
    (s : Session σ) :
    ∃ calls, Asks calls s ((loadDependencies ld path directories).run s).2 ∧
      (ld.Consistent s.fs answers s.loader calls →
        ∃ units, ((loadDependencies ld path directories).run s).1 = .ok units ∧
          Course answers (findLibrary s.fs · directories) path units calls) := by
  apply Answered.closing _ rfl
  apply Answered.files_bind
  apply (answered_loadNeeded _ path {}).bind
  intro after
  apply answered_pure
  intro calls hcalls
  obtain ⟨rest, rfl, opened, units, hpursuit, hunits, horigins⟩ :=
    hcalls (.initial s.fs directories)
  rw [hunits, List.append_nil]
  exact ⟨rest, opened, after.seen, rfl, hpursuit, horigins⟩

theorem exists_exact (answers : Answers) (path : Path) (directories : List Path) (s : Session σ) :
    ∃ calls, Asks calls s ((loadDependencies ld path directories).run s).2 ∧
      (ld.Consistent s.fs answers s.loader calls →
        ∃ units, ((loadDependencies ld path directories).run s).1 = .ok units ∧
          Exact answers (findLibrary s.fs · directories) path units calls) := by
  obtain ⟨calls, hasks, hcourse⟩ := exists_course answers path directories s
  refine ⟨calls, hasks, fun hconsistent => ?_⟩
  obtain ⟨units, hunits, rest, opened, after, rfl, hpursuit, horigins⟩ := hcourse hconsistent
  exact ⟨units, hunits, Pursuit.exact hpursuit horigins⟩

/-- With answers that do not change and do not fail, exactly what is missing is
opened, each object once and for all to use; and the bound on the depth makes no
difference. -/
theorem loadDependencies_exact (ld : Loader σ) (path : Path) (directories : List Path)
    (s : Session σ) :
    (∀ depth, s.fs.tree.nameCount < depth →
      (loadWithin ld path directories depth).run s =
        (loadDependencies ld path directories).run s) ∧
    ∃ calls, Asks calls s ((loadDependencies ld path directories).run s).2 ∧
      ∀ answers, ld.Consistent s.fs answers s.loader calls →
        ∃ units, ((loadDependencies ld path directories).run s).1 = .ok units ∧
          Exact answers (findLibrary s.fs · directories) path units calls := by
  refine ⟨fun depth hdepth => run_loadWithin_eq ld path directories s hdepth, ?_⟩
  obtain ⟨calls, hasks, -⟩ := traces_loadDependencies path s rfl
  refine ⟨calls, hasks, fun answers hconsistent => ?_⟩
  obtain ⟨calls', hasks', hexact⟩ := exists_exact answers path directories s
  obtain rfl := hasks.unique hasks'
  exact hexact hconsistent

/-- A process that sees two objects. -/
def ringHost : Session Unit where
  fs := { tree := .directory 0o755 [
    (Utf8.encode "u", .directory 0o755 [
      (Utf8.encode "a.so", .file 0o644 []), (Utf8.encode "b.so", .file 0o644 [])])] }
  loader := ()

/-- Each of them needs the other. -/
def ringNeeds (path : Path) : List String := if path = "/u/a.so" then ["b.so"] else ["a.so"]

/-- The needs of an object lead back to it, and both objects are opened. -/
theorem loadDependencies_exact_ring : ∃ units calls,
    Asks calls ringHost
      ((loadDependencies (.listing ringNeeds) "/u/a.so" ["/u"]).run ringHost).2 ∧
    ((loadDependencies (.listing ringNeeds) "/u/a.so" ["/u"]).run ringHost).1 = .ok units ∧
    Exact ⟨ringNeeds, fun _ => false⟩ (findLibrary ringHost.fs · ["/u"]) "/u/a.so" units calls ∧
    units.map CodeUnit.origin = ["/u/a.so", "/u/b.so"] := by
  obtain ⟨-, calls, hasks, hexact⟩ :=
    loadDependencies_exact (.listing ringNeeds) "/u/a.so" ["/u"] ringHost
  obtain ⟨units, hunits, hdependencies⟩ := hexact _ (Loader.consistent_listing _ _ _ _)
  refine ⟨units, calls, hasks, hunits, hdependencies, ?_⟩
  have hrun : ((loadDependencies (.listing ringNeeds) "/u/a.so" ["/u"]).run
      ringHost).1.toOption.map (·.map (·.origin)) =
        some ([Path.ofString "/u/a.so", Path.ofString "/u/b.so"]) := by
    decide +kernel
  rw [hunits] at hrun
  exact Option.some.inj hrun

end Action

end Confinement
