import Confinement.Proofs.Extensions
import Confinement.Proofs.Session.Preload
import Mathlib.Data.Option.Basic

/-!
# The two policies of a preload

One policy ends a preload at the first name that fails, the other tries all
names and reports the failures together.  Whether a name fails, and why, is
settled by the name alone if the loader is uniform: whether an object opens
does not depend on what was asked before.  Both policies then see the same
failures (`Loader.refusals`), and differ only in what they do with them
(`traces_preloadEach_collectAll`, `traces_preloadEach_failFast`).
-/

namespace Confinement

variable {σ : Type}

/-! ## Names that fail -/

/-- Whether an object opens, and why it does not, depends on its path and the
binding alone. -/
def Loader.Uniform (ld : Loader σ) (fs : FileSystem) : Prop :=
  ∀ path binding st st',
    fault? (ld.load path binding fs st).1 = fault? (ld.load path binding fs st').1

/-- A loader without a state that opens every object but one. -/
def Loader.refusing (refused : Path) : Loader Unit where
  load path _ _ s := (if path = refused then .error (.opening path "bad ELF") else .ok 0, s)
  needed _ _ s := (.ok [], s)
  isResident _ _ s := (false, s)
  invoke _ _ _ fs s := (.back (.ok ()), fs, s)
  close _ s := s

theorem Loader.uniform_refusing (refused : Path) (fs : FileSystem) :
    (Loader.refusing refused).Uniform fs :=
  fun _ _ _ _ => rfl

/-- The questions by which a name is tried: one, if the name leads somewhere. -/
def trials (fs : FileSystem) (directories : List Path) (suffix name : String) : List Call :=
  (extensionOrigin fs directories suffix name).toList.map (.load · .global)

namespace Loader

variable (ld : Loader σ) (st : σ) (fs : FileSystem) (directories : List Path) (suffix : String)

/-- Why a name cannot be preloaded, if it cannot: it leads nowhere, or its
object does not open. -/
def refusal? (name : String) : Option String :=
  match extensionOrigin fs directories suffix name with
  | none => some ("no module named " ++ name)
  | some origin => (fault? (ld.load origin .global fs st).1).map UnitError.message

/-- The names that cannot be preloaded, each with the reason. -/
def refusals (names : List String) : List (String × String) :=
  names.filterMap fun name => (ld.refusal? st fs directories suffix name).map (name, ·)

variable {ld st fs directories suffix} {name reason : String} {names : List String}

theorem refusals_cons_of_none (h : ld.refusal? st fs directories suffix name = none) :
    ld.refusals st fs directories suffix (name :: names) =
      ld.refusals st fs directories suffix names := by
  rw [refusals, List.filterMap_cons_none (by rw [h]; rfl)]
  rfl

theorem refusals_cons_of_some (h : ld.refusal? st fs directories suffix name = some reason) :
    ld.refusals st fs directories suffix (name :: names) =
      (name, reason) :: ld.refusals st fs directories suffix names := by
  rw [refusals, List.filterMap_cons_some (by rw [h]; rfl)]
  rfl

end Loader

/-- The residents are those of the names, in order, each opened where its name
leads. -/
structure Represent (fs : FileSystem) (directories : List Path) (suffix : String)
    (names : List String) (residents : List Resident) : Prop where
  names_eq : residents.map (·.name) = names
  origin : ∀ r ∈ residents, extensionOrigin fs directories suffix r.name = some r.origin

namespace Represent

variable {fs : FileSystem} {directories : List Path} {suffix : String} {names : List String}
  {resident : Resident} {residents residents' : List Resident}

theorem nil : Represent fs directories suffix [] [] := ⟨rfl, by simp⟩

theorem cons (horigin : extensionOrigin fs directories suffix resident.name = some resident.origin)
    (h : Represent fs directories suffix names residents) :
    Represent fs directories suffix (resident.name :: names) (resident :: residents) where
  names_eq := by rw [List.map_cons, h.names_eq]
  origin := List.forall_mem_cons.mpr ⟨horigin, h.origin⟩

theorem map_eq (h : Represent fs directories suffix names residents) :
    residents.map (fun r => (r.name, some r.origin)) =
      names.map fun name => (name, extensionOrigin fs directories suffix name) := by
  rw [← h.names_eq, List.map_map]
  apply List.map_congr_left
  intro r hr
  rw [Function.comp_apply, h.origin r hr]

theorem unique (h : Represent fs directories suffix names residents)
    (h' : Represent fs directories suffix names residents') :
    residents.map (fun r => (r.name, r.origin)) = residents'.map fun r => (r.name, r.origin) := by
  have hinjective : Function.Injective (Prod.map id some : String × Path → String × Option Path) :=
    Function.injective_id.prodMap (Option.some_injective Path)
  apply List.map_injective_iff.mpr hinjective
  rw [List.map_map, List.map_map]
  exact h.map_eq.trans h'.map_eq.symm

end Represent

namespace Action

variable {ε ε' α : Type} {ld : Loader σ} {fs : FileSystem} (st : σ) {directories : List Path}
  {suffix name : String}

/-! ## One name -/

/-- What comes of a name that is tried: the reason for which it is refused, or
a resident for it. -/
def Tried (ld : Loader σ) (st : σ) (fs : FileSystem) (directories : List Path)
    (suffix name : String) : Except String Resident → Prop
  | .error reason => ld.refusal? st fs directories suffix name = some reason
  | .ok resident => ld.refusal? st fs directories suffix name = none ∧ resident.name = name ∧
      extensionOrigin fs directories suffix name = some resident.origin

/-- A name is tried by its questions. -/
theorem traces_preloadOne (huniform : ld.Uniform fs) :
    Traces fs (preloadOne ld directories suffix name) fun r calls =>
      calls = trials fs directories suffix name ∧
        ∃ result, r = result.mapError .failed ∧ Tried ld st fs directories suffix name result := by
  apply Traces.quietly traces_files
  unfold Tried Loader.refusal?
  rw [trials]
  cases horigin : extensionOrigin fs directories suffix name with
  | none => exact traces_fail ⟨rfl, .error _, rfl, rfl⟩
  | some origin =>
      dsimp only
      apply traces_load.wrap.bind
      · rintro unit calls ⟨_, ⟨⟨st', rfl⟩, rfl⟩, hok⟩
        -- The loader is uniform, so what it says in this state it says in the one before the run.
        have hfault := huniform origin .global st st'
        cases hload : (ld.load origin .global fs st').1 with
        | error e =>
            rw [hload] at hok
            cases hok
        | ok handle =>
            rw [hload] at hfault
            apply Traces.quietly traces_note
            exact traces_pure ⟨rfl, .ok _, rfl, by rw [hfault]; rfl, rfl, rfl⟩
      · rintro stop calls ⟨_, ⟨⟨st', rfl⟩, rfl⟩, herror⟩
        have hfault := huniform origin .global st st'
        cases hload : (ld.load origin .global fs st').1 with
        | error e =>
            rw [hload] at hfault herror
            cases herror
            exact ⟨rfl, .error _, rfl, by rw [hfault]; rfl⟩
        | ok handle =>
            rw [hload] at herror
            cases herror

theorem traces_attempt_preloadOne (huniform : ld.Uniform fs) :
    Traces fs (attempt (preloadOne ld directories suffix name) : Action σ Failure _)
      (Yields fun result calls => calls = trials fs directories suffix name ∧
        Tried ld st fs directories suffix name result) := by
  apply (traces_preloadOne st huniform).attempt.mono
  rintro _ _ ⟨_, ⟨hcalls, result, rfl, htried⟩, rfl⟩
  cases result <;> exact ⟨_, rfl, hcalls, htried⟩

/-! ## All names -/

/-- Under one policy all names are tried, and those refused are reported at the
end. -/
theorem traces_preloadEach_collectAll (huniform : ld.Uniform fs) (names : List String) :
    Traces fs (preloadEach ld directories suffix .collectAll names)
      (Yields fun found calls => calls = names.flatMap (trials fs directories suffix) ∧
        found.2 = ld.refusals st fs directories suffix names ∧
        Represent fs directories suffix
          (names.filter fun name => (ld.refusal? st fs directories suffix name).isNone)
          found.1) := by
  induction names with
  | nil => exact traces_yields_pure ⟨rfl, rfl, .nil⟩
  | cons name names ih =>
      rw [preloadEach]
      apply (traces_attempt_preloadOne st huniform).yields_bind
      rintro (reason | resident) _ ⟨rfl, htried⟩
      · apply Traces.quietly traces_note
        apply ih.yields_bind
        rintro ⟨residents, failures⟩ _ ⟨rfl, rfl, hrepresent⟩
        have hrefused : ld.refusal? st fs directories suffix name = some reason := htried
        refine traces_yields_pure ⟨by simp, (Loader.refusals_cons_of_some hrefused).symm, ?_⟩
        rwa [List.filter_cons_of_neg (by simp [hrefused])]
      · obtain ⟨haccepted, rfl, horigin⟩ := htried
        apply ih.yields_bind
        rintro ⟨residents, failures⟩ _ ⟨rfl, rfl, hrepresent⟩
        refine traces_yields_pure ⟨by simp, (Loader.refusals_cons_of_none haccepted).symm, ?_⟩
        rw [List.filter_cons_of_pos (by simp [haccepted])]
        exact hrepresent.cons horigin

/-- Under the other policy names are tried up to the first that is refused. -/
theorem traces_preloadEach_failFast (huniform : ld.Uniform fs) (names : List String) :
    Traces fs (preloadEach ld directories suffix .failFast names) fun r calls =>
      match ld.refusals st fs directories suffix names with
      | [] => calls = names.flatMap (trials fs directories suffix) ∧
          ∃ residents, r = .ok (residents, []) ∧ Represent fs directories suffix names residents
      | (name, reason) :: _ => r = .error (.failed (.preload name reason)) ∧
          ∃ before after, names = before ++ name :: after ∧
            (∀ other ∈ before, ld.refusal? st fs directories suffix other = none) ∧
            calls = (before ++ [name]).flatMap (trials fs directories suffix) := by
  induction names with
  | nil => exact traces_pure ⟨rfl, [], rfl, .nil⟩
  | cons name names ih =>
      rw [preloadEach]
      apply (traces_attempt_preloadOne st huniform).bind_of_yields
      rintro (reason | resident) _ ⟨rfl, htried⟩
      · rw [Loader.refusals_cons_of_some htried]
        exact traces_fail ⟨rfl, [], names, rfl, by simp, by simp⟩
      · obtain ⟨haccepted, rfl, horigin⟩ := htried
        rw [Loader.refusals_cons_of_none haccepted]
        cases hrefusals : ld.refusals st fs directories suffix names with
        | nil =>
            rw [hrefusals] at ih
            apply ih.bind
            · rintro _ _ ⟨rfl, residents, heq, hrepresent⟩
              cases heq
              exact traces_pure ⟨by simp, resident :: residents, rfl, hrepresent.cons horigin⟩
            · rintro _ _ ⟨-, _, heq, -⟩
              cases heq
        | cons refusal rest =>
            rw [hrefusals] at ih
            apply ih.bind
            · rintro _ _ ⟨heq, -⟩
              cases heq
            · rintro _ _ ⟨heq, before, after, rfl, hbefore, rfl⟩
              cases heq
              exact ⟨rfl, resident.name :: before, after, rfl,
                List.forall_mem_cons.mpr ⟨haccepted, hbefore⟩, by simp⟩

/-! ## The two policies -/

theorem filter_isNone_refusal? {names : List String}
    (h : ld.refusals st fs directories suffix names = []) :
    names.filter (fun name => (ld.refusal? st fs directories suffix name).isNone) = names := by
  rw [List.filter_eq_self]
  intro name hname
  rw [Loader.refusals, List.filterMap_eq_nil_iff] at h
  simpa using h name hname

theorem traces_preload_collectAll (huniform : ld.Uniform fs) (extensions : ExtensionSet) :
    Traces fs (preload ld directories suffix .collectAll extensions) fun r calls =>
      calls = extensions.names.flatMap (trials fs directories suffix) ∧
        match ld.refusals st fs directories suffix extensions.names with
        | [] => ∃ residents, r = .ok residents ∧
            Represent fs directories suffix extensions.names residents
        | refusal :: more => r = .error (.failed (.ofPreloads (refusal :: more))) := by
  unfold preload closingOnFailure
  apply Traces.closing
  apply (traces_preloadEach_collectAll st huniform extensions.names).bind_of_yields
  rintro ⟨residents, failures⟩ _ ⟨rfl, rfl, hrepresent⟩
  cases hrefusals : ld.refusals st fs directories suffix extensions.names with
  | nil =>
      rw [filter_isNone_refusal? st hrefusals] at hrepresent
      apply Traces.quietly traces_note
      exact traces_pure ⟨List.append_nil _, residents, rfl, hrepresent⟩
  | cons refusal rest => exact traces_fail ⟨List.append_nil _, rfl⟩

theorem traces_preload_failFast (huniform : ld.Uniform fs) (extensions : ExtensionSet) :
    Traces fs (preload ld directories suffix .failFast extensions) fun r calls =>
      match ld.refusals st fs directories suffix extensions.names with
      | [] => calls = extensions.names.flatMap (trials fs directories suffix) ∧
          ∃ residents, r = .ok residents ∧
            Represent fs directories suffix extensions.names residents
      | (name, reason) :: _ => r = .error (.failed (.preload name reason)) ∧
          ∃ before after, extensions.names = before ++ name :: after ∧
            (∀ other ∈ before, ld.refusal? st fs directories suffix other = none) ∧
            calls = (before ++ [name]).flatMap (trials fs directories suffix) := by
  unfold preload closingOnFailure
  apply Traces.closing
  -- With nothing refused the run is that of all names; otherwise it fails inside and is only closed
  -- here.
  have heach : Traces fs (preloadEach ld directories suffix .failFast extensions.names) _ :=
    traces_preloadEach_failFast st huniform extensions.names
  cases hrefusals : ld.refusals st fs directories suffix extensions.names with
  | nil =>
      rw [hrefusals] at heach
      apply heach.bind
      · rintro _ _ ⟨rfl, residents, heq, hrepresent⟩
        cases heq
        apply Traces.quietly traces_note
        exact traces_pure ⟨List.append_nil _, residents, rfl, hrepresent⟩
      · rintro _ _ ⟨-, _, heq, -⟩
        cases heq
  | cons refusal rest =>
      rw [hrefusals] at heach
      apply heach.bind
      · rintro _ _ ⟨heq, -⟩
        cases heq
      · rintro stop calls ⟨heq, hfirst⟩
        cases heq
        exact ⟨rfl, hfirst⟩

/-- With a uniform loader both policies fail or neither does, and they bind the
names of the set to the same files.  If names fail, one policy has tried those
up to the first failure and reports it; the other has tried all and reports
every failure, its reasons each behind the name they belong to. -/
theorem preload_policies_agree (ld : Loader σ) (directories : List Path) (suffix : String)
    {extensions : ExtensionSet} (hordered : extensions.Ordered) {s : Session σ}
    (huniform : ld.Uniform s.fs) :
    let fast := (preload ld directories suffix .failFast extensions).run s
    let full := (preload ld directories suffix .collectAll extensions).run s
    let tried (names : List String) := names.flatMap (trials s.fs directories suffix)
    (fast.1.isOk ↔ full.1.isOk) ∧ Asks (tried extensions.names) s full.2 ∧
      (∀ path binding, .load path binding ∈ tried extensions.names → binding = .global) ∧
      match ld.refusals s.loader s.fs directories suffix extensions.names with
      | [] => Asks (tried extensions.names) s fast.2 ∧
          ∃ residents residents', fast.1 = .ok residents ∧ full.1 = .ok residents' ∧
            residents.map (fun r => (r.name, r.origin)) =
              residents'.map (fun r => (r.name, r.origin)) ∧
            Represent s.fs directories suffix extensions.names residents ∧
            (residents.map (·.name)).Pairwise (· < ·)
      | (name, reason) :: more => fast.1 = .error (.failed (.preload name reason)) ∧
          full.1 = .error (.failed (.preload
            (String.intercalate ", " (name :: more.map (·.1)))
            (String.intercalate "; "
              ((name ++ ": " ++ reason) :: more.map fun (n, r) => n ++ ": " ++ r)))) ∧
          ∃ before after, extensions.names = before ++ name :: after ∧
            (∀ other ∈ before, ld.refusal? s.loader s.fs directories suffix other = none) ∧
            Asks (tried (before ++ [name])) s fast.2 ∧
            full.2.journal = fast.2.journal ++ (tried after).map s.entry := by
  intro fast full tried
  have hglobal : ∀ path binding, Call.load path binding ∈ tried extensions.names →
      binding = .global := by
    intro path binding hmem
    obtain ⟨name, -, hcall⟩ := List.mem_flatMap.mp hmem
    obtain ⟨origin, -, heq⟩ := List.mem_map.mp hcall
    cases heq
    rfl
  obtain ⟨_, hfull, rfl, hall⟩ :=
    traces_preload_collectAll s.loader huniform extensions s rfl
  obtain ⟨_, hfast, hfirst⟩ :=
    traces_preload_failFast s.loader huniform extensions s rfl
  cases hrefusals : ld.refusals s.loader s.fs directories suffix extensions.names with
  | nil =>
      rw [hrefusals] at hall hfirst
      obtain ⟨residents', hok', hrepresent'⟩ := hall
      obtain ⟨rfl, residents, hok, hrepresent⟩ := hfirst
      refine ⟨?_, hfull, hglobal, hfast, residents, residents', hok, hok',
        hrepresent.unique hrepresent', hrepresent, ?_⟩
      · simp only [fast, full, hok, hok', Except.isOk, Except.toBool]
      · rw [hrepresent.names_eq]
        exact hordered
  | cons refusal more =>
      obtain ⟨name, reason⟩ := refusal
      rw [hrefusals] at hall hfirst
      obtain ⟨herror, before, after, hnames, hbefore, rfl⟩ := hfirst
      refine ⟨?_, hfull, hglobal, herror, hall, before, after, hnames, hbefore, hfast, ?_⟩
      · simp only [fast, full, herror, hall, Except.isOk, Except.toBool]
      · -- What only the second policy has tried stands behind the first refusal.
        have hsplit : tried extensions.names = tried (before ++ [name]) ++ tried after := by
          simp [tried, hnames]
        rw [hfast.journal_eq, List.append_assoc, ← List.map_append, ← hsplit]
        exact hfull.journal_eq

/-- A process that sees one module, `math`. -/
def mathHost : Session Unit where
  fs := { tree := .directory 0o755 [
    (Utf8.encode "s", .directory 0o755 [(Utf8.encode "math.so", .file 0o644 [])])] }
  loader := ()

/-- A name whose object does not open, one that leads nowhere, and one that is
opened. -/
def mixedSet : ExtensionSet := ⟨["/b.so", "absent", "math"]⟩

theorem preload_policies_agree_mixed :
    let fast := (preload (.refusing "/b.so") ["/s"] ".so" .failFast mixedSet).run mathHost
    let full := (preload (.refusing "/b.so") ["/s"] ".so" .collectAll mixedSet).run mathHost
    mixedSet.Ordered ∧ (Loader.refusing "/b.so").Uniform mathHost.fs ∧
      fast.1 = .error (.failed (.preload "/b.so" "cannot open /b.so: bad ELF")) ∧
      full.1 = .error (.failed (.preload "/b.so, absent"
        "/b.so: cannot open /b.so: bad ELF; absent: no module named absent")) ∧
      fast.2.journal.map (·.call) = [.load "/b.so" .global] ∧
      full.2.journal.map (·.call) = [.load "/b.so" .global, .load "/s/math.so" .global] := by
  intro fast full
  have hordered : mixedSet.Ordered := by
    unfold ExtensionSet.Ordered
    decide
  have huniform := Loader.uniform_refusing "/b.so" mathHost.fs
  have hrefusals : (Loader.refusing "/b.so").refusals mathHost.loader mathHost.fs ["/s"] ".so"
      mixedSet.names =
        [("/b.so", "cannot open /b.so: bad ELF"), ("absent", "no module named absent")] := by
    decide +kernel
  have htrials : mixedSet.names.flatMap (trials mathHost.fs ["/s"] ".so") =
      [.load "/b.so" .global, .load "/s/math.so" .global] := by
    decide +kernel
  obtain ⟨-, hfull, -, hagree⟩ :=
    preload_policies_agree (.refusing "/b.so") ["/s"] ".so" hordered huniform
  rw [hrefusals] at hagree
  obtain ⟨hfast, herror, before, after, hnames, hbefore, hasks, -⟩ := hagree
  dsimp only at hfull hasks
  have hrefused : (Loader.refusing "/b.so").refusal? mathHost.loader mathHost.fs ["/s"] ".so"
      "/b.so" ≠ none := by
    decide +kernel
  -- The first name of the set is the one refused, so no name was tried before it.
  have hfirst : before = [] := by
    cases before with
    | nil => rfl
    | cons other before =>
        obtain rfl : "/b.so" = other := (List.cons.inj hnames).1
        exact absurd (hbefore _ List.mem_cons_self) hrefused
  have hjoined : String.intercalate ", " ["/b.so", "absent"] = "/b.so, absent" := by
    decide +kernel
  have hreasons : String.intercalate "; "
      ["/b.so: cannot open /b.so: bad ELF", "absent: no module named absent"] =
        "/b.so: cannot open /b.so: bad ELF; absent: no module named absent" := by
    decide +kernel
  refine ⟨hordered, huniform, hfast, ?_, ?_, ?_⟩
  · rw [← hjoined, ← hreasons]
    exact herror
  · rw [hasks.journal_eq, hfirst]
    decide +kernel
  · rw [hfull.journal_eq, htrials]
    rfl

/-- The reasons reported together are not the reasons alone: each stands behind
the name it belongs to. -/
theorem collectAll_labels_reasons :
    ∃ reason, ((preload (.refusing "/b.so") [] ".so" .collectAll ⟨["absent"]⟩).run mathHost).1 =
        .error (.failed (.preload "absent" reason)) ∧
      (Loader.refusing "/b.so").refusals () mathHost.fs [] ".so" ["absent"] =
        [("absent", "no module named absent")] ∧
      reason ≠ String.intercalate "; " ["no module named absent"] := by
  have hrefusals : (Loader.refusing "/b.so").refusals () mathHost.fs [] ".so" ["absent"] =
      [("absent", "no module named absent")] := by
    decide +kernel
  have hall : Traces mathHost.fs
      (preload (.refusing "/b.so") [] ".so" .collectAll ⟨["absent"]⟩) _ :=
    traces_preload_collectAll () (Loader.uniform_refusing "/b.so" mathHost.fs) ⟨["absent"]⟩
  obtain ⟨_, -, -, herror⟩ := hall mathHost rfl
  rw [hrefusals] at herror
  exact ⟨_, herror, hrefusals, by decide +kernel⟩

end Action

end Confinement
