import Confinement.Caller
import Confinement.Proofs.Extensions
import Confinement.Proofs.Session.Preload

/-!
# What each state of a call knows

`Reached` says how far a call gets, and in which session.  A call keeps the file
systems that its steps have read (`Progress`).  Between two steps anything may
happen that asks the loader nothing: files come and go, the process moves to
another directory.

`Progress.Holds` says what a state knows.  Every step establishes what its own
state adds (`configure_holds`, `preload_holds`, `discover_holds`,
`stage_holds`) and hands on the rest, so by induction it holds in every state
that is reached (`holds_of_reached`).  What was found in the files is told of
the file system in which the step was made, whatever has become of it.
-/

namespace Confinement

open Confinement.Action

variable {σ : Type} {ld : Loader σ} {start : Session σ} {invocation : Invocation}
  {config : Configuration}

/-- How far a call has got before it is launched: its state, with the file systems
in which its list file was read, its directories were searched and its libraries
were cloned. -/
inductive Progress where
  | prepared (c : Prepared)
  | configured (c : Configured) (listed : FileSystem)
  | preloaded (c : Preloaded) (listed : FileSystem)
  | discovered (c : Discovered) (listed searched : FileSystem)
  | staged (c : Staged) (listed searched cloned : FileSystem)

/-- How far a call of `invocation` gets from the session `start`. -/
inductive Reached (ld : Loader σ) (start : Session σ) (invocation : Invocation)
    (config : Configuration) : Progress → Session σ → Prop
  | prepare {c : Prepared} {s : Session σ} :
      (prepare invocation config).run start = (.ok c, s) →
        Reached ld start invocation config (.prepared c) s
  | configure {c : Prepared} {c' : Configured} {s s' : Session σ} :
      Reached ld start invocation config (.prepared c) s →
      (configure c).run s = (.ok c', s') →
        Reached ld start invocation config (.configured c' s.fs) s'
  | preload {c : Configured} {listed : FileSystem} {c' : Preloaded} {s s' : Session σ} :
      Reached ld start invocation config (.configured c listed) s →
      (preloadCall ld c).run s = (.ok c', s') →
        Reached ld start invocation config (.preloaded c' listed) s'
  | discover {c : Preloaded} {listed : FileSystem} {c' : Discovered} {s s' : Session σ} :
      Reached ld start invocation config (.preloaded c listed) s →
      (discover c).run s = (.ok c', s') →
        Reached ld start invocation config (.discovered c' listed s.fs) s'
  | stage {c : Discovered} {listed searched : FileSystem} {c' : Staged} {s s' : Session σ} :
      Reached ld start invocation config (.discovered c listed searched) s →
      (stage c).run s = (.ok c', s') →
        Reached ld start invocation config (.staged c' listed searched s.fs) s'
  | meanwhile {progress : Progress} {s s' : Session σ} :
      Reached ld start invocation config progress s → s'.journal = s.journal →
        Reached ld start invocation config progress s'

/-! ## What a state knows -/

/-- The lines of the list file of a call; no lines without a list file. -/
def Configured.Listed (listed : FileSystem) (c : Configured) (lines : List String) : Prop :=
  match c.invocation.listFile with
  | none => lines = []
  | some list => ∃ text, listed.readText list = .ok text ∧ lines = Text.lines text

/-- What a call knows once its set of extensions is final. -/
structure Configured.Settled (start : Session σ) (invocation : Invocation)
    (config : Configuration) (listed : FileSystem) (c : Configured) : Prop where
  toPrepared_eq : c.toPrepared =
    ⟨invocation, config, SearchList.collect start.fs start.env config⟩
  ordered : c.extensions.Ordered
  names : ∃ lines, c.Listed listed lines ∧ ∀ name, name ∈ c.extensions.names ↔
    name ∈ ExtensionSet.baseline.names ∨ name ≠ "" ∧ ∃ line ∈ lines, Text.trim line = name

/-- What a call knows once its extensions are open.  The journal has one
question for each of them and no other. -/
structure Preloaded.Settled (start : Session σ) (invocation : Invocation)
    (config : Configuration) (listed : FileSystem) (c : Preloaded) (s : Session σ) : Prop where
  configured : c.toConfigured.Settled start invocation config listed
  residentNames_eq : c.residentNames = c.extensions.names
  journal_eq : s.journal.map (·.call) =
    start.journal.map (·.call) ++ c.residents.map openingCall
  bound : ∀ r ∈ c.residents, (c.registry.originOf? r.boundName).isSome
  module_eq : c.invocation.moduleName = .ok c.module
  module_free : c.registry.originOf? c.module = none

/-- What a call knows once its search directories are selected. -/
structure Discovered.Settled (start : Session σ) (invocation : Invocation)
    (config : Configuration) (listed searched : FileSystem) (c : Discovered) (s : Session σ) :
    Prop where
  preloaded : c.toPreloaded.Settled start invocation config listed s
  searchPaths_eq : c.searchPaths =
    SearchList.select searched c.entries searched.currentDirectory
  catalog_eq : c.catalog = Catalog.build searched c.searchPaths c.config.extensionSuffix

/-- What a call knows once its libraries are staged. -/
structure Staged.Settled (start : Session σ) (invocation : Invocation) (config : Configuration)
    (listed searched cloned : FileSystem) (c : Staged) (s : Session σ) : Prop where
  discovered : c.toDiscovered.Settled start invocation config listed searched s
  validated : validateRoot cloned c.invocation.root = .ok c.jailRoot
  reported :
    (Stage.run ⟨c.jailRoot, c.config.stagingPrefix⟩ cloned c.searchPaths).1 = .ok c.report

/-- What a call knows when it has got so far, in the session it is reached in. -/
def Progress.Holds (start : Session σ) (invocation : Invocation) (config : Configuration)
    (s : Session σ) : Progress → Prop
  | .prepared c =>
    c = ⟨invocation, config, SearchList.collect start.fs start.env config⟩ ∧
      s.journal = start.journal
  | .configured c listed =>
    c.Settled start invocation config listed ∧ s.journal = start.journal
  | .preloaded c listed => c.Settled start invocation config listed s
  | .discovered c listed searched => c.Settled start invocation config listed searched s
  | .staged c listed searched cloned =>
    c.Settled start invocation config listed searched cloned s

/-! ## Only the journal counts -/

variable {listed searched cloned : FileSystem} {s s' : Session σ}

theorem Preloaded.Settled.of_journal_eq {c : Preloaded}
    (h : c.Settled start invocation config listed s) (hjournal : s'.journal = s.journal) :
    c.Settled start invocation config listed s' := by
  refine { h with journal_eq := ?_ }
  rw [hjournal]
  exact h.journal_eq

theorem Discovered.Settled.of_journal_eq {c : Discovered}
    (h : c.Settled start invocation config listed searched s)
    (hjournal : s'.journal = s.journal) :
    c.Settled start invocation config listed searched s' :=
  { h with preloaded := h.preloaded.of_journal_eq hjournal }

theorem Staged.Settled.of_journal_eq {c : Staged}
    (h : c.Settled start invocation config listed searched cloned s)
    (hjournal : s'.journal = s.journal) :
    c.Settled start invocation config listed searched cloned s' :=
  { h with discovered := h.discovered.of_journal_eq hjournal }

/-! ## Each step -/

theorem quiet_of_noteRun {level : Level} {text : String} {u : Unit}
    (h : (noteRun level text : Action σ Failure Unit).run s = (.ok u, s')) : Quiet s s' := by
  obtain ⟨_, _, hget, h⟩ := run_bind_eq_ok.mp h
  obtain ⟨rfl, rfl⟩ := run_get_eq_ok.mp hget
  exact quiet_of_note h

theorem prepare_holds {c : Prepared}
    (h : (prepare invocation config).run start = (.ok c, s)) :
    (Progress.prepared c).Holds start invocation config s := by
  obtain ⟨_, _, hget, h⟩ := run_bind_eq_ok.mp h
  obtain ⟨rfl, rfl⟩ := run_get_eq_ok.mp hget
  obtain ⟨_, s₁, hremarks, h⟩ := run_bind_eq_ok.mp h
  obtain ⟨_, s₂, hnote, h⟩ := run_bind_eq_ok.mp h
  obtain ⟨rfl, rfl⟩ := run_pure_eq_ok.mp h
  have hquiet := (quiet_of_note hremarks).trans (quiet_of_noteRun hnote)
  exact ⟨rfl, hquiet.journal_eq⟩

theorem configure_holds {c : Prepared} {c' : Configured}
    (hc : (Progress.prepared c).Holds start invocation config s)
    (h : (configure c).run s = (.ok c', s')) :
    (Progress.configured c' s.fs).Holds start invocation config s' := by
  obtain ⟨rfl, hjournal⟩ := hc
  rw [configure] at h
  cases hlist : invocation.listFile with
  | none =>
      simp only [hlist] at h
      obtain ⟨rfl, rfl⟩ := run_pure_eq_ok.mp h
      refine ⟨⟨rfl, ExtensionSet.ordered_baseline, [], ?_, by simp⟩, hjournal⟩
      simp [Configured.Listed, hlist]
  | some list =>
      simp only [hlist] at h
      obtain ⟨fs, _, hfiles, h⟩ := run_bind_eq_ok.mp h
      obtain ⟨rfl, rfl⟩ := run_files_eq_ok.mp hfiles
      obtain ⟨_, s₁, hnote, h⟩ := run_bind_eq_ok.mp h
      obtain ⟨extensions, _, hlift, h⟩ := run_bind_eq_ok.mp h
      obtain ⟨hmerged, rfl⟩ := run_lift_eq_ok.mp hlift
      obtain ⟨_, s₂, hnoteRun, h⟩ := run_bind_eq_ok.mp h
      obtain ⟨rfl, rfl⟩ := run_pure_eq_ok.mp h
      -- Reading the list is noted and asks the loader nothing.
      have hquiet := (quiet_of_note hnote).trans (quiet_of_noteRun hnoteRun)
      have hok : (ExtensionSet.mergeFile s.fs .baseline list).1 = .ok extensions :=
        mapError_eq_ok.mp hmerged
      obtain ⟨text, hread, rfl⟩ := ExtensionSet.mergeFile_eq_ok hok
      refine ⟨⟨rfl, ExtensionSet.ordered_baseline.extend _, Text.lines text, ?_, ?_⟩,
        hquiet.journal_eq.trans hjournal⟩
      · simp only [Configured.Listed, hlist]
        exact ⟨text, hread, rfl⟩
      · intro name
        rw [ExtensionSet.mem_extend, ExtensionSet.mem_clean_listed]

theorem preload_holds {c : Configured} {c' : Preloaded}
    (hc : (Progress.configured c listed).Holds start invocation config s)
    (h : (preloadCall ld c).run s = (.ok c', s')) :
    (Progress.preloaded c' listed).Holds start invocation config s' := by
  obtain ⟨hsettled, hjournal⟩ := hc
  obtain ⟨residents, s₁, hpreload, h⟩ :=
    run_bind_eq_ok.mp (run_closingOnFailure_eq_ok.mp h)
  obtain ⟨hnames, -, -, hcalls⟩ := run_preload_eq_ok hpreload
  obtain ⟨fs, _, hfiles, h⟩ := run_bind_eq_ok.mp h
  obtain ⟨rfl, rfl⟩ := run_files_eq_ok.mp hfiles
  obtain ⟨_, s₂, hnote, h⟩ := run_bind_eq_ok.mp h
  obtain ⟨module, _, hlift, h⟩ := run_bind_eq_ok.mp h
  obtain ⟨hmodule, rfl⟩ := run_lift_eq_ok.mp hlift
  have hnamed : c.invocation.moduleName = .ok module := mapError_eq_ok.mp hmodule
  split at h
  · obtain ⟨_, _, -, h⟩ := run_bind_eq_ok.mp h
    exact absurd h run_fail_ne_ok
  · rename_i hfree
    obtain ⟨rfl, rfl⟩ := run_pure_eq_ok.mp h
    -- What the journal gained are the extensions, each opened in its turn.
    refine ⟨hsettled, hnames, ?_, ?_, hnamed, hfree⟩
    · rw [(quiet_of_note hnote).journal_eq, hcalls, hjournal]
    · intro r hr
      exact Registry.isSome_originOf?_registerResidents hr _

theorem discover_holds {c : Preloaded} {c' : Discovered}
    (hc : (Progress.preloaded c listed).Holds start invocation config s)
    (h : (discover c).run s = (.ok c', s')) :
    (Progress.discovered c' listed s.fs).Holds start invocation config s' := by
  obtain ⟨fs, _, hfiles, h⟩ := run_bind_eq_ok.mp h
  obtain ⟨rfl, rfl⟩ := run_files_eq_ok.mp hfiles
  obtain ⟨_, s₁, hremarks, h⟩ := run_bind_eq_ok.mp h
  obtain ⟨_, s₂, hnote, h⟩ := run_bind_eq_ok.mp h
  obtain ⟨rfl, rfl⟩ := run_pure_eq_ok.mp h
  have hquiet := (quiet_of_note hremarks).trans (quiet_of_noteRun hnote)
  exact ⟨Preloaded.Settled.of_journal_eq hc hquiet.journal_eq, rfl, rfl⟩

theorem stage_holds {c : Discovered} {c' : Staged}
    (hc : (Progress.discovered c listed searched).Holds start invocation config s)
    (h : (stage c).run s = (.ok c', s')) :
    (Progress.staged c' listed searched s.fs).Holds start invocation config s' := by
  obtain ⟨fs, _, hfiles, h⟩ := run_bind_eq_ok.mp h
  obtain ⟨rfl, rfl⟩ := run_files_eq_ok.mp hfiles
  obtain ⟨jailRoot, _, hlift, h⟩ := run_bind_eq_ok.mp h
  obtain ⟨hroot, rfl⟩ := run_lift_eq_ok.mp hlift
  obtain ⟨_, _, hget, h⟩ := run_bind_eq_ok.mp h
  obtain ⟨rfl, rfl⟩ := run_get_eq_ok.mp hget
  obtain ⟨_, s₁, hset, h⟩ := run_bind_eq_ok.mp h
  obtain rfl := run_set_eq_ok.mp hset
  obtain ⟨report, _, hlift', h⟩ := run_bind_eq_ok.mp h
  obtain ⟨hreport, rfl⟩ := run_lift_eq_ok.mp hlift'
  obtain ⟨_, s₂, hnote, h⟩ := run_bind_eq_ok.mp h
  obtain ⟨rfl, rfl⟩ := run_pure_eq_ok.mp h
  have hvalid : validateRoot s.fs c.invocation.root = .ok jailRoot := mapError_eq_ok.mp hroot
  exact ⟨Discovered.Settled.of_journal_eq hc (quiet_of_noteRun hnote).journal_eq, hvalid,
    hreport⟩

/-! ## Every reached state -/

/-- What a state knows does not depend on what happens to the files. -/
theorem Progress.Holds.of_journal_eq {progress : Progress}
    (h : progress.Holds start invocation config s) (hjournal : s'.journal = s.journal) :
    progress.Holds start invocation config s' := by
  cases progress with
  | prepared c => exact ⟨h.1, hjournal.trans h.2⟩
  | configured c listed => exact ⟨h.1, hjournal.trans h.2⟩
  | preloaded c listed => exact Preloaded.Settled.of_journal_eq h hjournal
  | discovered c listed searched => exact Discovered.Settled.of_journal_eq h hjournal
  | staged c listed searched cloned => exact Staged.Settled.of_journal_eq h hjournal

/-- A call whose steps succeed one after the other is staged. -/
theorem exists_reached_staged
    (h : ((prepare invocation config >>= configure >>= preloadCall ld >>= discover >>= stage).run
      start).1.isOk = true) :
    ∃ c listed searched cloned s,
      Reached ld start invocation config (.staged c listed searched cloned) s := by
  cases hrun : (prepare invocation config >>= configure >>= preloadCall ld >>= discover >>=
      stage).run start with
  | mk result s =>
      rw [hrun] at h
      cases result with
      | error stop => cases h
      | ok c =>
          obtain ⟨_, _, hrun, hstage⟩ := run_bind_eq_ok.mp hrun
          obtain ⟨_, _, hrun, hdiscover⟩ := run_bind_eq_ok.mp hrun
          obtain ⟨_, _, hrun, hpreload⟩ := run_bind_eq_ok.mp hrun
          obtain ⟨_, _, hprepare, hconfigure⟩ := run_bind_eq_ok.mp hrun
          have hdiscovered :=
            Reached.discover (.preload (.configure (.prepare hprepare) hconfigure) hpreload)
              hdiscover
          exact ⟨c, _, _, _, s, hdiscovered.stage hstage⟩

/-- However far a call gets, it knows what that state and all earlier ones are to
know. -/
theorem holds_of_reached {progress : Progress} {s : Session σ}
    (h : Reached ld start invocation config progress s) :
    progress.Holds start invocation config s := by
  induction h with
  | prepare h => exact prepare_holds h
  | configure _ h ih => exact configure_holds ih h
  | preload _ h ih => exact preload_holds ih h
  | discover _ h ih => exact discover_holds ih h
  | stage _ h ih => exact stage_holds ih h
  | meanwhile _ hjournal ih => exact ih.of_journal_eq hjournal

/-- A loader that opens whatever it is asked for. -/
def Loader.willing : Loader Unit where
  load _ _ _ s := (.ok 0, s)
  needed _ _ s := (.ok [], s)
  isResident _ _ s := (false, s)
  invoke _ _ _ fs s := (.back (.ok ()), fs, s)
  close _ s := s

/-- A call with a list file that is staged. -/
theorem holds_of_reached_staged :
    let tree : Node := .directory 0o755 [
      (Utf8.encode "jail", .directory 0o755 []),
      (Utf8.encode "list", .file 0o644 (Utf8.encode " libm.so.6 \n\n")),
      (Utf8.encode "lib", .directory 0o755 [(Utf8.encode "a.so", .file 0o644 [])])]
    let start : Session Unit := { fs := { tree }, loader := () }
    let invocation : Invocation :=
      { root := "/jail", cmd := "/opt/hello.so", listFile := some (Path.ofString "/list") }
    let config : Configuration := { searchPaths := some [Path.ofString "/lib"] }
    ∃ c listed searched cloned s,
      Reached Loader.willing start invocation config (.staged c listed searched cloned) s ∧
      (Progress.staged c listed searched cloned).Holds start invocation config s := by
  intro tree start invocation config
  obtain ⟨c, listed, searched, cloned, s, hreached⟩ :
      ∃ c listed searched cloned s,
        Reached Loader.willing start invocation config (.staged c listed searched cloned) s :=
    exists_reached_staged (by decide +kernel)
  exact ⟨c, listed, searched, cloned, s, hreached, holds_of_reached hreached⟩

end Confinement
