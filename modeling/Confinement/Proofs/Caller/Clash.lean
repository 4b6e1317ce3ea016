import Confinement.Proofs.Caller.Chain
import Confinement.Proofs.Caller.Survey
import Confinement.Proofs.Registry.Offers

/-!
# Name clashes

Once its extensions are open, a call has a registry of the objects mapped in
the process and of the extensions, in this order.  The first are read off the
table of mappings (`hostRegistrations`).  The target's name clashes if it is
among what either offer, and the object reported is the one offered first;
otherwise the call goes on (`preloadCall_clash_iff`).

An extension is bound by a name that can be told from its own
(`extensionBinding`): a loader name by the name of its object, any other name as
it stands.
-/

namespace Confinement

/-- The name under which an extension is bound. -/
def extensionBinding (name : String) : String :=
  if isLoaderName name then (moduleName? (.ofString name)).getD name else name

theorem Resident.boundName_eq {fs : FileSystem} {directories : List Path} {suffix : String}
    {r : Resident} (h : extensionOrigin fs directories suffix r.name = some r.origin) :
    r.boundName = extensionBinding r.name := by
  rw [boundName, extensionBinding]
  by_cases hloader : isLoaderName r.name
  · rw [extensionOrigin, if_pos hloader] at h
    rw [if_pos hloader, if_pos hloader, Option.some.inj h]
  · rw [if_neg hloader, if_neg hloader]

/-- What the objects mapped in the process are bound by. -/
def hostRegistrations (fs : FileSystem) : List Registration :=
  match fs.readText mappingsFile with
  | .ok table => [.mappings table]
  | .error _ => []

theorem Registry.ofHost_eq (fs : FileSystem) :
    (Registry.ofHost fs).1 = (hostRegistrations fs).foldl perform {} := by
  rw [ofHost, hostRegistrations]
  cases fs.readText mappingsFile <;> rfl

namespace Action

/-- All that is offered to the registry of a call, in order: by the mappings of
the process, and then by the extensions that were opened. -/
def offered (fs : FileSystem) (residents : List Resident) : List (String × Path) :=
  (hostRegistrations fs ++ [Registration.extensions residents]).flatMap Registration.offers

/-- How a call with open extensions goes on: the target's name clashes exactly
if it is offered by the mappings of the process or by an extension. -/
structure ClashExact (fs : FileSystem) (c : Configured) (residents : List Resident)
    (module : String) (result : Except (Stop Failure) Preloaded) : Prop where
  names_eq : residents.map (·.name) = c.extensions.names
  boundNames_eq : residents.map (·.boundName) = c.extensions.names.map extensionBinding
  clash_iff : (∃ other origin, result = .error (.failed (.nameClash other origin))) ↔
    (∃ call ∈ hostRegistrations fs, ∃ origin, (module, origin) ∈ call.offers) ∨
      ∃ r ∈ residents, r.boundName = module
  first : ∀ other shown, result = .error (.failed (.nameClash other shown)) →
    other = module ∧ ∃ origin : Path, shown = origin.display ∧
      (offered fs residents).lookup module = some origin
  otherwise : (¬ ∃ other origin, result = .error (.failed (.nameClash other origin))) →
    ∃ c' : Preloaded, result = .ok c' ∧ c'.toConfigured = c ∧ c'.module = module ∧
      c'.residents = residents ∧
      ∀ name, c'.registry.originOf? name = (offered fs residents).lookup name

/-- A name is bound to what is offered for it first. -/
theorem originOf?_registerResidents_ofHost (fs : FileSystem) (residents : List Resident)
    (name : String) :
    ((Registry.ofHost fs).1.registerResidents residents).originOf? name =
      (offered fs residents).lookup name := by
  have hcalls : (Registry.ofHost fs).1.registerResidents residents =
      (hostRegistrations fs ++ [Registration.extensions residents]).foldl Registry.perform {} := by
    rw [List.foldl_append, ← Registry.ofHost_eq]
    rfl
  rw [hcalls, Registry.originOf?_foldl_perform]
  rfl

theorem isSome_lookup_offered_iff (fs : FileSystem) (residents : List Resident) (name : String) :
    ((offered fs residents).lookup name).isSome ↔
      (∃ call ∈ hostRegistrations fs, ∃ origin, (name, origin) ∈ call.offers) ∨
        ∃ r ∈ residents, r.boundName = name := by
  have hextensions : (∃ origin, (name, origin) ∈ (Registration.extensions residents).offers) ↔
      ∃ r ∈ residents, r.boundName = name := by
    simp [Registration.offers, Resident.offer]
  rw [offered, Registry.isSome_lookup_flatMap_iff, ← hextensions]
  simp only [List.mem_append, List.mem_singleton, or_and_right, exists_or, exists_eq_left]

theorem nameTarget_cases (c : Configured) (residents : List Resident) (fs : FileSystem)
    {module : String} (hmodule : c.invocation.moduleName = .ok module) :
    (∃ origin, (offered fs residents).lookup module = some origin ∧
      nameTarget c residents fs = .error (.nameClash module origin.display)) ∨
    ((offered fs residents).lookup module = none ∧
      ∃ c', nameTarget c residents fs = .ok c' ∧ c'.toConfigured = c ∧ c'.module = module ∧
        c'.residents = residents ∧
        ∀ name, c'.registry.originOf? name = (offered fs residents).lookup name) := by
  have hbound := originOf?_registerResidents_ofHost fs residents
  rw [nameTarget, hmodule]
  simp only [hbound]
  cases (offered fs residents).lookup module with
  | some origin => exact Or.inl ⟨origin, rfl, rfl⟩
  | none => exact Or.inr ⟨rfl, _, rfl, rfl, rfl, rfl, hbound⟩

/-- What was offered first is what a name stays bound to; and a target clashes
exactly if its name is offered by the mappings of the process or by an
extension. -/
theorem preloadCall_clash_iff :
    (∀ (r : Registry) (calls : List Registration), r.FirstWins calls) ∧
    ∀ {σ : Type} (ld : Loader σ) (c : Configured) (s s₁ : Session σ) (residents : List Resident)
      (module : String), (openExtensions ld c).run s = (.ok residents, s₁) →
      c.invocation.moduleName = .ok module →
      ClashExact s.fs c residents module ((preloadCall ld c).run s).1 := by
  refine ⟨Registry.firstWins, ?_⟩
  intro σ ld c s s₁ residents module hopen hmodule
  obtain ⟨hnames, horigins, hfs, -⟩ := run_preload_eq_ok hopen
  have hboundNames : residents.map (·.boundName) = c.extensions.names.map extensionBinding := by
    rw [← hnames, List.map_map]
    exact List.map_congr_left fun r hr => Resident.boundName_eq (horigins r hr)
  have hbound := isSome_lookup_offered_iff s.fs residents module
  obtain ⟨s', hrun⟩ := exists_run_preloadCall_of_ok hopen
  rw [hrun, hfs]
  rcases nameTarget_cases c residents s.fs hmodule with ⟨origin, horigin, hresult⟩ | ⟨hnone, hgoes⟩
  · rw [hresult]
    rw [horigin] at hbound
    exact {
      names_eq := hnames
      boundNames_eq := hboundNames
      clash_iff := iff_of_true ⟨_, _, rfl⟩ (hbound.mp rfl)
      first := by
        intro other shown h
        cases h
        exact ⟨rfl, origin, rfl, horigin⟩
      otherwise := fun h => absurd ⟨_, _, rfl⟩ h }
  · obtain ⟨c', hresult, hc'⟩ := hgoes
    rw [hresult]
    rw [hnone] at hbound
    have hok : ¬ ∃ other origin, (Except.ok c' : Except Failure Preloaded).mapError Stop.failed =
        .error (.failed (.nameClash other origin)) := by
      rintro ⟨_, _, h⟩
      cases h
    exact {
      names_eq := hnames
      boundNames_eq := hboundNames
      clash_iff := iff_of_false hok fun h => absurd (hbound.mpr h) (by simp)
      first := fun other shown h => absurd ⟨_, _, h⟩ hok
      otherwise := fun _ => ⟨c', rfl, hc'⟩ }

/-- A process with a mapped object and an extension in a package. -/
def clashHost : Session Unit where
  fs := { tree := .directory 0o755 [
    (Utf8.encode "lib", .directory 0o755 [
      (Utf8.encode "pkg", .directory 0o755 [(Utf8.encode "math.abi.so", .file 0o644 [])])]),
    (Utf8.encode "proc", .directory 0o755 [
      (Utf8.encode "self", .directory 0o755 [
        (Utf8.encode "maps", .file 0o444
          (Utf8.encode "7f00-7f01 r-xp 00000000 08:01 1 /usr/lib/libc.so.6\n"))])])] }
  loader := ()

/-- A call of some object, with two loader names among its extensions. -/
def clashCall (cmd : Path) : Configured where
  invocation := { root := "/jail", cmd }
  config := {}
  entries := ["/lib"]
  extensions := .ofNames ["libc.so.6", "libm.so.6", "pkg.math"]

/-- The failure that a result reports. -/
def reported? {α : Type} : Except (Stop Failure) α → Option Failure
  | .error (.failed e) => some e
  | _ => none

/-- One target clashes with the object of a loader name, another one with an
object mapped in the process, although an extension has its name too.  A third
one bears the name of neither. -/
theorem preloadCall_clash_iff_loaderName :
    (∃ residents, ClashExact clashHost.fs (clashCall "/opt/libm.so") residents "libm"
        ((preloadCall Loader.willing (clashCall "/opt/libm.so")).run clashHost).1 ∧
      residents.map (·.boundName) = ["libc", "libm", "pkg.math"]) ∧
    (∃ residents, ClashExact clashHost.fs (clashCall "/opt/libc.so") residents "libc"
      ((preloadCall Loader.willing (clashCall "/opt/libc.so")).run clashHost).1) ∧
    (∃ residents, ClashExact clashHost.fs (clashCall "/opt/math.so") residents "math"
      ((preloadCall Loader.willing (clashCall "/opt/math.so")).run clashHost).1) ∧
    reported? ((preloadCall Loader.willing (clashCall "/opt/libm.so")).run clashHost).1 =
      some (.nameClash "libm" "libm.so.6") ∧
    reported? ((preloadCall Loader.willing (clashCall "/opt/libc.so")).run clashHost).1 =
      some (.nameClash "libc" "/usr/lib/libc.so.6") ∧
    ((preloadCall Loader.willing (clashCall "/opt/math.so")).run clashHost).1.isOk := by
  have hexact (cmd : Path) (module : String)
      (hmodule : (clashCall cmd).invocation.moduleName = .ok module) :
      ∃ residents, ClashExact clashHost.fs (clashCall cmd) residents module
        ((preloadCall Loader.willing (clashCall cmd)).run clashHost).1 := by
    -- What is opened does not depend on the target.
    have hisOk : ((openExtensions Loader.willing (clashCall "/")).run clashHost).1.isOk = true := by
      decide +kernel
    cases hopen : (openExtensions Loader.willing (clashCall "/")).run clashHost with
    | mk result s₁ =>
        rw [hopen] at hisOk
        cases result with
        | error stop => cases hisOk
        | ok residents => exact ⟨residents, preloadCall_clash_iff.2 Loader.willing (clashCall cmd)
            clashHost s₁ residents module hopen hmodule⟩
  obtain ⟨residents, hlibm⟩ := hexact "/opt/libm.so" "libm" rfl
  have hbound : residents.map (·.boundName) = ["libc", "libm", "pkg.math"] := by
    rw [hlibm.boundNames_eq]
    decide +kernel
  exact ⟨⟨residents, hlibm, hbound⟩, hexact "/opt/libc.so" "libc" rfl,
    hexact "/opt/math.so" "math" rfl, by decide +kernel, by decide +kernel, by decide +kernel⟩

end Action

end Confinement
