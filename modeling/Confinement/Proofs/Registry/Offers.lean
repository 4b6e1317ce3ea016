import Confinement.Preload
import Confinement.Proofs.Registry.Mappings

/-!
# Offers to a registry

Names reach a registry in three ways: one by one, from a table of mappings, and
from resident extensions.  Each way is a list of offers made one after the
other (`Registry.perform_eq`), so a registry after any sequence of them is read
off the list of all offers: a name that was free is bound if it is offered, and
to the first offer, whatever comes later (`Registry.firstWins`).
-/

namespace Confinement

/-- One way to bind names. -/
inductive Registration where
  | single (name : String) (origin : Path)
  | mappings (table : String)
  | extensions (residents : List Resident)

/-- A resident extension is offered by its bound name. -/
def Resident.offer (r : Resident) : String × Path := (r.boundName, r.origin)

/-- Names with the objects offered for them, in order. -/
def Registration.offers : Registration → List (String × Path)
  | .single name origin => [(name, origin)]
  | .mappings table => (Text.lines table).filterMap Registry.offerOfLine?
  | .extensions residents => residents.map Resident.offer

namespace Registry

variable {r : Registry} {name : String} {origin : Path} {call : Registration}
  {calls : List Registration}

/-- The registry after a registration. -/
def perform (r : Registry) : Registration → Registry
  | .single name origin => r.register name origin
  | .mappings table => r.registerMappings table
  | .extensions residents => r.registerResidents residents

theorem perform_eq (r : Registry) (call : Registration) :
    r.perform call = call.offers.foldl (fun r offer => r.register offer.1 offer.2) r := by
  cases call with
  | single name origin => rfl
  | mappings table => exact registerMappings_eq r table
  | extensions residents =>
      rw [Registration.offers, List.foldl_map]
      rfl

theorem foldl_perform_eq (r : Registry) (calls : List Registration) :
    calls.foldl perform r =
      (calls.flatMap Registration.offers).foldl (fun r offer => r.register offer.1 offer.2) r := by
  induction calls generalizing r with
  | nil => rfl
  | cons call calls ih =>
      rw [List.foldl_cons, ih, perform_eq, List.flatMap_cons, List.foldl_append]

/-- A name is bound to what it was bound to, or else to the first offer. -/
theorem originOf?_foldl_perform (r : Registry) (calls : List Registration) (name : String) :
    (calls.foldl perform r).originOf? name =
      (r.originOf? name).or ((calls.flatMap Registration.offers).lookup name) := by
  rw [foldl_perform_eq, originOf?_foldl_register]

/-- A name is looked up with success in offers that hold it. -/
theorem isSome_lookup_iff {offers : List (String × Path)} :
    (offers.lookup name).isSome ↔ ∃ origin, (name, origin) ∈ offers := by
  rw [List.lookup_isSome_iff]
  constructor
  · rintro ⟨⟨other, origin⟩, hmem, heq⟩
    obtain rfl : name = other := eq_of_beq heq
    exact ⟨origin, hmem⟩
  · rintro ⟨origin, hmem⟩
    exact ⟨(name, origin), hmem, beq_self_eq_true name⟩

theorem isSome_lookup_flatMap_iff : ((calls.flatMap Registration.offers).lookup name).isSome ↔
    ∃ call ∈ calls, ∃ origin, (name, origin) ∈ call.offers := by
  rw [isSome_lookup_iff]
  simp only [List.mem_flatMap]
  constructor
  · rintro ⟨origin, call, hcall, hoffer⟩
    exact ⟨call, hcall, origin, hoffer⟩
  · rintro ⟨call, hcall, origin, hoffer⟩
    exact ⟨origin, call, hcall, hoffer⟩

/-- What is bound after some registrations: the names bound before and those
offered, each for good to what was bound or offered first. -/
structure FirstWins (r : Registry) (calls : List Registration) : Prop where
  isSome_iff : ∀ name, ((calls.foldl perform r).originOf? name).isSome ↔
    (r.originOf? name).isSome ∨ ∃ call ∈ calls, ∃ origin, (name, origin) ∈ call.offers
  kept : ∀ name origin, r.originOf? name = some origin →
    (calls.foldl perform r).originOf? name = some origin
  first : ∀ name origin, r.originOf? name = none →
    (calls.flatMap Registration.offers).lookup name = some origin →
    ∀ later, ((calls ++ later).foldl perform r).originOf? name = some origin

theorem firstWins (r : Registry) (calls : List Registration) : r.FirstWins calls where
  isSome_iff name := by
    rw [originOf?_foldl_perform, Option.isSome_or, Bool.or_eq_true, isSome_lookup_flatMap_iff]
  kept name origin hbound := by
    rw [originOf?_foldl_perform, hbound, Option.some_or]
  first name origin hfree hoffer later := by
    rw [originOf?_foldl_perform, hfree, Option.none_or, List.flatMap_append, List.lookup_append,
      hoffer, Option.some_or]

end Registry

end Confinement
