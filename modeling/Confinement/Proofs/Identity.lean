import Confinement.Jail
import Confinement.Proofs.Session.Run

/-!
# Giving up a borrowed identity

The real ids are among those a process holds, so the rules never forbid to ask
for them, and a process that gives up a superuser's powers still has them when
its groups are cleared.  What remains are the refusals of the kernel
(`Credentials.IsRefused`):

* without one the real ids are the only ones left, and the change is reported
  by what the ids were before (`Credentials.reassert_of_not_isRefused`);
* with one the call fails, and the user ids are as they were
  (`Credentials.reassert_of_isRefused`).

An unprivileged process with a single id in all places can ask for no other
(`IdCall.perform_of_single`), so there is no way back.
-/

namespace Confinement

/-! ## The calls -/

namespace Credentials

variable {kernel : Kernel} {c : Credentials}

theorem change_all_real (privileged : Bool) (ids : Ids) :
    change privileged ids (.all ids.real) = .ok (.all ids.real) := by
  have hholds : ids.holds ids.real := .inl rfl
  simp [change, Ids.all, hholds]

theorem setGroupIds_all_real (hkernel : kernel .setGroupIds = none) (c : Credentials) :
    c.setGroupIds kernel (.all c.group.real) = .ok { c with group := .all c.group.real } := by
  simp only [setGroupIds, hkernel, change_all_real]
  rfl

theorem setUserIds_all_real (hkernel : kernel .setUserIds = none) (c : Credentials) :
    c.setUserIds kernel (.all c.user.real) = .ok { c with user := .all c.user.real } := by
  simp only [setUserIds, hkernel, change_all_real]
  rfl

theorem isPrivileged_of_dropsPowers (h : c.dropsPowers = true) : c.isPrivileged = true := by
  simp only [dropsPowers, Bool.and_eq_true] at h
  exact h.1

theorem clearGroups_eq_ok (h : c.dropsPowers = true → kernel .setGroups = none) :
    c.clearGroups kernel = .ok { c with groups := if c.dropsPowers then [] else c.groups } := by
  cases hdrops : c.dropsPowers with
  | false => simp [clearGroups, hdrops]
  | true => simp [clearGroups, setGroups, hdrops, h hdrops, isPrivileged_of_dropsPowers hdrops]

/-! ## All of them together -/

/-- The kernel refuses one of the calls by which the real identity is
asserted. -/
def IsRefused (kernel : Kernel) (c : Credentials) : Prop :=
  (c.dropsPowers = true ∧ kernel .setGroups ≠ none) ∨
    kernel .setGroupIds ≠ none ∨ kernel .setUserIds ≠ none

/-- The credentials with the real ids in all places. -/
def reasserted (c : Credentials) : Credentials where
  user := .all c.user.real
  group := .all c.group.real
  groups := if c.dropsPowers then [] else c.groups

/-- Nothing is refused: the real ids are the only ones left. -/
theorem reassert_of_not_isRefused (h : ¬ c.IsRefused kernel) :
    c.reassert kernel = (.ok (classify c.real c.effective), c.reasserted) := by
  simp only [IsRefused, not_or, not_and, ne_eq, Classical.not_not] at h
  obtain ⟨hgroups, hgroupIds, huserIds⟩ := h
  -- The three calls in their order, each made on the identity that the one before leaves.
  have hcleared := clearGroups_eq_ok hgroups
  have hgrouped := setGroupIds_all_real hgroupIds
    { c with groups := if c.dropsPowers then [] else c.groups }
  have hdone := setUserIds_all_real huserIds
    { c with group := .all c.group.real, groups := if c.dropsPowers then [] else c.groups }
  have hverified : c.reasserted.real = c.real ∧ c.reasserted.effective = c.real := ⟨rfl, rfl⟩
  simp only [reassert, hcleared, hgrouped, hdone]
  exact if_pos hverified

/-- Something is refused: the call fails, and the user ids are as they
were. -/
theorem reassert_of_isRefused (h : c.IsRefused kernel) :
    ∃ fault, (c.reassert kernel).1 = .error fault ∧ (c.reassert kernel).2.user = c.user := by
  by_cases hgroups : c.dropsPowers = true → kernel .setGroups = none
  · have hcleared := clearGroups_eq_ok hgroups
    simp only [reassert, hcleared]
    cases hgroupIds : kernel .setGroupIds with
    | some e =>
        exact ⟨.groupId c.group.real e, by simp [setGroupIds, hgroupIds],
          by simp [setGroupIds, hgroupIds]⟩
    | none =>
        have hgrouped := setGroupIds_all_real hgroupIds
          { c with groups := if c.dropsPowers then [] else c.groups }
        simp only [hgrouped]
        -- The call that is left is the one that was refused.
        have huserIds : kernel .setUserIds ≠ none := by
          rcases h with ⟨hdrops, hrefused⟩ | hrefused | hrefused
          · exact absurd (hgroups hdrops) hrefused
          · exact absurd hgroupIds hrefused
          · exact hrefused
        obtain ⟨e, he⟩ := Option.ne_none_iff_exists'.mp huserIds
        exact ⟨.userId c.user.real e, by simp [setUserIds, he], by simp [setUserIds, he]⟩
  · rw [Classical.not_imp] at hgroups
    obtain ⟨hdrops, hrefused⟩ := hgroups
    obtain ⟨e, he⟩ := Option.ne_none_iff_exists'.mp hrefused
    have hcleared : c.clearGroups kernel = .error e := by
      simp [clearGroups, setGroups, hdrops, he]
    exact ⟨.groups e, by simp [reassert, hcleared], by simp [reassert, hcleared]⟩

/-! ## The second time -/

theorem dropsPowers_reasserted (c : Credentials) : c.reasserted.dropsPowers = false := by
  simp [dropsPowers, reasserted, Ids.all]

theorem reasserted_reasserted (c : Credentials) : c.reasserted.reasserted = c.reasserted := by
  have hkept : c.reasserted.reasserted.groups = c.reasserted.groups := by
    simp [reasserted, dropsPowers, Ids.all]
  exact congrArg (Credentials.mk (.all c.user.real) (.all c.group.real)) hkept

theorem not_isRefused_reasserted (h : ¬ c.IsRefused kernel) :
    ¬ c.reasserted.IsRefused kernel := by
  rintro (⟨hdrops, -⟩ | hids)
  · rw [dropsPowers_reasserted] at hdrops
    cases hdrops
  · exact h (.inr hids)

theorem classify_reasserted (c : Credentials) :
    classify c.reasserted.real c.reasserted.effective = .unchanged :=
  if_pos rfl

end Credentials

/-! ## Attempts at other ids -/

/-- Three ids asked for; one left out stays as it is. -/
structure IdRequest where
  real : Option Nat
  effective : Option Nat
  saved : Option Nat

/-- The ids a request stands for. -/
def IdRequest.ids (r : IdRequest) (old : Ids) : Ids where
  real := r.real.getD old.real
  effective := r.effective.getD old.effective
  saved := r.saved.getD old.saved

/-- A call that asks for other ids. -/
inductive IdCall where
  | user (r : IdRequest)
  | group (r : IdRequest)

/-- The credentials after a call; one that fails changes nothing. -/
def IdCall.perform (kernel : Kernel) (c : Credentials) : IdCall → Credentials
  | .user r => (c.setUserIds kernel (r.ids c.user)).toOption.getD c
  | .group r => (c.setGroupIds kernel (r.ids c.group)).toOption.getD c

theorem Ids.eq_all_of_holds {n : Nat} {ids : Ids} (hreal : (Ids.all n).holds ids.real)
    (heffective : (Ids.all n).holds ids.effective) (hsaved : (Ids.all n).holds ids.saved) :
    ids = .all n := by
  obtain ⟨real, effective, saved⟩ := ids
  simp only [holds, all, or_self] at hreal heffective hsaved
  rw [hreal, heffective, hsaved]
  rfl

/-- An unprivileged change of a single id leads to no other. -/
theorem Credentials.eq_all_of_change {n : Nat} {new ids : Ids}
    (h : change false (.all n) new = .ok ids) : ids = .all n := by
  simp only [change, Bool.false_or, decide_eq_true_eq] at h
  split at h
  · rename_i hholds
    cases h
    exact Ids.eq_all_of_holds hholds.1 hholds.2.1 hholds.2.2
  · cases h

/-- Whoever is no superuser and has a single user id and a single group id
keeps them, whatever the call. -/
theorem IdCall.perform_of_single {kernel : Kernel} {c : Credentials} {uid gid : Nat}
    (huser : c.user = .all uid) (hgroup : c.group = .all gid) (huid : uid ≠ 0) (call : IdCall) :
    call.perform kernel c = c := by
  have hprivileged : c.isPrivileged = false := by
    simp [Credentials.isPrivileged, huser, Ids.all, huid]
  -- A call that is granted changes one of the two ids, and to what it was; a call that is refused
  -- changes none.
  cases call with
  | user r =>
      simp only [perform, Credentials.setUserIds, hprivileged, huser]
      split
      · rfl
      · cases hchange : Credentials.change false (.all uid) (r.ids (.all uid)) with
        | error e => rfl
        | ok ids =>
            obtain rfl := Credentials.eq_all_of_change hchange
            simp [Except.map, Except.toOption, ← huser]
  | group r =>
      simp only [perform, Credentials.setGroupIds, hprivileged, hgroup]
      split
      · rfl
      · cases hchange : Credentials.change false (.all gid) (r.ids (.all gid)) with
        | error e => rfl
        | ok ids =>
            obtain rfl := Credentials.eq_all_of_change hchange
            simp [Except.map, Except.toOption, ← hgroup]

/-- No sequence of calls leads an unprivileged process with a single user id
and a single group id to another. -/
theorem foldl_perform_of_single {kernel : Kernel} {c : Credentials} {uid gid : Nat}
    (huser : c.user = .all uid) (hgroup : c.group = .all gid) (huid : uid ≠ 0)
    (calls : List IdCall) : calls.foldl (IdCall.perform kernel) c = c := by
  induction calls with
  | nil => rfl
  | cons call rest ih =>
      rw [List.foldl_cons, IdCall.perform_of_single huser hgroup huid call]
      exact ih

/-! ## The process -/

namespace Action

variable {σ : Type}

/-- Asserting the real identity changes the credentials and the rights that
come with them, and adds to the log. -/
theorem run_assertIdentity (s : Session σ) : ∃ log, assertIdentity.run s =
    ((s.ids.reassert s.kernel).1.mapError fun fault => Stop.failed (.privilege fault.message),
      { s with
        fs := { s.fs with
          superuser := s.fs.superuser && (s.ids.reassert s.kernel).2.isPrivileged }
        ids := (s.ids.reassert s.kernel).2, log }) := by
  refine ⟨s.log ++ s.ids.reassertLog s.kernel, ?_⟩
  have hrun : (assertIdentity : Action σ Failure IdentityChange).run s =
      (lift ((s.ids.reassert s.kernel).1.mapError fun fault => Failure.privilege fault.message) :
        Action σ Failure IdentityChange).run
        { s with
          fs := { s.fs with
            superuser := s.fs.superuser && (s.ids.reassert s.kernel).2.isPrivileged }
          ids := (s.ids.reassert s.kernel).2
          log := s.log ++ s.ids.reassertLog s.kernel } := rfl
  rw [hrun]
  cases (s.ids.reassert s.kernel).1 <;> rfl

/-- Unless the kernel refuses a call, the real ids are the only ones left, and
supplementary groups are gone where a superuser's powers were given up; doing
it again changes nothing, and neither does any later call unless the real user
is the superuser.  If the kernel refuses a call, the process learns of it, and
its user ids are as they were. -/
theorem assertIdentity_irrevocable (s : Session σ) :
    (¬ s.ids.IsRefused s.kernel →
      ∃ s', assertIdentity.run s = (.ok (classify s.ids.real s.ids.effective), s') ∧
        s'.ids.user = .all s.ids.user.real ∧ s'.ids.group = .all s.ids.group.real ∧
        s'.ids.groups =
          (if s.ids.user.effective = 0 ∧ s.ids.user.real ≠ 0 then [] else s.ids.groups) ∧
        (∃ s'', assertIdentity.run s' = (.ok .unchanged, s'') ∧ Quiet s' s'') ∧
        (s.ids.user.real ≠ 0 → ∀ (kernel : Kernel) (calls : List IdCall),
          calls.foldl (IdCall.perform kernel) s'.ids = s'.ids)) ∧
    (s.ids.IsRefused s.kernel →
      ∃ text s', assertIdentity.run s = (.error (.failed (.privilege text)), s') ∧
        s'.ids.user = s.ids.user) := by
  obtain ⟨log, hrun⟩ := run_assertIdentity s
  constructor
  · intro hrefused
    rw [Credentials.reassert_of_not_isRefused hrefused] at hrun
    refine ⟨_, hrun, rfl, rfl, ?_, ?_, ?_⟩
    · simp [Credentials.reasserted, Credentials.dropsPowers]
    · -- The second run starts from the ids of the first, which are real already; nothing that was
      -- granted then is refused now.
      obtain ⟨log', hrun'⟩ := run_assertIdentity { s with
        fs := { s.fs with superuser := s.fs.superuser && s.ids.reasserted.isPrivileged },
        ids := s.ids.reasserted, log }
      rw [Credentials.reassert_of_not_isRefused (Credentials.not_isRefused_reasserted hrefused),
        Credentials.classify_reasserted, Credentials.reasserted_reasserted] at hrun'
      simp only [Bool.and_assoc, Bool.and_self] at hrun'
      exact ⟨_, hrun', log', rfl⟩
    · intro huid kernel calls
      exact foldl_perform_of_single rfl rfl huid calls
  · intro hrefused
    obtain ⟨fault, hfault, huser⟩ := Credentials.reassert_of_isRefused hrefused
    rw [hfault] at hrun
    exact ⟨_, _, hrun, huser⟩

end Action

end Confinement
