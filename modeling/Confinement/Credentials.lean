import Confinement.Errno
import Confinement.Log

/-!
# Credentials

A process has a real, an effective and a saved user id, the same for its
group, and supplementary groups.  With an effective user id of 0 it may take
any ids; otherwise only ids among the three it has.  Supplementary groups may
be changed only by the former.  On top of these rules the kernel may refuse
any call.

`reassert` makes the real ids the only ones.  Groups come first and the user
id last, as each call needs the privilege that the user id carries.
-/

namespace Confinement

/-- The three ids of a process, for its user or for its group. -/
structure Ids where
  real : Nat
  effective : Nat
  saved : Nat
  deriving DecidableEq, Repr, Inhabited

/-- An id that the three hold already. -/
def Ids.holds (ids : Ids) (n : Nat) : Prop :=
  n = ids.real ∨ n = ids.effective ∨ n = ids.saved

instance (ids : Ids) (n : Nat) : Decidable (ids.holds n) :=
  inferInstanceAs (Decidable (_ ∨ _ ∨ _))

/-- One id in all three places. -/
def Ids.all (n : Nat) : Ids := ⟨n, n, n⟩

/-- The identity of a process. -/
structure Credentials where
  user : Ids
  group : Ids
  groups : List Nat
  deriving DecidableEq, Repr, Inhabited

/-- The calls that a kernel may refuse whatever its rules say. -/
inductive PrivilegedCall where
  | changeRoot
  | changeDirectory
  | setGroups
  | setGroupIds
  | setUserIds
  | fork
  deriving DecidableEq, Repr

/-- The refusals of a kernel. -/
abbrev Kernel := PrivilegedCall → Option Errno

namespace Credentials

/-- The ids after a request for three new ones. -/
def change (privileged : Bool) (old new : Ids) : Except Errno Ids :=
  if privileged || decide (old.holds new.real ∧ old.holds new.effective ∧ old.holds new.saved) then
    .ok new
  else .error .notPermitted

/-- Whether the process may take any id. -/
def isPrivileged (c : Credentials) : Bool := c.user.effective = 0

def setGroups (kernel : Kernel) (c : Credentials) (groups : List Nat) :
    Except Errno Credentials :=
  match kernel .setGroups with
  | some e => .error e
  | none => if c.isPrivileged then .ok { c with groups } else .error .notPermitted

def setGroupIds (kernel : Kernel) (c : Credentials) (ids : Ids) : Except Errno Credentials :=
  match kernel .setGroupIds with
  | some e => .error e
  | none => (change c.isPrivileged c.group ids).map fun group => { c with group }

def setUserIds (kernel : Kernel) (c : Credentials) (ids : Ids) : Except Errno Credentials :=
  match kernel .setUserIds with
  | some e => .error e
  | none => (change c.isPrivileged c.user ids).map fun user => { c with user }

end Credentials

/-! ## Real and effective identity -/

/-- A user id and a group id. -/
structure Identity where
  uid : Nat
  gid : Nat
  deriving DecidableEq, Repr

def Credentials.real (c : Credentials) : Identity := ⟨c.user.real, c.group.real⟩

def Credentials.effective (c : Credentials) : Identity := ⟨c.user.effective, c.group.effective⟩

/-- An identity as messages show it. -/
def Identity.describe (i : Identity) : String :=
  "Identity \x7b uid: " ++ toString i.uid ++ ", gid: " ++ toString i.gid ++ " \x7d"

/-- What happens to the effective identity when the real one replaces it. -/
inductive IdentityChange where
  | unchanged
  | downgrade
  deriving DecidableEq, Repr

def IdentityChange.label : IdentityChange → String
  | .unchanged => "Unchanged"
  | .downgrade => "Downgrade"

/-- The change from an effective to a real identity. -/
def classify (real effective : Identity) : IdentityChange :=
  if real = effective then .unchanged else .downgrade

/-- Why the real identity could not be asserted. -/
inductive IdentityFault where
  | groups (e : Errno)
  | groupId (gid : Nat) (e : Errno)
  | userId (uid : Nat) (e : Errno)
  | unverified (expected real effective : Identity)

/-- A fault in words. -/
def IdentityFault.message : IdentityFault → String
  | .groups e => "Failed to clear supplementary groups: " ++ e.symbol
  | .groupId gid e => "Failed to setresgid(" ++ toString gid ++ "): " ++ e.symbol
  | .userId uid e => "Failed to setresuid(" ++ toString uid ++ "): " ++ e.symbol
  | .unverified expected real effective =>
    "Identity verification failed: expected " ++ expected.describe ++ ", got real=" ++
      real.describe ++ ", effective=" ++ effective.describe

namespace Credentials

/-- Whether asserting the real identity gives up a superuser's powers. -/
def dropsPowers (c : Credentials) : Bool := c.user.effective = 0 && c.user.real ≠ 0

/-- Groups cleared, where powers are given up. -/
def clearGroups (kernel : Kernel) (c : Credentials) : Except Errno Credentials :=
  if c.dropsPowers then c.setGroups kernel [] else .ok c

/-- The real ids made the only ones.  When a call fails, the calls before it
have taken effect. -/
def reassert (kernel : Kernel) (c : Credentials) :
    Except IdentityFault IdentityChange × Credentials :=
  match c.clearGroups kernel with
  | .error e => (.error (.groups e), c)
  | .ok cleared =>
    match cleared.setGroupIds kernel (.all c.group.real) with
    | .error e => (.error (.groupId c.group.real e), cleared)
    | .ok grouped =>
      match grouped.setUserIds kernel (.all c.user.real) with
      | .error e => (.error (.userId c.user.real e), grouped)
      | .ok done =>
        if done.real = c.real ∧ done.effective = c.real then
          (.ok (classify c.real c.effective), done)
        else (.error (.unverified c.real done.real done.effective), done)

/-- The log of asserting the real identity. -/
def reassertLog (kernel : Kernel) (c : Credentials) : Log :=
  (if c.dropsPowers && (c.clearGroups kernel).isOk then
    [⟨.debug, "Cleared supplementary groups"⟩] else []) ++
  match (c.reassert kernel).1 with
  | .ok change =>
    [⟨.info, "Identity set to UID=" ++ toString c.user.real ++ ", GID=" ++
      toString c.group.real ++ " (" ++ change.label ++ ")"⟩]
  | .error _ => []

end Credentials

end Confinement
