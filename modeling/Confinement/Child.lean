import Confinement.Session

/-!
# Children

A parent learns how a child ended by waiting for it.  Waiting takes notice of
the end once; after that the child is unknown.  An end by a signal that has no
name cannot be reported, but notice of it was taken.  Signals sent to a child
end it, stop it, or let it go on, each by the signal's default effect.
-/

namespace Confinement

/-- What waiting for a child may report. -/
inductive WaitStatus where
  | exited (status : Int32)
  | signaled (signal : Int32)
  | stopped (signal : Int32)
  | continued
  | alive
  deriving DecidableEq, Repr

/-- The outcome a report stands for, if the child has ended. -/
def WaitStatus.outcome? : WaitStatus → Option Outcome
  | .exited status => some (.exited status)
  | .signaled signal => some (.signaled signal)
  | _ => none

/-- What a parent sees of a life when it looks without waiting. -/
def Life.status : Life → WaitStatus
  | .ended (.exited status) => .exited status
  | .ended (.signaled signal) => .signaled signal
  | _ => .alive

/-! ## Signals -/

/-- What a signal does to a process that made no provisions for it. -/
inductive SignalEffect where
  | ends
  | stops
  | continues
  | nothing
  deriving DecidableEq

/-- The default effect of a signal. -/
def SignalEffect.of (signal : Int) : SignalEffect :=
  if signal ∈ [0, 17, 23, 28] then .nothing
  else if signal = 18 then .continues
  else if signal ∈ [19, 20, 21, 22] then .stops
  else .ends

/-- A life after a signal.  A stopped process is ended only by a kill. -/
def Life.afterSignal (signal : Int) : Life → Life
  | .asleep =>
    match SignalEffect.of signal with
    | .ends => .ended (.signaled (Int32.ofInt signal))
    | .stops => .stopped
    | _ => .asleep
  | .stopped =>
    if signal = 9 then .ended (.signaled 9)
    else if SignalEffect.of signal = .continues then .asleep
    else .stopped
  | life => life

/-- The largest signal number. -/
def signalLimit : Int := 64

/-- The largest number of a signal with a name. -/
def namedSignalLimit : Int32 := 31

/-- Whether a parent can be told of an outcome: the signal has a name. -/
def Outcome.isReportable : Outcome → Bool
  | .exited _ => true
  | .signaled signal => 1 ≤ signal && signal ≤ namedSignalLimit

/-! ## Handles -/

/-- A handle to a child that was started. -/
structure ChildHandle where
  pid : Nat
  deriving DecidableEq, Repr

namespace ChildHandle

variable {σ : Type}

/-- The life of the child. -/
def life (h : ChildHandle) (s : Session σ) : Life :=
  match s.children.find? (·.pid = h.pid) with
  | some child => child.life
  | none => .reaped

/-- The session with another life for the child. -/
def setLife (h : ChildHandle) (life : Life) (s : Session σ) : Session σ :=
  { s with children := s.children.map fun c => if c.pid = h.pid then { c with life } else c }

/-- The failure of waiting for the child. -/
def waitFailure (h : ChildHandle) (e : Errno) : Failure :=
  .child ("waitpid(" ++ toString h.pid ++ ") failed: " ++ e.symbol)

/-- The outcome of the child if it has ended, without waiting. -/
def tryWait (h : ChildHandle) : Action σ Failure (Option Outcome) := do
  let life := h.life (← get)
  if life = .reaped then Action.fail (h.waitFailure .noChild)
  else
    match life.status.outcome? with
    | none => return none
    | some outcome =>
      -- Notice is taken of the end whether or not it can be told.
      modify (h.setLife .reaped)
      if outcome.isReportable then return some outcome
      else Action.fail (h.waitFailure .invalid)

/-- The outcome of the child once it has ended.  A parent whose child sleeps
for ever does so too. -/
def wait (h : ChildHandle) : Action σ Failure Outcome := do
  match ← h.tryWait with
  | some outcome => return outcome
  | none => throw (.ended .asleep)

/-- A signal sent to the child: whether it could be sent. -/
def kill (h : ChildHandle) (signal : Int) : Action σ Failure Bool := do
  let life := h.life (← get)
  if signal < 0 ∨ signalLimit < signal ∨ life = .reaped then return false
  else
    modify (h.setLife (life.afterSignal signal))
    return true

end ChildHandle

/-- A child started with a life of its own. -/
def startChild {σ : Type} (life : Life) : Action σ Failure ChildHandle := do
  let s ← get
  set { s with
    nextPid := s.nextPid + 1
    children := s.children ++ [Child.mk s.nextPid life] }
  return ⟨s.nextPid⟩

end Confinement
