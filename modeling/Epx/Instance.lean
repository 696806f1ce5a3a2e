import Epx.Command
import Epx.Dependency

/-!
# Instances, messages and leader trackers

The records of `instance.h` and `message.h`, with the operations of `instance.c` on them. The
`timer` of an instance is the callback pending in the timer wheel. Commands are values: what
`merge` writes to a command's spans reaches the instance or message the scan was called for.
-/

namespace Epx

/-- The callbacks of `init_fp_timeout` and `init_timeout`. -/
inductive Callback
  | fastPath
  | slowPath
  deriving DecidableEq, Repr

/-- `struct recovery_instance`. -/
structure RecoveryInstance where
  command : Option Command
  deps : Deps
  status : State
  seq : ℕ
  preAcceptCount : ℕ
  leaderReplied : ℕ
  deriving DecidableEq

/-- `struct leader_tracker`. -/
structure LeaderTracker where
  preAcceptOks : ℕ
  acceptOks : ℕ
  prepareOks : ℕ
  tryPreAcceptOks : ℕ
  nacks : ℕ
  equal : ℕ
  maxBallot : ℕ
  recoveryStatus : State
  ri : RecoveryInstance
  quorum : List ℕ
  deriving DecidableEq

/-- `struct instance`; `shared` says that the command of the recovery record, where that is in use, is
the instance's own, by the same pointer. -/
structure Instance where
  key : InstanceId
  deps : Deps
  ballot : ℕ
  status : State
  command : Option Command
  seq : ℕ
  lt : Option LeaderTracker
  timer : Option Callback
  shared : Bool
  deriving DecidableEq

/-- The conflict a `TRY_PRE_ACCEPT_REPLY` reports. -/
structure Conflict where
  id : InstanceId
  status : State
  deriving DecidableEq

/-- `struct message`; `dest` and `sender` are its fields `to` and `from`. -/
structure Message where
  type : MessageType
  dest : ℕ
  ballot : ℕ
  nack : ℕ
  id : InstanceId
  command : Option Command
  seq : ℕ
  deps : Deps
  sender : ℕ
  instanceStatus : State
  conflict : Conflict
  deriving DecidableEq

/-- `new_tracker`: zeroed, with both statuses `NONE`. -/
def newTracker : LeaderTracker where
  preAcceptOks := 0
  acceptOks := 0
  prepareOks := 0
  tryPreAcceptOks := 0
  nacks := 0
  equal := 0
  maxBallot := 0
  recoveryStatus := .none
  ri := ⟨none, .zero, .none, 0, 0, 0⟩
  quorum := List.replicate N 0

/-- `new_instance`, with its key. -/
def newInstance (key : InstanceId) : Instance where
  key := key
  deps := .zero
  ballot := 0
  status := .none
  command := none
  seq := 0
  lt := none
  timer := none
  shared := false

/-- A zeroed message. -/
def zeroMessage : Message where
  type := .prepare
  dest := 0
  ballot := 0
  nack := 0
  id := ⟨0, 0⟩
  command := none
  seq := 0
  deps := .zero
  sender := 0
  instanceStatus := .none
  conflict := ⟨⟨0, 0⟩, .none⟩

/-- `message_from_instance`, on the uninitialised memory `m`. -/
def messageFromInstance (m : Message) (i : Instance) : Message :=
  { m with ballot := i.ballot, command := i.command, id := i.key, seq := i.seq, deps := i.deps }

/-- `update_recovery_instance`. -/
def updateRecoveryInstance (ri : RecoveryInstance) (m : Message) : RecoveryInstance :=
  { ri with command := m.command, deps := m.deps, seq := m.seq, status := m.instanceStatus }

/-- `is_committed`. -/
def isCommitted (i : Instance) : Bool := State.committed.bits ≤ i.status.bits

/-- `add_dep`. -/
def addDep (deps : Deps) (i : Instance) : Deps × ℕ :=
  deps.update ⟨i.key, if isCommitted i then 1 else 0⟩

/-- `has_uncommitted_deps`. -/
def hasUncommittedDeps (i : Instance) : Bool := hasUncommitted i.deps.slots

/-- `instance_reset`. -/
def instanceReset (i : Instance) : Instance :=
  { i with
    deps := .zero
    lt := i.lt.map fun lt => { lt with ri := { lt.ri with status := .none } } }

/-- The status is `COMMITTED` or `EXECUTED`. -/
def Instance.Decided (i : Instance) : Prop := i.status = .committed ∨ i.status = .executed

instance (i : Instance) : Decidable i.Decided := inferInstanceAs (Decidable (_ ∨ _))

/-- The two copies hold the same command, the same seq and the same set of dependency ids. -/
def Instance.Agrees (i j : Instance) : Prop :=
  i.command = j.command ∧ i.seq = j.seq ∧ i.deps.SameIds j.deps

end Epx
