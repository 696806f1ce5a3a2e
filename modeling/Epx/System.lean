import Epx.Epaxos

/-!
# The replicas and their runs

`N` replicas, each taking one event at a time: `propose` and `checkpoint`, a pending timer of one
of its instances, a message for `step`, and the executor's write of `EXECUTED` to an instance it
was handed. A message once sent can be delivered at any later time, any number of times or never:
`PREPARE`, `PRE_ACCEPT`, `ACCEPT`, `TRY_PRE_ACCEPT` and `COMMIT` at every other replica, an answer
at the replica whose message it answers. The log of a run holds a record of every event, the last
one first.
-/

namespace Epx

/-- What a replica can be given to do. The message of `checkpoint` and of a timeout is the memory
its own message is allocated on. -/
inductive Event
  | propose (m : Message)
  | checkpoint (m : Message)
  | timeout (id : InstanceId) (m : Message)
  | step (m : Message)
  | execute (id : InstanceId)

/-- What comes of an event: undefined behaviour, a return of -1, or the instance handled and the
effect on it. -/
inductive Outcome
  | undefined
  | rejected
  | handled (before : Instance) (e : Effect)

/-- The outcome of a handler on the instance `i`. -/
def Outcome.of (i : Instance) : Option Effect → Outcome
  | none => .undefined
  | some e => .handled i e

namespace Replica

/-- The instance `step` works on: the registered one, or a new one with its timer set. -/
def copy (r : Replica) (id : InstanceId) : Instance :=
  (r.find id).getD { newInstance id with timer := some .slowPath }

/-- The instance `propose` and `checkpoint` register. -/
def ownInstance (r : Replica) : Instance := { newInstance r.nextId with lt := some newTracker }

/-- The effect of `checkpoint`. -/
def checkpointEffect (r : Replica) (i : Instance) (m : Message) : Option Effect :=
  (barrier (r.put i)).map fun deps =>
    sending r { i with deps, status := .preAccepted, timer := some .fastPath }
      { m with id := i.key, deps, ballot := i.ballot, type := .preAccept }

variable (T : RangeTree)

/-- `step`, `propose`, `checkpoint`, the timer callbacks and the executor's write. -/
def handle (r : Replica) : Event → Outcome
  | .propose m =>
    let i := r.ownInstance
    if (r.find i.key).isSome then .rejected else Outcome.of i (restart T (r.put i) i m)
  | .checkpoint m =>
    let i := r.ownInstance
    if (r.find i.key).isSome then .rejected else Outcome.of i (r.checkpointEffect i m)
  | .timeout id m =>
    match r.find id with
    | none => .rejected
    | some i =>
      match i.timer with
      | none => .rejected
      | some .slowPath => .handled i (slowPathTimeout r { i with timer := none })
      | some .fastPath => .handled i (fastPathTimeout r { i with timer := none } m)
  | .step m =>
    if m.id.instanceId = 0 then .rejected
    else if N ≤ m.id.replicaId then .undefined
    else Outcome.of (r.copy m.id) (progress T (r.put (r.copy m.id)) (r.copy m.id) m)
  | .execute id =>
    match r.find id with
    | none => .undefined
    | some i =>
      if id ∈ r.handed then .handled i (quiet r { i with status := .executed }) else .rejected

/-- The replica with the effect written back. -/
def apply (r : Replica) (e : Effect) : Replica :=
  let r := r.put e.inst
  let r := if e.cleared then r.clear else r
  { r with dh := e.dh, handed := if e.exec then e.inst.key :: r.handed else r.handed }

end Replica

/-- `io_reader` addresses an answer to the sender of the message it reuses. -/
def envelope (k : ℕ) (m : Message) : Message := { m with dest := m.sender, sender := k }

/-- The types `io_reader` broadcasts. -/
def MessageType.Broadcast (t : MessageType) : Prop :=
  t = .prepare ∨ t = .accept ∨ t = .preAccept ∨ t = .tryPreAccept ∨ t = .commit

instance (t : MessageType) : Decidable t.Broadcast := inferInstanceAs (Decidable (_ ∨ _))

/-- The message can be delivered at replica `k`. -/
def Message.Reaches (m : Message) (k : ℕ) : Prop :=
  if m.type.Broadcast then k ≠ m.sender else k = m.dest

instance (m : Message) (k : ℕ) : Decidable (m.Reaches k) := by
  unfold Message.Reaches; infer_instance

/-- One event of a run: where it happened, the replica before it, and the instance handled before
and after it. -/
structure Record where
  who : ℕ
  event : Event
  pre : Replica
  before : Instance
  after : Instance
  sent : List Message

structure World where
  replica : ℕ → Replica
  log : List Record

namespace World

def init : World := ⟨newReplica, []⟩

/-- Every message sent so far. -/
def sent (w : World) : List Message := w.log.flatMap Record.sent

/-- The event can be given to replica `k`: a message has to have been sent, and to reach it. -/
def Enabled (w : World) (k : ℕ) : Event → Prop
  | .step m => m ∈ w.sent ∧ m.Reaches k
  | _ => True

instance (w : World) (k : ℕ) (ev : Event) : Decidable (w.Enabled k ev) := by
  unfold Enabled
  cases ev <;> infer_instance

variable (T : RangeTree)

/-- The world after replica `k` has handled an event. -/
def next (w : World) (k : ℕ) (ev : Event) : Option World :=
  if k < N ∧ w.Enabled k ev then
    match (w.replica k).handle T ev with
    | .handled i e =>
      some
        { replica := Function.update w.replica k ((w.replica k).apply e)
          log := ⟨k, ev, w.replica k, i, e.inst, e.io.map (envelope k)⟩ :: w.log }
    | _ => none
  else none

end World

/-- The worlds of the runs that start with empty indexes. -/
inductive Run (T : RangeTree) : World → Prop
  | init : Run T .init
  | next {w w' : World} {k : ℕ} {ev : Event} (h : Run T w) (hn : w.next T k ev = some w') : Run T w'

end Epx
