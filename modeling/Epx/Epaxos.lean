import Epx.Replica

/-!
# The message handlers

`epaxos.c`. A handler works on the instance `i` of the replica's index and on the message `m`,
which it may send on; `none` is a read through a null pointer, after which the program has no
behaviour. An `Effect` is what a handler leaves behind: the instance, the messages it puts on
`chan_io` and `chan_eo`, whether the instance goes to the executor, and whether `clear` was called.
-/

namespace Epx

structure Effect where
  inst : Instance
  dh : ℕ → Option ℕ
  cleared : Bool
  io : List Message
  eo : List Message
  exec : Bool

/-- The handler returns with the instance as it stands. -/
def quiet (r : Replica) (i : Instance) : Effect := ⟨i, r.dh, false, [], [], false⟩

/-- The handler returns after `send_io`. -/
def sending (r : Replica) (i : Instance) (m : Message) : Effect := ⟨i, r.dh, false, [m], [], false⟩

/-- `do_commit`: the message is on both queues when the command's `writing` is read. -/
def doCommit (r : Replica) (i : Instance) (m : Message) : Option Effect :=
  i.command.map fun c =>
    { inst := { i with status := .committed, timer := none }
      dh := r.dh
      cleared := false
      io := [{ m with type := .commit }]
      eo := if c.writing = .write then [{ m with type := .commit }] else []
      exec := true }

/-- The tracker as `recover` leaves it. -/
def recoverTracker (r : Replica) (i : Instance) : LeaderTracker :=
  let lt := { i.lt.getD newTracker with recoveryStatus := .preparing }
  let lt :=
    if isState i.status [.accepted] then { lt with maxBallot := i.ballot }
    else if isState i.status [.preAccepted] then
      { lt with
        ri := { lt.ri with
          preAcceptCount := 1
          leaderReplied := if r.id = i.key.replicaId then 1 else 0 } }
    else lt
  { lt with
    ri := { lt.ri with status := i.status, command := i.command, seq := i.seq, deps := i.deps } }

/-- `recover`. -/
def recover (r : Replica) (i : Instance) (m : Message) : Effect :=
  let ballot := largerBallot i.ballot r.id
  sending r
    { i with lt := some (recoverTracker r i), ballot, timer := some .slowPath, shared := true }
    { m with ballot, id := i.key, command := i.command, seq := i.seq, type := .prepare }

section Handlers

variable (T : RangeTree)

/-- `phase1`: the instance and the `PRE_ACCEPT` it sends. -/
def phase1 (r : Replica) (i : Instance) (m : Message) : Option (Instance × Message) :=
  let i := { instanceReset i with timer := none }
  match sdForCommand T (r.put i) m.command (some i.key) ⟨0, .zero⟩, i.lt with
  | some (mseq, command, p), some lt =>
    let seq := u64 (mseq + 1)
    some
      ({ i with
          seq
          status := .preAccepted
          lt := some { lt with equal := if p.updated = 0 then 1 else 0 }
          deps := p.deps
          command
          ballot := m.ballot
          timer := some .fastPath
          shared := false },
        { m with seq, command, deps := p.deps, id := i.key, type := .preAccept })
  | _, _ => none

/-- `pre_accept`. -/
def preAccept (r : Replica) (i : Instance) (m : Message) : Option Effect :=
  if isState i.status [.committed, .accepted] then some (quiet r i)
  else if !isState i.status [.preAccepted, .none] then some (quiet r i)
  else if m.ballot < i.ballot then
    some (sending r i { m with
      ballot := i.ballot, command := i.command, seq := i.seq, nack := 1, deps := i.deps
      type := .preAcceptReply })
  else
    match sdForCommand T r m.command (some i.key) ⟨0, i.deps⟩ with
    | none => none
    | some (mseq, command, p) =>
      let nseq := max m.seq (u64 (mseq + 1))
      let m := { m with command }
      let i := { i with
        status := if p.updated = 0 then .preAcceptedEq else .preAccepted
        command
        ballot := m.ballot
        deps := p.deps
        seq := nseq
        shared := false }
      let e :=
        if i.seq ≠ m.seq ∨ 0 < p.updated ∨ hasUncommittedDeps i ∨ ¬ isInitialBallot m.ballot then
          sending r i { m with seq := nseq, deps := i.deps, type := .preAcceptReply }
        else sending r i { m with type := .preAcceptOk }
      some { e with cleared := command.isNone }

/-- `pre_accept_ok`. -/
def preAcceptOk (r : Replica) (i : Instance) (m : Message) : Option Effect :=
  if !isState i.status [.preAccepted] || !isInitialBallot i.ballot then some (quiet r i)
  else
    match i.lt with
    | none => none
    | some lt =>
      let lt := { lt with preAcceptOks := u8 (lt.preAcceptOks + 1) }
      let i := { i with lt := some lt }
      if N / 2 ≤ lt.preAcceptOks ∧ lt.equal ≠ 0 ∧ ¬ hasUncommittedDeps i then doCommit r i m
      else if N / 2 ≤ lt.preAcceptOks then
        some (sending r { i with status := .accepted } { m with type := .accept })
      else some (quiet r i)

/-- The nack branch of `pre_accept_reply` and `accept_reply`. -/
def nackReply (r : Replica) (i : Instance) (lt : LeaderTracker) (m : Message) : Effect :=
  let lt := { lt with nacks := u8 (lt.nacks + 1) }
  let lt := if lt.maxBallot < m.ballot then { lt with maxBallot := m.ballot } else lt
  let i := { i with lt := some lt }
  if N / 2 ≤ lt.nacks then recover r i m else quiet r i

/-- `equal` after the loop over the reply's dependencies and its folding to 0 or 1: an assignment
where the seq grows, then one decrement of a `uint8_t` for each change. -/
def foldEqual (equal seq mseq changes : ℕ) : ℕ :=
  if u8 ((if seq < mseq then 1 else equal) + 256 * changes - changes) = 1 then 1 else 0

/-- `pre_accept_reply`. -/
def preAcceptReply (r : Replica) (i : Instance) (m : Message) : Option Effect :=
  if !isState i.status [.preAccepted] || i.ballot ≠ m.ballot then some (quiet r i)
  else
    match i.lt with
    | none => none
    | some lt =>
      if m.nack ≠ 0 then some (nackReply r i lt m)
      else
        let merged := i.deps.merge m.deps.slots
        let lt := { lt with
          preAcceptOks := u8 (lt.preAcceptOks + 1)
          equal := foldEqual lt.equal i.seq m.seq merged.2 }
        let i := { i with lt := some lt, seq := max i.seq m.seq, deps := merged.1 }
        if N / 2 ≤ lt.preAcceptOks ∧ lt.equal ≠ 0 ∧ isInitialBallot i.ballot ∧
            ¬ hasUncommittedDeps i then doCommit r i m
        else if N / 2 ≤ lt.preAcceptOks then
          some (sending r { i with status := .accepted } { m with type := .accept })
        else some (quiet r i)

/-- `accept`. -/
def accept (r : Replica) (i : Instance) (m : Message) : Effect :=
  if isState i.status [.committed, .executed] then quiet r i
  else if m.ballot < i.ballot then
    sending r i { m with nack := 1, ballot := i.ballot, type := .acceptReply }
  else
    { sending r
        { i with status := .accepted, ballot := m.ballot, seq := m.seq, deps := m.deps }
        { m with type := .acceptReply } with
      cleared := m.command.isNone }

/-- `accept_reply`. -/
def acceptReply (r : Replica) (i : Instance) (m : Message) : Option Effect :=
  if !isState i.status [.accepted] || i.ballot ≠ m.ballot then some (quiet r i)
  else
    match i.lt with
    | none => none
    | some lt =>
      if m.nack ≠ 0 then some (nackReply r i lt m)
      else
        let lt := { lt with acceptOks := u8 (lt.acceptOks + 1) }
        let i := { i with lt := some lt }
        if N / 2 < lt.acceptOks + 1 then doCommit r i m else some (quiet r i)

/-- `prepare`. -/
def prepare (r : Replica) (i : Instance) (m : Message) : Effect :=
  if m.ballot < i.ballot then sending r i { m with nack := 1, type := .prepareReply }
  else
    sending r { i with ballot := m.ballot } { m with
      command := i.command, deps := i.deps, seq := i.seq, ballot := m.ballot
      instanceStatus := i.status, type := .prepareReply }

/-- The recovery record takes the reply over. -/
def Message.Taken (m : Message) (lt : LeaderTracker) : Prop :=
  (m.instanceStatus = .accepted ∧ (lt.maxBallot < m.ballot ∨ lt.ri.status = .none))
    ∨ (m.instanceStatus = .preAcceptedEq ∧ lt.ri.status.bits < State.accepted.bits)
    ∨ (m.instanceStatus = .preAccepted ∧ lt.ri.status = .none)

instance (m : Message) (lt : LeaderTracker) : Decidable (m.Taken lt) :=
  inferInstanceAs (Decidable (_ ∨ _))

/-- The recovery record after a reply that is not committed: an `ACCEPTED` reply is taken over
where its ballot is above `max_ballot`, a pre-accepted one where nothing better is known. -/
def tallyReply (i : Instance) (lt : LeaderTracker) (m : Message) : LeaderTracker :=
  let lt :=
    if isState m.instanceStatus [.accepted] &&
        (decide (lt.maxBallot < m.ballot) || isState lt.ri.status [.none]) then
      let ri := updateRecoveryInstance lt.ri m
      { lt with maxBallot := m.ballot, ri := { ri with preAcceptCount := u8 (ri.preAcceptCount + 1) } }
    else lt
  if isState m.instanceStatus [.preAccepted, .preAcceptedEq] &&
      decide (lt.ri.status.bits < State.accepted.bits) then
    let ri :=
      if isState lt.ri.status [.none] || isState m.instanceStatus [.preAcceptedEq] then
        let ri := updateRecoveryInstance lt.ri m
        { ri with preAcceptCount := u8 (ri.preAcceptCount + 1) }
      else if m.seq = i.seq && m.deps.equalDeps i.deps then
        { lt.ri with preAcceptCount := u8 (lt.ri.preAcceptCount + 1) }
      else lt.ri
    { lt with ri := if m.sender = m.id.replicaId then { ri with leaderReplied := 1 } else ri }
  else lt

/-- The instance after such a reply. -/
def tallyInst (i : Instance) (lt : LeaderTracker) (m : Message) : Instance :=
  { i with lt := some (tallyReply i lt m), shared := i.shared && !decide (m.Taken lt) }

/-- The instance after a scan has left the record's command as `c`. -/
def Instance.scanned (i : Instance) (c : Option Command) : Instance :=
  { i with command := if i.shared then c else i.command }

/-- The restart of phase 1 with the record's command. -/
def restart (r : Replica) (i : Instance) (m : Message) : Option Effect :=
  (phase1 T r i m).map fun q => sending r q.1 q.2

/-- `prepare_reply` from `struct recovery_instance ri = i->lt->ri` on. -/
def decidePrepared (r : Replica) (i : Instance) (lt : LeaderTracker) (m : Message) :
    Option Effect :=
  let ri := lt.ri
  if isState ri.status [.none] then
    let deps := noop r m.id
    some (sending r
      { i with lt := some { lt with recoveryStatus := .none }, status := .accepted, deps }
      { m with deps, command := none, ballot := i.ballot, type := .accept })
  else if isState ri.status [.accepted] ||
      (decide (ri.leaderReplied = 0) && (decide (N / 2 ≤ ri.preAcceptCount) &&
        isState ri.status [.preAcceptedEq])) then
    some (sending r
      { i with
        command := ri.command, seq := ri.seq, deps := ri.deps, status := .accepted
        lt := some { lt with recoveryStatus := .none }, shared := true }
      { m with ballot := i.ballot, deps := ri.deps, seq := ri.seq, type := .accept })
  else if ri.leaderReplied = 0 ∧ (N / 2 + 1) / 2 ≤ ri.preAcceptCount then
    let lt := { lt with preAcceptOks := 0, nacks := 0, quorum := List.replicate N 1 }
    match pacConflict T (r.put { i with lt := some lt }).rows i i.shared ri.command ri.seq
        ri.deps.slots with
    | none => none
    | some (some conflict, command) =>
      let lt := { lt with ri := { ri with command } }
      let i := i.scanned command
      if State.committed.bits ≤ conflict.status.bits then
        restart T r { i with lt := some lt } { m with command, ballot := i.ballot }
      else
        some (sending r
          { i with lt := some { lt with
              nacks := 0, quorum := lt.quorum.set r.id 0, recoveryStatus := .tryPreAccepting } }
          { m with
            command := i.command, deps := i.deps, seq := i.seq, ballot := i.ballot
            type := .tryPreAccept })
    | some (none, command) =>
      some (sending r
        { i with
          command, seq := ri.seq, deps := ri.deps, status := .preAccepted
          lt := some { lt with
            preAcceptOks := 1, ri := { ri with command }, recoveryStatus := .tryPreAccepting }
          shared := true }
        { m with
          command, deps := ri.deps, seq := ri.seq, ballot := i.ballot, type := .tryPreAccept })
  else
    restart T r { i with lt := some { lt with recoveryStatus := .none } }
      { m with command := ri.command, ballot := i.ballot }

/-- `prepare_reply`. -/
def prepareReply (r : Replica) (i : Instance) (m : Message) : Option Effect :=
  match i.lt with
  | none => some (quiet r i)
  | some lt =>
    if lt.recoveryStatus ≠ .preparing then some (quiet r i)
    else if m.nack ≠ 0 then
      some (quiet r { i with lt := some { lt with nacks := u8 (lt.nacks + 1) } })
    else
      let lt := { lt with prepareOks := u8 (lt.prepareOks + 1) }
      if isState m.instanceStatus [.committed, .executed] then
        doCommit r
          { i with
            lt := some lt, seq := m.seq, command := m.command, deps := m.deps, shared := false }
          { m with ballot := i.ballot }
      else
        if (tallyReply i lt m).prepareOks < N / 2 then some (quiet r (tallyInst i lt m))
        else decidePrepared T r (tallyInst i lt m) (tallyReply i lt m) m

/-- `try_pre_accept`. -/
def tryPreAccept (r : Replica) (i : Instance) (m : Message) : Option Effect :=
  if m.ballot < i.ballot then
    some (sending r i { m with
      conflict := ⟨m.id, i.status⟩, ballot := i.ballot, nack := 1, type := .tryPreAcceptReply })
  else
    match findConflict T r i m.command m.seq m.deps with
    | none => none
    | some (some conflict, command) =>
      some (sending r i { m with
        command, conflict := ⟨conflict.key, conflict.status⟩, ballot := i.ballot, nack := 1
        type := .tryPreAcceptReply })
    | some (none, command) =>
      some (sending r
        { i with
          command, deps := m.deps, ballot := m.ballot, seq := m.seq, status := .preAccepted
          shared := false }
        { m with command, type := .tryPreAcceptReply })

/-- The tail of the nack branch of `try_pre_accept_reply`: the deferred entry of the instance with
`nq == N/2`, then the entry of the conflict. -/
def deferConflict (r : Replica) (i : Instance) (lt : LeaderTracker) (nq : ℕ) (ri : RecoveryInstance)
    (m : Message) (io : List Message) : Option Effect :=
  let deferred := (r.dh (dhKey m.id)).any fun k => decide (lt.quorum.getD k 0 ≠ 0)
  let restarted : Option (Instance × Message × List Message) :=
    if nq = N / 2 ∧ deferred then
      (phase1 T r
          { i with lt := i.lt.map fun lt => { lt with recoveryStatus := .none } }
          { m with command := ri.command, ballot := i.ballot }).map
        fun q => (q.1, q.2, io ++ [q.2])
    else some (i, m, io)
  restarted.map fun q =>
    if N / 2 < lt.tryPreAcceptOks then
      { quiet r { q.1 with timer := some .slowPath } with
        dh := Function.update r.dh (dhKey q.2.1.conflict.id) (some q.2.1.id.replicaId)
        io := q.2.2 }
    else { quiet r q.1 with io := q.2.2 }

/-- The nack branch of `try_pre_accept_reply`, with the nack counted. -/
def tryNack (r : Replica) (i : Instance) (lt : LeaderTracker) (m : Message) : Option Effect :=
  if i.ballot < m.ballot then
    let ballot := largerBallot m.ballot r.id
    some (sending r { i with ballot, lt := some lt } { m with ballot, type := .tryPreAccept })
  else
    let ri := lt.ri
    let lt := { lt with tryPreAcceptOks := u8 (lt.tryPreAcceptOks + 1) }
    if m.conflict.id = m.id then
      let quorum := (lt.quorum.set m.sender 0).set m.conflict.id.replicaId 0
      some (sending r { i with lt := some { lt with quorum } } { m with type := .prepare })
    else
      let nq := lt.quorum.count 0
      if State.committed.bits ≤ m.conflict.status.bits ∨ N / 2 < nq then
        match phase1 T r { i with lt := some { lt with recoveryStatus := .none } } m with
        | none => none
        | some (i, m) => deferConflict T r i lt nq ri m [m]
      else deferConflict T r { i with lt := some lt } lt nq ri m []

/-- `try_pre_accept_reply`. -/
def tryPreAcceptReply (r : Replica) (i : Instance) (m : Message) : Option Effect :=
  match i.lt with
  | none => some (quiet r i)
  | some lt =>
    if lt.recoveryStatus ≠ .tryPreAccepting ∨ lt.ri.status = .none then some (quiet r i)
    else if m.nack ≠ 0 then tryNack T r i { lt with nacks := u8 (lt.nacks + 1) } m
    else
      let ri := lt.ri
      let lt := { lt with
        preAcceptOks := u8 (lt.preAcceptOks + 1), tryPreAcceptOks := u8 (lt.tryPreAcceptOks + 1) }
      if N / 2 ≤ lt.preAcceptOks then
        some (sending r
          { i with
            command := ri.command, deps := ri.deps, seq := ri.seq, status := .accepted
            lt := some { lt with acceptOks := 0, recoveryStatus := .none }, shared := true }
          { m with
            command := ri.command, deps := ri.deps, seq := ri.seq, instanceStatus := .accepted
            type := .accept })
      else some (quiet r { i with lt := some lt })

/-- `commit`. -/
def commit (r : Replica) (i : Instance) (m : Message) : Effect :=
  { quiet r { i with timer := none, status := .committed, seq := m.seq, deps := m.deps } with
    exec := true }

/-- `progress`. -/
def progress (r : Replica) (i : Instance) (m : Message) : Option Effect :=
  match m.type with
  | .phase1 => restart T r i m
  | .preAccept => preAccept T r i m
  | .preAcceptReply => preAcceptReply r i m
  | .accept => some (accept r i m)
  | .commit => some (commit r i m)
  | .acceptReply => acceptReply r i m
  | .preAcceptOk => preAcceptOk r i m
  | .prepare => some (prepare r i m)
  | .prepareReply => prepareReply T r i m
  | .tryPreAccept => tryPreAccept T r i m
  | .tryPreAcceptReply => tryPreAcceptReply T r i m
  | .execute => some (quiet r i)

end Handlers

/-- `slow_path_timeout`, on an instance whose timer has left the wheel. -/
def slowPathTimeout (r : Replica) (i : Instance) : Effect := recover r i zeroMessage

/-- `fast_path_timeout`, its message allocated on the uninitialised memory `m`. -/
def fastPathTimeout (r : Replica) (i : Instance) (m : Message) : Effect :=
  sending r { i with timer := some .slowPath } { messageFromInstance m i with type := .accept }

end Epx
