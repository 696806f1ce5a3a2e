import Epx.System

/-!
# Reads through an absent command or tracker

For each event, whether its handler comes to a read through a command or a leader tracker that is
not there. Such a read is one of the causes of `undefined`; the others are more overlaps than a
buffer of spans holds, an index of fewer than two entries in `barrier`, and a replica id past the
index array.
-/

namespace Epx

/-- `interferes` reads through one of its commands. -/
def interferesAbsent (c₁ c₂ : Option Command) : Bool :=
  match c₁, c₂ with
  | none, _ => true
  | some a, none => decide (a.writing = .read) || !a.spans.isEmpty
  | some _, some _ => false

section Handlers

variable (T : RangeTree)

/-- The walk of `seq_deps_for_command`. -/
def walkAbsent (ignore : Option InstanceId) : List Instance → T.Tree → Option Command → Bool
  | [], _, _ => false
  | ti :: rest, rt, cmd =>
    if ignore = some ti.key then walkAbsent ignore rest rt cmd
    else if isState ti.status [.executed] then false
    else if interferesAbsent ti.command cmd then true
    else
      match interferes ti.command cmd with
      | none => false
      | some [] => walkAbsent ignore rest rt cmd
      | some (s :: ss) =>
        match ti.command, cmd with
        | some tc, some c =>
          if tc.writing = .write then
            let (rt, spans, _, covered) := spanLoop T rt ((s :: ss).take tc.spans.length) c.spans
            !covered && walkAbsent ignore rest rt (some { c with spans })
          else walkAbsent ignore rest rt cmd
        | _, _ => true

/-- `sd_for_command`. -/
def scanAbsent (r : Replica) (cmd : Option Command) (ignore : Option InstanceId) (p : Probe) :
    Bool :=
  (List.range N).any fun k =>
    (sdLoop T r ignore k cmd p).any fun q => walkAbsent T ignore (r.index k).entries T.init q.2.1

/-- The walk of `pre_accept_conflict`, which passes over instances without a command. -/
def conflictAbsent (i : Instance) (seq : ℕ) (deps : List Dependency) :
    List Entry → T.Tree → Option Command → Bool
  | [], _, _ => false
  | ti :: rest, rt, c =>
    if isState ti.status [.executed] then false
    else if hasKey ti.key deps then conflictAbsent i seq deps rest rt c
    else if ti.command = none then conflictAbsent i seq deps rest rt c
    else if i.key.instanceId ≤ ltDepReplica i.key.replicaId ti.deps then
      conflictAbsent i seq deps rest rt c
    else if interferesAbsent ti.command c then true
    else
      match interferes ti.command c with
      | none => false
      | some [] => conflictAbsent i seq deps rest rt c
      | some (s :: ss) =>
        match ti.command, c with
        | some tc, some cmd =>
          if tc.writing = .write then
            let (rt, spans, add, covered) := spanLoop T rt ((s :: ss).take tc.spans.length) cmd.spans
            !(add && isDepConflict ti seq deps i.key.replicaId) && !covered
              && conflictAbsent i seq deps rest rt (some { cmd with spans })
          else
            !(readDependency T rt cmd && isDepConflict ti seq deps i.key.replicaId)
              && conflictAbsent i seq deps rest rt c
        | _, _ => true

/-- `pac_conflict`. -/
def pacAbsent (rows : ℕ → List Entry) (i : Instance) (own : Bool) (c : Option Command) (seq : ℕ)
    (deps : List Dependency) : Bool :=
  (List.range N).any fun k =>
    (pacLoop T rows i own seq deps (List.range k) c).any fun q =>
      q.1.isNone && conflictAbsent T i seq deps
        ((sharing i own q.2 (rows k)).dropWhile fun x => x.key.instanceId ≠ i.key.instanceId)
        T.init q.2

/-- `find_conflict`. -/
def findConflictAbsent (r : Replica) (i : Instance) (c : Option Command) (seq : ℕ) (deps : Deps) :
    Bool :=
  if i.command.isSome && State.accepted.bits ≤ i.status.bits then false
  else if i.command.isSome && (i.seq = seq && i.deps.equalDeps deps) then false
  else pacAbsent T r.rows i false c seq deps.slots

/-- `phase1`: the scan, then `i->lt->equal`. -/
def phase1Absent (r : Replica) (i : Instance) (m : Message) : Bool :=
  let i := { instanceReset i with timer := none }
  scanAbsent T (r.put i) m.command (some i.key) ⟨0, .zero⟩
    || ((sdForCommand T (r.put i) m.command (some i.key) ⟨0, .zero⟩).isSome && i.lt.isNone)

/-- `pre_accept`. -/
def preAcceptAbsent (r : Replica) (i : Instance) (m : Message) : Bool :=
  isState i.status [.preAccepted, .none] && !decide (m.ballot < i.ballot)
    && scanAbsent T r m.command (some i.key) ⟨0, i.deps⟩

/-- `pre_accept_ok`: `i->lt`, and `i->command` in `do_commit`. -/
def preAcceptOkAbsent (i : Instance) : Bool :=
  isState i.status [.preAccepted] && isInitialBallot i.ballot
    && match i.lt with
      | none => true
      | some lt =>
        decide (N / 2 ≤ u8 (lt.preAcceptOks + 1) ∧ lt.equal ≠ 0 ∧ ¬ hasUncommittedDeps i)
          && i.command.isNone

/-- `pre_accept_reply`. -/
def preAcceptReplyAbsent (i : Instance) (m : Message) : Bool :=
  isState i.status [.preAccepted] && decide (i.ballot = m.ballot)
    && match i.lt with
      | none => true
      | some lt =>
        let merged := i.deps.merge m.deps.slots
        decide (m.nack = 0 ∧ N / 2 ≤ u8 (lt.preAcceptOks + 1)
            ∧ foldEqual lt.equal i.seq m.seq merged.2 ≠ 0 ∧ isInitialBallot i.ballot
            ∧ ¬ hasUncommittedDeps { i with deps := merged.1 })
          && i.command.isNone

/-- `accept_reply`. -/
def acceptReplyAbsent (i : Instance) (m : Message) : Bool :=
  isState i.status [.accepted] && decide (i.ballot = m.ballot)
    && match i.lt with
      | none => true
      | some lt => decide (m.nack = 0 ∧ N / 2 < u8 (lt.acceptOks + 1) + 1) && i.command.isNone

/-- `prepare_reply` from `struct recovery_instance ri = i->lt->ri` on. -/
def decidePreparedAbsent (r : Replica) (i : Instance) (lt : LeaderTracker) (m : Message) : Bool :=
  let ri := lt.ri
  if isState ri.status [.none] then false
  else if isState ri.status [.accepted] ||
      (decide (ri.leaderReplied = 0) && (decide (N / 2 ≤ ri.preAcceptCount) &&
        isState ri.status [.preAcceptedEq])) then false
  else if ri.leaderReplied = 0 ∧ (N / 2 + 1) / 2 ≤ ri.preAcceptCount then
    let lt := { lt with preAcceptOks := 0, nacks := 0, quorum := List.replicate N 1 }
    let rows := (r.put { i with lt := some lt }).rows
    pacAbsent T rows i i.shared ri.command ri.seq ri.deps.slots
      || match pacConflict T rows i i.shared ri.command ri.seq ri.deps.slots with
        | some (some conflict, command) =>
          let lt := { lt with ri := { ri with command } }
          let i := i.scanned command
          decide (State.committed.bits ≤ conflict.status.bits)
            && phase1Absent T r { i with lt := some lt } { m with command, ballot := i.ballot }
        | _ => false
  else
    phase1Absent T r { i with lt := some { lt with recoveryStatus := .none } }
      { m with command := ri.command, ballot := i.ballot }

/-- `prepare_reply`. -/
def prepareReplyAbsent (r : Replica) (i : Instance) (m : Message) : Bool :=
  match i.lt with
  | none => false
  | some lt =>
    if lt.recoveryStatus ≠ .preparing ∨ m.nack ≠ 0 then false
    else
      let lt := { lt with prepareOks := u8 (lt.prepareOks + 1) }
      if isState m.instanceStatus [.committed, .executed] then m.command.isNone
      else
        if (tallyReply i lt m).prepareOks < N / 2 then false
        else decidePreparedAbsent T r (tallyInst i lt m) (tallyReply i lt m) m

/-- `try_pre_accept`. -/
def tryPreAcceptAbsent (r : Replica) (i : Instance) (m : Message) : Bool :=
  !decide (m.ballot < i.ballot) && findConflictAbsent T r i m.command m.seq m.deps

/-- The tail of the nack branch of `try_pre_accept_reply` as `deferConflict` has it. -/
def deferAbsent (r : Replica) (i : Instance) (lt : LeaderTracker) (nq : ℕ) (ri : RecoveryInstance)
    (m : Message) : Bool :=
  let deferred := (r.dh (dhKey m.id)).any fun k => decide (lt.quorum.getD k 0 ≠ 0)
  decide (nq = N / 2) && deferred
    && phase1Absent T r
      { i with lt := i.lt.map fun lt => { lt with recoveryStatus := .none } }
      { m with command := ri.command, ballot := i.ballot }

/-- The nack branch of `try_pre_accept_reply`, with the nack counted. -/
def tryNackAbsent (r : Replica) (i : Instance) (lt : LeaderTracker) (m : Message) : Bool :=
  if i.ballot < m.ballot then false
  else
    let ri := lt.ri
    let lt := { lt with tryPreAcceptOks := u8 (lt.tryPreAcceptOks + 1) }
    if m.conflict.id = m.id then false
    else
      let nq := lt.quorum.count 0
      if State.committed.bits ≤ m.conflict.status.bits ∨ N / 2 < nq then
        let i := { i with lt := some { lt with recoveryStatus := .none } }
        phase1Absent T r i m
          || (phase1 T r i m).any fun q => deferAbsent T r q.1 lt nq ri q.2
      else deferAbsent T r { i with lt := some lt } lt nq ri m

/-- `try_pre_accept_reply`. -/
def tryPreAcceptReplyAbsent (r : Replica) (i : Instance) (m : Message) : Bool :=
  match i.lt with
  | none => false
  | some lt =>
    if lt.recoveryStatus ≠ .tryPreAccepting ∨ lt.ri.status = .none then false
    else if m.nack ≠ 0 then tryNackAbsent T r i { lt with nacks := u8 (lt.nacks + 1) } m
    else false

/-- `progress`. -/
def progressAbsent (r : Replica) (i : Instance) (m : Message) : Bool :=
  match m.type with
  | .phase1 => phase1Absent T r i m
  | .preAccept => preAcceptAbsent T r i m
  | .preAcceptOk => preAcceptOkAbsent i
  | .preAcceptReply => preAcceptReplyAbsent i m
  | .acceptReply => acceptReplyAbsent i m
  | .prepareReply => prepareReplyAbsent T r i m
  | .tryPreAccept => tryPreAcceptAbsent T r i m
  | .tryPreAcceptReply => tryPreAcceptReplyAbsent T r i m
  | .accept | .commit | .prepare | .execute => false

/-- An event. -/
def Replica.readsAbsent (r : Replica) : Event → Bool
  | .propose m =>
    let i := r.ownInstance
    (r.find i.key).isNone && phase1Absent T (r.put i) i m
  | .step m =>
    if m.id.instanceId = 0 ∨ N ≤ m.id.replicaId then false
    else progressAbsent T (r.put (r.copy m.id)) (r.copy m.id) m
  | .checkpoint _ | .timeout _ _ | .execute _ => false

end Handlers

end Epx
