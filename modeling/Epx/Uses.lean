import Epx.System

/-!
# What a handler does with its message buffer

For each event, the uses of the one message buffer it has, in their order: the buffer received, or
the one a timer callback or `checkpoint` allocates. Reads and writes that stand together are one
access; `do_commit` and `recover` get the buffer of their caller.
-/

namespace Epx

/-- A use of the buffer: reads or writes, `send_io`, `send_eo`. -/
inductive Use
  | access
  | sendIo
  | sendEo
  deriving DecidableEq, Repr

/-- The buffer is put on a queue once at most, and not used afterwards. -/
def OneOwner (us : List Use) : Prop := ∀ u ∈ us.dropLast, u = .access

instance (us : List Use) : Decidable (OneOwner us) :=
  inferInstanceAs (Decidable (∀ u ∈ us.dropLast, u = .access))

/-- The buffer is written and put on `chan_io`, and that is the end of it. -/
def answerUses : List Use := [.access, .sendIo]

/-- `do_commit`, of an instance with the command. -/
def doCommitUses (command : Option Command) : List Use :=
  .access :: .sendIo :: if command.any fun c => c.writing = .write then [.sendEo] else []

/-- `pre_accept`. -/
def preAcceptUses (i : Instance) : List Use :=
  if isState i.status [.committed, .accepted] then []
  else if !isState i.status [.preAccepted, .none] then []
  else answerUses

/-- `pre_accept_ok`. -/
def preAcceptOkUses (i : Instance) : List Use :=
  if !isState i.status [.preAccepted] || !isInitialBallot i.ballot then []
  else
    match i.lt with
    | none => []
    | some lt =>
      let lt := { lt with preAcceptOks := u8 (lt.preAcceptOks + 1) }
      if N / 2 ≤ lt.preAcceptOks ∧ lt.equal ≠ 0 ∧ ¬ hasUncommittedDeps i then doCommitUses i.command
      else if N / 2 ≤ lt.preAcceptOks then answerUses
      else []

/-- The nack branch of `pre_accept_reply` and `accept_reply`. -/
def nackReplyUses (lt : LeaderTracker) : List Use :=
  .access :: if N / 2 ≤ u8 (lt.nacks + 1) then answerUses else []

/-- `pre_accept_reply`. -/
def preAcceptReplyUses (i : Instance) (m : Message) : List Use :=
  if !isState i.status [.preAccepted] then []
  else
    .access ::
      if i.ballot ≠ m.ballot then []
      else
        match i.lt with
        | none => []
        | some lt =>
          if m.nack ≠ 0 then nackReplyUses lt
          else
            let merged := i.deps.merge m.deps.slots
            let lt := { lt with
              preAcceptOks := u8 (lt.preAcceptOks + 1)
              equal := foldEqual lt.equal i.seq m.seq merged.2 }
            let i := { i with lt := some lt, seq := max i.seq m.seq, deps := merged.1 }
            if N / 2 ≤ lt.preAcceptOks ∧ lt.equal ≠ 0 ∧ isInitialBallot i.ballot ∧
                ¬ hasUncommittedDeps i then doCommitUses i.command
            else if N / 2 ≤ lt.preAcceptOks then answerUses
            else []

/-- `accept`. -/
def acceptUses (i : Instance) : List Use :=
  if isState i.status [.committed, .executed] then [] else answerUses

/-- `accept_reply`. -/
def acceptReplyUses (i : Instance) (m : Message) : List Use :=
  if !isState i.status [.accepted] then []
  else
    .access ::
      if i.ballot ≠ m.ballot then []
      else
        match i.lt with
        | none => []
        | some lt =>
          if m.nack ≠ 0 then nackReplyUses lt
          else if N / 2 < u8 (lt.acceptOks + 1) + 1 then doCommitUses i.command
          else []

/-- `prepare_reply`: whichever way it decides, it ends with a `send_io` or with `phase1`. -/
def prepareReplyUses (i : Instance) (m : Message) : List Use :=
  match i.lt with
  | none => []
  | some lt =>
    if lt.recoveryStatus ≠ .preparing then []
    else
      .access ::
        if m.nack ≠ 0 then []
        else
          let lt := { lt with prepareOks := u8 (lt.prepareOks + 1) }
          if isState m.instanceStatus [.committed, .executed] then
            doCommitUses m.command
          else if (tallyReply i lt m).prepareOks < N / 2 then []
          else answerUses

/-- The tail of the nack branch of `try_pre_accept_reply`. -/
def deferConflictUses (r : Replica) (lt : LeaderTracker) (nq : ℕ) (m : Message) : List Use :=
  let deferred := (r.dh (dhKey m.id)).any fun k => decide (lt.quorum.getD k 0 ≠ 0)
  (if nq = N / 2 then .access :: if deferred then answerUses else [] else [])
    ++ if N / 2 < lt.tryPreAcceptOks then [.access] else []

/-- The nack branch of `try_pre_accept_reply`; `phase1` leaves the instance's id in the message. -/
def tryNackUses (r : Replica) (i : Instance) (lt : LeaderTracker) (m : Message) : List Use :=
  if i.ballot < m.ballot then answerUses
  else
    let lt := { lt with tryPreAcceptOks := u8 (lt.tryPreAcceptOks + 1) }
    if m.conflict.id = m.id then answerUses
    else
      let nq := lt.quorum.count 0
      .access ::
        if State.committed.bits ≤ m.conflict.status.bits ∨ N / 2 < nq then
          answerUses ++ deferConflictUses r lt nq { m with id := i.key }
        else deferConflictUses r lt nq m

/-- `try_pre_accept_reply`. -/
def tryPreAcceptReplyUses (r : Replica) (i : Instance) (m : Message) : List Use :=
  match i.lt with
  | none => []
  | some lt =>
    if lt.recoveryStatus ≠ .tryPreAccepting ∨ lt.ri.status = .none then []
    else
      .access ::
        if m.nack ≠ 0 then tryNackUses r i { lt with nacks := u8 (lt.nacks + 1) } m
        else if N / 2 ≤ u8 (lt.preAcceptOks + 1) then answerUses
        else []

/-- `progress`. -/
def progressUses (r : Replica) (i : Instance) (m : Message) : List Use :=
  .access ::
    match m.type with
    | .phase1 => answerUses
    | .preAccept => preAcceptUses i
    | .preAcceptReply => preAcceptReplyUses i m
    | .accept => acceptUses i
    | .commit => [.access]
    | .acceptReply => acceptReplyUses i m
    | .preAcceptOk => preAcceptOkUses i
    | .prepare => answerUses
    | .prepareReply => prepareReplyUses i m
    | .tryPreAccept => answerUses
    | .tryPreAcceptReply => tryPreAcceptReplyUses r i m
    | .execute => []

/-- The uses of the buffer of an event that is handled. -/
def Replica.uses (r : Replica) : Event → List Use
  | .propose _ => .access :: answerUses
  | .checkpoint _ => answerUses
  | .timeout _ _ => answerUses
  | .step m => .access :: progressUses r (r.copy m.id) m
  | .execute _ => []

end Epx
