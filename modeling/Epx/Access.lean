import Epx.Io
import Epx.System

/-!
# The array entries `step` touches

`index` of the replica, `quorum` of a leader tracker and `chan_nodes` of the node: the entries that
are addressed while a message is handled and its answers are sent. A loop over all `N` entries of
an array is listed whole, wherever it stops; an entry whose number comes from the message or from
`deferred` is listed on the paths that address it.
-/

namespace Epx

/-- An entry of one of the three arrays. -/
inductive Access
  | index (k : ℕ)
  | quorum (k : ℕ)
  | chanNode (k : ℕ)
  deriving DecidableEq, Repr

/-- The number of the entry. -/
def Access.slot : Access → ℕ
  | index k | quorum k | chanNode k => k

/-- The entry is in its array. -/
def Access.InRange (a : Access) : Prop := a.slot < N

instance (a : Access) : Decidable a.InRange := inferInstanceAs (Decidable (_ < _))

/-- The loops of `sd_for_command`, `pac_conflict` and `clear`. -/
def eachIndex : List Access := (List.range N).map .index

/-- The loops over `lt->quorum`. -/
def eachQuorum : List Access := (List.range N).map .quorum

section Handlers

variable (T : RangeTree)

/-- The entries of `prepare_reply`: `noop`, the scans and its marks in `quorum`. -/
def preparedAccesses (r : Replica) (m : Message) : List Access :=
  .index m.id.replicaId :: .quorum r.id :: (eachIndex ++ eachQuorum)

/-- The entries of the tail of `try_pre_accept_reply` as `deferConflict` has it. -/
def deferAccesses (r : Replica) (nq : ℕ) (m : Message) : List Access :=
  if nq = N / 2 then
    match r.dh (dhKey m.id) with
    | none => []
    | some k => .quorum k :: eachIndex
  else []

/-- The entries of the nack branch of `try_pre_accept_reply`. A restart that reads a null pointer
is the end of it. -/
def nackAccesses (r : Replica) (i : Instance) (lt : LeaderTracker) (m : Message) : List Access :=
  if i.ballot < m.ballot then []
  else if m.conflict.id = m.id then [.quorum m.sender, .quorum m.conflict.id.replicaId]
  else
    let lt := { lt with nacks := u8 (lt.nacks + 1), tryPreAcceptOks := u8 (lt.tryPreAcceptOks + 1) }
    let nq := lt.quorum.count 0
    eachQuorum ++
      if State.committed.bits ≤ m.conflict.status.bits ∨ N / 2 < nq then
        eachIndex ++
          match phase1 T r { i with lt := some { lt with recoveryStatus := .none } } m with
          | none => []
          | some q => deferAccesses r nq q.2
      else deferAccesses r nq m

/-- The entries of `try_pre_accept_reply`. -/
def triedAccesses (r : Replica) (i : Instance) (m : Message) : List Access :=
  match i.lt with
  | none => []
  | some lt =>
    if lt.recoveryStatus ≠ .tryPreAccepting ∨ lt.ri.status = .none ∨ m.nack = 0 then []
    else nackAccesses T r i lt m

/-- The entries of the handler of a message. -/
def handlerAccesses (r : Replica) (i : Instance) (m : Message) : List Access :=
  match m.type with
  | .phase1 | .preAccept | .accept | .tryPreAccept => eachIndex
  | .prepareReply => preparedAccesses r m
  | .tryPreAcceptReply => triedAccesses T r i m
  | .preAcceptOk | .preAcceptReply | .acceptReply | .commit | .prepare | .execute => []

/-- The entries of `connection_write` for the messages a handler has put on `chan_io`. What is on
it when a null pointer is read is broadcast. -/
def sendAccesses (nodeId : ℕ) (quorum : List ℕ) : Option Effect → List Access
  | none => []
  | some e => (e.io.flatMap (ioReader nodeId quorum)).map .chanNode

/-- The entries touched from `step` on, the message's replica id being out of the index array or
not, to the last answer of the node's `io_reader`. -/
def stepAccesses (r : Replica) (quorum : List ℕ) (m : Message) : List Access :=
  if m.id.instanceId = 0 then []
  else
    .index m.id.replicaId ::
      if N ≤ m.id.replicaId then []
      else
        let i := r.copy m.id
        handlerAccesses T (r.put i) i m
          ++ sendAccesses r.id quorum (progress T (r.put i) i m)

end Handlers

end Epx
