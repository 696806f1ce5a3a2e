import Epx.Instance

/-!
# The io thread

`io_reader` and what it calls in `io.c`: the order of the peers by latency, the replicas each
broadcast puts its message on the queue of, in that order. A read outside an array is `none`.
-/

namespace Epx

/-- `enum connection_status`. -/
inductive ConnectionStatus
  | dead
  | connecting
  | alive
  deriving DecidableEq, Repr

/-- `struct connection`. -/
structure Connection where
  status : ConnectionStatus
  xreplicaId : ℕ
  latency : ℕ
  deriving DecidableEq, Repr

/-- The test of `update_quorum` on the slot `qi`. -/
def closer (ns : List Connection) (c : Connection) (quorum : List ℕ) (qi : ℕ) : Option Bool :=
  (quorum[qi]?.bind (ns[·]?)).bind fun q =>
    if c.latency < q.latency then
      match qi with
      | 0 => none
      | qi + 1 => (quorum[qi]?.bind (ns[·]?)).map fun p => decide (p.latency < c.latency)
    else some false

/-- The loop of `update_quorum` over the slots given. -/
def slotLoop (ns : List Connection) (c : Connection) : List ℕ → List ℕ → Option (List ℕ)
  | [], quorum => some quorum
  | qi :: qis, quorum =>
    (closer ns c quorum qi).bind fun b =>
      slotLoop ns c qis (if b then quorum.set qi c.xreplicaId else quorum)

/-- The loop of `update_quorum` over the connections given. -/
def quorumLoop (ns : List Connection) : List Connection → List ℕ → Option (List ℕ)
  | [], quorum => some quorum
  | c :: cs, quorum =>
    if c.status ≠ .alive then quorumLoop ns cs quorum
    else (slotLoop ns c (List.range N) quorum).bind (quorumLoop ns cs)

/-- `update_quorum`. -/
def updateQuorum (quorum : List ℕ) (ns : List Connection) : Option (List ℕ) :=
  quorumLoop ns (ns.take N) quorum

/-- The loop of `broadcast_prepare`, with `s` rounds left. -/
def prepareLoop (nodeId : ℕ) : ℕ → ℕ → List ℕ
  | 0, _ => []
  | s + 1, q =>
    if (q + 1) % N = nodeId then [] else (q + 1) % N :: prepareLoop nodeId s ((q + 1) % N)

/-- `broadcast_prepare`. -/
def broadcastPrepare (nodeId : ℕ) : List ℕ := prepareLoop nodeId (N - 1) nodeId

/-- `broadcast_pre_accept`. -/
def broadcastPreAccept (quorum : List ℕ) : List ℕ := quorum.take (N - 1)

/-- `broadcast_try_pre_accept`. -/
def broadcastTryPreAccept : List ℕ := List.range (N - 1)

/-- `broadcast_commit`. -/
def broadcastCommit (quorum : List ℕ) : List ℕ := quorum.take N

/-- The replicas `io_reader` puts a message for: an answer goes to the sender of the message it
reuses. The quorum is the one after `update_quorum`. -/
def ioReader (nodeId : ℕ) (quorum : List ℕ) (m : Message) : List ℕ :=
  match m.type with
  | .prepare => broadcastPrepare nodeId
  | .accept | .preAccept => broadcastPreAccept quorum
  | .tryPreAccept => broadcastTryPreAccept
  | .commit => broadcastCommit quorum
  | _ => [m.sender]

end Epx
