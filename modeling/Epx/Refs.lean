import Epx.Io
import Epx.System

/-!
# A message buffer on its way out

`io_reader`, `eo_reader` and the connections' readers with one buffer, from the handler's return on.
A turn is one access of theirs to the buffer or to a queue that holds it: they run in threads of
their own. What a turn finds out, that a ring is full or that a client takes no message, is part of
it. `stale` says that the buffer was used after it was freed.
-/

namespace Epx

/-- A connection, whose `chan_read` can hold the buffer. -/
inductive Peer
  | node (k : ℕ)
  | client (c : ℕ)
  deriving DecidableEq, Repr

/-- Where a reader is in `write_message`: at `msend`, at the load of `destroy_message`, or at its
decrement. -/
inductive Stage
  | writing
  | destroying
  | loaded
  deriving DecidableEq, Repr

/-- Where `io_reader` is: at the channel, after its receive, at `chan_send_spsc` of a
`connection_write`, at the test of the status there, or returned for good. -/
inductive IoTask
  | waiting
  | received
  | sending (dest : ℕ) (todo : List ℕ)
  | checking (todo : List ℕ)
  | returned
  deriving DecidableEq, Repr

/-- Where `eo_reader` is: at the channel, or in its loops with the clients left. -/
inductive EoTask
  | waiting
  | delivering (todo : List ℕ)
  deriving DecidableEq, Repr

/-- The loop of a broadcast at the next replica. -/
def IoTask.next : List ℕ → IoTask
  | [] => .waiting
  | k :: ks => .sending k ks

/-- `ref` of a broadcast; an answer leaves it as it is. -/
def broadcastRef (t : MessageType) : Option ℤ :=
  match t with
  | .prepare | .accept | .preAccept | .tryPreAccept => some (N - 1)
  | .commit => some N
  | _ => none

/-- The buffer: its entries on `chan_io` and `chan_eo`, what the two consumers do with it, the
`chan_read` entries that hold it, the readers at work on it, `ref`, and how often it was freed. -/
structure Buffer where
  io : ℕ
  eo : ℕ
  ioTask : IoTask
  eoTask : EoTask
  queued : List Peer
  writers : List (Peer × Stage)
  ref : ℤ
  frees : ℕ
  stale : Bool
  deriving DecidableEq, Repr

/-- What one of the threads does next. -/
inductive IoTurn
  | ioReceive
  | ioCount
  | ioSend (room : Bool)
  | ioCheck
  | eoReceive (clients : List ℕ)
  | eoRead
  | eoSend (taken : Bool)
  | eoReturn
  | take (p : Peer)
  | write (p : Peer)
  | load (p : Peer)
  | drop (p : Peer)
  deriving DecidableEq, Repr

namespace Buffer

/-- The buffer as a handler leaves it, with its entries on `chan_io` and `chan_eo`. -/
def handed (io eo : ℕ) (ref : ℤ) : Buffer where
  io := io
  eo := eo
  ioTask := .waiting
  eoTask := .waiting
  queued := []
  writers := []
  ref := ref
  frees := 0
  stale := false

/-- The buffer is read or written. -/
def touch (b : Buffer) : Buffer := { b with stale := b.stale || decide (0 < b.frees) }

/-- The reader goes on to the next stage. -/
def advance (b : Buffer) (p : Peer) (s s' : Stage) : Buffer :=
  { b with writers := (p, s') :: b.writers.erase (p, s) }

/-- The reader is done with the entry. -/
def leave (b : Buffer) (p : Peer) (s : Stage) : Buffer :=
  { b with writers := b.writers.erase (p, s) }

/-- `ck_pr_dec_int_zero`, and `free` at zero. -/
def decrement (b : Buffer) : Buffer :=
  { b with ref := b.ref - 1, frees := if b.ref - 1 = 0 then b.frees + 1 else b.frees }

/-- One turn, at a node with the id and the quorum, the message in the buffer being `m`. -/
def turn (nodeId : ℕ) (quorum : List ℕ) (m : Message) (b : Buffer) : IoTurn → Option Buffer
  | .ioReceive =>
    if 0 < b.io ∧ b.ioTask = .waiting then
      some { b.touch with io := b.io - 1, ref := 1, ioTask := .received }
    else none
  | .ioCount =>
    if b.ioTask = .received then
      some { b.touch with
        ref := (broadcastRef m.type).getD b.ref, ioTask := .next (ioReader nodeId quorum m) }
    else none
  | .ioSend room =>
    match b.ioTask with
    | .sending k ks =>
      some (if room then { b.touch with queued := .node k :: b.queued, ioTask := .checking ks }
        else { b.touch with ioTask := .returned })
    | _ => none
  | .ioCheck =>
    match b.ioTask with
    | .checking ks => some { b.touch with ioTask := .next ks }
    | _ => none
  | .eoReceive clients =>
    if 0 < b.eo ∧ b.eoTask = .waiting then
      some { b.touch with eo := b.eo - 1, ref := 1, eoTask := .delivering clients }
    else none
  | .eoRead =>
    match b.eoTask with
    | .delivering _ => some b.touch
    | .waiting => none
  | .eoSend taken =>
    match b.eoTask with
    | .delivering (c :: cs) =>
      some { b with
        queued := if taken then .client c :: b.queued else b.queued, eoTask := .delivering cs }
    | _ => none
  | .eoReturn => if b.eoTask = .delivering [] then some { b with eoTask := .waiting } else none
  | .take p =>
    if p ∈ b.queued ∧ p ∉ b.writers.map Prod.fst then
      some { b with queued := b.queued.erase p, writers := (p, .writing) :: b.writers }
    else none
  | .write p =>
    if (p, Stage.writing) ∈ b.writers then some (b.touch.advance p .writing .destroying) else none
  | .load p =>
    if (p, Stage.destroying) ∈ b.writers then
      some (if b.ref = 0 then b.touch.leave p .destroying
        else b.touch.advance p .destroying .loaded)
    else none
  | .drop p =>
    if (p, Stage.loaded) ∈ b.writers then some (b.touch.leave p .loaded).decrement else none

/-- The states of the buffer in the interleavings of the threads from `b₀` on in which `P` holds of
every turn. -/
inductive Reaches (P : Buffer → IoTurn → Prop) (nodeId : ℕ) (quorum : List ℕ) (m : Message)
    (b₀ : Buffer) : Buffer → Prop
  | start : Reaches P nodeId quorum m b₀ b₀
  | turn {b b' : Buffer} {t : IoTurn} (h : Reaches P nodeId quorum m b₀ b) (ht : P b t)
      (hb : b.turn nodeId quorum m t = some b') : Reaches P nodeId quorum m b₀ b'

/-- The entries and the readers that hold the buffer. -/
def holders (b : Buffer) : ℕ := b.queued.length + b.writers.length

/-- The entries that the broadcast under way has still to put. -/
def pending (b : Buffer) : ℕ :=
  match b.ioTask with
  | .sending _ ks => ks.length + 1
  | .checking ks => ks.length
  | _ => 0

/-- `io_reader` has not set `ref` for its broadcast. -/
def Uncounted (b : Buffer) : Prop := 0 < b.io ∨ b.ioTask = .received

/-- Nobody has the buffer but the entries and the readers. -/
structure AtRest (b : Buffer) : Prop where
  io : b.io = 0
  eo : b.eo = 0
  ioTask : b.ioTask = .waiting ∨ b.ioTask = .returned
  eoTask : b.eoTask = .waiting

/-- `ref` counts who holds the buffer, and it is freed once, after its last use. -/
structure Owned (b : Buffer) : Prop where
  fresh : b.stale = false
  once : b.frees ≤ 1
  counted : ¬ b.Uncounted → b.ref = b.holders + b.pending
  freed : b.AtRest → b.holders = 0 → b.frees = 1

end Buffer

end Epx
