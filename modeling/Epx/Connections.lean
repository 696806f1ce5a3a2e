import Epx.Io
import Epx.Node

/-!
# Connections

The way of the messages for the peers in `io.c`: `io_reader` puts them on the queue of a peer, and
connects to it where the connection is dead; the thread of the connection initialises the queue,
connects, and takes the messages from there. The io thread, with the listener for peers that connect,
and the threads of the connections take their steps in any order, and `chan_send_spsc` and `chan_init`
take time. A thread that is cancelled takes no more steps.
-/

namespace Epx

/-- Where a thread in `try_connect` is: before `chan_init` of a try or in it, at the socket, or with
`writer` and `reader` at work. -/
inductive ConnThread
  | starting (tries : ℕ)
  | clearing (tries : ℕ)
  | connecting (tries : ℕ)
  | running
  deriving DecidableEq, Repr

/-- What `struct connection` has of the outgoing messages; for the record, how many calls of
`connection_write` have sent, what was put on the queue, what was written, how often the io thread has
connected, how many threads and tries there were and how many writes have failed. `chan_read` is
zeroed until it is initialised. -/
structure Link (M : Type*) where
  status : ConnectionStatus
  chanRead : Option (List M)
  thread : Option ConnThread
  asked : ℕ
  posted : List M
  written : List M
  dials : ℕ
  threads : ℕ
  attempts : ℕ
  failures : ℕ

/-- Where `io_reader` is: between two calls of `connection_write`, in one at its send or after it, or
it has returned. -/
inductive IoStage (M : Type*)
  | ready
  | sending (k : Fin N) (m : M)
  | checking (k : Fin N)
  | ended
  deriving DecidableEq

/-- `struct node_io`. -/
structure NodeIo (A M : Type*) where
  addr : Fin N → A
  chanNodes : Fin N → Link M
  reader : IoStage M

/-- The steps of the threads. Whether a thread can be created, and what a socket does, is open. -/
inductive IoEvent (A M : Type*)
  | send (k : Fin N) (m : M)
  | put
  | check (created : Bool)
  | accept (addr : A) (created : Bool)
  | start (k : Fin N)
  | clear (k : Fin N)
  | connect (k : Fin N)
  | refuse (k : Fin N)
  | write (k : Fin N) (sent : Bool)
  | hangUp (k : Fin N)
  | leave (k : Fin N)

namespace Link

variable {M : Type*}

/-- A connection of a new node, zeroed. -/
def zero : Link M := ⟨.dead, none, none, 0, [], [], 0, 0, 0, 0⟩

/-- `node_connect` once it has the connection: a thread at work for it is cancelled. -/
def nodeConnect (c : Link M) (created : Bool) : Link M :=
  { c with
    status := .connecting
    thread := if created then some (.starting 0) else none
    threads := c.threads + created.toNat }

/-- `chan_send_spsc` of `connection_write`. A zeroed ring has no slot. -/
def post (c : Link M) (m : M) : Option (Link M) :=
  match c.chanRead with
  | none => none
  | some q =>
    if q.length + 1 < chanCapacity then
      some { c with chanRead := some (q ++ [m]), posted := c.posted ++ [m], asked := c.asked + 1 }
    else none

/-- `init_fbs` comes to `chan_init`. -/
def initFbs (c : Link M) : Option (Link M) :=
  match c.thread with
  | some (.starting tries) => some { c with thread := some (.clearing tries) }
  | _ => none

/-- `chan_init` returns. -/
def chanInit (c : Link M) : Option (Link M) :=
  match c.thread with
  | some (.clearing tries) => some { c with
      thread := some (.connecting tries)
      chanRead := some []
      attempts := c.attempts + 1 }
  | _ => none

/-- `run_conn`. -/
def runConn (c : Link M) : Option (Link M) :=
  match c.thread with
  | some (.connecting _) => some { c with thread := some .running, status := .alive }
  | _ => none

/-- The round of `try_connect` after `new_node_connection` has failed. -/
def refuse (c : Link M) : Option (Link M) :=
  match c.thread with
  | some (.connecting tries) => some { c with
      thread := if tries + 1 < 3 then some (.starting (tries + 1)) else none }
  | _ => none

/-- A round of `reader` with a message on the queue, and `write_message`. -/
def write (c : Link M) (sent : Bool) : Option (Link M) :=
  match c.thread, c.chanRead with
  | some .running, some (m :: ms) =>
    if c.status ≠ .alive then none
    else if sent then some { c with chanRead := some ms, written := c.written ++ [m] }
    else some { c with
      chanRead := some ms
      status := .dead
      thread := none
      failures := c.failures + 1 }
  | _, _ => none

/-- `writer` ends the thread after `read_message` has failed. -/
def hangUp (c : Link M) : Option (Link M) :=
  match c.thread with
  | some .running => some { c with thread := none }
  | _ => none

/-- `writer` and `reader` return at the tests of their loops. -/
def leave (c : Link M) : Option (Link M) :=
  match c.thread with
  | some .running => if c.status = .alive then none else some { c with thread := none }
  | _ => none

end Link

namespace NodeIo

variable {A M : Type*} [DecidableEq A]

/-- The connection is replaced. -/
def set (n : NodeIo A M) (k : Fin N) (c : Link M) : NodeIo A M :=
  { n with chanNodes := Function.update n.chanNodes k c }

/-- `get_conn`: the first connection to the address. -/
def getConn (n : NodeIo A M) (addr : A) : Option (Fin N) :=
  (List.finRange N).find? fun k => n.addr k = addr

/-- `node_connect`. -/
def nodeConnect (n : NodeIo A M) (addr : A) (created : Bool) : NodeIo A M :=
  match n.getConn addr with
  | none => n
  | some k => n.set k ((n.chanNodes k).nodeConnect created)

/-- `new_node`, with the peers to join. -/
def new (addr : Fin N → A) (join : List (Fin N × Bool)) : NodeIo A M :=
  join.foldl (fun n j => n.nodeConnect (n.addr j.1) j.2) ⟨addr, fun _ => .zero, .ready⟩

/-- A step of the threads. -/
def step (n : NodeIo A M) : IoEvent A M → Option (NodeIo A M)
  | .send k m =>
    match n.reader with
    | .ready => some { n with reader := .sending k m }
    | _ => none
  | .put =>
    match n.reader with
    | .sending k m =>
      match (n.chanNodes k).post m with
      | some c => some { n.set k c with reader := .checking k }
      | none => some { n.set k { n.chanNodes k with asked := (n.chanNodes k).asked + 1 } with
          reader := .ended }
    | _ => none
  | .check created =>
    match n.reader with
    | .checking k =>
      if (n.chanNodes k).status = .dead then
        let n := n.set k { n.chanNodes k with dials := (n.chanNodes k).dials + 1 }
        some { n.nodeConnect (n.addr k) created with reader := .ready }
      else some { n with reader := .ready }
    | _ => none
  | .accept addr created => some (n.nodeConnect addr created)
  | .start k => (n.chanNodes k).initFbs.map (n.set k)
  | .clear k => (n.chanNodes k).chanInit.map (n.set k)
  | .connect k => (n.chanNodes k).runConn.map (n.set k)
  | .refuse k => (n.chanNodes k).refuse.map (n.set k)
  | .write k sent => ((n.chanNodes k).write sent).map (n.set k)
  | .hangUp k => (n.chanNodes k).hangUp.map (n.set k)
  | .leave k => (n.chanNodes k).leave.map (n.set k)

/-- `chan_init` for the peer is under way. -/
def Clearing (n : NodeIo A M) (k : Fin N) : Prop :=
  ∃ tries, (n.chanNodes k).thread = some (.clearing tries)

instance (n : NodeIo A M) (k : Fin N) : Decidable (n.Clearing k) :=
  match h : (n.chanNodes k).thread with
  | some (.clearing tries) => isTrue ⟨tries, h⟩
  | none | some (.starting _) | some (.connecting _) | some .running =>
    isFalse fun ⟨_, h'⟩ => by rw [h] at h'; cases h'

/-- `io_reader` is in `chan_send_spsc` for the peer. -/
def Sending (n : NodeIo A M) (k : Fin N) : Prop := ∃ m, n.reader = .sending k m

instance (n : NodeIo A M) (k : Fin N) : Decidable (n.Sending k) :=
  match h : n.reader with
  | .sending j m => decidable_of_iff (j = k)
      ⟨fun hj => ⟨m, hj ▸ h⟩, fun ⟨m', h'⟩ => by rw [h] at h'; cases h'; rfl⟩
  | .ready | .checking _ | .ended => isFalse fun ⟨_, h'⟩ => by rw [h] at h'; cases h'

/-- Where the event is taken, no send to a queue and no other connect to the peer is under way at the
same time as `chan_init` of the queue. -/
def Apart (n : NodeIo A M) : IoEvent A M → Prop
  | .send k _ => ¬ n.Clearing k
  | .start k => ¬ n.Sending k
  | .accept addr _ => ∀ k, n.addr k = addr → ¬ n.Clearing k
  | _ => True

instance (n : NodeIo A M) : ∀ ev : IoEvent A M, Decidable (n.Apart ev)
  | .send k _ => inferInstanceAs (Decidable ¬ n.Clearing k)
  | .start k => inferInstanceAs (Decidable ¬ n.Sending k)
  | .accept addr _ => inferInstanceAs (Decidable (∀ k, n.addr k = addr → ¬ n.Clearing k))
  | .put | .check _ | .clear _ | .connect _ | .refuse _ | .write _ _ | .hangUp _ | .leave _ =>
    instDecidableTrue

/-- Steps that are `Apart`, with the events as `P` says. -/
inductive Steps (P : IoEvent A M → Prop) (n : NodeIo A M) : NodeIo A M → Prop
  | none : Steps P n n
  | step {n₁ n₂ : NodeIo A M} {ev : IoEvent A M} (h : Steps P n n₁) (hp : P ev)
      (ha : n₁.Apart ev) (hs : n₁.step ev = some n₂) : Steps P n n₂

/-- The states of the runs of a new node. -/
def Run (addr : Fin N → A) (join : List (Fin N × Bool)) (n : NodeIo A M) : Prop :=
  Steps (fun _ => True) (new addr join) n

end NodeIo

end Epx
