import Epx.Sock

/-!
# One direction of a connection

What `reader` of `io.c` writes to a connection at one end and `writer` reads from it at the other,
byte by byte. Bytes arrive in the order they were sent in. A call on the socket below does all that
it is asked for, or fails at any point after a part of it. What `flatcc` makes of a table and of a
buffer are parameters.
-/

namespace Epx

/-- The fields of `struct fbs_sock` that `fbs_sock_msendl` uses. -/
structure SendSock where
  hdrlen : ℕ
  bigendian : Bool
  senderr : Bool
  senddone : Bool

/-- `bsendl`: what it returns, and the bytes that go out. Where it fails these are the first few. -/
def bsendl (bytes : List UInt8) : Option ℕ → ℤ × List UInt8
  | none => (0, bytes)
  | some n => (-1, bytes.take n)

/-- `brecv`: what it returns, the bytes it has taken, and those left. It waits for all of them, or
fails after the first few. -/
def brecv (n : ℕ) (wire : List UInt8) : Option ℕ → Option (ℤ × List UInt8 × List UInt8)
  | none => if n ≤ wire.length then some (0, wire.take n, wire.drop n) else none
  | some k => some (-1, wire.take k, wire.drop k)

/-- `fbs_sock_msendl` on the buffer that `encode` has built, `szbuf` being the memory of the header:
what it returns, the socket, and the bytes that go out. -/
def msendl (self : SendSock) (szbuf : ℕ → UInt8) (buffer : List UInt8) (cut : Option ℕ) :
    ℤ × SendSock × List UInt8 :=
  if self.senderr || self.senddone then (-1, self, [])
  else
    let hdr : Fin self.hdrlen → UInt8 :=
      sendHeader self.bigendian (UInt64.ofNat buffer.length) fun i => szbuf i
    let sent := bsendl (List.ofFn hdr ++ buffer) cut
    (sent.1, if sent.1 < 0 then { self with senderr := true } else self, sent.2)

/-- Where the receiving end is: at the `brecv` of `fbs_sock_attach`, at the first or the second one
of `fbs_sock_mrecvl`, or `writer` has returned. -/
inductive Phase (h : ℕ)
  | attaching
  | header
  | content (szbuf : Fin h → UInt8)
  | ended
  deriving DecidableEq

/-- The two ends and the bytes between them; for the record, what has been written, what has been
read and what of it has been put on the channel. -/
structure Pipe where
  out : SendSock
  inn : FbsSock
  phase : Phase inn.hdrlen
  xreplicaId : UInt64
  wire : List UInt8
  written : List RawMessage
  read : List Flat.Received
  put : List Flat.Received

/-- The lowest byte of `x`, overwritten. -/
def setLowByte (x : UInt64) (b : UInt8) : UInt64 := UInt64.ofNat (x.toNat / 256 * 256 + b.toNat)

namespace Pipe

/-- `fbs_sock_attach` on both ends, after the `bsend` of the one with `replicaId`; `xreplicaId` is
what the other has in memory. -/
def attach (hdrlen : ℕ) (replicaId xreplicaId : UInt64) : Pipe where
  out := ⟨hdrlen, true, false, false⟩
  inn := ⟨hdrlen, true, false, false⟩
  phase := .attaching
  xreplicaId := xreplicaId
  wire := [replicaId.toUInt8]
  written := []
  read := []
  put := []

/-- `writer` returns after an error of the socket below. -/
def fail (p : Pipe) (wire : List UInt8) : Pipe :=
  { p with inn := { p.inn with recverr := true }, phase := .ended, wire }

variable (finalize : WireMessage → List UInt8) (asRoot : List UInt8 → Option Flat.Message)

/-- `write_message`. -/
def write (p : Pipe) (m : RawMessage) (szbuf : ℕ → UInt8) (cut : Option ℕ) : Pipe :=
  let sent := msendl p.out szbuf (finalize (messageToBuffer m)) cut
  { p with out := sent.2.1, wire := p.wire ++ sent.2.2, written := p.written ++ [m] }

/-- The rest of a round of `writer` once the content is there: the message goes to the channel where
there is room. -/
def deliver (p : Pipe) (frame : Frame p.inn) (mem : Flat.Received) (room : Bool) : Option Pipe :=
  (mrecvl asRoot p.inn frame mem).map fun r =>
    if readMessage r.1 ≤ 0 then { p with phase := .ended }
    else
      let rcv := { r.2 with sender := p.xreplicaId }
      { p with
        phase := .header
        read := p.read ++ [rcv]
        put := if room then p.put ++ [rcv] else p.put }

/-- The receiving end after its `brecv`; `mem` is the memory of `new_message`. -/
def recv (p : Pipe) (cut : Option ℕ) (mem : Flat.Received) (room : Bool) : Option Pipe :=
  match p.phase with
  | .attaching =>
    (brecv 1 p.wire cut).map fun q =>
      if q.1 < 0 then { p with phase := .ended, wire := q.2.2 }
      else
        { p with
          phase := .header
          xreplicaId := setLowByte p.xreplicaId (q.2.1.headD 0)
          wire := q.2.2 }
  | .header =>
    if p.inn.recverr || p.inn.recvdone then some { p with phase := .ended }
    else
      (brecv p.inn.hdrlen p.wire cut).map fun q =>
        if q.1 < 0 then p.fail q.2.2
        else { p with phase := .content fun i => q.2.1.getD i 0, wire := q.2.2 }
  | .content szbuf =>
    (brecv (recvHeader p.inn.bigendian szbuf).toNat p.wire cut).bind fun q =>
      if q.1 < 0 then some (p.fail q.2.2)
      else if h : (p.inn.recverr || p.inn.recvdone) = false
          ∧ (recvHeader p.inn.bigendian szbuf).toNat = q.2.1.length ∧ q.2.1.length < 2 ^ 63 then
        deliver asRoot { p with wire := q.2.2 } ⟨h.1, szbuf, q.2.1, h.2.1, h.2.2⟩ mem room
      else none
  | .ended => none

/-- The pipes of the runs that start with `p₀`. -/
inductive Run (p₀ : Pipe) : Pipe → Prop
  | start : Run p₀ p₀
  | write {p : Pipe} {m : RawMessage} {szbuf : ℕ → UInt8} {cut : Option ℕ} (h : Run p₀ p) :
      Run p₀ (p.write finalize m szbuf cut)
  | recv {p p' : Pipe} {cut : Option ℕ} {mem : Flat.Received} {room : Bool} (h : Run p₀ p)
      (hr : p.recv asRoot cut mem room = some p') : Run p₀ p'
  -- the loop of `writer` finds that its connection is not alive any more, or is cancelled
  | stop {p : Pipe} (h : Run p₀ p) : Run p₀ { p with phase := .ended }

end Pipe

end Epx
