import Epx.Decode
import Epx.Node

/-!
# Frames

`fbs_sock.c` and the writer of `io.c`: the loops that write the size of a message to the header in
front of it and read it back, a round for each byte of the `h` the header has, in either byte order;
and the way of a frame from the socket to the channel. The root that `flatcc` finds in the content
of a frame is a parameter.
-/

namespace Epx

section Header

variable {h : ℕ} (bigendian : Bool)

/-- The byte of the header that round `i` of `fbs_sock_msendl` writes. -/
def slotOut (i : Fin h) : Fin h := if bigendian then i.rev else i

/-- The byte of the header that round `i` of `fbs_sock_mrecvl` reads. -/
def slotIn (i : Fin h) : Fin h := if bigendian then i else i.rev

/-- `n` rounds of `fbs_sock_msendl`: what is left of the size, and the header. -/
def sendRounds (sz : UInt64) (szbuf : Fin h → UInt8) : (n : ℕ) → n ≤ h → UInt64 × (Fin h → UInt8)
  | 0, _ => (sz, szbuf)
  | n + 1, hn =>
    let (sz, szbuf) := sendRounds sz szbuf n (Nat.le_of_succ_le hn)
    (sz >>> 8, Function.update szbuf (slotOut bigendian ⟨n, hn⟩) (sz &&& 0xff).toUInt8)

/-- The header `fbs_sock_msendl` writes over `szbuf`. -/
def sendHeader (sz : UInt64) (szbuf : Fin h → UInt8) : Fin h → UInt8 :=
  (sendRounds bigendian sz szbuf h le_rfl).2

/-- `n` rounds of `fbs_sock_mrecvl`: the size as it is so far. -/
def recvRounds (szbuf : Fin h → UInt8) : (n : ℕ) → n ≤ h → UInt64
  | 0, _ => 0
  | n + 1, hn =>
    recvRounds szbuf n (Nat.le_of_succ_le hn) <<< 8
      ||| (szbuf (slotIn bigendian ⟨n, hn⟩)).toUInt64

/-- The size `fbs_sock_mrecvl` reads in the header. -/
def recvHeader (szbuf : Fin h → UInt8) : UInt64 := recvRounds bigendian szbuf h le_rfl

end Header

/-- `struct fbs_sock`. -/
structure FbsSock where
  hdrlen : ℕ
  bigendian : Bool
  recverr : Bool
  recvdone : Bool

/-- A frame as it comes in at a socket that receives: its header and as many bytes as the header says,
no more than an object can have. -/
structure Frame (sock : FbsSock) where
  receives : (sock.recverr || sock.recvdone) = false
  szbuf : Fin sock.hdrlen → UInt8
  vla : List UInt8
  size : (recvHeader sock.bigendian szbuf).toNat = vla.length
  bound : vla.length < 2 ^ 63

section Receive

variable (asRoot : List UInt8 → Option Flat.Message)

/-- `fbs_sock_mrecvl` on a frame: what it returns, and the message. -/
def mrecvl (self : FbsSock) (frame : Frame self) (m : Flat.Received) : Option (ℤ × Flat.Received) :=
  if self.recverr || self.recvdone then some (-1, m)
  else
    (Flat.messageFromBuffer m (asRoot frame.vla)).map fun p =>
      (if p.1 < 0 then -1 else (recvHeader self.bigendian frame.szbuf).toBitVec.toInt, p.2)

/-- What `read_message` returns for what `mrecv` returned. -/
def readMessage (s : ℤ) : ℤ := if s ≤ 0 then -1 else s

/-- The loop of `writer` over the spans to watch, from slot `i` with `n` to go. -/
def watchLoop (c : RawCommand) : ℕ → ℕ → Option (List Span)
  | 0, _ => some []
  | n + 1, i =>
    if h : i < txSize then
      if emptyRange (c.spans ⟨i, h⟩) then some []
      else (watchLoop c n (i + 1)).map (c.spans ⟨i, h⟩ :: ·)
    else none

/-- What a round of `writer` does with a frame. -/
structure Round where
  received : ℤ
  read : ℤ
  watched : List Span
  put : List Flat.Received

/-- A round of `writer` on a frame, into the message `m`. -/
def writerRound (self : FbsSock) (frame : Frame self) (isClient : Bool) (xreplicaId : UInt64)
    (chan : List Flat.Received) (m : Flat.Received) : Option Round :=
  (mrecvl asRoot self frame m).bind fun p =>
    if readMessage p.1 ≤ 0 then some ⟨p.1, readMessage p.1, [], []⟩
    else
      let rcv := { p.2 with sender := xreplicaId }
      (if isClient then rcv.command.bind fun c => watchLoop c c.used 0 else some []).map fun ws =>
        ⟨p.1, readMessage p.1, ws, if chan.length + 1 < chanCapacity then [rcv] else []⟩

end Receive

end Epx
