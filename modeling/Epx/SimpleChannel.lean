import Mathlib

/-!
# The simple channel

`simple_channel.c`, with any number of threads at work on one channel. A thread in a call goes from
one access of the shared memory, one call on a semaphore or on the lock, to the next, and the
threads take their steps in any order. On what `simple_chan_init` has set up a wait fails only where
a signal interrupts it, and is done again then.
-/

namespace Epx

/-- `CAPACITY` of `simple_channel.h`. -/
abbrev simpleCapacity : ℕ := 2048

/-- `struct simple_chan`, its lock by the thread that holds it. -/
structure SimpleChan (θ α : Type*) where
  read : UInt32
  write : UInt32
  buffer : Fin simpleCapacity → α
  lock : Option θ
  cSem : ℕ
  sSem : ℕ

/-- Where in `simple_chan_send` or `simple_chan_recv` a thread is: before its wait, at the lock, at
the buffer, at the unlock, at the post. -/
inductive CallStage (α : Type*)
  | idle
  | sendWait (data : α)
  | sendLock (data : α)
  | sendWrite (data : α)
  | sendUnlock
  | sendPost
  | recvWait
  | recvLock
  | recvRead
  | recvUnlock (result : α)
  | recvPost (result : α)
  deriving DecidableEq

/-- The channel and the threads; for the record, what has been written and read by which thread,
what each has called `simple_chan_send` with and what `simple_chan_recv` has returned to it. -/
structure Threads (θ α : Type*) where
  chan : SimpleChan θ α
  stage : θ → CallStage α
  sent : List (θ × α)
  received : List (θ × α)
  given : θ → List α
  returned : θ → List α

namespace SimpleChan

variable {θ α : Type*}

/-- `simple_chan_init`; the buffer is left as it is in memory. -/
def init (buffer : Fin simpleCapacity → α) : SimpleChan θ α where
  read := 0
  write := 0
  buffer := buffer
  lock := none
  cSem := 0
  sSem := simpleCapacity

/-- The place in the buffer for the value of a counter. -/
def place (n : UInt32) : Fin simpleCapacity :=
  ⟨(n &&& 2047).toNat, by
    rw [UInt32.toNat_and]
    exact Nat.and_lt_two_pow (n := 11) _ (by decide)⟩

/-- `simple_chan_size`. -/
def size (b : SimpleChan θ α) : ℤ := (b.write - b.read).toInt32.toInt

end SimpleChan

namespace Threads

variable {θ α : Type*} [DecidableEq θ]

/-- No thread is in a call on a channel just set up. -/
def init (buffer : Fin simpleCapacity → α) : Threads θ α where
  chan := .init buffer
  stage := fun _ => .idle
  sent := []
  received := []
  given := fun _ => []
  returned := fun _ => []

/-- The thread gets to another stage. -/
def move (s : Threads θ α) (t : θ) (b : CallStage α) : Threads θ α :=
  { s with stage := Function.update s.stage t b }

/-- The call of `simple_chan_send`. -/
def send (s : Threads θ α) (t : θ) (data : α) : Option (Threads θ α) :=
  match s.stage t with
  | .idle => some { s.move t (.sendWait data) with
      given := Function.update s.given t (s.given t ++ [data]) }
  | _ => none

/-- The call of `simple_chan_recv`. -/
def recv (s : Threads θ α) (t : θ) : Option (Threads θ α) :=
  match s.stage t with
  | .idle => some (s.move t .recvWait)
  | _ => none

/-- The next step of a call; none where the thread is in no call, or blocked. -/
def step (s : Threads θ α) (t : θ) : Option (Threads θ α) :=
  match s.stage t with
  | .idle => none
  | .sendWait data =>
    if s.chan.sSem = 0 then none
    else some { s.move t (.sendLock data) with chan := { s.chan with sSem := s.chan.sSem - 1 } }
  | .sendLock data =>
    if s.chan.lock.isSome then none
    else some { s.move t (.sendWrite data) with chan := { s.chan with lock := some t } }
  | .sendWrite data =>
    some { s.move t .sendUnlock with
      chan := { s.chan with
        buffer := Function.update s.chan.buffer (SimpleChan.place s.chan.write) data
        write := s.chan.write + 1 }
      sent := s.sent ++ [(t, data)] }
  | .sendUnlock => some { s.move t .sendPost with chan := { s.chan with lock := none } }
  | .sendPost => some { s.move t .idle with chan := { s.chan with cSem := s.chan.cSem + 1 } }
  | .recvWait =>
    if s.chan.cSem = 0 then none
    else some { s.move t .recvLock with chan := { s.chan with cSem := s.chan.cSem - 1 } }
  | .recvLock =>
    if s.chan.lock.isSome then none
    else some { s.move t .recvRead with chan := { s.chan with lock := some t } }
  | .recvRead =>
    let result := s.chan.buffer (SimpleChan.place s.chan.read)
    some { s.move t (.recvUnlock result) with
      chan := { s.chan with read := s.chan.read + 1 }
      received := s.received ++ [(t, result)] }
  | .recvUnlock result =>
    some { s.move t (.recvPost result) with chan := { s.chan with lock := none } }
  | .recvPost result =>
    some { s.move t .idle with
      chan := { s.chan with sSem := s.chan.sSem + 1 }
      returned := Function.update s.returned t (s.returned t ++ [result]) }

/-- The steps of the threads in any order, with no new call; the list has whose steps they were, the
last one first. -/
inductive Steps : List θ → Threads θ α → Threads θ α → Prop
  | none {s : Threads θ α} : Steps [] s s
  | step {ts : List θ} {s s' s'' : Threads θ α} {t : θ} (h : Steps ts s s')
      (hs : s'.step t = some s'') : Steps (t :: ts) s s''

/-- The states of the runs on a channel just set up. -/
inductive Run (buffer : Fin simpleCapacity → α) : Threads θ α → Prop
  | init : Run buffer (init buffer)
  | send {s s' : Threads θ α} {t : θ} {data : α} (h : Run buffer s) (hs : s.send t data = some s') :
      Run buffer s'
  | recv {s s' : Threads θ α} {t : θ} (h : Run buffer s) (hs : s.recv t = some s') : Run buffer s'
  | step {s s' : Threads θ α} {t : θ} (h : Run buffer s) (hs : s.step t = some s') : Run buffer s'

end Threads

end Epx
