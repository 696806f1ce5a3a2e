import Epx.Proofs.Runs
import Epx.Proofs.SpanLists

/-!
# Schedules

A schedule is a list of moves, each a replica and the event it is given, which may be picked from
what has been sent. Playing one from the empty indexes gives a run.
-/

namespace Epx

/-- A replica and the event it is given. -/
abbrev Move := ℕ × (World → Event)

/-- The world after the moves. -/
def play : List Move → World → Option World
  | [], w => some w
  | (k, f) :: ms, w => (w.next listTree k (f w)).bind (play ms)

/-- The delivery of the last message sent that has the property. -/
def deliver (p : Message → Bool) (w : World) : Event := .step ((w.sent.find? p).getD zeroMessage)

/-- A client's request. -/
def request (c : Command) : Message := { zeroMessage with type := .phase1, command := some c }

/-- A write of one span. -/
def writeOf (a b : Key) : Command := ⟨[⟨a, b⟩], 0, .write⟩

/-- A client's request to replica `k` for a write of one span. -/
def proposeAt (k : ℕ) (a b : Key) : Move := (k, fun _ => .propose (request (writeOf a b)))

/-- The delivery at replica `k` of the last message sent that has the type and the id. -/
def deliverAt (k : ℕ) (t : MessageType) (id : InstanceId) : Move :=
  (k, deliver fun m => m.type = t && m.id = id)

/-- The pending timer of replica `k`'s copy goes off. -/
def timeoutAt (k : ℕ) (id : InstanceId) : Move := (k, fun _ => .timeout id zeroMessage)

theorem run_play : ∀ {ms : List Move} {w w' : World}, Run listTree w → play ms w = some w' →
    Run listTree w'
  | [], w, w', h, hp => by
    cases hp
    exact h
  | (k, f) :: ms, w, w', h, hp => by
    obtain ⟨w₁, hn, hp⟩ := Option.bind_eq_some_iff.1 hp
    exact run_play (.next h hn) hp

/-- A schedule after which the world has a property, as a run. -/
theorem exists_run {ms : List Move} {p : World → Prop} [DecidablePred p]
    (h : (play ms .init).any (fun w => p w) = true) : ∃ w, Run listTree w ∧ p w := by
  obtain ⟨w, hw, hp⟩ := (Option.any_eq_true _ _).1 h
  exact ⟨w, run_play .init hw, by simpa using hp⟩

/-- A write that meets nothing, pre-accepted by one follower and committed. -/
def fastCommit : List Move :=
  [proposeAt 0 [49, 48] [50, 48], deliverAt 1 .preAccept ⟨0, 1⟩, deliverAt 0 .preAcceptOk ⟨0, 1⟩]

end Epx
