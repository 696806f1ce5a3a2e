import Epx.Proofs.Handlers

/-!
# Everything an event can do

`Act T r i ev i' io`: replica `r`, given the event `ev`, turns the instance `i` into `i'` and puts
the messages `io` on `chan_io`. There is a constructor for every path through the handlers, with the
guards the later proofs use. `handle_act` is the only place that goes through the handlers; every
invariant is a case analysis of `Act`.
-/

namespace Epx

/-- The instance as `recover` leaves it. -/
def recoverInst (r : Replica) (i : Instance) : Instance :=
  { i with
    lt := some (recoverTracker r i), ballot := largerBallot i.ballot r.id
    timer := some .slowPath, shared := true }

/-- The `PREPARE` of `recover`. -/
def recoverMsg (r : Replica) (i : Instance) (m : Message) : Message :=
  { m with
    ballot := largerBallot i.ballot r.id, id := i.key, command := i.command, seq := i.seq
    type := .prepare }

theorem recover_eq (r : Replica) (i : Instance) (m : Message) :
    recover r i m = sending r (recoverInst r i) (recoverMsg r i m) := rfl

/-- The tracker with a nack to `TRY_PRE_ACCEPT` counted. -/
def LeaderTracker.tryNacked (lt : LeaderTracker) : LeaderTracker :=
  { lt with nacks := u8 (lt.nacks + 1), tryPreAcceptOks := u8 (lt.tryPreAcceptOks + 1) }

/-- The tracker with a positive answer to `TRY_PRE_ACCEPT` counted. -/
def LeaderTracker.tryOk (lt : LeaderTracker) : LeaderTracker :=
  { lt with
    preAcceptOks := u8 (lt.preAcceptOks + 1), tryPreAcceptOks := u8 (lt.tryPreAcceptOks + 1) }

/-- The tracker with the recovery over. -/
def LeaderTracker.settled (lt : LeaderTracker) : LeaderTracker := { lt with recoveryStatus := .none }

/-- The reply's status is `COMMITTED` or `EXECUTED`. -/
def Message.Final (m : Message) : Prop :=
  m.instanceStatus = .committed ∨ m.instanceStatus = .executed

instance (m : Message) : Decidable m.Final := inferInstanceAs (Decidable (_ ∨ _))

inductive Act (T : RangeTree) (r : Replica) (i : Instance) :
    Event → Instance → List Message → Prop
  | propose {m s lt} (hlt : i.lt = some lt) {j : Instance} (hj : j.key = i.key)
      (hs : sdForCommand T ((r.put i).put j) m.command (some i.key) ⟨0, .zero⟩ = some s) :
      Act T r i (.propose m) (phase1Inst i m lt s) [phase1Msg i m s]
  | checkpoint {m deps} (hd : barrier (r.put i) = some deps) :
      Act T r i (.checkpoint m)
        { i with deps, status := .preAccepted, timer := some .fastPath }
        [{ m with id := i.key, deps, ballot := i.ballot, type := .preAccept }]
  | slowTimeout {id m} (ht : i.timer = some .slowPath) :
      Act T r i (.timeout id m) (recoverInst r i) [recoverMsg r i zeroMessage]
  | fastTimeout {id m} (ht : i.timer = some .fastPath) :
      Act T r i (.timeout id m) { i with timer := some .slowPath }
        [{ messageFromInstance m i with type := .accept }]
  | execute {id} (h : id ∈ r.handed) : Act T r i (.execute id) { i with status := .executed } []
  | ignore {m} : Act T r i (.step m) i []
  | preAcceptNack {m} (ht : m.type = .preAccept)
      (hst : i.status = .preAccepted ∨ i.status = .none) (hb : m.ballot < i.ballot) :
      Act T r i (.step m) i [{ m with
        ballot := i.ballot, command := i.command, seq := i.seq, nack := 1, deps := i.deps
        type := .preAcceptReply }]
  | preAcceptReply {m s} (ht : m.type = .preAccept)
      (hst : i.status = .preAccepted ∨ i.status = .none) (hb : i.ballot ≤ m.ballot)
      (hs : sdForCommand T (r.put i) m.command (some i.key) ⟨0, i.deps⟩ = some s) :
      Act T r i (.step m) (preAcceptInst i m s) [{ m with
        command := s.2.1, seq := (preAcceptInst i m s).seq, deps := s.2.2.deps
        type := .preAcceptReply }]
  | preAcceptOk {m s} (ht : m.type = .preAccept)
      (hst : i.status = .preAccepted ∨ i.status = .none) (hb : i.ballot ≤ m.ballot)
      (hs : sdForCommand T (r.put i) m.command (some i.key) ⟨0, i.deps⟩ = some s)
      (hseq : (preAcceptInst i m s).seq = m.seq) (hu : s.2.2.updated = 0)
      (hc : hasUncommittedDeps (preAcceptInst i m s) = false)
      (hib : isInitialBallot m.ballot = true) :
      Act T r i (.step m) (preAcceptInst i m s) [{ m with command := s.2.1, type := .preAcceptOk }]
  | okCommit {m lt c} (ht : m.type = .preAcceptOk) (hlt : i.lt = some lt)
      (hst : i.status = .preAccepted) (hib : isInitialBallot i.ballot = true)
      (hn : N / 2 ≤ lt.preAcceptOk.preAcceptOks) (he : lt.equal ≠ 0)
      (hd : hasUncommittedDeps i = false) (hc : i.command = some c) :
      Act T r i (.step m)
        { i with lt := some lt.preAcceptOk, status := .committed, timer := none }
        [{ m with type := .commit }]
  | okAccept {m lt} (ht : m.type = .preAcceptOk) (hlt : i.lt = some lt)
      (hst : i.status = .preAccepted) (hib : isInitialBallot i.ballot = true)
      (hn : N / 2 ≤ lt.preAcceptOk.preAcceptOks) :
      Act T r i (.step m) { i with lt := some lt.preAcceptOk, status := .accepted }
        [{ m with type := .accept }]
  | okCount {m lt} (ht : m.type = .preAcceptOk) (hlt : i.lt = some lt)
      (hst : i.status = .preAccepted) (hib : isInitialBallot i.ballot = true)
      (hn : ¬ N / 2 ≤ lt.preAcceptOk.preAcceptOks) :
      Act T r i (.step m) { i with lt := some lt.preAcceptOk } []
  | nackCount {m lt} (ht : (m.type = .preAcceptReply ∧ i.status = .preAccepted)
        ∨ (m.type = .acceptReply ∧ i.status = .accepted))
      (hlt : i.lt = some lt) (hb : i.ballot = m.ballot) (hn : m.nack ≠ 0)
      (hk : ¬ N / 2 ≤ (lt.nack m).nacks) :
      Act T r i (.step m) { i with lt := some (lt.nack m) } []
  | nackRecover {m lt} (ht : (m.type = .preAcceptReply ∧ i.status = .preAccepted)
        ∨ (m.type = .acceptReply ∧ i.status = .accepted))
      (hlt : i.lt = some lt) (hb : i.ballot = m.ballot) (hn : m.nack ≠ 0)
      (hk : N / 2 ≤ (lt.nack m).nacks) :
      Act T r i (.step m) (recoverInst r { i with lt := some (lt.nack m) })
        [recoverMsg r { i with lt := some (lt.nack m) } m]
  | replyCommit {m lt c} (ht : m.type = .preAcceptReply) (hlt : i.lt = some lt)
      (hst : i.status = .preAccepted) (hb : i.ballot = m.ballot) (hm : m.nack = 0)
      (hn : N / 2 ≤ lt.preAcceptOk.preAcceptOks)
      (he : foldEqual lt.equal i.seq m.seq (i.deps.merge m.deps.slots).2 ≠ 0)
      (hib : isInitialBallot i.ballot = true)
      (hd : hasUncommittedDeps (mergeReply i m lt) = false) (hc : i.command = some c) :
      Act T r i (.step m) { mergeReply i m lt with status := .committed, timer := none }
        [{ m with type := .commit }]
  | replyAccept {m lt} (ht : m.type = .preAcceptReply) (hlt : i.lt = some lt)
      (hst : i.status = .preAccepted) (hb : i.ballot = m.ballot) (hm : m.nack = 0)
      (hn : N / 2 ≤ lt.preAcceptOk.preAcceptOks) :
      Act T r i (.step m) { mergeReply i m lt with status := .accepted }
        [{ m with type := .accept }]
  | replyCount {m lt} (ht : m.type = .preAcceptReply) (hlt : i.lt = some lt)
      (hst : i.status = .preAccepted) (hb : i.ballot = m.ballot) (hm : m.nack = 0)
      (hn : ¬ N / 2 ≤ lt.preAcceptOk.preAcceptOks) :
      Act T r i (.step m) (mergeReply i m lt) []
  | acceptNack {m} (ht : m.type = .accept) (hd : ¬ i.Decided) (hb : m.ballot < i.ballot) :
      Act T r i (.step m) i [{ m with nack := 1, ballot := i.ballot, type := .acceptReply }]
  | acceptStore {m} (ht : m.type = .accept) (hd : ¬ i.Decided) (hb : i.ballot ≤ m.ballot) :
      Act T r i (.step m)
        { i with status := .accepted, ballot := m.ballot, seq := m.seq, deps := m.deps }
        [{ m with type := .acceptReply }]
  | acceptedCommit {m lt c} (ht : m.type = .acceptReply) (hlt : i.lt = some lt)
      (hst : i.status = .accepted) (hb : i.ballot = m.ballot) (hm : m.nack = 0)
      (hc : i.command = some c) :
      Act T r i (.step m) { i with lt := some lt.acceptOk, status := .committed, timer := none }
        [{ m with type := .commit }]
  | acceptedCount {m lt} (ht : m.type = .acceptReply) (hlt : i.lt = some lt)
      (hst : i.status = .accepted) (hb : i.ballot = m.ballot) (hm : m.nack = 0) :
      Act T r i (.step m) { i with lt := some lt.acceptOk } []
  | prepareNack {m} (ht : m.type = .prepare) (hb : m.ballot < i.ballot) :
      Act T r i (.step m) i [{ m with nack := 1, type := .prepareReply }]
  | preparePromise {m} (ht : m.type = .prepare) (hb : i.ballot ≤ m.ballot) :
      Act T r i (.step m) { i with ballot := m.ballot } [{ m with
        command := i.command, deps := i.deps, seq := i.seq, ballot := m.ballot
        instanceStatus := i.status, type := .prepareReply }]
  | preparedNack {m lt} (ht : m.type = .prepareReply) (hlt : i.lt = some lt)
      (hr : lt.recoveryStatus = .preparing) (hn : m.nack ≠ 0) :
      Act T r i (.step m) { i with lt := some { lt with nacks := u8 (lt.nacks + 1) } } []
  | preparedCommit {m lt c} (ht : m.type = .prepareReply) (hlt : i.lt = some lt)
      (hr : lt.recoveryStatus = .preparing) (hn : m.nack = 0) (hf : m.Final)
      (hc : m.command = some c) :
      Act T r i (.step m)
        { i with
          lt := some lt.prepareOk, seq := m.seq, command := m.command, deps := m.deps
          status := .committed, timer := none, shared := false }
        [{ m with ballot := i.ballot, type := .commit }]
  | preparedCount {m lt} (ht : m.type = .prepareReply) (hlt : i.lt = some lt)
      (hr : lt.recoveryStatus = .preparing) (hn : m.nack = 0) (hf : ¬ m.Final)
      (hc : (tallyReply i lt.prepareOk m).prepareOks < N / 2) :
      Act T r i (.step m) (tallyInst i lt.prepareOk m) []
  | preparedNoop {m lt lt'} (ht : m.type = .prepareReply) (hlt : i.lt = some lt)
      (hr : lt.recoveryStatus = .preparing) (hn : m.nack = 0) (hf : ¬ m.Final)
      (hlt' : lt' = tallyReply i lt.prepareOk m) (hs : lt'.ri.status = .none) :
      Act T r i (.step m)
        { tallyInst i lt.prepareOk m with
          lt := some lt'.settled, status := .accepted, deps := noop (r.put i) m.id }
        [{ m with deps := noop (r.put i) m.id, command := none, ballot := i.ballot, type := .accept }]
  | preparedAdopt {m lt lt'} (ht : m.type = .prepareReply) (hlt : i.lt = some lt)
      (hr : lt.recoveryStatus = .preparing) (hn : m.nack = 0) (hf : ¬ m.Final)
      (hlt' : lt' = tallyReply i lt.prepareOk m) (ha : lt'.ri.Acceptable) :
      Act T r i (.step m)
        { i with
          command := lt'.ri.command, seq := lt'.ri.seq, deps := lt'.ri.deps, status := .accepted
          lt := some lt'.settled, shared := true }
        [{ m with ballot := i.ballot, deps := lt'.ri.deps, seq := lt'.ri.seq, type := .accept }]
  | preparedRestart {m lt lt' lt'' c s} (ht : m.type = .prepareReply) (hlt : i.lt = some lt)
      (hr : lt.recoveryStatus = .preparing) (hn : m.nack = 0) (hf : ¬ m.Final)
      (hlt' : lt' = tallyReply i lt.prepareOk m)
      (hs : lt'.ri.status ≠ .none) (ha : ¬ lt'.ri.Acceptable)
      (hlt'' : (lt'' = lt'.settled ∧ c = lt'.ri.command
          ∧ ¬ (lt'.ri.leaderReplied = 0 ∧ (N / 2 + 1) / 2 ≤ lt'.ri.preAcceptCount))
        ∨ (lt'' = { lt'.tryStart with ri := { lt'.ri with command := c } }
          ∧ lt'.ri.leaderReplied = 0 ∧ (N / 2 + 1) / 2 ≤ lt'.ri.preAcceptCount))
      {j : Instance} (hj : j.key = i.key)
      (hc : sdForCommand T ((r.put i).put j) c (some i.key) ⟨0, .zero⟩ = some s) :
      Act T r i (.step m)
        (phase1Inst i { m with command := c, ballot := i.ballot } lt'' s)
        [phase1Msg i { m with command := c, ballot := i.ballot } s]
  | preparedTryOwn {m lt lt' c} (ht : m.type = .prepareReply) (hlt : i.lt = some lt)
      (hr : lt.recoveryStatus = .preparing) (hn : m.nack = 0) (hf : ¬ m.Final)
      (hlt' : lt' = tallyReply i lt.prepareOk m)
      (hs : lt'.ri.status ≠ .none) (ha : ¬ lt'.ri.Acceptable) (hl : lt'.ri.leaderReplied = 0)
      (hp : (N / 2 + 1) / 2 ≤ lt'.ri.preAcceptCount) :
      Act T r i (.step m)
        { (tallyInst i lt.prepareOk m).scanned c with lt := some { lt'.tryStart with
            ri := { lt'.ri with command := c }, quorum := (List.replicate N 1).set r.id 0
            recoveryStatus := .tryPreAccepting } }
        [{ m with
          command := ((tallyInst i lt.prepareOk m).scanned c).command, deps := i.deps, seq := i.seq
          ballot := i.ballot, type := .tryPreAccept }]
  | preparedTry {m lt lt' c} (ht : m.type = .prepareReply) (hlt : i.lt = some lt)
      (hr : lt.recoveryStatus = .preparing) (hn : m.nack = 0) (hf : ¬ m.Final)
      (hlt' : lt' = tallyReply i lt.prepareOk m)
      (hs : lt'.ri.status ≠ .none) (ha : ¬ lt'.ri.Acceptable) (hl : lt'.ri.leaderReplied = 0)
      (hp : (N / 2 + 1) / 2 ≤ lt'.ri.preAcceptCount) :
      Act T r i (.step m)
        { i with
          command := c, seq := lt'.ri.seq, deps := lt'.ri.deps, status := .preAccepted
          lt := some { lt'.tryStart with
            preAcceptOks := 1, ri := { lt'.ri with command := c }
            recoveryStatus := .tryPreAccepting }
          shared := true }
        [{ m with
          command := c, deps := lt'.ri.deps, seq := lt'.ri.seq, ballot := i.ballot
          type := .tryPreAccept }]
  | tryNack {m c f} (ht : m.type = .tryPreAccept)
      (hb : m.ballot < i.ballot
        ∨ (i.ballot ≤ m.ballot
          ∧ ∃ x, findConflict T (r.put i) i m.command m.seq m.deps = some (some x, c))) :
      Act T r i (.step m) i [{ m with
        command := c, conflict := f, ballot := i.ballot, nack := 1, type := .tryPreAcceptReply }]
  | tryStore {m c} (ht : m.type = .tryPreAccept) (hb : i.ballot ≤ m.ballot)
      (hf : findConflict T (r.put i) i m.command m.seq m.deps = some (none, c)) :
      Act T r i (.step m)
        { i with
          command := c, deps := m.deps, ballot := m.ballot, seq := m.seq, status := .preAccepted
          shared := false }
        [{ m with command := c, type := .tryPreAcceptReply }]
  | triedRaise {m lt} (ht : m.type = .tryPreAcceptReply) (hlt : i.lt = some lt)
      (hr : lt.recoveryStatus = .tryPreAccepting) (hs : lt.ri.status ≠ .none) (hn : m.nack ≠ 0)
      (hb : i.ballot < m.ballot) :
      Act T r i (.step m)
        { i with
          ballot := largerBallot m.ballot r.id, lt := some { lt with nacks := u8 (lt.nacks + 1) } }
        [{ m with ballot := largerBallot m.ballot r.id, type := .tryPreAccept }]
  | triedPrepare {m lt q} (ht : m.type = .tryPreAcceptReply) (hlt : i.lt = some lt)
      (hr : lt.recoveryStatus = .tryPreAccepting) (hs : lt.ri.status ≠ .none) (hn : m.nack ≠ 0)
      (hb : m.ballot ≤ i.ballot) :
      Act T r i (.step m) { i with lt := some { lt.tryNacked with quorum := q } }
        [{ m with type := .prepare }]
  | triedDefer {m lt} {tm : Option Callback} (ht : m.type = .tryPreAcceptReply)
      (hlt : i.lt = some lt) (hr : lt.recoveryStatus = .tryPreAccepting)
      (hs : lt.ri.status ≠ .none) (hn : m.nack ≠ 0) (hb : m.ballot ≤ i.ballot)
      (htm : tm = i.timer ∨ tm = some .slowPath) :
      Act T r i (.step m) { i with lt := some lt.tryNacked, timer := tm } []
  | triedRestart {m lt c b s} {tm : Option Callback} (ht : m.type = .tryPreAcceptReply)
      (hlt : i.lt = some lt) (hr : lt.recoveryStatus = .tryPreAccepting)
      (hs : lt.ri.status ≠ .none) (hn : m.nack ≠ 0) (hb : m.ballot ≤ i.ballot)
      (hcb : (c = m.command ∧ b = m.ballot) ∨ (c = lt.ri.command ∧ b = i.ballot))
      {j : Instance} (hj : j.key = i.key)
      (hc : sdForCommand T ((r.put i).put j) c (some i.key) ⟨0, .zero⟩ = some s)
      (htm : tm = some .fastPath ∨ tm = some .slowPath) (hcs : b = i.ballot ∨ m.Restarts lt) :
      Act T r i (.step m)
        { phase1Inst i { m with command := c, ballot := b } lt.tryNacked.settled s with timer := tm }
        [phase1Msg i { m with command := c, ballot := b } s]
  | triedRestartTwice {m lt s s'} {tm : Option Callback} (ht : m.type = .tryPreAcceptReply)
      (hlt : i.lt = some lt) (hr : lt.recoveryStatus = .tryPreAccepting)
      (hs : lt.ri.status ≠ .none) (hn : m.nack ≠ 0) (hb : m.ballot ≤ i.ballot)
      {j j' : Instance} (hj : j.key = i.key) (hj' : j'.key = i.key)
      (hc : sdForCommand T ((r.put i).put j) m.command (some i.key) ⟨0, .zero⟩ = some s)
      (hc' : sdForCommand T ((r.put i).put j') lt.ri.command (some i.key) ⟨0, .zero⟩ = some s')
      (htm : tm = some .fastPath ∨ tm = some .slowPath) (hcs : m.Restarts lt) :
      Act T r i (.step m)
        { phase1Inst i { m with command := lt.ri.command } lt.tryNacked.settled s' with timer := tm }
        [phase1Msg i m s, phase1Msg i { phase1Msg i m s with command := lt.ri.command } s']
  | triedAccept {m lt} (ht : m.type = .tryPreAcceptReply) (hlt : i.lt = some lt)
      (hr : lt.recoveryStatus = .tryPreAccepting) (hs : lt.ri.status ≠ .none) (hn : m.nack = 0) :
      Act T r i (.step m)
        { i with
          command := lt.ri.command, deps := lt.ri.deps, seq := lt.ri.seq, status := .accepted
          lt := some { lt.tryOk with acceptOks := 0, recoveryStatus := .none }, shared := true }
        [{ m with
          command := lt.ri.command, deps := lt.ri.deps, seq := lt.ri.seq
          instanceStatus := .accepted, type := .accept }]
  | triedCount {m lt} (ht : m.type = .tryPreAcceptReply) (hlt : i.lt = some lt)
      (hr : lt.recoveryStatus = .tryPreAccepting) (hs : lt.ri.status ≠ .none) (hn : m.nack = 0) :
      Act T r i (.step m) { i with lt := some lt.tryOk } []
  | commit {m} (ht : m.type = .commit) :
      Act T r i (.step m)
        { i with timer := none, status := .committed, seq := m.seq, deps := m.deps } []

section Step

variable {T : RangeTree} {r : Replica} {i : Instance} {m : Message} {e : Effect}

theorem preAccept_act (ht : m.type = .preAccept) (h : preAccept T (r.put i) i m = some e) :
    Act T r i (.step m) e.inst e.io := by
  rcases preAccept_cases h with
    ⟨-, rfl⟩ | ⟨hst, hb, rfl⟩ | ⟨hst, hb, s, hs, rfl | ⟨h₁, h₂, h₃, h₄, rfl⟩⟩
  · exact .ignore
  · exact .preAcceptNack ht hst hb
  · exact .preAcceptReply ht hst hb hs
  · exact .preAcceptOk ht hst hb hs h₁ h₂ h₃ h₄

theorem preAcceptOk_act (ht : m.type = .preAcceptOk) (h : preAcceptOk (r.put i) i m = some e) :
    Act T r i (.step m) e.inst e.io := by
  rcases preAcceptOk_cases h with
    rfl | ⟨lt, hlt, hst, hib, ⟨hn, he, hd, hc⟩ | ⟨hn, rfl⟩ | ⟨hn, rfl⟩⟩
  · exact .ignore
  · obtain ⟨c, hcmd, rfl⟩ := doCommit_eq hc
    exact .okCommit ht hlt hst hib hn he hd hcmd
  · exact .okAccept ht hlt hst hib hn
  · exact .okCount ht hlt hst hib hn

theorem nackReply_act {lt : LeaderTracker} (ht : (m.type = .preAcceptReply ∧ i.status = .preAccepted)
      ∨ (m.type = .acceptReply ∧ i.status = .accepted))
    (hlt : i.lt = some lt) (hb : i.ballot = m.ballot) (hn : m.nack ≠ 0) :
    Act T r i (.step m) (nackReply (r.put i) i lt m).inst (nackReply (r.put i) i lt m).io := by
  rcases nackReply_cases (r := r.put i) (i := i) (m := m) lt with ⟨hk, h⟩ | ⟨hk, h⟩ <;> rw [h]
  · exact .nackRecover ht hlt hb hn hk
  · exact .nackCount ht hlt hb hn hk

theorem preAcceptReply_act (ht : m.type = .preAcceptReply)
    (h : preAcceptReply (r.put i) i m = some e) : Act T r i (.step m) e.inst e.io := by
  rcases preAcceptReply_cases h with
    rfl | ⟨lt, hlt, hst, hb, ⟨hm, rfl⟩ | ⟨hm, ⟨hn, he, hib, hd, hc⟩ | ⟨hn, rfl⟩ | ⟨hn, rfl⟩⟩⟩
  · exact .ignore
  · exact nackReply_act (.inl ⟨ht, hst⟩) hlt hb hm
  · obtain ⟨c, hcmd, rfl⟩ := doCommit_eq hc
    exact .replyCommit ht hlt hst hb hm hn he hib hd hcmd
  · exact .replyAccept ht hlt hst hb hm hn
  · exact .replyCount ht hlt hst hb hm hn

theorem accept_act (ht : m.type = .accept) :
    Act T r i (.step m) (accept (r.put i) i m).inst (accept (r.put i) i m).io := by
  rcases accept_cases (r.put i) i m with ⟨-, h⟩ | ⟨hd, hb, h⟩ | ⟨hd, hb, h⟩ <;> rw [h]
  · exact .ignore
  · exact .acceptNack ht hd hb
  · exact .acceptStore ht hd hb

theorem acceptReply_act (ht : m.type = .acceptReply) (h : acceptReply (r.put i) i m = some e) :
    Act T r i (.step m) e.inst e.io := by
  rcases acceptReply_cases h with
    rfl | ⟨lt, hlt, hst, hb, ⟨hm, rfl⟩ | ⟨hm, -, hc⟩ | ⟨hm, rfl⟩⟩
  · exact .ignore
  · exact nackReply_act (.inr ⟨ht, hst⟩) hlt hb hm
  · obtain ⟨c, hcmd, rfl⟩ := doCommit_eq hc
    exact .acceptedCommit ht hlt hst hb hm hcmd
  · exact .acceptedCount ht hlt hst hb hm

theorem prepare_act (ht : m.type = .prepare) :
    Act T r i (.step m) (prepare (r.put i) i m).inst (prepare (r.put i) i m).io := by
  rcases prepare_cases (r.put i) i m with ⟨hb, h⟩ | ⟨hb, h⟩ <;> rw [h]
  · exact .prepareNack ht hb
  · exact .preparePromise ht hb

theorem prepareReply_act (ht : m.type = .prepareReply)
    (h : prepareReply T (r.put i) i m = some e) : Act T r i (.step m) e.inst e.io := by
  rcases prepareReply_cases h with
    rfl | ⟨lt, hlt, hr, ⟨hm, rfl⟩ | ⟨hm, hf, hc⟩ | ⟨hm, hf, hc, rfl⟩ | ⟨hm, hf, hd⟩⟩
  · exact .ignore
  · exact .preparedNack ht hlt hr hm
  · obtain ⟨c, hcmd, rfl⟩ := doCommit_eq hc
    exact .preparedCommit ht hlt hr hm hf hcmd
  · exact .preparedCount ht hlt hr hm hf hc
  rcases decidePrepared_cases hd with
    ⟨hs, rfl⟩ | ⟨ha, rfl⟩ | ⟨hs, ha, hl, hp, conflict, c, -, ⟨-, -, -, hc⟩ | ⟨-, -, -, rfl⟩ | ⟨-, rfl⟩⟩
      | ⟨hs, ha, hl, hc⟩
  · exact .preparedNoop ht hlt hr hm hf rfl hs
  · exact .preparedAdopt ht hlt hr hm hf rfl ha
  · obtain ⟨j, lt', s, hj, hlt', hscan, rfl⟩ := restart_eq hc
    cases hlt'
    exact .preparedRestart ht hlt hr hm hf rfl hs ha (.inr ⟨rfl, hl, hp⟩) hj hscan
  · exact .preparedTryOwn ht hlt hr hm hf rfl hs ha hl hp
  · exact .preparedTry ht hlt hr hm hf rfl hs ha hl hp
  · obtain ⟨j, lt', s, hj, hlt', hscan, rfl⟩ := restart_eq hc
    cases hlt'
    exact .preparedRestart ht hlt hr hm hf rfl hs ha (.inl ⟨rfl, rfl, hl⟩) hj hscan

theorem tryPreAccept_act (ht : m.type = .tryPreAccept)
    (h : tryPreAccept T (r.put i) i m = some e) : Act T r i (.step m) e.inst e.io := by
  rcases tryPreAccept_cases h with ⟨hb, rfl⟩ | ⟨hb, conflict, c, hf, ⟨f, rfl, rfl⟩ | ⟨rfl, rfl⟩⟩
  · exact .tryNack (c := m.command) ht (.inl hb)
  · exact .tryNack ht (.inr ⟨hb, f, hf⟩)
  · exact .tryStore ht hb hf

theorem tryPreAcceptReply_act (ht : m.type = .tryPreAcceptReply)
    (h : tryPreAcceptReply T (r.put i) i m = some e) : Act T r i (.step m) e.inst e.io := by
  rcases tryPreAcceptReply_cases h with
    rfl | ⟨lt, hlt, hr, hs, ⟨hm, hc⟩ | ⟨hm, rfl⟩ | ⟨hm, rfl⟩⟩
  · exact .ignore
  rotate_left
  · exact .triedAccept ht hlt hr hs hm
  · exact .triedCount ht hlt hr hs hm
  rcases tryNack_cases hc with ⟨hb, rfl⟩ | ⟨hb, ⟨q, rfl⟩ | ⟨nq, hd⟩ | ⟨hcs, q, nq, hp, hd⟩⟩
  · exact .triedRaise ht hlt hr hs hm hb
  · exact .triedPrepare ht hlt hr hs hm hb
  · obtain ⟨i', io', tm, hi, hio, htm, ⟨rfl, rfl⟩ | ⟨q, hp, rfl, rfl⟩⟩ := deferConflict_cases hd
      <;> rw [hi, hio]
    · exact .triedDefer ht hlt hr hs hm hb htm
    · obtain ⟨j, lt', s, hj, hlt', hc, rfl⟩ := phase1_eq hp
      cases hlt'
      exact .triedRestart ht hlt hr hs hm hb (.inr ⟨rfl, rfl⟩) hj hc htm (.inl rfl)
  · obtain ⟨j, lt', s, hj, hlt', hc, rfl⟩ := phase1_eq hp
    cases hlt'
    obtain ⟨i', io', tm, hi, hio, htm, ⟨rfl, rfl⟩ | ⟨q, hp, rfl, rfl⟩⟩ := deferConflict_cases hd
      <;> rw [hi, hio]
    · exact .triedRestart ht hlt hr hs hm hb (.inl ⟨rfl, rfl⟩) hj hc htm (.inr hcs)
    · obtain ⟨j', lt', s', hj', hlt', hc', rfl⟩ := phase1_eq hp
      cases hlt'
      exact .triedRestartTwice ht hlt hr hs hm hb hj hj' hc hc' htm hcs

theorem progress_act (ht : m.type ≠ .phase1) (h : progress T (r.put i) i m = some e) :
    Act T r i (.step m) e.inst e.io := by
  unfold progress at h
  split at h <;> rename_i hm
  · exact absurd hm ht
  · exact preAccept_act hm h
  · exact preAcceptReply_act hm h
  · cases h
    exact accept_act hm
  · cases h
    exact .commit hm
  · exact acceptReply_act hm h
  · exact preAcceptOk_act hm h
  · cases h
    exact prepare_act hm
  · exact prepareReply_act hm h
  · exact tryPreAccept_act hm h
  · exact tryPreAcceptReply_act hm h
  · cases h
    exact .ignore

/-- Which instance an event is about: the registered copy, or one the replica has just made. -/
def Located (r : Replica) (i : Instance) : Event → Prop
  | .propose _ => r.find i.key = none ∧ i = r.ownInstance
  | .checkpoint _ => r.find i.key = none ∧ i = r.ownInstance
  | .timeout id _ => r.find id = some i
  | .step m => i = r.copy m.id ∧ m.id.instanceId ≠ 0 ∧ m.id.replicaId < N
  | .execute id => r.find id = some i

theorem step_progress (h : r.handle T (.step m) = .handled i e) :
    Located r i (.step m) ∧ progress T (r.put i) i m = some e := by
  simp only [Replica.handle] at h
  split_ifs at h with h₁ h₂
  cases hc : progress T (r.put (r.copy m.id)) (r.copy m.id) m <;> rw [hc] at h <;> cases h
  exact ⟨⟨rfl, h₁, by omega⟩, hc⟩

theorem timeout_cases {id : InstanceId} (h : r.handle T (.timeout id m) = .handled i e) :
    r.find id = some i
      ∧ ((i.timer = some .slowPath ∧ e = slowPathTimeout r { i with timer := none })
        ∨ (i.timer = some .fastPath ∧ e = fastPathTimeout r { i with timer := none } m)) := by
  simp only [Replica.handle] at h
  split at h
  · cases h
  rename_i hf
  split at h <;> rename_i ht <;> cases h
  · exact ⟨hf, .inl ⟨ht, rfl⟩⟩
  · exact ⟨hf, .inr ⟨ht, rfl⟩⟩

theorem handle_act {ev : Event} (ht : ∀ m, ev = .step m → m.type ≠ .phase1)
    (h : r.handle T ev = .handled i e) : Located r i ev ∧ Act T r i ev e.inst e.io := by
  cases ev with
  | propose m =>
    simp only [Replica.handle] at h
    split_ifs at h with hf
    cases hc : restart T (r.put r.ownInstance) r.ownInstance m <;> rw [hc] at h <;> cases h
    obtain ⟨j, lt, s, hj, hlt, hs, rfl⟩ := restart_eq hc
    exact ⟨⟨by simpa using hf, rfl⟩, .propose hlt hj hs⟩
  | checkpoint m =>
    simp only [Replica.handle] at h
    split_ifs at h with hf
    cases hc : r.checkpointEffect r.ownInstance m <;> rw [hc] at h <;> cases h
    obtain ⟨deps, hd, rfl⟩ := Option.map_eq_some_iff.1 hc
    exact ⟨⟨by simpa using hf, rfl⟩, .checkpoint hd⟩
  | timeout id m =>
    obtain ⟨hf, ⟨ht, rfl⟩ | ⟨ht, rfl⟩⟩ := timeout_cases h
    · exact ⟨hf, .slowTimeout ht⟩
    · exact ⟨hf, .fastTimeout ht⟩
  | step m =>
    obtain ⟨hl, hp⟩ := step_progress h
    exact ⟨hl, progress_act (ht m rfl) hp⟩
  | execute id =>
    simp only [Replica.handle] at h
    split at h
    · cases h
    rename_i j hf
    split_ifs at h with hh
    cases h
    exact ⟨hf, .execute hh⟩

end Step

end Epx
