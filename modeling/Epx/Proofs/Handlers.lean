import Epx.System

/-!
# What each handler can do

For each handler, the cases of its effect, with the guards under which each is reached. The later
proofs use these and not the definitions.
-/

namespace Epx

theorem isState_iff {a : State} {b : List State} : isState a b = true ↔ a ∈ b := by simp [isState]

/-- The effect of `do_commit`, where the command is there. -/
def commitEffect (r : Replica) (i : Instance) (m : Message) (c : Command) : Effect where
  inst := { i with status := .committed, timer := none }
  dh := r.dh
  cleared := false
  io := [{ m with type := .commit }]
  eo := if c.writing = .write then [{ m with type := .commit }] else []
  exec := true

theorem doCommit_eq {r : Replica} {i : Instance} {m : Message} {e : Effect}
    (h : doCommit r i m = some e) : ∃ c, i.command = some c ∧ e = commitEffect r i m c := by
  obtain ⟨c, hc, rfl⟩ := Option.map_eq_some_iff.1 h
  exact ⟨c, hc, rfl⟩

variable {T : RangeTree} {r : Replica} {i : Instance} {m : Message} {e : Effect}

/-- The instance as `phase1` leaves it, from the outcome of its scan. -/
def phase1Inst (i : Instance) (m : Message) (lt : LeaderTracker)
    (s : ℕ × Option Command × Probe) : Instance :=
  { i with
    seq := u64 (s.1 + 1)
    status := .preAccepted
    lt := some { lt with
      ri := { lt.ri with status := .none }
      equal := if s.2.2.updated = 0 then 1 else 0 }
    deps := s.2.2.deps
    command := s.2.1
    ballot := m.ballot
    timer := some .fastPath
    shared := false }

/-- The `PRE_ACCEPT` of `phase1`. -/
def phase1Msg (i : Instance) (m : Message) (s : ℕ × Option Command × Probe) : Message :=
  { m with
    seq := u64 (s.1 + 1), command := s.2.1, deps := s.2.2.deps, id := i.key, type := .preAccept }

theorem phase1_eq {q : Instance × Message} (h : phase1 T r i m = some q) :
    ∃ j lt s, j.key = i.key ∧ i.lt = some lt
      ∧ sdForCommand T (r.put j) m.command (some i.key) ⟨0, .zero⟩ = some s
      ∧ q = (phase1Inst i m lt s, phase1Msg i m s) := by
  unfold phase1 at h
  simp only at h
  split at h
  · rename_i mseq command p lt hs hlt
    obtain ⟨lt', hlt', rfl⟩ := Option.map_eq_some_iff.1 hlt
    simp only [Option.some.injEq] at h
    exact ⟨{ instanceReset i with timer := none }, lt', _, rfl, hlt', hs, h.symm⟩
  · cases h

theorem restart_eq (h : restart T r i m = some e) :
    ∃ j lt s, j.key = i.key ∧ i.lt = some lt
      ∧ sdForCommand T (r.put j) m.command (some i.key) ⟨0, .zero⟩ = some s
      ∧ e = sending r (phase1Inst i m lt s) (phase1Msg i m s) := by
  obtain ⟨q, hq, rfl⟩ := Option.map_eq_some_iff.1 h
  obtain ⟨j, lt, s, hj, hlt, hs, rfl⟩ := phase1_eq hq
  exact ⟨j, lt, s, hj, hlt, hs, rfl⟩

/-- The instance as `pre_accept` leaves it, from the outcome of its scan. -/
def preAcceptInst (i : Instance) (m : Message) (s : ℕ × Option Command × Probe) : Instance :=
  { i with
    status := if s.2.2.updated = 0 then .preAcceptedEq else .preAccepted
    command := s.2.1
    ballot := m.ballot
    deps := s.2.2.deps
    seq := max m.seq (u64 (s.1 + 1))
    shared := false }

theorem preAccept_cases (h : preAccept T r i m = some e) :
    (¬ (i.status = .preAccepted ∨ i.status = .none) ∧ e = quiet r i)
    ∨ ((i.status = .preAccepted ∨ i.status = .none) ∧ m.ballot < i.ballot
      ∧ e = sending r i { m with
          ballot := i.ballot, command := i.command, seq := i.seq, nack := 1, deps := i.deps
          type := .preAcceptReply })
    ∨ ((i.status = .preAccepted ∨ i.status = .none) ∧ i.ballot ≤ m.ballot
      ∧ ∃ s, sdForCommand T r m.command (some i.key) ⟨0, i.deps⟩ = some s
        ∧ ((e = { sending r (preAcceptInst i m s) { m with
                command := s.2.1, seq := (preAcceptInst i m s).seq, deps := s.2.2.deps
                type := .preAcceptReply } with cleared := s.2.1.isNone })
          ∨ ((preAcceptInst i m s).seq = m.seq ∧ s.2.2.updated = 0
            ∧ hasUncommittedDeps (preAcceptInst i m s) = false ∧ isInitialBallot m.ballot = true
            ∧ e = { sending r (preAcceptInst i m s) { m with
                command := s.2.1, type := .preAcceptOk } with cleared := s.2.1.isNone }))) := by
  unfold preAccept at h
  split_ifs at h with h₁ h₂ h₃
  · refine .inl ⟨?_, (Option.some.inj h).symm⟩
    simp only [isState_iff, List.mem_cons, List.not_mem_nil, or_false] at h₁
    rcases h₁ with h₁ | h₁ <;> simp [h₁]
  · refine .inl ⟨?_, (Option.some.inj h).symm⟩
    simpa [isState] using h₂
  · simp only [Bool.not_eq_true', Bool.not_eq_false, isState_iff, List.mem_cons,
      List.not_mem_nil, or_false] at h₂
    exact .inr (.inl ⟨h₂, h₃, (Option.some.inj h).symm⟩)
  · simp only [Bool.not_eq_true', Bool.not_eq_false, isState_iff, List.mem_cons,
      List.not_mem_nil, or_false] at h₂
    refine .inr (.inr ⟨h₂, by omega, ?_⟩)
    split at h
    · cases h
    rename_i mseq command p hs
    refine ⟨_, hs, ?_⟩
    have h : ({ (if (preAcceptInst i m (mseq, command, p)).seq ≠ m.seq ∨ 0 < p.updated
          ∨ hasUncommittedDeps (preAcceptInst i m (mseq, command, p)) = true
          ∨ ¬ isInitialBallot m.ballot = true
        then sending r (preAcceptInst i m (mseq, command, p)) { m with
          command, seq := (preAcceptInst i m (mseq, command, p)).seq, deps := p.deps
          type := .preAcceptReply }
        else sending r (preAcceptInst i m (mseq, command, p)) { m with
          command, type := .preAcceptOk }) with cleared := command.isNone } : Effect) = e :=
      Option.some.inj h
    split_ifs at h with h₄
    · exact .inl h.symm
    · simp only [not_or, not_not, not_lt, Nat.le_zero, Bool.not_eq_true] at h₄
      exact .inr ⟨h₄.1, h₄.2.1, h₄.2.2.1, by simpa using h₄.2.2.2, h.symm⟩

/-- The tracker with one more positive pre-accept answer. -/
def LeaderTracker.preAcceptOk (lt : LeaderTracker) : LeaderTracker :=
  { lt with preAcceptOks := u8 (lt.preAcceptOks + 1) }

theorem preAcceptOk_cases (h : preAcceptOk r i m = some e) :
    e = quiet r i
    ∨ ∃ lt, i.lt = some lt ∧ i.status = .preAccepted ∧ isInitialBallot i.ballot = true
      ∧ ((N / 2 ≤ lt.preAcceptOk.preAcceptOks ∧ lt.equal ≠ 0 ∧ hasUncommittedDeps i = false
          ∧ doCommit r { i with lt := some lt.preAcceptOk } m = some e)
        ∨ (N / 2 ≤ lt.preAcceptOk.preAcceptOks
          ∧ e = sending r { i with lt := some lt.preAcceptOk, status := .accepted }
              { m with type := .accept })
        ∨ (¬ N / 2 ≤ lt.preAcceptOk.preAcceptOks
          ∧ e = quiet r { i with lt := some lt.preAcceptOk })) := by
  unfold preAcceptOk at h
  split_ifs at h with h₁
  · exact .inl (Option.some.inj h).symm
  simp only [Bool.or_eq_true, Bool.not_eq_true', not_or, Bool.not_eq_false, isState_iff,
    List.mem_singleton] at h₁
  split at h
  · cases h
  rename_i lt hlt
  refine .inr ⟨lt, hlt, h₁.1, h₁.2, ?_⟩
  simp only at h
  split_ifs at h with h₂ h₃
  · exact .inl ⟨h₂.1, h₂.2.1, by simpa [hasUncommittedDeps] using h₂.2.2, h⟩
  · exact .inr (.inl ⟨h₃, (Option.some.inj h).symm⟩)
  · exact .inr (.inr ⟨h₃, (Option.some.inj h).symm⟩)

/-- The tracker with one more nack, at the ballot of the message. -/
def LeaderTracker.nack (lt : LeaderTracker) (m : Message) : LeaderTracker :=
  { lt with
    nacks := u8 (lt.nacks + 1)
    maxBallot := if lt.maxBallot < m.ballot then m.ballot else lt.maxBallot }

theorem nackReply_cases (lt : LeaderTracker) :
    (N / 2 ≤ (lt.nack m).nacks ∧ nackReply r i lt m = recover r { i with lt := some (lt.nack m) } m)
    ∨ (¬ N / 2 ≤ (lt.nack m).nacks
      ∧ nackReply r i lt m = quiet r { i with lt := some (lt.nack m) }) := by
  unfold nackReply LeaderTracker.nack
  simp only
  by_cases hk : N / 2 ≤ u8 (lt.nacks + 1)
  · refine .inl ⟨hk, ?_⟩
    split_ifs <;> rfl
  · refine .inr ⟨hk, ?_⟩
    split_ifs <;> rfl

/-- The instance with the reply's seq and dependencies merged into it. -/
def mergeReply (i : Instance) (m : Message) (lt : LeaderTracker) : Instance :=
  { i with
    seq := max i.seq m.seq
    deps := (i.deps.merge m.deps.slots).1
    lt := some { lt.preAcceptOk with
      equal := foldEqual lt.equal i.seq m.seq (i.deps.merge m.deps.slots).2 } }

theorem preAcceptReply_cases (h : preAcceptReply r i m = some e) :
    e = quiet r i
    ∨ ∃ lt, i.lt = some lt ∧ i.status = .preAccepted ∧ i.ballot = m.ballot
      ∧ ((m.nack ≠ 0 ∧ e = nackReply r i lt m)
        ∨ (m.nack = 0
          ∧ ((N / 2 ≤ lt.preAcceptOk.preAcceptOks
              ∧ foldEqual lt.equal i.seq m.seq (i.deps.merge m.deps.slots).2 ≠ 0
              ∧ isInitialBallot i.ballot = true ∧ hasUncommittedDeps (mergeReply i m lt) = false
              ∧ doCommit r (mergeReply i m lt) m = some e)
            ∨ (N / 2 ≤ lt.preAcceptOk.preAcceptOks
              ∧ e = sending r { mergeReply i m lt with status := .accepted }
                  { m with type := .accept })
            ∨ (¬ N / 2 ≤ lt.preAcceptOk.preAcceptOks ∧ e = quiet r (mergeReply i m lt))))) := by
  unfold preAcceptReply at h
  rcases hlt : i.lt with _ | lt <;> simp only [hlt] at h
  · split_ifs at h
    exact .inl (Option.some.inj h).symm
  split_ifs at h with h₁ h₂ h₃ h₄
  · exact .inl (Option.some.inj h).symm
  all_goals
    simp only [Bool.or_eq_true, Bool.not_eq_true', not_or, Bool.not_eq_false, isState_iff,
      List.mem_singleton, decide_eq_true_eq, not_not] at h₁
    refine .inr ⟨lt, rfl, h₁.1, h₁.2, ?_⟩
  · exact .inl ⟨h₂, (Option.some.inj h).symm⟩
  · exact .inr ⟨not_not.1 h₂, .inl ⟨h₃.1, h₃.2.1, h₃.2.2.1,
      by simpa [hasUncommittedDeps, mergeReply] using h₃.2.2.2, h⟩⟩
  · exact .inr ⟨not_not.1 h₂, .inr (.inl ⟨h₄, (Option.some.inj h).symm⟩)⟩
  · exact .inr ⟨not_not.1 h₂, .inr (.inr ⟨h₄, (Option.some.inj h).symm⟩)⟩

theorem accept_cases (r : Replica) (i : Instance) (m : Message) :
    (i.Decided ∧ accept r i m = quiet r i)
    ∨ (¬ i.Decided ∧ m.ballot < i.ballot
      ∧ accept r i m = sending r i { m with nack := 1, ballot := i.ballot, type := .acceptReply })
    ∨ (¬ i.Decided ∧ i.ballot ≤ m.ballot
      ∧ accept r i m = { sending r
          { i with status := .accepted, ballot := m.ballot, seq := m.seq, deps := m.deps }
          { m with type := .acceptReply } with cleared := m.command.isNone }) := by
  unfold accept Instance.Decided
  have hd : isState i.status [.committed, .executed] = true
      ↔ i.status = .committed ∨ i.status = .executed := by simp [isState_iff]
  split_ifs with h₁ h₂
  · exact .inl ⟨hd.1 h₁, rfl⟩
  · exact .inr (.inl ⟨fun h => h₁ (hd.2 h), h₂, rfl⟩)
  · exact .inr (.inr ⟨fun h => h₁ (hd.2 h), by omega, rfl⟩)

/-- The tracker with one more positive accept answer. -/
def LeaderTracker.acceptOk (lt : LeaderTracker) : LeaderTracker :=
  { lt with acceptOks := u8 (lt.acceptOks + 1) }

theorem acceptReply_cases (h : acceptReply r i m = some e) :
    e = quiet r i
    ∨ ∃ lt, i.lt = some lt ∧ i.status = .accepted ∧ i.ballot = m.ballot
      ∧ ((m.nack ≠ 0 ∧ e = nackReply r i lt m)
        ∨ (m.nack = 0 ∧ N / 2 < lt.acceptOk.acceptOks + 1
          ∧ doCommit r { i with lt := some lt.acceptOk } m = some e)
        ∨ (m.nack = 0 ∧ e = quiet r { i with lt := some lt.acceptOk })) := by
  unfold acceptReply at h
  rcases hlt : i.lt with _ | lt <;> simp only [hlt] at h
  · split_ifs at h
    exact .inl (Option.some.inj h).symm
  split_ifs at h with h₁ h₂ h₃
  · exact .inl (Option.some.inj h).symm
  all_goals
    simp only [Bool.or_eq_true, Bool.not_eq_true', not_or, Bool.not_eq_false, isState_iff,
      List.mem_singleton, decide_eq_true_eq, not_not] at h₁
    refine .inr ⟨lt, rfl, h₁.1, h₁.2, ?_⟩
  · exact .inl ⟨h₂, (Option.some.inj h).symm⟩
  · exact .inr (.inl ⟨not_not.1 h₂, h₃, h⟩)
  · exact .inr (.inr ⟨not_not.1 h₂, (Option.some.inj h).symm⟩)

theorem prepare_cases (r : Replica) (i : Instance) (m : Message) :
    (m.ballot < i.ballot
      ∧ prepare r i m = sending r i { m with nack := 1, type := .prepareReply })
    ∨ (i.ballot ≤ m.ballot ∧ prepare r i m = sending r { i with ballot := m.ballot } { m with
        command := i.command, deps := i.deps, seq := i.seq, ballot := m.ballot
        instanceStatus := i.status, type := .prepareReply }) := by
  unfold prepare
  split_ifs with h
  · exact .inl ⟨h, rfl⟩
  · exact .inr ⟨by omega, rfl⟩

/-- The tracker with one more reply to `PREPARE`. -/
def LeaderTracker.prepareOk (lt : LeaderTracker) : LeaderTracker :=
  { lt with prepareOks := u8 (lt.prepareOks + 1) }

theorem prepareReply_cases (h : prepareReply T r i m = some e) :
    e = quiet r i
    ∨ ∃ lt, i.lt = some lt ∧ lt.recoveryStatus = .preparing
      ∧ ((m.nack ≠ 0
          ∧ e = quiet r { i with lt := some { lt with nacks := u8 (lt.nacks + 1) } })
        ∨ (m.nack = 0 ∧ (m.instanceStatus = .committed ∨ m.instanceStatus = .executed)
          ∧ doCommit r { i with
              lt := some lt.prepareOk, seq := m.seq, command := m.command, deps := m.deps
              shared := false }
              { m with ballot := i.ballot } = some e)
        ∨ (m.nack = 0 ∧ ¬ (m.instanceStatus = .committed ∨ m.instanceStatus = .executed)
          ∧ (tallyReply i lt.prepareOk m).prepareOks < N / 2
          ∧ e = quiet r (tallyInst i lt.prepareOk m))
        ∨ (m.nack = 0 ∧ ¬ (m.instanceStatus = .committed ∨ m.instanceStatus = .executed)
          ∧ decidePrepared T r (tallyInst i lt.prepareOk m) (tallyReply i lt.prepareOk m) m
            = some e)) := by
  unfold prepareReply at h
  split at h
  · exact .inl (Option.some.inj h).symm
  rename_i lt hlt
  have hd : isState m.instanceStatus [.committed, .executed] = true
      ↔ m.instanceStatus = .committed ∨ m.instanceStatus = .executed := by simp [isState_iff]
  simp only at h
  split_ifs at h with h₁ h₂ h₃ h₄
  · exact .inl (Option.some.inj h).symm
  · exact .inr ⟨lt, hlt, not_not.1 h₁, .inl ⟨h₂, (Option.some.inj h).symm⟩⟩
  · exact .inr ⟨lt, hlt, not_not.1 h₁, .inr (.inl ⟨not_not.1 h₂, hd.1 h₃, h⟩)⟩
  · exact .inr ⟨lt, hlt, not_not.1 h₁, .inr (.inr (.inl ⟨not_not.1 h₂, fun h => h₃ (hd.2 h), h₄,
      (Option.some.inj h).symm⟩))⟩
  · exact .inr ⟨lt, hlt, not_not.1 h₁, .inr (.inr (.inr ⟨not_not.1 h₂, fun h => h₃ (hd.2 h), h⟩))⟩

/-- The record after a reply: the reply's content, counted, or the record's own, where the count and
`leader_replied` may have grown. -/
theorem tally_cases (i : Instance) (lt : LeaderTracker) (m : Message) :
    (m.Taken lt ∧ ∃ b l, tallyReply i lt m = { lt with
        maxBallot := b
        ri := ⟨m.command, m.deps, m.instanceStatus, m.seq, u8 (lt.ri.preAcceptCount + 1), l⟩ }
      ∧ ((m.instanceStatus = .accepted ∧ b = m.ballot ∧ l = lt.ri.leaderReplied)
        ∨ (m.instanceStatus ≠ .accepted ∧ b = lt.maxBallot
          ∧ l = if m.sender = m.id.replicaId then 1 else lt.ri.leaderReplied)))
    ∨ (¬ m.Taken lt ∧ ∃ c l, tallyReply i lt m
          = { lt with ri := { lt.ri with preAcceptCount := c, leaderReplied := l } }
      ∧ (c = lt.ri.preAcceptCount
        ∨ (c = u8 (lt.ri.preAcceptCount + 1) ∧ m.instanceStatus = .preAccepted))
      ∧ (l = lt.ri.leaderReplied
        ∨ (l = 1 ∧ m.sender = m.id.replicaId
          ∧ (m.instanceStatus = .preAccepted ∨ m.instanceStatus = .preAcceptedEq)))) := by
  unfold tallyReply Message.Taken
  cases hs : m.instanceStatus
  case accepted =>
    by_cases hb : lt.maxBallot < m.ballot ∨ lt.ri.status = .none
    · exact .inl ⟨.inl ⟨rfl, hb⟩, m.ballot, lt.ri.leaderReplied,
        by simp [isState, hb, updateRecoveryInstance, hs], .inl ⟨rfl, rfl, rfl⟩⟩
    · refine .inr ⟨by simpa using hb, _, _, ?_, .inl rfl, .inl rfl⟩
      simp [isState, hb]
  case preAcceptedEq =>
    by_cases hb : lt.ri.status.bits < State.accepted.bits
    · refine .inl ⟨.inr (.inl ⟨rfl, hb⟩), lt.maxBallot, _, ?_, .inr ⟨by simp, rfl, rfl⟩⟩
      by_cases hl : m.sender = m.id.replicaId <;>
        simp [isState, hb, hl, updateRecoveryInstance, hs]
    · refine .inr ⟨by simpa using hb, _, _, ?_, .inl rfl, .inl rfl⟩
      simp [isState, hb]
  case preAccepted =>
    by_cases hn : lt.ri.status = .none
    · refine .inl ⟨.inr (.inr ⟨rfl, hn⟩), lt.maxBallot, _, ?_, .inr ⟨by simp, rfl, rfl⟩⟩
      by_cases hl : m.sender = m.id.replicaId <;>
        simp [isState, hn, hl, updateRecoveryInstance, hs, State.bits]
    · refine .inr ⟨by simpa using hn, ?_⟩
      by_cases hb : lt.ri.status.bits < State.accepted.bits
      · by_cases he : m.seq = i.seq ∧ m.deps.equalDeps i.deps = true
        · by_cases hl : m.sender = m.id.replicaId
          · exact ⟨_, 1, by simp [isState, hn, hb, he, hl], .inr ⟨rfl, rfl⟩,
              .inr ⟨rfl, hl, .inl rfl⟩⟩
          · exact ⟨_, _, by simp [isState, hn, hb, he, hl], .inr ⟨rfl, rfl⟩, .inl rfl⟩
        · by_cases hl : m.sender = m.id.replicaId
          · exact ⟨_, 1, by simp [isState, hn, hb, he, hl], .inl rfl, .inr ⟨rfl, hl, .inl rfl⟩⟩
          · exact ⟨_, _, by simp [isState, hn, hb, he, hl], .inl rfl, .inl rfl⟩
      · refine ⟨_, _, ?_, .inl rfl, .inl rfl⟩
        simp [isState, hb]
  all_goals exact .inr ⟨by simp, _, _, by simp [isState], .inl rfl, .inl rfl⟩

theorem recoverTracker_preparing (r : Replica) (i : Instance) :
    (recoverTracker r i).recoveryStatus = .preparing := by
  unfold recoverTracker
  split_ifs <;> rfl

theorem tally_recoveryStatus (i : Instance) (lt : LeaderTracker) (m : Message) :
    (tallyReply i lt m).recoveryStatus = lt.recoveryStatus := by
  rcases tally_cases i lt m with ⟨-, b, l, he, -⟩ | ⟨-, c, l, he, -⟩ <;> rw [he]

/-- The tracker as `TRY_PRE_ACCEPT` starts from it. -/
def LeaderTracker.tryStart (lt : LeaderTracker) : LeaderTracker :=
  { lt with preAcceptOks := 0, nacks := 0, quorum := List.replicate N 1 }

/-- The record may be accepted on the strength of the replies: it was accepted by some replica,
or pre-accepted unchanged by enough of them. -/
def RecoveryInstance.Acceptable (ri : RecoveryInstance) : Prop :=
  ri.status = .accepted
    ∨ (ri.leaderReplied = 0 ∧ N / 2 ≤ ri.preAcceptCount ∧ ri.status = .preAcceptedEq)

/-- The scan leaves the copy its own command, or the record's. -/
theorem scanned_command {P : Option Command → Prop} {c : Option Command} (hi : P i.command)
    (hc : P c) : P (i.scanned c).command := by
  unfold Instance.scanned
  dsimp only
  split_ifs
  · exact hc
  · exact hi

theorem decidePrepared_cases {lt : LeaderTracker} (h : decidePrepared T r i lt m = some e) :
    (lt.ri.status = .none
      ∧ e = sending r
          { i with
            lt := some { lt with recoveryStatus := .none }
            status := .accepted, deps := noop r m.id }
          { m with deps := noop r m.id, command := none, ballot := i.ballot, type := .accept })
    ∨ (lt.ri.Acceptable
      ∧ e = sending r
          { i with
            command := lt.ri.command, seq := lt.ri.seq, deps := lt.ri.deps, status := .accepted
            lt := some { lt with recoveryStatus := .none }, shared := true }
          { m with ballot := i.ballot, deps := lt.ri.deps, seq := lt.ri.seq, type := .accept })
    ∨ (lt.ri.status ≠ .none ∧ ¬ lt.ri.Acceptable ∧ lt.ri.leaderReplied = 0
      ∧ (N / 2 + 1) / 2 ≤ lt.ri.preAcceptCount
      ∧ ∃ conflict command, pacConflict T (r.put { i with lt := some lt.tryStart }).rows i i.shared
          lt.ri.command lt.ri.seq lt.ri.deps.slots = some (conflict, command)
        ∧ ((∃ c, conflict = some c ∧ State.committed.bits ≤ c.status.bits
            ∧ restart T r
                { i.scanned command with lt := some { lt.tryStart with ri := { lt.ri with command } } }
                { m with command, ballot := i.ballot } = some e)
          ∨ (∃ c, conflict = some c ∧ ¬ State.committed.bits ≤ c.status.bits
            ∧ e = sending r
                { i.scanned command with lt := some { lt.tryStart with
                    ri := { lt.ri with command }, quorum := (List.replicate N 1).set r.id 0
                    recoveryStatus := .tryPreAccepting } }
                { m with
                  command := (i.scanned command).command, deps := i.deps, seq := i.seq
                  ballot := i.ballot, type := .tryPreAccept })
          ∨ (conflict = none
            ∧ e = sending r
                { i with
                  command, seq := lt.ri.seq, deps := lt.ri.deps, status := .preAccepted
                  lt := some { lt.tryStart with
                    preAcceptOks := 1, ri := { lt.ri with command }
                    recoveryStatus := .tryPreAccepting }
                  shared := true }
                { m with
                  command, deps := lt.ri.deps, seq := lt.ri.seq, ballot := i.ballot
                  type := .tryPreAccept })))
    ∨ (lt.ri.status ≠ .none ∧ ¬ lt.ri.Acceptable
      ∧ ¬ (lt.ri.leaderReplied = 0 ∧ (N / 2 + 1) / 2 ≤ lt.ri.preAcceptCount)
      ∧ restart T r { i with lt := some { lt with recoveryStatus := .none } }
          { m with command := lt.ri.command, ballot := i.ballot } = some e) := by
  unfold decidePrepared at h
  simp only at h
  have hn : isState lt.ri.status [.none] = true ↔ lt.ri.status = .none := by simp [isState_iff]
  have ha : (isState lt.ri.status [.accepted] || (decide (lt.ri.leaderReplied = 0) &&
      (decide (N / 2 ≤ lt.ri.preAcceptCount) && isState lt.ri.status [.preAcceptedEq]))) = true
      ↔ lt.ri.Acceptable := by
    simp [isState_iff, RecoveryInstance.Acceptable]
  split_ifs at h with h₁ h₂ h₃
  · exact .inl ⟨hn.1 h₁, (Option.some.inj h).symm⟩
  · exact .inr (.inl ⟨ha.1 h₂, (Option.some.inj h).symm⟩)
  · refine .inr (.inr (.inl ⟨fun h => h₁ (hn.2 h), fun h => h₂ (ha.2 h), h₃.1, h₃.2, ?_⟩))
    split at h
    · cases h
    · rename_i c command hp
      refine ⟨_, _, hp, ?_⟩
      split_ifs at h with hc
      · exact .inl ⟨c, rfl, hc, h⟩
      · exact .inr (.inl ⟨c, rfl, hc, (Option.some.inj h).symm⟩)
    · rename_i command hp
      exact ⟨_, _, hp, .inr (.inr ⟨rfl, (Option.some.inj h).symm⟩)⟩
  · exact .inr (.inr (.inr ⟨fun h => h₁ (hn.2 h), fun h => h₂ (ha.2 h), h₃, h⟩))

theorem tryPreAccept_cases (h : tryPreAccept T r i m = some e) :
    (m.ballot < i.ballot ∧ e = sending r i { m with
        conflict := ⟨m.id, i.status⟩, ballot := i.ballot, nack := 1, type := .tryPreAcceptReply })
    ∨ (i.ballot ≤ m.ballot
      ∧ ∃ conflict command, findConflict T r i m.command m.seq m.deps = some (conflict, command)
        ∧ ((∃ c, conflict = some c ∧ e = sending r i { m with
              command, conflict := ⟨c.key, c.status⟩, ballot := i.ballot, nack := 1
              type := .tryPreAcceptReply })
          ∨ (conflict = none ∧ e = sending r
              { i with
                command, deps := m.deps, ballot := m.ballot, seq := m.seq, status := .preAccepted
                shared := false }
              { m with command, type := .tryPreAcceptReply }))) := by
  unfold tryPreAccept at h
  split_ifs at h with h₁
  · exact .inl ⟨h₁, (Option.some.inj h).symm⟩
  refine .inr ⟨by omega, ?_⟩
  split at h
  · cases h
  · rename_i c command hf
    exact ⟨_, _, hf, .inl ⟨c, rfl, (Option.some.inj h).symm⟩⟩
  · rename_i command hf
    exact ⟨_, _, hf, .inr ⟨rfl, (Option.some.inj h).symm⟩⟩

/-- The deferred instance restarts phase 1 or not, and the timer of the one at hand may be reset. -/
theorem deferConflict_cases {lt : LeaderTracker} {nq : ℕ} {ri : RecoveryInstance}
    {io : List Message} (h : deferConflict T r i lt nq ri m io = some e) :
    ∃ i' io' tm, e.inst = { i' with timer := tm } ∧ e.io = io'
      ∧ (tm = i'.timer ∨ tm = some .slowPath)
      ∧ ((i' = i ∧ io' = io)
        ∨ ∃ q, phase1 T r
            { i with lt := i.lt.map fun lt => { lt with recoveryStatus := .none } }
            { m with command := ri.command, ballot := i.ballot } = some q
          ∧ i' = q.1 ∧ io' = io ++ [q.2]) := by
  unfold deferConflict at h
  obtain ⟨⟨i', m', io'⟩, hq, he⟩ := Option.map_eq_some_iff.1 h
  have hr : (i' = i ∧ io' = io) ∨ ∃ q, phase1 T r
      { i with lt := i.lt.map fun lt => { lt with recoveryStatus := .none } }
      { m with command := ri.command, ballot := i.ballot } = some q
        ∧ i' = q.1 ∧ io' = io ++ [q.2] := by
    split_ifs at hq with hd
    · obtain ⟨q, hp, hq⟩ := Option.map_eq_some_iff.1 hq
      simp only [Prod.mk.injEq] at hq
      exact .inr ⟨q, hp, hq.1.symm, hq.2.2.symm⟩
    · simp only [Option.some.injEq, Prod.mk.injEq] at hq
      exact .inl ⟨hq.1.symm, hq.2.2.symm⟩
  split_ifs at he with ht <;> subst he
  · exact ⟨i', io', some .slowPath, rfl, rfl, .inr rfl, hr⟩
  · exact ⟨i', io', i'.timer, rfl, rfl, .inl rfl, hr⟩

/-- The nack makes `try_pre_accept_reply` restart phase 1 with the message as it is. -/
def Message.Restarts (m : Message) (lt : LeaderTracker) : Prop :=
  m.conflict.id ≠ m.id
    ∧ (State.committed.bits ≤ m.conflict.status.bits ∨ N / 2 < lt.quorum.count 0)

instance (m : Message) (lt : LeaderTracker) : Decidable (m.Restarts lt) :=
  inferInstanceAs (Decidable (_ ∧ _))

theorem tryNack_cases {lt : LeaderTracker} (h : tryNack T r i lt m = some e) :
    (i.ballot < m.ballot
      ∧ e = sending r { i with ballot := largerBallot m.ballot r.id, lt := some lt }
          { m with ballot := largerBallot m.ballot r.id, type := .tryPreAccept })
    ∨ (m.ballot ≤ i.ballot
      ∧ ((∃ q, e = sending r
            { i with lt := some { lt with
                tryPreAcceptOks := u8 (lt.tryPreAcceptOks + 1), quorum := q } }
            { m with type := .prepare })
        ∨ (∃ nq, deferConflict T r
            { i with lt := some { lt with tryPreAcceptOks := u8 (lt.tryPreAcceptOks + 1) } }
            { lt with tryPreAcceptOks := u8 (lt.tryPreAcceptOks + 1) } nq lt.ri m [] = some e)
        ∨ (m.Restarts lt ∧ ∃ q nq, phase1 T r
              { i with lt := some { lt with
                  tryPreAcceptOks := u8 (lt.tryPreAcceptOks + 1), recoveryStatus := .none } } m
              = some q
            ∧ deferConflict T r q.1
                { lt with tryPreAcceptOks := u8 (lt.tryPreAcceptOks + 1) } nq lt.ri q.2 [q.2]
              = some e))) := by
  unfold tryNack at h
  simp only at h
  split_ifs at h with h₁ h₂ h₃
  · exact .inl ⟨h₁, (Option.some.inj h).symm⟩
  · exact .inr ⟨by omega, .inl ⟨_, (Option.some.inj h).symm⟩⟩
  · refine .inr ⟨by omega, .inr (.inr ⟨⟨h₂, h₃⟩, ?_⟩)⟩
    split at h
    · cases h
    · rename_i i' m' hp
      exact ⟨_, _, hp, h⟩
  · exact .inr ⟨by omega, .inr (.inl ⟨_, h⟩)⟩

theorem tryPreAcceptReply_cases (h : tryPreAcceptReply T r i m = some e) :
    e = quiet r i
    ∨ ∃ lt, i.lt = some lt ∧ lt.recoveryStatus = .tryPreAccepting ∧ lt.ri.status ≠ .none
      ∧ ((m.nack ≠ 0 ∧ tryNack T r i { lt with nacks := u8 (lt.nacks + 1) } m = some e)
        ∨ (m.nack = 0 ∧ e = sending r
            { i with
              command := lt.ri.command, deps := lt.ri.deps, seq := lt.ri.seq, status := .accepted
              lt := some { lt with
                preAcceptOks := u8 (lt.preAcceptOks + 1)
                tryPreAcceptOks := u8 (lt.tryPreAcceptOks + 1)
                acceptOks := 0, recoveryStatus := .none }
              shared := true }
            { m with
              command := lt.ri.command, deps := lt.ri.deps, seq := lt.ri.seq
              instanceStatus := .accepted, type := .accept })
        ∨ (m.nack = 0 ∧ e = quiet r { i with lt := some { lt with
            preAcceptOks := u8 (lt.preAcceptOks + 1)
            tryPreAcceptOks := u8 (lt.tryPreAcceptOks + 1) } })) := by
  unfold tryPreAcceptReply at h
  rcases hlt : i.lt with _ | lt <;> simp only [hlt] at h
  · exact .inl (Option.some.inj h).symm
  split_ifs at h with h₁ h₂ h₃
  · exact .inl (Option.some.inj h).symm
  all_goals
    simp only [not_or, ne_eq, not_not] at h₁
    refine .inr ⟨lt, rfl, h₁.1, h₁.2, ?_⟩
  · exact .inl ⟨h₂, h⟩
  · exact .inr (.inl ⟨not_not.1 h₂, (Option.some.inj h).symm⟩)
  · exact .inr (.inr ⟨not_not.1 h₂, (Option.some.inj h).symm⟩)

end Epx
