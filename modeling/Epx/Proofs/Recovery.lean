import Epx.Proofs.Clearing
import Epx.Proofs.FastPath
import Epx.Proofs.Owners
import Epx.Proofs.Schedules

/-!
# Recovery after a fast-path commit

The leader commits on the fast path what it proposed without dependencies, on the vote of a follower
that has found none either. `recover` does not count that vote among the answers when it is the
recovering replica's own, and what `accept` and `commit` take over from a message leaves out the
command. `Preserving` says when the votes are enough for every recovery to end in the same values.
-/

namespace Epx

open Log

/-- The replica has voted for the values it holds, or holds them as accepted. -/
def State.Firm (s : State) : Prop :=
  s = .preAcceptedEq ∨ s = .accepted ∨ s = .committed ∨ s = .executed

instance (s : State) : Decidable s.Firm := inferInstanceAs (Decidable (_ ∨ _))

/-- A scan of `pre_accept` that changes nothing has started from dependencies of the message, and
comes back with no larger seq and the same command. -/
def Unchanging (T : RangeTree) (r : Replica) (i : Instance) (m : Message) : Prop :=
  ∀ q ∈ sdForCommand T (r.put i) m.command (some i.key) ⟨0, i.deps⟩, q.2.2.updated = 0 →
    (∀ d ∈ i.deps.entries, m.deps.Has d.id) ∧ u64 (q.1 + 1) ≤ m.seq ∧ q.2.1 = m.command

instance (T : RangeTree) (r : Replica) (i : Instance) (m : Message) :
    Decidable (Unchanging T r i m) := by
  unfold Unchanging; infer_instance

/-- What the answer makes of the recovery record is accepted at once where one of the two is firm:
the record that takes the answer over counts at least one vote; and the record that does not has
the command of the answer, and is accepted or counts a vote itself. -/
def Message.Settles (m : Message) (i : Instance) (lt : LeaderTracker) : Prop :=
  if m.Taken lt then m.instanceStatus = .preAcceptedEq → u8 (lt.ri.preAcceptCount + 1) ≠ 0
  else
    match lt.ri.status with
    | .accepted => m.command = lt.ri.command
    | .preAcceptedEq =>
      m.command = lt.ri.command
        ∧ (if m.instanceStatus = .preAccepted ∧ m.seq = i.seq ∧ m.deps.equalDeps i.deps = true then
            u8 (lt.ri.preAcceptCount + 1) else lt.ri.preAcceptCount) ≠ 0
    | .none | .preAccepted => m.instanceStatus ≠ .accepted
    | _ => False

instance (m : Message) (i : Instance) (lt : LeaderTracker) : Decidable (m.Settles i lt) := by
  unfold Message.Settles
  exact match lt.ri.status with
  | .none | .preAccepted | .preAcceptedEq | .accepted | .preparing | .tryPreAccepting | .committed
  | .executed => inferInstance

/-- A `PRE_ACCEPT` at an initial ballot is scanned for without a difference only where nothing
differs; an `ACCEPT` that is stored and a `COMMIT` have the command of the copy; and an answer to
`PREPARE` that is counted, from another replica than the leader and before the leader has replied,
settles the recovery. -/
def Preserving (T : RangeTree) (r : Replica) (i : Instance) : Event → Prop
  | .step m =>
    match m.type, i.lt with
    | .preAccept, _ =>
      isInitialBallot m.ballot = true ∧ i.ballot ≤ m.ballot
          ∧ (i.status = .preAccepted ∨ i.status = .none) → Unchanging T r i m
    | .accept, _ => ¬ i.Decided ∧ i.ballot ≤ m.ballot → m.command = i.command
    | .commit, _ => m.command = i.command
    | .prepareReply, some lt =>
      lt.recoveryStatus = .preparing ∧ m.nack = 0 ∧ ¬ m.Final ∧ m.sender ≠ m.id.replicaId
          ∧ lt.ri.leaderReplied = 0 → m.Settles i lt
    | _, _ => True
  | _ => True

instance (T : RangeTree) (r : Replica) (i : Instance) (ev : Event) :
    Decidable (Preserving T r i ev) := by
  unfold Preserving
  exact match ev with
  | .propose _ | .checkpoint _ | .timeout _ _ | .execute _ => inferInstance
  | .step m => by
    dsimp only
    exact match m.type, i.lt with
    | .prepareReply, none | .prepareReply, some _ => inferInstance
    | .phase1, _ | .preAccept, _ | .preAcceptOk, _ | .preAcceptReply, _ | .accept, _
    | .acceptReply, _ | .commit, _ | .prepare, _ | .tryPreAccept, _ | .tryPreAcceptReply, _
    | .execute, _ => inferInstance

/-- The events of a run in which fast-path commits are safe from every recovery. -/
def Record.Preserves (T : RangeTree) (t : Record) : Prop :=
  Unwrapped t.before t.event ∧ Licensed t.who t.before t.event ∧ Steady t.before t.event ∧ t.Fresh
    ∧ Preserving T t.pre t.before t.event

instance (T : RangeTree) (t : Record) : Decidable (t.Preserves T) :=
  inferInstanceAs (Decidable (_ ∧ _))

def RecoveryInstance.value (ri : RecoveryInstance) : Value := (ri.command, ri.seq, ri.deps)

section Tally

variable {i : Instance} {lt : LeaderTracker} {m : Message}

theorem State.Firm.not_none {s : State} (h : s.Firm) : s ≠ .none ∧ s ≠ .preAccepted := by
  rcases h with rfl | rfl | rfl | rfl <;> exact ⟨by rintro ⟨⟩, by rintro ⟨⟩⟩

/-- The votes counted where the record stays. -/
theorem tally_count (h : ¬ m.Taken lt) (hs : lt.ri.status = .preAcceptedEq) :
    (tallyReply i lt m).ri.preAcceptCount
      = if m.instanceStatus = .preAccepted ∧ m.seq = i.seq ∧ m.deps.equalDeps i.deps = true then
          u8 (lt.ri.preAcceptCount + 1) else lt.ri.preAcceptCount := by
  have hb : State.preAcceptedEq.bits < State.accepted.bits := by decide
  unfold tallyReply
  unfold Message.Taken at h
  cases hm : m.instanceStatus
  case accepted =>
    have hn : ¬ lt.maxBallot < m.ballot := fun hlt => h (.inl ⟨hm, .inl hlt⟩)
    simp [isState, hs, hn]
  case preAcceptedEq => exact absurd (.inr (.inl ⟨hm, hs ▸ hb⟩)) h
  case preAccepted =>
    by_cases he : m.seq = i.seq ∧ m.deps.equalDeps i.deps = true <;>
      by_cases hl : m.sender = m.id.replicaId <;> simp [isState, hs, hb, he, hl]
  all_goals simp [isState]

theorem Message.Settles.kept (h : m.Settles i lt) (ht : ¬ m.Taken lt) :
    (lt.ri.status = .accepted ∧ m.command = lt.ri.command)
      ∨ (lt.ri.status = .preAcceptedEq ∧ m.command = lt.ri.command
        ∧ (if m.instanceStatus = .preAccepted ∧ m.seq = i.seq ∧ m.deps.equalDeps i.deps = true then
            u8 (lt.ri.preAcceptCount + 1) else lt.ri.preAcceptCount) ≠ 0)
      ∨ ((lt.ri.status = .none ∨ lt.ri.status = .preAccepted) ∧ m.instanceStatus ≠ .accepted) := by
  unfold Message.Settles at h
  rw [if_neg ht] at h
  cases hs : lt.ri.status <;> rw [hs] at h <;> dsimp only at h
  case accepted => exact .inl ⟨rfl, h⟩
  case preAcceptedEq => exact .inr (.inl ⟨rfl, h⟩)
  case none => exact .inr (.inr ⟨.inl rfl, h⟩)
  case preAccepted => exact .inr (.inr ⟨.inr rfl, h⟩)

/-- Where the record or the answer is firm, what `Settles` makes of the record is accepted, with the
values of the one or the other. -/
theorem Message.Settles.acceptable (h : m.Settles i lt) (hf : ¬ m.Final)
    (hl : lt.ri.leaderReplied = 0) (hne : m.sender ≠ m.id.replicaId)
    (hfirm : lt.ri.status.Firm ∨ m.instanceStatus.Firm) :
    (tallyReply i lt.prepareOk m).ri.Acceptable
      ∧ (tallyReply i lt.prepareOk m).ri.leaderReplied = 0
      ∧ ((m.instanceStatus.Firm
          ∧ (tallyReply i lt.prepareOk m).ri.status = m.instanceStatus
          ∧ (tallyReply i lt.prepareOk m).ri.value = m.value)
        ∨ (lt.ri.status.Firm
          ∧ (tallyReply i lt.prepareOk m).ri.status = lt.ri.status
          ∧ (tallyReply i lt.prepareOk m).ri.value = lt.ri.value
          ∧ m.command = lt.ri.command)) := by
  rcases tally_cases i lt.prepareOk m with ⟨ht, b, l, he, hc⟩ | ⟨ht, c, l, he, -, hl'⟩
  · unfold Message.Settles at h
    rw [if_pos (show m.Taken lt from ht)] at h
    have hr : l = 0 := by
      rcases hc with ⟨-, -, rfl⟩ | ⟨-, -, rfl⟩
      · exact hl
      · rw [if_neg hne]
        exact hl
    have hfirm' : m.instanceStatus.Firm := by
      rcases ht with ⟨hs, -⟩ | ⟨hs, -⟩ | ⟨hs, hn⟩
      · exact .inr (.inl hs)
      · exact .inl hs
      · exact hfirm.resolve_left fun h => h.not_none.1 hn
    rw [he]
    refine ⟨?_, hr, .inl ⟨hfirm', rfl, rfl⟩⟩
    rcases hfirm' with hs | hs | hs
    · exact .inr ⟨hr, Nat.one_le_iff_ne_zero.2 (h hs), hs⟩
    · exact .inl hs
    · exact absurd hs hf
  · have hr : l = 0 := by
      rcases hl' with rfl | ⟨-, hs, -⟩
      · exact hl
      · exact absurd hs hne
    have hcount := @tally_count i lt.prepareOk m ht
    rw [he] at hcount ⊢
    rcases h.kept ht with ⟨hs, hcm⟩ | ⟨hs, hcm, hvotes⟩ | ⟨hs, hm⟩
    · exact ⟨.inl hs, hr, .inr ⟨.inr (.inl hs), rfl, rfl, hcm⟩⟩
    · have hvotes : c ≠ 0 := (hcount hs).trans_ne hvotes
      exact ⟨.inr ⟨hr, Nat.one_le_iff_ne_zero.2 hvotes, hs⟩, hr, .inr ⟨.inl hs, rfl, rfl, hcm⟩⟩
    · have hlow : ¬ lt.ri.status.Firm := fun h => hs.elim h.not_none.1 h.not_none.2
      rcases hfirm.resolve_left hlow with hm' | hm' | hm'
      · refine absurd (.inr (.inl ⟨hm', ?_⟩)) ht
        have hs : lt.prepareOk.ri.status = .none ∨ lt.prepareOk.ri.status = .preAccepted := hs
        rcases hs with hs | hs <;> rw [hs] <;> decide
      · exact absurd hm' hm
      · exact absurd hm' hf

end Tally

section Scan

variable {T : RangeTree} {r : Replica} {i : Instance} {m : Message}
  {q : ℕ × Option Command × Probe}

/-- A scan that comes back with no dependencies has changed nothing. -/
theorem sdForCommand_zero {ignore : Option InstanceId} {cmd : Option Command} {deps : Deps}
    (h : sdForCommand T r cmd ignore ⟨0, deps⟩ = some q) (hd : q.2.2.deps = .zero) :
    q.2.2.updated = 0 := by
  by_contra hu
  refine sdForCommand_rule (P := fun p => p.updated ≠ 0 → p.deps ≠ .zero) ?_ h
    (fun h => absurd rfl h) hu hd
  intro k _ ti _ _ p hp hu
  by_cases hc : (addDep p.deps ti).2 = 0
  · have hp' := hp fun h => hu (show p.updated + (addDep p.deps ti).2 = 0 by omega)
    exact fun hz => hp' ((Deps.update_eq_zero hc).symm.trans hz)
  · exact Deps.update_ne_zero hc

/-- Where nothing differs from a message without dependencies, its values are stored. -/
theorem Unchanging.value (h : Unchanging T r i m)
    (hq : sdForCommand T (r.put i) m.command (some i.key) ⟨0, i.deps⟩ = some q)
    (hu : q.2.2.updated = 0) (hd : m.deps = .zero) :
    q.2.1 = m.command ∧ (preAcceptInst i m q).value = m.value := by
  obtain ⟨hdeps, hseq, hcm⟩ := h q hq hu
  have hzero : i.deps = .zero := by
    refine Deps.ext_entries ?_
    rw [Deps.entries_zero, List.eq_nil_iff_forall_not_mem]
    intro d hd'
    obtain ⟨x, hx, -⟩ := hdeps d hd'
    rw [hd, Deps.entries_zero] at hx
    exact List.not_mem_nil hx
  refine ⟨hcm, ?_⟩
  simp only [Instance.value, Message.value, preAcceptInst]
  rw [hcm, sdForCommand_deps hq hu, hzero, hd, max_eq_left hseq]

end Scan

/-- The record `t` of the log `W`, with the log it was added to. -/
structure Record.Within (T : RangeTree) (W older : List Record) (t : Record) : Prop where
  preserves : t.Preserves T
  rooted : t.Rooted
  handed : ∀ id ∈ t.pre.handed,
    ∃ p ∈ older, p.who = t.who ∧ p.after.key = id ∧ p.after.status = .committed
  split : ∃ newer, W = newer ++ t :: older

/-- In the log `W` the record `f` commits on the fast path what `p` has proposed, on the vote of
`s`. The answer it commits on is the first counted, and no ballot above the initial ones comes to
the leader before `f` or to the voter before `s`. -/
structure FastCommit (T : RangeTree) (W : List Record) (f p s : Record) : Prop where
  leads : f.after.key.replicaId = f.who
  who_lt : f.who < N ∧ s.who < N ∧ s.who ≠ f.who
  committed : f.after.status = .committed
  zero : f.after.deps = .zero
  answer : ∃ m, f.event = .step m ∧ m.seq = f.after.seq ∧ m.deps = .zero
  opened : p.event.Assigns ∧ p.who = f.who ∧ p.after.key = f.after.key
  proposed : p.after.status = .preAccepted ∧ isInitialBallot p.after.ballot = true
    ∧ p.after.value = f.after.value ∧ ∀ a ∈ p.sent, a.value = f.after.value
  voted : s.after.key = f.after.key ∧ s.after.status = .preAcceptedEq
  opens : ∀ {newer older t}, W = newer ++ t :: older → t.who = f.who →
    t.after.key = f.after.key → t = p ∨ (p ∈ older ∧ ¬ t.event.Assigns)
  first : ∀ {newer older t}, W = newer ++ t :: older → t.who = f.who →
    t.after.key = f.after.key → ∀ m, t.Counts m → t = f ∨ f ∈ older
  leader : ∀ {newer older t}, W = newer ++ t :: older → t.who = f.who →
    t.after.key = f.after.key → isInitialBallot t.after.ballot = false → f ∈ older
  voter : ∀ {newer older t}, W = newer ++ t :: older → t.who = s.who →
    t.after.key = f.after.key → isInitialBallot t.after.ballot = false → s ∈ older

/-- The leader's copy is what it proposed until it is decided, and it never recovers. -/
structure AtLeader (f : Record) (log : List Record) (i : Instance) : Prop where
  calm : ∀ lt, i.lt = some lt → lt.recoveryStatus = .none
  values : (∀ t ∈ log, ¬ (t.who = f.who ∧ t.after.key = i.key))
    ∨ (i.status = .preAccepted ∧ isInitialBallot i.ballot = true ∧ i.value = f.after.value)
    ∨ (i.Decided ∧ i.timer = none ∧ i.value = f.after.value)

/-- The tracker of a replica that may recover: its record is not the leader's, and where it is firm
it has the values committed; the voter's is firm. -/
structure LeaderTracker.Follows (f s : Record) (k : ℕ) (lt : LeaderTracker) : Prop where
  untried : lt.recoveryStatus ≠ .tryPreAccepting
  unreplied : lt.ri.leaderReplied = 0
  values : lt.recoveryStatus = .preparing → lt.ri.status.Firm → lt.ri.value = f.after.value
  voter : lt.recoveryStatus = .preparing → k = s.who → lt.ri.status.Firm

/-- Another replica's copy: where it is firm it has the values committed. -/
structure AtFollower (f s : Record) (k : ℕ) (i : Instance) : Prop where
  unarmed : i.timer ≠ some .fastPath
  values : i.status.Firm → i.value = f.after.value
  tracker : ∀ lt, i.lt = some lt → lt.Follows f s k

/-- What a message about the instance may say. -/
def Message.Loyal (f s : Record) (m : Message) : Prop :=
  match m.type with
  | .preAccept =>
    isInitialBallot m.ballot = true ∧ m.sender = f.who ∧ m.value = f.after.value
  | .preAcceptOk => m.dest = f.who ∧ m.value = f.after.value
  | .preAcceptReply => m.dest = f.who
    ∧ (m.nack = 0 → m.seq = f.after.seq → m.deps = .zero → m.value = f.after.value)
  | .accept | .commit => m.value = f.after.value
  | .acceptReply => m.nack = 0 → m.value = f.after.value
  | .prepareReply => m.nack = 0 → (m.instanceStatus.Firm → m.value = f.after.value)
    ∧ (m.sender = f.who → m.Final) ∧ (m.sender = s.who → m.instanceStatus.Firm)
  | .tryPreAccept | .tryPreAcceptReply => False
  | _ => True

/-- A copy that was firm once is. -/
def StaysFirm (log : List Record) (k : ℕ) (i : Instance) : Prop :=
  ∀ t ∈ log, t.who = k → t.after.key = i.key → t.after.status.Firm → i.status.Firm

section Step

variable {T : RangeTree} {W newer older : List Record} {f p s : Record} {k : ℕ} {ev : Event}
  {r : Replica} {i i' : Instance} {io : List Message} {m : Message} {lt : LeaderTracker}

theorem Preserving.scanned (h : Preserving T r i (.step m)) (ht : m.type = .preAccept)
    (hib : isInitialBallot m.ballot = true) (hb : i.ballot ≤ m.ballot)
    (hst : i.status = .preAccepted ∨ i.status = .none) : Unchanging T r i m := by
  simp only [Preserving, ht] at h
  exact h ⟨hib, hb, hst⟩

theorem Preserving.accepted (h : Preserving T r i (.step m)) (ht : m.type = .accept)
    (hd : ¬ i.Decided) (hb : i.ballot ≤ m.ballot) : m.command = i.command := by
  simp only [Preserving, ht] at h
  exact h ⟨hd, hb⟩

theorem Preserving.committed (h : Preserving T r i (.step m)) (ht : m.type = .commit) :
    m.command = i.command := by
  simpa only [Preserving, ht] using h

theorem Preserving.settles (h : Preserving T r i (.step m)) (ht : m.type = .prepareReply)
    (hlt : i.lt = some lt) (hr : lt.recoveryStatus = .preparing) (hn : m.nack = 0) (hf : ¬ m.Final)
    (hne : m.sender ≠ m.id.replicaId) (hl : lt.ri.leaderReplied = 0) : m.Settles i lt := by
  simp only [Preserving, ht, hlt] at h
  exact h ⟨hr, hn, hf, hne, hl⟩

theorem firm_of_decided (h : i.Decided) : i.status.Firm :=
  .inr (.inr h)

/-- The leader's copy after an event. -/
theorem leader_step (F : FastCommit T W f p s)
    (ht : Happens T older ⟨f.who, ev, r, i, i', io.map (envelope f.who)⟩)
    (hw : Record.Within T W older ⟨f.who, ev, r, i, i', io.map (envelope f.who)⟩)
    (hid : i.key = f.after.key)
    (hm : ∀ q ∈ older, ∀ m ∈ q.sent, m.id = f.after.key → m.Loyal f s)
    (hfirm : StaysFirm older f.who i) (hi : AtLeader f older i) (ha : Act T r i ev i' io) :
    (i.status.Firm → i'.status.Firm)
      ∧ AtLeader f (⟨f.who, ev, r, i, i', io.map (envelope f.who)⟩ :: older) i'
      ∧ ∀ m ∈ io, (envelope f.who m).Loyal f s := by
  obtain ⟨newer, hW⟩ := hw.split
  have hkey : i'.key = f.after.key := ha.key.trans hid
  have hv : ∀ m, ev = .step m → m.Loyal f s := fun m hev => by
    obtain ⟨⟨q, hq, hqm⟩, -⟩ := ht.source m hev
    exact hm q hq m hqm ((ht.step_key hev).1.symm.trans hid)
  have hforeign : ∀ m, ev = .step m → m.type.Broadcast → m.sender ≠ f.who := fun m hev hb =>
    ht.foreign hev hb
  -- once `f` is there the copy is decided, and so it is before any ballot above the initial ones
  have done : f ∈ older → i.Decided ∧ i.timer = none ∧ i.value = f.after.value := by
    intro hf
    have hfs : i.status.Firm := hfirm f hf rfl hid.symm (.inr (.inr (.inl F.committed)))
    rcases hi.values with hn | ⟨hs, -⟩ | hd
    · exact absurd ⟨rfl, hid.symm⟩ (hn f hf)
    · exact absurd hs hfs.not_none.2
    · exact hd
  have late : isInitialBallot i'.ballot = false → i.Decided ∧ i.timer = none
      ∧ i.value = f.after.value := fun hb => done (F.leader hW rfl hkey hb)
  have decided : i.status = .preAccepted → f ∉ older := fun hs hf =>
    (firm_of_decided (done hf).1).not_none.2 hs
  have values : ¬ ev.Assigns →
      (i.status = .preAccepted ∧ isInitialBallot i.ballot = true ∧ i.value = f.after.value)
        ∨ (i.Decided ∧ i.timer = none ∧ i.value = f.after.value) := by
    intro ho
    rcases F.opens hW rfl hkey with hp | ⟨hp, -⟩
    · have hev : p.event = ev := congrArg Record.event hp.symm
      exact absurd (hev ▸ F.opened.1) ho
    · exact hi.values.resolve_left fun hn =>
        hn p hp ⟨F.opened.2.1, F.opened.2.2.trans hid.symm⟩
  -- an event that leaves the values and the status
  have keep : ¬ ev.Assigns →
      i'.status = i.status → i'.ballot = i.ballot → i'.value = i.value →
      (i.timer = none → i'.timer = none) →
      (∀ lt', i'.lt = some lt' → ∃ lt, i.lt = some lt ∧ lt'.recoveryStatus = lt.recoveryStatus) →
      (i.status.Firm → i'.status.Firm)
        ∧ AtLeader f (⟨f.who, ev, r, i, i', io.map (envelope f.who)⟩ :: older) i' := by
    intro ho hs hb hval htm hlt
    refine ⟨fun h => hs ▸ h, ?_, .inr ?_⟩
    · intro lt' hlt'
      obtain ⟨lt, hl, hr⟩ := hlt lt' hlt'
      exact hr.trans (hi.calm lt hl)
    · unfold Instance.Decided
      rw [hs, hb, hval]
      exact (values ho).imp_right fun h => ⟨h.1, htm h.2.1, h.2.2⟩
  have proposes : ev.Assigns →
      (∀ lt', i'.lt = some lt' → lt'.recoveryStatus = .none) →
      (∀ m ∈ io, m.type = .preAccept ∧ m.ballot = i'.ballot) →
      (i.status.Firm → i'.status.Firm)
        ∧ AtLeader f (⟨f.who, ev, r, i, i', io.map (envelope f.who)⟩ :: older) i'
        ∧ ∀ m ∈ io, (envelope f.who m).Loyal f s := by
    intro ho hlt hio
    rcases F.opens hW rfl hkey with hp | ⟨-, hn⟩
    · obtain ⟨hs, hb, hval, hsent⟩ := F.proposed
      rw [← hp] at hs hb hval hsent
      refine ⟨fun hf => ?_, ⟨hlt, .inr (.inl ⟨hs, hb, hval⟩)⟩, fun m hm => ?_⟩
      · have hb : i = r.ownInstance := (ht.assigns_before ho).1
        rw [hb] at hf
        exact absurd rfl hf.not_none.1
      · obtain ⟨hty, hmb⟩ := hio m hm
        have hty : (envelope f.who m).type = .preAccept := hty
        rw [Message.Loyal, hty]
        exact ⟨(congrArg isInitialBallot hmb).trans hb, rfl, hsent _ (List.mem_map_of_mem hm)⟩
    · exact absurd ho hn
  -- the answers of a leader still in phase 1 are counted by `f` alone
  have counted : ∀ m lt lt', ev = .step m → i.status = .preAccepted → i.lt = some lt →
      i'.lt = some lt' → lt'.preAcceptOks ≠ lt.preAcceptOks →
      (m.type = .preAcceptOk ∨ (m.type = .preAcceptReply ∧ m.nack = 0)) →
      (⟨f.who, ev, r, i, i', io.map (envelope f.who)⟩ : Record) = f := by
    intro m lt lt' hev hs hlt hlt' hne hty
    exact (F.first hW rfl hkey m ⟨hev, hty, lt, lt', hlt, hlt', hne⟩).resolve_right (decided hs)
  cases ha with
  | propose hlt =>
    have ho : i = r.ownInstance := ht.located.2
    rw [ho] at hlt
    cases hlt
    refine proposes trivial ?_ (by simp [phase1Msg, phase1Inst])
    rintro _ ⟨⟩
    rfl
  | checkpoint =>
    have ho : i = r.ownInstance := ht.located.2
    refine proposes trivial ?_ (by simp)
    intro lt hlt
    rw [ho] at hlt
    cases hlt
    rfl
  | slowTimeout htm =>
    have hk : r.id < N := by rw [show r.id = f.who from ht.who_eq]; exact ht.who_lt
    have := (late (largerBallot_not_initial hk (hw.preserves.1 htm))).2.1
    exact absurd (htm.symm.trans this) (by rintro ⟨⟩)
  | nackRecover hty hlt hb hn =>
    have hk : r.id < N := by rw [show r.id = f.who from ht.who_eq]; exact ht.who_lt
    have hd := (late (largerBallot_not_initial hk (hw.preserves.1.nacked hty hlt hb hn))).1
    rcases hty with ⟨-, hs⟩ | ⟨-, hs⟩ <;> rcases hd with hd | hd <;>
      exact absurd (hs.symm.trans hd) (by rintro ⟨⟩)
  | fastTimeout htm =>
    obtain ⟨hf, hl⟩ := keep id rfl rfl rfl (fun h => absurd (htm.symm.trans h) (by rintro ⟨⟩))
      fun lt hlt => ⟨lt, hlt, rfl⟩
    refine ⟨hf, hl, List.forall_mem_singleton.2 ?_⟩
    rcases values id with ⟨-, -, hval⟩ | ⟨-, h, -⟩
    · exact hval
    · exact absurd (htm.symm.trans h) (by rintro ⟨⟩)
  | @execute id h =>
    obtain ⟨q, hq, hqw, hqk, hqs⟩ := hw.handed id h
    have hk : i.key = id := (ht.found id i ht.located).key
    have hfs : i.status.Firm := hfirm q hq hqw (hqk.trans hk.symm) (.inr (.inr (.inl hqs)))
    refine ⟨fun _ => .inr (.inr (.inr rfl)), ⟨hi.calm, .inr (.inr ⟨.inr rfl, ?_⟩)⟩, by simp⟩
    rcases values (fun h => h) with ⟨hs, -⟩ | ⟨-, h⟩
    · exact absurd hs hfs.not_none.2
    · exact h
  | ignore =>
    obtain ⟨hf, hl⟩ := keep (fun h => h) rfl rfl rfl (fun h => h) fun lt hlt => ⟨lt, hlt, rfl⟩
    exact ⟨hf, hl, by simp⟩
  | preAcceptNack hty | preAcceptReply hty | preAcceptOk hty =>
    have h := hv _ rfl
    rw [Message.Loyal, hty] at h
    exact absurd h.2.1 (hforeign _ rfl (by simp [MessageType.Broadcast, hty]))
  | @okCommit m lt c hty hlt hst =>
    have hf := counted m lt _ rfl hst hlt rfl (u8_succ_ne _) (.inl hty)
    have h := hv m rfl
    rw [Message.Loyal, hty] at h
    refine ⟨fun _ => .inr (.inr (.inl rfl)), ⟨?_, .inr (.inr ⟨.inl rfl, rfl, ?_⟩)⟩,
      List.forall_mem_singleton.2 h.2⟩
    · rintro _ ⟨⟩
      exact hi.calm lt hlt
    · exact congrArg (fun t : Record => t.after.value) hf
  | @replyCommit m lt c hty hlt hst hb hn =>
    have hf := counted m lt _ rfl hst hlt rfl (u8_succ_ne lt.preAcceptOks) (.inr ⟨hty, hn⟩)
    have h := hv m rfl
    rw [Message.Loyal, hty] at h
    obtain ⟨m', hev, hseq, hdeps⟩ := F.answer
    have hm' : m' = m := by
      have h := congrArg Record.event hf
      rw [hev] at h
      exact (Event.step.inj h).symm
    subst hm'
    refine ⟨fun _ => .inr (.inr (.inl rfl)), ⟨?_, .inr (.inr ⟨.inl rfl, rfl, ?_⟩)⟩,
      List.forall_mem_singleton.2 (h.2 hn hseq hdeps)⟩
    · rintro _ ⟨⟩
      exact hi.calm lt hlt
    · exact congrArg (fun t : Record => t.after.value) hf
  | @okAccept m lt hty hlt hst =>
    have hf := counted m lt _ rfl hst hlt rfl (u8_succ_ne _) (.inl hty)
    have hs : State.accepted = .committed :=
      (congrArg (fun t : Record => t.after.status) hf).trans F.committed
    cases hs
  | @okCount m lt hty hlt hst =>
    have hf := counted m lt _ rfl hst hlt rfl (u8_succ_ne _) (.inl hty)
    have hs : i.status = .committed :=
      (congrArg (fun t : Record => t.after.status) hf).trans F.committed
    exact absurd (hst.symm.trans hs) (by rintro ⟨⟩)
  | @replyAccept m lt hty hlt hst hb hn =>
    have hf := counted m lt _ rfl hst hlt rfl (u8_succ_ne lt.preAcceptOks) (.inr ⟨hty, hn⟩)
    have hs : State.accepted = .committed :=
      (congrArg (fun t : Record => t.after.status) hf).trans F.committed
    cases hs
  | @replyCount m lt hty hlt hst hb hn =>
    have hf := counted m lt _ rfl hst hlt rfl (u8_succ_ne lt.preAcceptOks) (.inr ⟨hty, hn⟩)
    have hs : i.status = .committed :=
      (congrArg (fun t : Record => t.after.status) hf).trans F.committed
    exact absurd (hst.symm.trans hs) (by rintro ⟨⟩)
  | nackCount hty hlt =>
    obtain ⟨hf, hl⟩ := keep (fun h => h) rfl rfl rfl (fun h => h) (by
      rintro _ ⟨⟩
      exact ⟨_, hlt, rfl⟩)
    exact ⟨hf, hl, by simp⟩
  | acceptNack | prepareNack =>
    obtain ⟨hf, hl⟩ := keep (fun h => h) rfl rfl rfl (fun h => h) fun lt hlt => ⟨lt, hlt, rfl⟩
    exact ⟨hf, hl, List.forall_mem_singleton.2 fun h => absurd h (by simp [envelope])⟩
  | @acceptStore m hty hd hb =>
    by_cases hib : isInitialBallot m.ballot = true
    · have hs := (hw.rooted.msg m rfl).request (.inr hty) hib
      rw [← (ht.step_key rfl).1, hid, F.leads] at hs
      exact absurd hs (hforeign m rfl (by simp [MessageType.Broadcast, hty]))
    · exact absurd (late (Bool.eq_false_iff.2 hib)).1 hd
  | acceptedCommit hty hlt hst | acceptedCount hty hlt hst =>
    rcases values (fun h => h) with ⟨hs, -⟩ | ⟨hs | hs, -⟩ <;>
      exact absurd (hst.symm.trans hs) (by rintro ⟨⟩)
  | @preparePromise m hty hb =>
    obtain ⟨hd, htm, hval⟩ := late ((hw.rooted.msg m rfl).above (.inl hty))
    refine ⟨fun h => h, ⟨hi.calm, .inr (.inr ⟨hd, htm, hval⟩)⟩, List.forall_mem_singleton.2 ?_⟩
    exact fun _ => ⟨fun _ => hval, fun _ => hd, fun _ => firm_of_decided hd⟩
  | preparedNack hty hlt hr | preparedCommit hty hlt hr | preparedCount hty hlt hr
  | preparedNoop hty hlt hr | preparedAdopt hty hlt hr | preparedRestart hty hlt hr
  | preparedTryOwn hty hlt hr | preparedTry hty hlt hr | triedRaise hty hlt hr
  | triedPrepare hty hlt hr | triedDefer hty hlt hr | triedRestart hty hlt hr
  | triedRestartTwice hty hlt hr | triedAccept hty hlt hr | triedCount hty hlt hr =>
    exact absurd (hr.symm.trans (hi.calm _ hlt)) (by rintro ⟨⟩)
  | tryNack hty | tryStore hty =>
    have h := hv _ rfl
    rw [Message.Loyal, hty] at h
    exact h.elim
  | @commit m hty =>
    have h := hv m rfl
    rw [Message.Loyal, hty] at h
    refine ⟨fun _ => .inr (.inr (.inl rfl)), ⟨hi.calm, .inr (.inr ⟨.inl rfl, rfl, ?_⟩)⟩, by simp⟩
    have hval : i.value = f.after.value :=
      (values fun h => h).elim (fun h => h.2.2) fun h => h.2.2
    have h : m.value = f.after.value := h
    exact Prod.ext (show i.command = f.after.command from congrArg Prod.fst hval)
      (show (m.seq, m.deps) = (f.after.seq, f.after.deps) from congrArg Prod.snd h)

theorem LeaderTracker.Follows.of_same {lt' : LeaderTracker} (h : lt.Follows f s k)
    (hr : lt'.recoveryStatus = lt.recoveryStatus) (hri : lt'.ri = lt.ri) : lt'.Follows f s k where
  untried := hr ▸ h.untried
  unreplied := hri ▸ h.unreplied
  values := by rw [hr, hri]; exact h.values
  voter := by rw [hr, hri]; exact h.voter

theorem AtFollower.recover (h : AtFollower f s k i) (hr : r.id ≠ i.key.replicaId)
    (hfirm : k = s.who → i.status.Firm) : AtFollower f s k (recoverInst r i) := by
  refine ⟨(by rintro ⟨⟩), h.values, ?_⟩
  rintro _ ⟨⟩
  have hri : (recoverTracker r i).ri.status = i.status
      ∧ (recoverTracker r i).ri.value = i.value ∧ (recoverTracker r i).ri.leaderReplied = 0 := by
    have hl : (i.lt.getD newTracker).ri.leaderReplied = 0 := by
      cases hlt : i.lt with
      | none => rfl
      | some lt => exact (h.tracker lt hlt).unreplied
    unfold recoverTracker
    split_ifs
    · exact ⟨rfl, rfl, hl⟩
    · exact ⟨rfl, rfl, rfl⟩
    · exact ⟨rfl, rfl, hl⟩
  refine ⟨?_, hri.2.2, fun _ hf => ?_, fun _ hk => ?_⟩
  · rw [recoverTracker_preparing]
    rintro ⟨⟩
  · rw [hri.2.1]
    exact h.values (hri.1 ▸ hf)
  · rw [hri.1]
    exact hfirm hk

/-- Another replica's copy after an event. -/
theorem follower_step (F : FastCommit T W f p s)
    (hg : Grown (fun older t => Happens T older t ∧ Record.Within T W older t) older)
    (ht : Happens T older ⟨k, ev, r, i, i', io.map (envelope k)⟩)
    (hw : Record.Within T W older ⟨k, ev, r, i, i', io.map (envelope k)⟩)
    (hid : i.key = f.after.key) (hk : k ≠ f.who)
    (hm : ∀ q ∈ older, ∀ m ∈ q.sent, m.id = f.after.key → m.Loyal f s)
    (hfirm : StaysFirm older k i) (hi : AtFollower f s k i) (ha : Act T r i ev i' io) :
    (i.status.Firm → i'.status.Firm) ∧ AtFollower f s k i'
      ∧ ∀ m ∈ io, (envelope k m).Loyal f s := by
  obtain ⟨newer, hW⟩ := hw.split
  have hkey : i'.key = f.after.key := ha.key.trans hid
  have hkN : k < N := ht.who_lt
  have hrid : r.id = k := ht.who_eq
  have hleads : i.key.replicaId = f.who := hid ▸ F.leads
  have hv : ∀ m, ev = .step m → m.Loyal f s ∧ m.sender < N := fun m hev => by
    obtain ⟨⟨q, hq, hqm⟩, -⟩ := ht.source m hev
    obtain ⟨_, _, -, -, hqh, -⟩ := hg.of_mem hq
    exact ⟨hm q hq m hqm ((ht.step_key hev).1.symm.trans hid), hqh.sender hqm ▸ hqh.who_lt⟩
  -- the vote comes before whatever has a ballot above the initial ones
  have late : isInitialBallot i'.ballot = false → k = s.who → i.status.Firm := by
    intro hb hks
    have hs := F.voter hW hks hkey hb
    exact hfirm s hs hks.symm (F.voted.1.trans hid.symm) (.inl F.voted.2)
  have keep : i'.status = i.status → i'.value = i.value →
      (i'.timer = some .fastPath → i.timer = some .fastPath) →
      (∀ lt', i'.lt = some lt' → ∃ lt, i.lt = some lt
        ∧ lt'.recoveryStatus = lt.recoveryStatus ∧ lt'.ri = lt.ri) →
      (i.status.Firm → i'.status.Firm) ∧ AtFollower f s k i' := by
    intro hs hval htm hlt
    refine ⟨fun h => hs ▸ h, fun h => hi.unarmed (htm h), fun h => hval.trans (hi.values (hs ▸ h)),
      fun lt' hlt' => ?_⟩
    obtain ⟨lt, hl, hr, hri⟩ := hlt lt' hlt'
    exact (hi.tracker lt hl).of_same hr hri
  -- nobody but the leader is given an answer to its `PRE_ACCEPT`
  have answered : ∀ m, ev = .step m → ¬ (m.type = .preAcceptOk ∨ m.type = .preAcceptReply) := by
    intro m hev hty
    have h := (hv m hev).1
    have hd : m.dest = k :=
      ht.dest hev (by rcases hty with hty | hty <;> simp [MessageType.Broadcast, hty])
    refine hk (hd.symm.trans ?_)
    rcases hty with hty | hty <;> rw [Message.Loyal, hty] at h <;> exact h.1
  -- a recovery adopts the values committed at the first answer
  have settled : ∀ m lt, ev = .step m → m.type = .prepareReply → i.lt = some lt →
      lt.recoveryStatus = .preparing → m.nack = 0 → ¬ m.Final →
      (tallyReply i lt.prepareOk m).ri.Acceptable ∧ (tallyReply i lt.prepareOk m).Follows f s k
        ∧ (tallyReply i lt.prepareOk m).ri.status.Firm
        ∧ (tallyReply i lt.prepareOk m).ri.value = f.after.value
        ∧ m.command = f.after.command := by
    intro m lt hev hty hlt hr hn hf
    obtain ⟨h, hsN⟩ := hv m hev
    rw [Message.Loyal, hty] at h
    obtain ⟨hval, hlead, hvote⟩ := h hn
    have hnl : m.sender ≠ f.who := fun h => hf (hlead h)
    have hfollows := hi.tracker lt hlt
    have hne : m.sender ≠ k := by
      have hnb : ¬ m.type.Broadcast := by simp [MessageType.Broadcast, hty]
      have := (hw.rooted.msg m hev).apart hnb
      rwa [ht.dest hev hnb] at this
    have hfm : lt.ri.status.Firm ∨ m.instanceStatus.Firm := by
      by_cases hks : k = s.who
      · exact .inl (hfollows.voter hr hks)
      · -- of three replicas the other one is the voter
        obtain ⟨h₁, h₂, h₃⟩ := F.who_lt
        refine .inr (hvote ?_)
        unfold N at *
        omega
    have hsettles : m.Settles i lt := by
      subst hev
      refine hw.preserves.2.2.2.2.settles hty hlt hr hn hf ?_ hfollows.unreplied
      rwa [← (ht.step_key rfl).1, hleads]
    obtain ⟨hacc, hrep, hwhich⟩ := hsettles.acceptable hf hfollows.unreplied
      (by rwa [← (ht.step_key hev).1, hleads]) hfm
    have hres : (tallyReply i lt.prepareOk m).ri.status.Firm
        ∧ (tallyReply i lt.prepareOk m).ri.value = f.after.value
        ∧ m.command = f.after.command := by
      rcases hwhich with ⟨hfs, hs, hq⟩ | ⟨hfs, hs, hq, hcm⟩
      · rw [hs, hq]
        exact ⟨hfs, hval hfs, congrArg Prod.fst (hval hfs)⟩
      · have hrv := hfollows.values hr hfs
        rw [hs, hq, hcm]
        exact ⟨hfs, hrv, congrArg Prod.fst hrv⟩
    refine ⟨hacc, ⟨?_, hrep, fun _ _ => hres.2.1, fun _ _ => hres.1⟩, hres⟩
    have : (tallyReply i lt.prepareOk m).recoveryStatus = .preparing :=
      (tally_recoveryStatus _ _ _).trans hr
    rw [this]
    rintro ⟨⟩
  cases ha with
  | propose | checkpoint =>
    exact absurd ((ht.assigns_before trivial).2.symm.trans hleads) hk
  | slowTimeout htm =>
    have hb := largerBallot_not_initial (hrid ▸ hkN) (hw.preserves.1 htm)
    refine ⟨fun h => h, hi.recover (by rw [hrid, hleads]; exact hk) (late hb), ?_⟩
    exact List.forall_mem_singleton.2 trivial
  | fastTimeout htm => exact absurd htm hi.unarmed
  | @execute id h =>
    obtain ⟨q, hq, hqw, hqk, hqs⟩ := hw.handed id h
    have hik : i.key = id := (ht.found id i ht.located).key
    have hfs : i.status.Firm := hfirm q hq hqw (hqk.trans hik.symm) (.inr (.inr (.inl hqs)))
    exact ⟨fun _ => .inr (.inr (.inr rfl)), ⟨hi.unarmed, fun _ => hi.values hfs, hi.tracker⟩,
      by simp⟩
  | ignore =>
    obtain ⟨hf, hl⟩ := keep rfl rfl (fun h => h) fun lt hlt => ⟨lt, hlt, rfl, rfl⟩
    exact ⟨hf, hl, by simp⟩
  | @preAcceptNack m hty =>
    obtain ⟨hf, hl⟩ := keep rfl rfl (fun h => h) fun lt hlt => ⟨lt, hlt, rfl, rfl⟩
    have h := (hv m rfl).1
    rw [Message.Loyal, hty] at h
    exact ⟨hf, hl, List.forall_mem_singleton.2 ⟨h.2.1, fun hn => absurd hn (by simp [envelope])⟩⟩
  | @preAcceptReply m q hty hst hb hq =>
    have h := (hv m rfl).1
    rw [Message.Loyal, hty] at h
    obtain ⟨hib, hsender, hval⟩ := h
    have hun := hw.preserves.2.2.2.2.scanned hty hib hb hst
    have hd : m.deps = .zero := (congrArg (fun v : Value => v.2.2) hval).trans F.zero
    have hlow : ¬ i.status.Firm := fun h => hst.elim h.not_none.2 h.not_none.1
    refine ⟨fun h => absurd h hlow, ⟨hi.unarmed, fun hf => ?_, hi.tracker⟩,
      List.forall_mem_singleton.2 ⟨hsender, fun _ _ hz => ?_⟩⟩
    · have hu : q.2.2.updated = 0 := by
        by_contra hu
        refine hf.not_none.2 ?_
        simp [preAcceptInst, hu]
      exact (hun.value hq hu hd).2.trans hval
    · exact (hun.value hq (sdForCommand_zero hq hz) hd).2.trans hval
  | @preAcceptOk m q hty hst hb hq hseq hu =>
    have h := (hv m rfl).1
    rw [Message.Loyal, hty] at h
    obtain ⟨hib, hsender, hval⟩ := h
    have hd : m.deps = .zero := (congrArg (fun v : Value => v.2.2) hval).trans F.zero
    obtain ⟨hcm, hstored⟩ :=
      (hw.preserves.2.2.2.2.scanned hty hib hb hst).value hq hu hd
    have hlow : ¬ i.status.Firm := fun h => hst.elim h.not_none.2 h.not_none.1
    refine ⟨fun h => absurd h hlow, ⟨hi.unarmed, fun _ => hstored.trans hval, hi.tracker⟩,
      List.forall_mem_singleton.2 ⟨hsender, ?_⟩⟩
    exact (Prod.ext hcm rfl : ((q.2.1, m.seq, m.deps) : Value) = m.value).trans hval
  | okCommit hty | okAccept hty | okCount hty => exact absurd (.inl hty) (answered _ rfl)
  | replyCommit hty | replyAccept hty | replyCount hty =>
    exact absurd (.inr hty) (answered _ rfl)
  | nackCount hty hlt =>
    obtain ⟨hf, hl⟩ := keep rfl rfl (fun h => h) (by
      rintro _ ⟨⟩
      exact ⟨_, hlt, rfl, rfl⟩)
    exact ⟨hf, hl, by simp⟩
  | @nackRecover m lt hty hlt hb hn =>
    have hbn := largerBallot_not_initial (hrid ▸ hkN) (hw.preserves.1.nacked hty hlt hb hn)
    have hi' : AtFollower f s k { i with lt := some (lt.nack m) } := by
      refine ⟨hi.unarmed, hi.values, ?_⟩
      rintro _ ⟨⟩
      exact (hi.tracker lt hlt).of_same rfl rfl
    refine ⟨fun h => h, hi'.recover (by rw [hrid, hleads]; exact hk) (late hbn), ?_⟩
    exact List.forall_mem_singleton.2 trivial
  | acceptNack | prepareNack =>
    obtain ⟨hf, hl⟩ := keep rfl rfl (fun h => h) fun lt hlt => ⟨lt, hlt, rfl, rfl⟩
    exact ⟨hf, hl, List.forall_mem_singleton.2 fun h => absurd h (by simp [envelope])⟩
  | @acceptStore m hty hd hb =>
    have h := (hv m rfl).1
    rw [Message.Loyal, hty] at h
    have hval : m.value = f.after.value := h
    have hcm := hw.preserves.2.2.2.2.accepted hty hd hb
    refine ⟨fun _ => .inr (.inl rfl), ⟨hi.unarmed, fun _ => ?_, hi.tracker⟩,
      List.forall_mem_singleton.2 fun _ => hval⟩
    exact (Prod.ext hcm.symm rfl : ((i.command, m.seq, m.deps) : Value) = m.value).trans hval
  | @acceptedCommit m lt c hty hlt hst hb hn =>
    have h := (hv m rfl).1
    rw [Message.Loyal, hty] at h
    refine ⟨fun _ => .inr (.inr (.inl rfl)),
      ⟨(by rintro ⟨⟩), fun _ => hi.values (.inr (.inl hst)), ?_⟩,
      List.forall_mem_singleton.2 (h hn)⟩
    rintro _ ⟨⟩
    exact (hi.tracker lt hlt).of_same rfl rfl
  | acceptedCount hty hlt | preparedNack hty hlt =>
    obtain ⟨hf, hl⟩ := keep rfl rfl (fun h => h) (by
      rintro _ ⟨⟩
      exact ⟨_, hlt, rfl, rfl⟩)
    exact ⟨hf, hl, by simp⟩
  | @preparePromise m hty hb =>
    obtain ⟨hf, hl⟩ := keep rfl rfl (fun h => h) fun lt hlt => ⟨lt, hlt, rfl, rfl⟩
    refine ⟨hf, hl, List.forall_mem_singleton.2 fun _ => ⟨hi.values, fun h => absurd h hk, ?_⟩⟩
    exact late ((hw.rooted.msg m rfl).above (.inl hty))
  | @preparedCommit m lt c hty hlt hr hn hfin =>
    have h := (hv m rfl).1
    rw [Message.Loyal, hty] at h
    have hval := (h hn).1 (.inr (.inr hfin))
    refine ⟨fun _ => .inr (.inr (.inl rfl)), ⟨(by rintro ⟨⟩), fun _ => hval, ?_⟩,
      List.forall_mem_singleton.2 hval⟩
    rintro _ ⟨⟩
    exact (hi.tracker lt hlt).of_same rfl rfl
  | @preparedCount m lt hty hlt hr hn hfin =>
    obtain ⟨-, hfollows, -⟩ := settled m lt rfl hty hlt hr hn hfin
    refine ⟨fun h => h, ⟨hi.unarmed, hi.values, ?_⟩, by simp⟩
    rintro _ ⟨⟩
    exact hfollows
  | @preparedNoop m lt lt' hty hlt hr hn hfin hlt' hs =>
    subst hlt'
    obtain ⟨-, -, hf, -⟩ := settled m lt rfl hty hlt hr hn hfin
    exact absurd hs hf.not_none.1
  | @preparedAdopt m lt lt' hty hlt hr hn hfin hlt' =>
    subst hlt'
    obtain ⟨-, hfollows, hf, hval, hcm⟩ := settled m lt rfl hty hlt hr hn hfin
    refine ⟨fun _ => .inr (.inl rfl), ⟨hi.unarmed, fun _ => hval, ?_⟩,
      List.forall_mem_singleton.2 ?_⟩
    · rintro _ ⟨⟩
      exact ⟨(by rintro ⟨⟩), hfollows.unreplied, (by rintro ⟨⟩), (by rintro ⟨⟩)⟩
    · have hsd := congrArg Prod.snd hval
      exact (Prod.ext hcm hsd : ((m.command, (tallyReply i lt.prepareOk m).ri.seq,
        (tallyReply i lt.prepareOk m).ri.deps) : Value) = f.after.value)
  | @preparedRestart m lt lt' lt'' c q hty hlt hr hn hfin hlt' hs hna
  | @preparedTryOwn m lt lt' c hty hlt hr hn hfin hlt' hs hna
  | @preparedTry m lt lt' c hty hlt hr hn hfin hlt' hs hna =>
    subst hlt'
    exact absurd (settled m lt rfl hty hlt hr hn hfin).1 hna
  | tryNack hty | tryStore hty =>
    have h := (hv _ rfl).1
    rw [Message.Loyal, hty] at h
    exact h.elim
  | triedRaise hty hlt hr | triedPrepare hty hlt hr | triedDefer hty hlt hr
  | triedRestart hty hlt hr | triedRestartTwice hty hlt hr | triedAccept hty hlt hr
  | triedCount hty hlt hr => exact absurd hr (hi.tracker _ hlt).untried
  | @commit m hty =>
    have h := (hv m rfl).1
    rw [Message.Loyal, hty] at h
    have hval : m.value = f.after.value := h
    have hcm := hw.preserves.2.2.2.2.committed hty
    refine ⟨fun _ => .inr (.inr (.inl rfl)), ⟨(by rintro ⟨⟩), fun _ => ?_, hi.tracker⟩, by simp⟩
    exact (Prod.ext hcm.symm rfl : ((i.command, m.seq, m.deps) : Value) = m.value).trans hval

end Step

section Run

variable {T : RangeTree} {W older : List Record} {f p s t : Record} {r : Replica} {i i' : Instance}
  {ev : Event} {io : List Message}

/-- An instance is proposed at an initial ballot. -/
theorem Happens.assigns_initial (h : Happens T older t) (ho : t.event.Assigns)
    (hl : Licensed t.who t.before t.event) :
    t.after.status = .preAccepted ∧ isInitialBallot t.after.ballot = true := by
  obtain ⟨io, ha, -⟩ := h.acts
  have hb := (h.assigns_before ho).1
  cases hev : t.event with
  | propose m =>
    rw [hev] at ha hl
    generalize t.after = x at ha ⊢
    cases ha with
    | propose => exact ⟨rfl, hl⟩
  | checkpoint m =>
    rw [hev] at ha
    generalize t.after = x at ha ⊢
    cases ha with
    | checkpoint =>
      rw [hb]
      exact ⟨rfl, (by decide : isInitialBallot 0 = true)⟩
  | _ =>
    rw [hev] at ho
    exact ho.elim

/-- What gives a positive answer to a `PRE_ACCEPT` has stored what its scan has found. -/
theorem Act.answered (h : Act T r i ev i' io) : ∀ m ∈ io,
    m.type = .preAcceptOk ∨ (m.type = .preAcceptReply ∧ m.nack = 0) →
      ∃ m' q, ev = .step m' ∧ i' = preAcceptInst i m' q ∧ m.ballot = m'.ballot
        ∧ sdForCommand T (r.put i) m'.command (some i.key) ⟨0, i.deps⟩ = some q
        ∧ ((m.type = .preAcceptOk ∧ q.2.2.updated = 0 ∧ isInitialBallot m.ballot = true)
          ∨ (m.type = .preAcceptReply ∧ m.deps = q.2.2.deps)) := by
  cases h with
  | @preAcceptReply m q _ _ _ hq =>
    exact List.forall_mem_singleton.2 fun _ => ⟨m, q, rfl, rfl, rfl, hq, .inr ⟨rfl, rfl⟩⟩
  | @preAcceptOk m q _ _ _ hq _ hu _ hib =>
    exact List.forall_mem_singleton.2 fun _ => ⟨m, q, rfl, rfl, rfl, hq, .inl ⟨rfl, hu, hib⟩⟩
  | triedRestartTwice =>
    simp only [List.forall_mem_cons, List.not_mem_nil, false_imp_iff, implies_true, and_true]
    constructor <;> rintro (h | ⟨h, -⟩) <;> cases h
  | execute | ignore | okCount | nackCount | replyCount | acceptedCount | preparedNack
  | preparedCount | triedDefer | triedCount | commit => simp
  | preAcceptNack =>
    refine List.forall_mem_singleton.2 ?_
    rintro (h | ⟨-, h⟩) <;> cases h
  | _ =>
    refine List.forall_mem_singleton.2 ?_
    rintro (h | ⟨h, -⟩) <;> cases h

/-- The log of a run of preserving events. -/
theorem Run.within {w : World} (h : Run T w) (hc : ∀ t ∈ w.log, t.Preserves T) :
    Grown (fun older t => Happens T older t ∧ Record.Within T w.log older t) w.log := by
  have hg := grown_rooted (C := fun older t => t.Preserves T ∧ ∀ id ∈ t.pre.handed,
    ∃ p ∈ older, p.who = t.who ∧ p.after.key = id ∧ p.after.status = .committed)
    (fun h => h.1.1) (((h.grown.1.and hc).both h.grown_handed).imp
      fun _ _ h => ⟨h.1.1, h.1.2, h.2⟩)
  exact hg.split.imp fun _ _ h => ⟨h.1.1, h.1.2.1.1, h.1.2.2, h.1.2.1.2, h.2⟩

/-- A record that leaves an initial ballot comes before every record of the copy that leaves a
higher one. -/
theorem before_above
    (hg : Grown (fun older t => Happens T older t ∧ Record.Within T W older t) W) {u : Record}
    (hu : u ∈ W) (hb : isInitialBallot u.after.ballot = true)
    {newer : List Record} (hW : W = newer ++ t :: older) (hw : t.who = u.who)
    (hk : t.after.key = u.after.key) (ht : isInitialBallot t.after.ballot = false) : u ∈ older := by
  have hC : ∀ {older t}, Record.Within T W older t → Unwrapped t.before t.event
      ∧ Licensed t.who t.before t.event ∧ t.Fresh := fun h =>
    ⟨h.preserves.1, h.preserves.2.1, h.preserves.2.2.2.1⟩
  rcases comparable hW hu with ⟨xs, ys, hxs, hty⟩ | rfl | hu
  · obtain ⟨hgu, hhu, hwu⟩ := hg.cut hxs
    have hle := hhu.ballot_older hC hgu (hC hwu).2.2 hty hw (hk.trans hhu.key)
    have hle' := hhu.ballot_le (hC hwu).1 (hC hwu).2.1
    rw [initial_of_le (hle.trans hle') hb] at ht
    cases ht
  · rw [hb] at ht
    cases ht
  · exact hu

/-- How a fast-path commit of the log came about. -/
theorem exists_fastCommit
    (hg : Grown (fun older t => Happens T older t ∧ Record.Within T W older t) W)
    (hf : f ∈ W) (hfast : f.FastCommits) : ∃ p s, FastCommit T W f p s := by
  have hU : ∀ {older t}, Record.Within T W older t → Unwrapped t.before t.event := fun h =>
    h.preserves.1
  -- each time the record is in the log, it commits on the answer it counts first
  have answers : ∀ {xs ys}, W = xs ++ f :: ys → ∃ m lt, FastAnswer ys f m lt := by
    intro xs ys hW
    obtain ⟨hgy, hh, hw⟩ := hg.cut hW
    exact fast_answer hU hgy hh hw.preserves.2.2.1 hfast
  obtain ⟨xs, ys, hW⟩ := List.append_of_mem hf
  obtain ⟨hgy, hh, hw⟩ := hg.cut hW
  obtain ⟨m, lt, ha⟩ := answers hW
  obtain ⟨p, hp, hpw, hpo, hpk, hps, hpd, hpc, hsent⟩ := ha.proposal
  obtain ⟨lt', -, hafter⟩ := ha.after
  obtain ⟨⟨s, hs, hsm⟩, -⟩ := hh.source m ha.event
  obtain ⟨_, _, -, -, hph, hpwi⟩ := hgy.of_mem hp
  obtain ⟨_, _, -, -, hsh, hswi⟩ := hgy.of_mem hs
  have hmem : ∀ {u}, u ∈ ys → u ∈ W := fun hu =>
    hW ▸ List.mem_append_right _ (List.mem_cons_of_mem _ hu)
  have hval : f.after.value = f.before.value := by rw [hafter]; rfl
  have hpk' : p.after.key = f.after.key := hpk.trans hh.key.symm
  have hbf : isInitialBallot f.after.ballot = true := by
    rw [hafter]
    exact ha.start.2.2
  obtain ⟨hpst, hpb⟩ := hph.assigns_initial hpo hpwi.preserves.2.1
  have hsk : s.after.key = f.after.key := by
    rw [hsh.key, ← hsh.sent_id hsm, ← (hh.step_key ha.event).1, hh.key]
  -- the voter has found nothing
  obtain ⟨io, hact, hio⟩ := hsh.acts
  rw [hio] at hsm
  obtain ⟨a, haio, rfl⟩ := List.mem_map.1 hsm
  obtain ⟨m', q, -, hinst, hmb, hq, hcase⟩ := hact.answered a haio
    (ha.answers.imp_right fun h => ⟨h.1, h.2.1⟩)
  have hu : q.2.2.updated = 0 := by
    rcases hcase with ⟨-, hu, -⟩ | ⟨-, hd⟩
    · exact hu
    · exact sdForCommand_zero hq (hd.symm.trans ha.deps)
  have hsb : isInitialBallot s.after.ballot = true := by
    rw [hinst]
    show isInitialBallot m'.ballot = true
    rw [← hmb]
    rcases ha.answers with hty | ⟨-, -, hb⟩
    · rcases hcase with ⟨-, -, hib⟩ | ⟨hty', -⟩
      · exact hib
      · exact absurd (hty'.symm.trans hty) (by rintro ⟨⟩)
    · exact (congrArg isInitialBallot hb).symm.trans ha.start.2.2
  have hne : s.who ≠ f.who := by
    have h := (hw.rooted.msg _ ha.event).apart ha.unanswered
    rwa [hh.dest ha.event ha.unanswered] at h
  have hopens : ∀ {newer older t}, W = newer ++ t :: older → t.who = f.who →
      t.after.key = f.after.key → t = p ∨ (p ∈ older ∧ ¬ t.event.Assigns) := by
    intro newer older t ht htw htk
    obtain ⟨hgt, hht, -⟩ := hg.cut ht
    have h₀ : f.after.key.instanceId ≠ 0 := hh.key ▸ ha.start.1
    rcases comparable ht (hmem hp) with ⟨us, vs, hu, htv⟩ | rfl | hpo'
    · obtain ⟨hgp, hhp, -⟩ := hg.cut hu
      exact absurd ⟨htw.trans hpw.symm, htk.trans hpk'.symm⟩
        (fresh_id (hgp.imp fun _ _ h => h.1) hhp hpo (hpk' ▸ h₀) t htv)
    · exact .inl rfl
    · refine .inr ⟨hpo', fun hto => ?_⟩
      exact fresh_id (hgt.imp fun _ _ h => h.1) hht hto (htk ▸ h₀) p hpo'
        ⟨hpw.trans htw.symm, hpk'.trans htk.symm⟩
  have hfirst : ∀ {newer older t}, W = newer ++ t :: older → t.who = f.who →
      t.after.key = f.after.key → ∀ m, t.Counts m → t = f ∨ f ∈ older := by
    intro newer older t ht htw htk m hm
    rcases comparable ht hf with ⟨us, vs, hu, htv⟩ | rfl | hfo
    · obtain ⟨m', lt', ha'⟩ := answers hu
      exact absurd hm (ha'.opening.first t htv htw (htk.trans hh.key) m)
    · exact .inl rfl
    · exact .inr hfo
  exact ⟨p, s,
    { leads := by rw [← hpk', hph.key, (hph.assigns_before hpo).2, hpw]
      who_lt := ⟨hh.who_lt, hsh.who_lt, hne⟩
      committed := by rw [hafter]
      zero := by rw [hafter]; exact ha.zero
      answer := ⟨_, ha.event, by rw [hafter]; exact ha.seq, ha.deps⟩
      opened := ⟨hpo, hpw, hpk'⟩
      proposed := ⟨hpst, hpb, hval ▸ Prod.ext hpc (Prod.ext hps hpd), fun a ha =>
        hval ▸ Prod.ext (hsent a ha).2.2 (Prod.ext (hsent a ha).2.1 (hsent a ha).1)⟩
      voted := ⟨hsk, by rw [hinst]; simp [preAcceptInst, hu]⟩
      opens := hopens
      first := hfirst
      leader := fun ht htw htk hb => before_above hg hf hbf ht htw htk hb
      voter := fun ht htw htk hb => before_above hg (hmem hs) hsb ht htw (htk.trans hsk.symm) hb }⟩

/-- The copies and the messages of an instance committed on the fast path. -/
theorem grown_loyal (hg : Grown (fun older t => Happens T older t ∧ Record.Within T W older t) W)
    (F : FastCommit T W f p s) {log : List Record} (hlog : ∃ newer, W = newer ++ log) :
    (∀ k id i, Last log k id i → i.key = f.after.key → StaysFirm log k i
        ∧ (k = f.who → AtLeader f log i) ∧ (k ≠ f.who → AtFollower f s k i))
      ∧ ∀ q ∈ log, ∀ m ∈ q.sent, m.id = f.after.key → m.Loyal f s := by
  obtain ⟨newer, hW⟩ := hlog
  have hgl := hg.upto hW
  refine run_rule (C := fun older t => Record.Within T W older t)
    (I := fun log k i => i.key = f.after.key → StaysFirm log k i
      ∧ (k = f.who → AtLeader f log i) ∧ (k ≠ f.who → AtFollower f s k i))
    (M := fun _ m => m.id = f.after.key → m.Loyal f s) ?_ (fun h => h) ?_ ?_ hgl
  · intro older t k i _ hi hne hid
    obtain ⟨hfirm, hl, hfo⟩ := hi hid
    refine ⟨List.forall_mem_cons.2 ⟨fun hw hk => absurd ⟨hw, hk⟩ hne, hfirm⟩, fun hk => ?_, hfo⟩
    obtain ⟨hcalm, hval⟩ := hl hk
    exact ⟨hcalm, hval.imp_left fun h => List.forall_mem_cons.2 ⟨hk ▸ hne, h⟩⟩
  · intro older t _ ht hw hmade hb hid
    have hnone := ht.fresh hw.preserves.2.2.2.1 hmade
    have hlt : ∀ lt, t.before.lt = some lt → lt = newTracker := by
      intro lt hlt
      rcases hb with hb | hb <;> rw [hb] at hlt <;> cases hlt
      rfl
    have hst : ¬ t.before.status.Firm := by
      intro hf
      rcases hb with hb | hb <;> rw [hb] at hf <;> exact hf.not_none.1 rfl
    refine ⟨fun q hq hw hk => absurd hk (hnone q hq hw), fun hk => ⟨fun lt h => ?_, .inl ?_⟩,
      fun _ => ⟨?_, fun h => absurd h hst, fun lt h => ?_⟩⟩
    · rw [hlt lt h]
      rfl
    · rintro q hq ⟨hqw, hqk⟩
      exact hnone q hq (hqw.trans hk.symm) hqk
    · rcases hb with hb | hb <;> rw [hb] <;> rintro ⟨⟩
    · rw [hlt lt h]
      exact ⟨(by rintro ⟨⟩), rfl, (by rintro ⟨⟩), (by rintro ⟨⟩)⟩
  · intro older k ev r i i' io hgo ht hw _ hm hi ha
    -- a message the event sends is about the copy it has changed
    have hsent : ∀ m ∈ io, (envelope k m).id = f.after.key → i.key = f.after.key := by
      intro m hmem hid
      rw [← ha.sent_id (fun m hm => (ht.step_key hm).1) m hmem]
      exact hid
    have stays : StaysFirm older k i → (i.status.Firm → i'.status.Firm) →
        StaysFirm (⟨k, ev, r, i, i', io.map (envelope k)⟩ :: older) k i' := by
      intro hfirm hs
      exact List.forall_mem_cons.2 ⟨fun _ _ h => h,
        fun q hq hw hk h => hs (hfirm q hq hw (hk.trans ha.key) h)⟩
    by_cases hk : k = f.who
    · subst hk
      refine ⟨fun hid => ?_, fun m hmem hid => ?_⟩
      · obtain ⟨hfirm, hl, -⟩ := hi (ha.key.symm.trans hid)
        obtain ⟨hs, hl', -⟩ :=
          leader_step F ht hw (ha.key.symm.trans hid) hm hfirm (hl rfl) ha
        exact ⟨stays hfirm hs, fun _ => hl', fun h => absurd rfl h⟩
      · obtain ⟨hfirm, hl, -⟩ := hi (hsent m hmem hid)
        exact (leader_step F ht hw (hsent m hmem hid) hm hfirm (hl rfl) ha).2.2 m hmem
    · refine ⟨fun hid => ?_, fun m hmem hid => ?_⟩
      · obtain ⟨hfirm, -, hfo⟩ := hi (ha.key.symm.trans hid)
        obtain ⟨hs, hfo', -⟩ :=
          follower_step F hgo ht hw (ha.key.symm.trans hid) hk hm hfirm (hfo hk) ha
        exact ⟨stays hfirm hs, fun h => absurd h hk, fun _ => hfo'⟩
      · obtain ⟨hfirm, -, hfo⟩ := hi (hsent m hmem hid)
        exact (follower_step F hgo ht hw (hsent m hmem hid) hk hm hfirm (hfo hk) ha).2.2 m hmem

/-- The copies of such an instance that are accepted or committed have the values committed. -/
theorem fast_commit_value
    (hg : Grown (fun older t => Happens T older t ∧ Record.Within T W older t) W) (hf : f ∈ W)
    (hfast : f.FastCommits) (ht : t ∈ W) (hk : t.after.key = f.after.key)
    (hs : t.after.status = .accepted ∨ t.after.status = .committed) :
    t.after.value = f.after.value := by
  obtain ⟨p, s, F⟩ := exists_fastCommit hg hf hfast
  obtain ⟨newer, older, hW⟩ := List.append_of_mem ht
  have hlast := last_self older t
  obtain ⟨-, hl, hfo⟩ := (grown_loyal hg F ⟨newer, hW⟩).1 _ _ _ hlast hk
  have hfirm : t.after.status.Firm := by
    rcases hs with hs | hs
    · exact .inr (.inl hs)
    · exact .inr (.inr (.inl hs))
  by_cases hw : t.who = f.who
  · rcases (hl hw).values with hn | ⟨hp, -⟩ | ⟨-, -, hv⟩
    · exact absurd ⟨hw, rfl⟩ (hn t List.mem_cons_self)
    · exact absurd hp hfirm.not_none.2
    · exact hv
  · exact (hfo hw).values hfirm

/-- An instance committed on the fast path is accepted and committed, by a recovery too, with the
command, the seq and the dependencies of that commit alone. -/
theorem fast_commit_kept {T : RangeTree} {w : World} (h : Run T w)
    (hc : ∀ t ∈ w.log, t.Preserves T) {f : Record} (hf : f ∈ w.log) (hfast : f.FastCommits)
    {t : Record} (ht : t ∈ w.log) (hk : t.after.key = f.after.key)
    (hs : t.after.status = .accepted ∨ t.after.status = .committed) : t.after.Agrees f.after :=
  Instance.agrees_of_value (fast_commit_value (h.within hc) hf hfast ht hk hs)

/-- Replica 2 has voted as replica 1 has, on whose vote the leader commits, and recovers. -/
def keptCommit : List Move :=
  fastCommit ++ [deliverAt 2 .preAccept ⟨0, 1⟩, timeoutAt 2 ⟨0, 1⟩, deliverAt 1 .prepare ⟨0, 1⟩,
    deliverAt 2 .prepareReply ⟨0, 1⟩, deliverAt 1 .accept ⟨0, 1⟩, deliverAt 2 .acceptReply ⟨0, 1⟩]

theorem fast_commit_kept_keptCommit : ∃ w, Run listTree w ∧ ∃ f ∈ w.log, f.FastCommits
    ∧ ∃ t ∈ w.log, t.who ≠ f.who ∧ t.after.key = f.after.key ∧ t.after.status = .committed
      ∧ t.after.Agrees f.after := by
  obtain ⟨w, hr, hc, f, hf, hfast, t, ht, hw, hk, hs⟩ := @exists_run keptCommit
    (fun w => (∀ t ∈ w.log, t.Preserves listTree) ∧ ∃ f ∈ w.log, f.FastCommits
      ∧ ∃ t ∈ w.log, t.who ≠ f.who ∧ t.after.key = f.after.key ∧ t.after.status = .committed)
    _ (by decide +kernel)
  exact ⟨w, hr, f, hf, hfast, t, ht, hw, hk, hs, fast_commit_kept hr hc hf hfast ht hk (.inr hs)⟩

/-- Replica 1 recovers, whose vote the leader has committed on, and starts over from what it has
heard of since. -/
def ownVote : List Move :=
  fastCommit ++ [proposeAt 1 [49, 48] [50, 48], timeoutAt 1 ⟨0, 1⟩, deliverAt 2 .prepare ⟨0, 1⟩,
    deliverAt 1 .prepareReply ⟨0, 1⟩, deliverAt 2 .preAccept ⟨0, 1⟩,
    deliverAt 1 .preAcceptReply ⟨0, 1⟩]

theorem ownVote_lost : ¬ ∀ w, Run listTree w → ∀ f ∈ w.log, f.FastCommits →
    ∀ u ∈ w.log, (∃ lt ∈ u.after.lt, lt.recoveryStatus = .preparing) →
      u.after.key = f.after.key → ∀ t ∈ w.log, t.who = u.who → t.after.key = f.after.key →
        (t.after.status = .accepted ∨ t.after.status = .committed) → t.after.Agrees f.after := by
  intro h
  obtain ⟨w, hr, f, hf, hfast, u, hu, hp, huk, t, ht, hw, hk, hs, hne⟩ := @exists_run ownVote
    (fun w => ∃ f ∈ w.log, f.FastCommits
      ∧ ∃ u ∈ w.log, (∃ lt ∈ u.after.lt, lt.recoveryStatus = .preparing)
        ∧ u.after.key = f.after.key ∧ ∃ t ∈ w.log, t.who = u.who ∧ t.after.key = f.after.key
          ∧ t.after.status = .accepted ∧ t.after.seq ≠ f.after.seq) _ (by decide +kernel)
  exact hne (h w hr f hf hfast u hu hp huk t ht hw hk (.inl hs)).2.1

end Run

end Epx
