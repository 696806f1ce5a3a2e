import Epx.Proofs.Deps
import Epx.Proofs.Schedules

/-!
# What a proposal says of its sender

The handlers send the message they were given on, with some of its fields overwritten. `Matching`
lists, for each of them, when the fields left over are those of the instance; while it holds of
every event, every `ACCEPT`, `TRY_PRE_ACCEPT` and `COMMIT` carries the instance it is sent for.
-/

namespace Epx

open Log

/-- The message has the command, seq, ballot and dependency list of the instance. -/
def Message.Carries (m : Message) (i : Instance) : Prop :=
  m.command = i.command ∧ m.seq = i.seq ∧ m.ballot = i.ballot ∧ m.deps = i.deps

instance (m : Message) (i : Instance) : Decidable (m.Carries i) :=
  inferInstanceAs (Decidable (_ ∧ _))

/-- Every proposal and `COMMIT` the record sends carries the instance it leaves, which has the
status the message tells of. -/
def Record.Faithful (t : Record) : Prop :=
  ∀ m ∈ t.sent,
    (m.type = .accept ∨ m.type = .tryPreAccept ∨ m.type = .commit → m.Carries t.after)
      ∧ (m.type = .accept → t.after.status = .accepted)
      ∧ (m.type = .commit → t.after.status = .committed)

instance (t : Record) : Decidable t.Faithful := by
  unfold Record.Faithful
  infer_instance

/-- The fields of the message that the handler leaves in what it sends are those of the instance,
and a fast-path timer goes off on an accepted instance only. -/
def Matching (i : Instance) : Event → Prop
  | .timeout _ _ => i.timer = some .fastPath → i.status = .accepted
  | .step m =>
    match m.type, i.lt with
    | .preAcceptOk, some _ =>
      i.status = .preAccepted ∧ isInitialBallot i.ballot = true → m.Carries i
    | .preAcceptReply, some _ =>
      i.status = .preAccepted ∧ i.ballot = m.ballot ∧ m.nack = 0 →
        m.command = i.command ∧ i.seq ≤ m.seq ∧ Within i.deps.entries m.deps.entries
    | .acceptReply, some _ =>
      i.status = .accepted ∧ i.ballot = m.ballot ∧ m.nack = 0 →
        m.command = i.command ∧ m.seq = i.seq ∧ m.deps = i.deps
    | .prepareReply, some lt =>
      lt.recoveryStatus = .preparing ∧ m.nack = 0 ∧ ¬ m.Final ∧ ¬ m.Taken lt →
        (lt.ri.status = .none → i.command = none ∧ m.seq = i.seq)
          ∧ (lt.ri.status = .accepted ∨ lt.ri.status = .preAcceptedEq →
            m.command = lt.ri.command)
    | .tryPreAcceptReply, some lt =>
      lt.recoveryStatus = .tryPreAccepting ∧ lt.ri.status ≠ .none →
        (m.nack = 0 → m.ballot = i.ballot)
          ∧ (m.nack ≠ 0 ∧ i.ballot < m.ballot →
            m.command = i.command ∧ m.seq = i.seq ∧ m.deps = i.deps)
    | _, _ => True
  | _ => True

instance (i : Instance) (ev : Event) : Decidable (Matching i ev) := by
  unfold Matching
  exact match ev with
  | .propose _ | .checkpoint _ | .timeout _ _ | .execute _ => inferInstance
  | .step m => by
    dsimp only
    exact match m.type, i.lt with
    | .preAcceptOk, none | .preAcceptOk, some _ | .preAcceptReply, none | .preAcceptReply, some _
    | .acceptReply, none | .acceptReply, some _ | .prepareReply, none | .prepareReply, some _
    | .tryPreAcceptReply, none | .tryPreAcceptReply, some _ => inferInstance
    | .phase1, _ | .preAccept, _ | .accept, _ | .commit, _ | .prepare, _ | .tryPreAccept, _
    | .execute, _ => inferInstance

section Step

variable {i : Instance} {m : Message} {lt : LeaderTracker}

theorem Matching.ok (h : Matching i (.step m)) (ht : m.type = .preAcceptOk) (hlt : i.lt = some lt)
    (hst : i.status = .preAccepted) (hib : isInitialBallot i.ballot = true) : m.Carries i := by
  simp only [Matching, ht, hlt] at h
  exact h ⟨hst, hib⟩

theorem Matching.reply (h : Matching i (.step m)) (ht : m.type = .preAcceptReply)
    (hlt : i.lt = some lt) (hst : i.status = .preAccepted) (hb : i.ballot = m.ballot)
    (hm : m.nack = 0) : m.Carries (mergeReply i m lt) := by
  simp only [Matching, ht, hlt] at h
  obtain ⟨h₁, h₂, h₃⟩ := h ⟨hst, hb, hm⟩
  exact ⟨h₁, (max_eq_right h₂).symm, hb.symm, (Deps.merge_eq h₃).symm⟩

theorem Matching.accepted (h : Matching i (.step m)) (ht : m.type = .acceptReply)
    (hlt : i.lt = some lt) (hst : i.status = .accepted) (hb : i.ballot = m.ballot)
    (hm : m.nack = 0) : m.Carries i := by
  simp only [Matching, ht, hlt] at h
  obtain ⟨h₁, h₂, h₃⟩ := h ⟨hst, hb, hm⟩
  exact ⟨h₁, h₂, hb.symm, h₃⟩

/-- The record a reply leaves has the command of the reply where it can be adopted. -/
theorem Matching.adopt (h : Matching i (.step m)) (ht : m.type = .prepareReply)
    (hlt : i.lt = some lt) (hr : lt.recoveryStatus = .preparing) (hn : m.nack = 0)
    (hf : ¬ m.Final) (ha : (tallyReply i lt.prepareOk m).ri.Acceptable) :
    m.command = (tallyReply i lt.prepareOk m).ri.command := by
  simp only [Matching, ht, hlt] at h
  rcases tally_cases i lt.prepareOk m with ⟨-, b, l, he, -⟩ | ⟨hk, c, l, he, -⟩
  · rw [he]
  · rw [he] at ha ⊢
    have hs : lt.ri.status = .accepted ∨ lt.ri.status = .preAcceptedEq :=
      ha.imp id fun ha => ha.2.2
    exact (h ⟨hr, hn, hf, hk⟩).2 hs

theorem Matching.noop (h : Matching i (.step m)) (ht : m.type = .prepareReply)
    (hlt : i.lt = some lt) (hr : lt.recoveryStatus = .preparing) (hn : m.nack = 0)
    (hf : ¬ m.Final) (hs : (tallyReply i lt.prepareOk m).ri.status = .none) :
    i.command = none ∧ m.seq = i.seq := by
  simp only [Matching, ht, hlt] at h
  rcases tally_cases i lt.prepareOk m with ⟨hk, b, l, he, -⟩ | ⟨hk, c, l, he, -⟩
  · rw [he] at hs
    simp only [Message.Taken, show m.instanceStatus = .none from hs, reduceCtorEq, false_and,
      or_self] at hk
  · rw [he] at hs
    exact (h ⟨hr, hn, hf, hk⟩).1 hs

theorem Matching.tried (h : Matching i (.step m)) (ht : m.type = .tryPreAcceptReply)
    (hlt : i.lt = some lt) (hr : lt.recoveryStatus = .tryPreAccepting)
    (hs : lt.ri.status ≠ .none) :
    (m.nack = 0 → m.ballot = i.ballot)
      ∧ (m.nack ≠ 0 ∧ i.ballot < m.ballot →
        m.command = i.command ∧ m.seq = i.seq ∧ m.deps = i.deps) := by
  simp only [Matching, ht, hlt] at h
  exact h ⟨hr, hs⟩

end Step

theorem Act.faithful {T : RangeTree} {r : Replica} {i i' : Instance} {ev : Event}
    {io : List Message} {k : ℕ} (ha : Act T r i ev i' io) (hm : Matching i ev) :
    Record.Faithful ⟨k, ev, r, i, i', io.map (envelope k)⟩ := by
  cases ha
  all_goals
    simp only [Record.Faithful, List.map_cons, List.map_nil, List.not_mem_nil, false_imp_iff,
      implies_true, List.forall_mem_cons, envelope, phase1Msg, recoverMsg, reduceCtorEq, or_self,
      or_false, or_true, true_imp_iff, and_true, true_and]
  case fastTimeout ht => exact ⟨⟨rfl, rfl, rfl, rfl⟩, hm ht⟩
  case okCommit ht hlt hst hib _ _ _ _ => exact hm.ok ht hlt hst hib
  case okAccept ht hlt hst hib _ => exact hm.ok ht hlt hst hib
  case replyCommit ht hlt hst hb hn _ _ _ _ _ => exact hm.reply ht hlt hst hb hn
  case replyAccept ht hlt hst hb hn _ => exact hm.reply ht hlt hst hb hn
  case acceptedCommit ht hlt hst hb hn _ => exact hm.accepted ht hlt hst hb hn
  case preparedCommit => exact ⟨rfl, rfl, rfl, rfl⟩
  case preparedNoop ht hlt hr hn hf hlt' hs =>
    subst hlt'
    obtain ⟨h₁, h₂⟩ := hm.noop ht hlt hr hn hf hs
    exact ⟨h₁.symm, h₂, rfl, rfl⟩
  case preparedAdopt ht hlt hr hn hf hlt' ha =>
    subst hlt'
    exact ⟨hm.adopt ht hlt hr hn hf ha, rfl, rfl, rfl⟩
  case preparedTryOwn => exact ⟨rfl, rfl, rfl, rfl⟩
  case preparedTry => exact ⟨rfl, rfl, rfl, rfl⟩
  case triedRaise ht hlt hr hs hn hb =>
    obtain ⟨h₁, h₂, h₃⟩ := (hm.tried ht hlt hr hs).2 ⟨hn, hb⟩
    exact ⟨h₁, h₂, rfl, h₃⟩
  case triedAccept ht hlt hr hs hn => exact ⟨rfl, rfl, (hm.tried ht hlt hr hs).1 hn, rfl⟩

/-- In a run whose events all match, every proposal and `COMMIT` carries its sender's instance. -/
theorem proposals_carry {T : RangeTree} {w : World} (h : Run T w)
    (hm : ∀ t ∈ w.log, Matching t.before t.event) : ∀ t ∈ w.log, t.Faithful := by
  intro t ht
  obtain ⟨_, _, -, -, hh⟩ := h.grown.1.of_mem ht
  obtain ⟨io, ha, hs⟩ := hh.acts
  have := ha.faithful (k := t.who) (hm t ht)
  obtain ⟨k, ev, r, i, i', sent⟩ := t
  simp only at hs
  rwa [hs]

theorem proposals_carry_fastCommit : ∃ w, Run listTree w
    ∧ (∃ t ∈ w.log, ∃ m ∈ t.sent, m.type = .commit) ∧ ∀ t ∈ w.log, t.Faithful := by
  obtain ⟨w, hr, hm, hc⟩ := @exists_run fastCommit
    (fun w => (∀ t ∈ w.log, Matching t.before t.event)
      ∧ ∃ t ∈ w.log, ∃ m ∈ t.sent, m.type = .commit) _ (by decide +kernel)
  exact ⟨w, hr, hc, proposals_carry hr hm⟩

/-- Replica 0 has seen one write that meets its new one and replica 1 another: the reply merges
into both dependencies, and the `ACCEPT` goes out with the reply's only. -/
def halfMerged : List Move :=
  [proposeAt 0 [49, 48] [50, 48], proposeAt 1 [51, 48] [52, 48], proposeAt 0 [49, 48] [52, 48],
    deliverAt 1 .preAccept ⟨0, 2⟩, deliverAt 0 .preAcceptReply ⟨0, 2⟩]

theorem halfMerged_unfaithful : ¬ ∀ w, Run listTree w → ∀ t ∈ w.log, t.Faithful := by
  intro h
  obtain ⟨w, hr, t, ht, hf⟩ := @exists_run halfMerged
    (fun w => ∃ t ∈ w.log, ¬ t.Faithful) _ (by decide +kernel)
  exact hf (h w hr t ht)

end Epx
