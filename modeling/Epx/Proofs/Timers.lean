import Epx.Proofs.Schedules

/-!
# Timers

An instance has a timer until it is committed: `step`, `propose` and `checkpoint` arm one, a callback
arms the next, and `commit` and `do_commit` cancel it. The recovery handlers do not look whether the
instance is committed by now; they take it back without a timer, or arm one for good.
-/

namespace Epx

open Log

/-- The instance has a pending timer if and only if it is not committed. -/
def Instance.Timed (i : Instance) : Prop := i.timer = none ↔ i.Decided

instance (i : Instance) : Decidable i.Timed := inferInstanceAs (Decidable (_ ↔ _))

/-- Every registered instance is. -/
def World.Timed (w : World) : Prop := ∀ k id i, (w.replica k).find id = some i → i.Timed

/-- The executor writes to committed instances only; and a committed instance is given no answer that
its recovery acts on, other than a final answer to `PREPARE`, and no `TRY_PRE_ACCEPT` that is stored
because it has no command. -/
def Timely (i : Instance) : Event → Prop
  | .execute _ => i.Decided
  | .step m =>
    i.Decided →
      match m.type, i.lt with
      | .prepareReply, some lt => lt.recoveryStatus = .preparing ∧ m.nack = 0 → m.Final
      | .tryPreAccept, _ => i.ballot ≤ m.ballot → i.command ≠ none
      | .tryPreAcceptReply, some lt =>
        ¬ (lt.recoveryStatus = .tryPreAccepting ∧ lt.ri.status ≠ .none)
      | _, _ => True
  | _ => True

instance (i : Instance) (ev : Event) : Decidable (Timely i ev) := by
  unfold Timely
  exact match ev with
  | .propose _ | .checkpoint _ | .timeout _ _ | .execute _ => inferInstance
  | .step m => by
    dsimp only
    exact match m.type, i.lt with
    | .prepareReply, none | .prepareReply, some _ | .tryPreAcceptReply, none
    | .tryPreAcceptReply, some _ => inferInstance
    | .phase1, _ | .preAccept, _ | .preAcceptOk, _ | .preAcceptReply, _ | .accept, _
    | .acceptReply, _ | .commit, _ | .prepare, _ | .tryPreAccept, _ | .execute, _ => inferInstance

section Step

variable {T : RangeTree} {r : Replica} {i i' : Instance} {ev : Event} {io : List Message}
  {m : Message} {lt : LeaderTracker}

theorem Instance.Timed.of_armed (ht : i.timer ≠ none) (hs : ¬ i.Decided) : i.Timed :=
  iff_of_false ht hs

theorem Instance.Timed.of_decided (ht : i.timer = none) (hs : i.Decided) : i.Timed :=
  iff_of_true ht hs

theorem Instance.Timed.of_same (h : i.Timed) (ht : i'.timer = i.timer) (hs : i'.status = i.status) :
    i'.Timed := by
  unfold Instance.Timed Instance.Decided at *
  rw [ht, hs]
  exact h

/-- An instance that is not committed may take any status that is not, and keep its timer. -/
theorem Instance.Timed.undecided (h : i.Timed) (ht : i'.timer = i.timer) (hd : ¬ i.Decided)
    (hs : ¬ i'.Decided) : i'.Timed :=
  .of_armed (by rw [ht]; exact fun hn => hd (h.1 hn)) hs

theorem Timely.prepared (h : Timely i (.step m)) (ht : m.type = .prepareReply)
    (hlt : i.lt = some lt) (hr : lt.recoveryStatus = .preparing) (hn : m.nack = 0)
    (hf : ¬ m.Final) : ¬ i.Decided := by
  intro hd
  have h := h hd
  simp only [ht, hlt] at h
  exact hf (h ⟨hr, hn⟩)

theorem Timely.tried (h : Timely i (.step m)) (ht : m.type = .tryPreAcceptReply)
    (hlt : i.lt = some lt) (hr : lt.recoveryStatus = .tryPreAccepting)
    (hs : lt.ri.status ≠ .none) : ¬ i.Decided := by
  intro hd
  have h := h hd
  simp only [ht, hlt] at h
  exact h ⟨hr, hs⟩

/-- A committed instance with a command is in conflict with every `TRY_PRE_ACCEPT`. -/
theorem Timely.store (h : Timely i (.step m)) (ht : m.type = .tryPreAccept)
    (hb : i.ballot ≤ m.ballot) {c : Option Command}
    (hf : findConflict T r i m.command m.seq m.deps = some (none, c)) : ¬ i.Decided := by
  intro hd
  have h := h hd
  simp only [ht] at h
  have hbits : State.accepted.bits ≤ i.status.bits := by
    rcases hd with hs | hs <;> rw [hs] <;> decide
  unfold findConflict at hf
  rw [if_pos (by simp [Option.isSome_iff_ne_none.2 (h hb), hbits])] at hf
  cases hf

theorem not_decided {s : State} (h : i.status = s) (hs : s ≠ .committed ∧ s ≠ .executed) :
    ¬ i.Decided := by
  rintro (hd | hd)
  · exact hs.1 (h.symm.trans hd)
  · exact hs.2 (h.symm.trans hd)

/-- An event leaves a timed instance timed, and one that is proposed is. -/
theorem Act.timed (ha : Act T r i ev i' io) (hc : Timely i ev)
    (hi : ¬ ev.Assigns → i.Timed) : i'.Timed := by
  cases ha with
  | propose | checkpoint =>
    exact .of_armed (by rintro ⟨⟩) (not_decided rfl ⟨(by rintro ⟨⟩), (by rintro ⟨⟩)⟩)
  | slowTimeout ht | fastTimeout ht =>
    have hi := hi not_false
    have hd : ¬ i.Decided := fun hd => by simp [hi.2 hd] at ht
    exact .of_armed (by rintro ⟨⟩) hd
  | execute =>
    have hi := hi not_false
    exact .of_decided (hi.2 hc) (.inr rfl)
  | ignore | preAcceptNack | acceptNack | prepareNack | tryNack => exact hi not_false
  | preAcceptReply _ hst | preAcceptOk _ hst =>
    refine (hi not_false).undecided rfl ?_ ?_
    · rcases hst with hst | hst <;> exact not_decided hst ⟨(by rintro ⟨⟩), (by rintro ⟨⟩)⟩
    · refine not_decided rfl ?_
      simp only [preAcceptInst]
      split_ifs <;> exact ⟨(by rintro ⟨⟩), (by rintro ⟨⟩)⟩
  | okCommit | replyCommit | acceptedCommit | preparedCommit | commit =>
    exact .of_decided rfl (.inl rfl)
  | okAccept _ _ hst | replyAccept _ _ hst =>
    exact (hi not_false).undecided rfl (not_decided hst ⟨(by rintro ⟨⟩), (by rintro ⟨⟩)⟩)
      (not_decided rfl ⟨(by rintro ⟨⟩), (by rintro ⟨⟩)⟩)
  | okCount | nackCount | replyCount | acceptedCount | preparePromise | preparedNack | preparedCount
  | preparedTryOwn | triedRaise | triedPrepare | triedCount =>
    exact (hi not_false).of_same rfl rfl
  | nackRecover ht =>
    refine .of_armed (by rintro ⟨⟩) ?_
    rcases ht with ⟨-, hst⟩ | ⟨-, hst⟩ <;> exact not_decided hst ⟨(by rintro ⟨⟩), (by rintro ⟨⟩)⟩
  | acceptStore _ hd =>
    exact (hi not_false).undecided rfl hd (not_decided rfl ⟨(by rintro ⟨⟩), (by rintro ⟨⟩)⟩)
  | preparedNoop ht hlt hr hn hf | preparedAdopt ht hlt hr hn hf | preparedTry ht hlt hr hn hf =>
    exact (hi not_false).undecided rfl (hc.prepared ht hlt hr hn hf)
      (not_decided rfl ⟨(by rintro ⟨⟩), (by rintro ⟨⟩)⟩)
  | preparedRestart =>
    exact .of_armed (by rintro ⟨⟩) (not_decided rfl ⟨(by rintro ⟨⟩), (by rintro ⟨⟩)⟩)
  | tryStore ht hb hf =>
    exact (hi not_false).undecided rfl (hc.store ht hb hf)
      (not_decided rfl ⟨(by rintro ⟨⟩), (by rintro ⟨⟩)⟩)
  | triedDefer ht hlt hr hs hn hb htm =>
    rcases htm with rfl | rfl
    · exact (hi not_false).of_same rfl rfl
    · exact .of_armed (by rintro ⟨⟩) (hc.tried ht hlt hr hs)
  | triedRestart _ _ _ _ _ _ _ _ _ htm | triedRestartTwice _ _ _ _ _ _ _ _ _ _ htm =>
    refine .of_armed ?_ (not_decided rfl ⟨(by rintro ⟨⟩), (by rintro ⟨⟩)⟩)
    rcases htm with rfl | rfl <;> rintro ⟨⟩
  | triedAccept ht hlt hr hs =>
    exact (hi not_false).undecided rfl (hc.tried ht hlt hr hs)
      (not_decided rfl ⟨(by rintro ⟨⟩), (by rintro ⟨⟩)⟩)

end Step

/-- In a log of timely events every copy is timed. -/
theorem timed_of_grown {T : RangeTree} {log : List Record}
    (h : Grown (fun older t => Happens T older t ∧ Timely t.before t.event) log) :
    ∀ k id i, Last log k id i → i.Timed := by
  induction h with
  | nil => simp [Last]
  | @cons t older hg ht ih =>
    obtain ⟨ht, hc⟩ := ht
    intro k id i hl
    rcases last_cons.1 hl with ⟨-, -, rfl⟩ | ⟨-, hl⟩
    · obtain ⟨io, ha, -⟩ := ht.acts
      refine ha.timed hc fun hn => ?_
      rcases ht.before with hl | ⟨hm, hb | hb⟩
      · exact ih _ _ _ hl
      · -- only `propose` and `checkpoint` make an instance without a timer
        have hloc := ht.located
        cases hev : t.event with
        | propose m | checkpoint m => exact absurd (by rw [hev]; trivial) hn
        | timeout id m | execute id =>
          rw [hev] at hloc
          have := ht.found id _ hloc
          exact ih _ _ _ this
        | step m =>
          rw [hev] at hloc
          have hk := (ht.step_key hev).1
          have hmade : t.pre.find m.id = none := hk ▸ hm
          rw [hloc.1, Replica.copy, hmade]
          exact .of_armed (by rintro ⟨⟩) (not_decided rfl ⟨(by rintro ⟨⟩), (by rintro ⟨⟩)⟩)
      · rw [hb]
        exact .of_armed (by rintro ⟨⟩) (not_decided rfl ⟨(by rintro ⟨⟩), (by rintro ⟨⟩)⟩)
    · exact ih k id i hl

/-- In a run of timely events, every registered instance has a timer pending until it is committed,
and none after that. -/
theorem always_timed {T : RangeTree} {w : World} (h : Run T w)
    (hc : ∀ t ∈ w.log, Timely t.before t.event) : w.Timed := by
  intro k id i hi
  exact timed_of_grown (h.grown.1.and hc) k id i (h.grown.2.last k id i hi)

/-- Replica 2 recovers an instance that it and replica 1 have pre-accepted, and replica 0 commits it
before the answer of replica 1 comes to replica 2. -/
def lateAnswer : List Move :=
  [proposeAt 0 [49, 48] [50, 48], deliverAt 1 .preAccept ⟨0, 1⟩, deliverAt 2 .preAccept ⟨0, 1⟩,
    deliverAt 0 .preAcceptOk ⟨0, 1⟩, timeoutAt 2 ⟨0, 1⟩, deliverAt 1 .prepare ⟨0, 1⟩]

theorem always_timed_lateAnswer : ∃ w, Run listTree w ∧ w.log.length = 6 ∧ w.Timed
    ∧ ∃ i, (w.replica 2).find ⟨0, 1⟩ = some i ∧ i.timer = some .slowPath := by
  obtain ⟨w, hr, hc, hl, i, hi, ht⟩ := @exists_run lateAnswer
    (fun w => (∀ t ∈ w.log, Timely t.before t.event) ∧ w.log.length = 6
      ∧ ∃ i ∈ (w.replica 2).find ⟨0, 1⟩, i.timer = some .slowPath) _ (by decide +kernel)
  exact ⟨w, hr, hl, always_timed hr hc, i, hi, ht⟩

/-- The `COMMIT` cancels the timer of replica 2, and the answer makes its copy `ACCEPTED` again. -/
def takenBack : List Move :=
  lateAnswer ++ [deliverAt 2 .commit ⟨0, 1⟩, deliverAt 2 .prepareReply ⟨0, 1⟩]

theorem takenBack_untimed : ¬ ∀ w, Run listTree w → w.Timed := by
  intro h
  obtain ⟨w, hr, i, hi, hb⟩ := @exists_run takenBack
    (fun w => ∃ i ∈ (w.replica 2).find ⟨0, 1⟩, ¬ i.Timed) _ (by decide +kernel)
  exact hb (h w hr 2 ⟨0, 1⟩ i hi)

end Epx
