import Epx.Proofs.Schedules

/-!
# The life of an instance

How far an instance has got is the rank of its status. `Guarded` says which events a copy must not
be given for its rank to fall or its committed values to change: those where the handlers leave out
the test of the status their siblings make.
-/

namespace Epx

open Log

/-- `NONE < PRE_ACCEPTED, PRE_ACCEPTED_EQ < ACCEPTED < COMMITTED < EXECUTED`. -/
def State.rank : State → ℕ
  | .none => 0
  | .preAccepted | .preAcceptedEq => 1
  | .accepted | .preparing | .tryPreAccepting => 2
  | .committed => 3
  | .executed => 4

/-- `i'` is no step back from `i`: the rank has not fallen, and what was committed is as it was. -/
def Instance.Onward (i i' : Instance) : Prop :=
  i.status.rank ≤ i'.status.rank
    ∧ (i.Decided → i'.command = i.command ∧ i'.seq = i.seq ∧ i'.deps = i.deps)

instance (i i' : Instance) : Decidable (i.Onward i') := inferInstanceAs (Decidable (_ ∧ _))

/-- A `COMMIT` meets no executed copy, and a committed one only with its own values; an answer to
`PREPARE` meets a decided copy only as a repetition of its values, and an accepted one only where
the answer or the record is accepted; `TRY_PRE_ACCEPT` meets no accepted copy without a command;
and an answer to it meets no decided copy, a nack no accepted one. -/
def Guarded (i : Instance) : Event → Prop
  | .step m =>
    match m.type, i.lt with
    | .commit, _ =>
      i.status ≠ .executed ∧ (i.status = .committed → m.seq = i.seq ∧ m.deps = i.deps)
    | .prepareReply, some lt =>
      lt.recoveryStatus = .preparing ∧ m.nack = 0 →
        (i.Decided → i.status = .committed ∧ m.Final
            ∧ m.command = i.command ∧ m.seq = i.seq ∧ m.deps = i.deps)
          ∧ (i.status.rank = 2 ∧ ¬ m.Final →
            lt.ri.status = .accepted
              ∨ (m.instanceStatus = .accepted
                ∧ (lt.maxBallot < m.ballot ∨ lt.ri.status = .none)))
    | .tryPreAccept, _ => i.ballot ≤ m.ballot ∧ 2 ≤ i.status.rank → i.command ≠ none
    | .tryPreAcceptReply, some lt =>
      lt.recoveryStatus = .tryPreAccepting ∧ lt.ri.status ≠ .none →
        ¬ i.Decided ∧ (m.nack ≠ 0 ∧ m.ballot ≤ i.ballot → i.status.rank < 2)
    | _, _ => True
  | _ => True

instance (i : Instance) (ev : Event) : Decidable (Guarded i ev) := by
  unfold Guarded
  exact match ev with
  | .propose _ | .checkpoint _ | .timeout _ _ | .execute _ => inferInstance
  | .step m => by
    dsimp only
    exact match m.type, i.lt with
    | .prepareReply, none | .prepareReply, some _ | .tryPreAcceptReply, none
    | .tryPreAcceptReply, some _ => inferInstance
    | .phase1, _ | .preAccept, _ | .preAcceptOk, _ | .preAcceptReply, _ | .accept, _
    | .acceptReply, _ | .commit, _ | .prepare, _ | .tryPreAccept, _ | .execute, _ => inferInstance

theorem decided_iff {i : Instance} : i.Decided ↔ 3 ≤ i.status.rank := by
  unfold Instance.Decided
  cases i.status <;> simp [State.rank]

theorem Instance.Onward.refl (i : Instance) : i.Onward i := ⟨le_rfl, fun _ => ⟨rfl, rfl, rfl⟩⟩

theorem Instance.Onward.trans {i j l : Instance} (h₁ : i.Onward j) (h₂ : j.Onward l) :
    i.Onward l := by
  refine ⟨h₁.1.trans h₂.1, fun hd => ?_⟩
  have hj : j.Decided := decided_iff.2 ((decided_iff.1 hd).trans h₁.1)
  obtain ⟨a₁, b₁, c₁⟩ := h₁.2 hd
  obtain ⟨a₂, b₂, c₂⟩ := h₂.2 hj
  exact ⟨a₂.trans a₁, b₂.trans b₁, c₂.trans c₁⟩

/-- A status that stays, with the values, is no step back. -/
theorem Instance.Onward.of_eq {i i' : Instance} (hs : i'.status = i.status)
    (hc : i'.command = i.command) (hq : i'.seq = i.seq) (hd : i'.deps = i.deps) : i.Onward i' :=
  ⟨hs ▸ le_rfl, fun _ => ⟨hc, hq, hd⟩⟩

/-- A copy that is not decided may move to any status of at least its rank. -/
theorem Instance.Onward.of_rank {i i' : Instance} (hi : i.status.rank < 3)
    (h : i.status.rank ≤ i'.status.rank) : i.Onward i' :=
  ⟨h, fun hd => absurd (decided_iff.1 hd) (by omega)⟩

section Step

variable {T : RangeTree} {r : Replica} {i i' : Instance} {ev : Event} {io : List Message}
  {m : Message} {lt : LeaderTracker}

theorem Guarded.prepared (h : Guarded i (.step m)) (ht : m.type = .prepareReply)
    (hlt : i.lt = some lt) (hr : lt.recoveryStatus = .preparing) (hn : m.nack = 0) :
    (i.Decided → i.status = .committed ∧ m.Final
        ∧ m.command = i.command ∧ m.seq = i.seq ∧ m.deps = i.deps)
      ∧ (i.status.rank = 2 ∧ ¬ m.Final →
        (tallyReply i lt.prepareOk m).ri.status = .accepted) := by
  simp only [Guarded, ht, hlt] at h
  obtain ⟨h₁, h₂⟩ := h ⟨hr, hn⟩
  refine ⟨h₁, fun h => ?_⟩
  rcases tally_cases i lt.prepareOk m with ⟨hk, b, l, he, -⟩ | ⟨hk, c, l, he, -⟩ <;> rw [he]
  · rcases h₂ h with ha | ⟨ha, -⟩
    · have ha : lt.prepareOk.ri.status = .accepted := ha
      rcases hk with ⟨hk, -⟩ | ⟨-, hk⟩ | ⟨-, hk⟩
      · exact hk
      · rw [ha] at hk
        exact absurd hk (lt_irrefl _)
      · rw [ha] at hk
        cases hk
    · exact ha
  · rcases h₂ h with ha | ha
    · exact ha
    · exact absurd (.inl ha) hk

/-- An answer to `PREPARE` that is not final comes to an undecided copy. -/
theorem Guarded.undecided (h : Guarded i (.step m)) (ht : m.type = .prepareReply)
    (hlt : i.lt = some lt) (hr : lt.recoveryStatus = .preparing) (hn : m.nack = 0)
    (hf : ¬ m.Final) : i.status.rank < 3 := by
  by_contra hd
  exact hf ((h.prepared ht hlt hr hn).1 (decided_iff.2 (by omega))).2.1

/-- Where the record is not accepted, neither is the copy. -/
theorem Guarded.below (h : Guarded i (.step m)) (ht : m.type = .prepareReply)
    (hlt : i.lt = some lt) (hr : lt.recoveryStatus = .preparing) (hn : m.nack = 0)
    (hf : ¬ m.Final) (ha : ¬ (tallyReply i lt.prepareOk m).ri.Acceptable) :
    i.status.rank < 2 := by
  have h₃ := h.undecided ht hlt hr hn hf
  by_contra h₂
  exact ha (.inl ((h.prepared ht hlt hr hn).2 ⟨by omega, hf⟩))

theorem Guarded.tried (h : Guarded i (.step m)) (ht : m.type = .tryPreAcceptReply)
    (hlt : i.lt = some lt) (hr : lt.recoveryStatus = .tryPreAccepting)
    (hs : lt.ri.status ≠ .none) :
    i.status.rank < 3 ∧ (m.nack ≠ 0 ∧ m.ballot ≤ i.ballot → i.status.rank < 2) := by
  simp only [Guarded, ht, hlt] at h
  obtain ⟨h₁, h₂⟩ := h ⟨hr, hs⟩
  rw [decided_iff] at h₁
  exact ⟨by omega, h₂⟩

/-- A `TRY_PRE_ACCEPT` is stored over a copy below `ACCEPTED` only. -/
theorem Guarded.store (h : Guarded i (.step m)) (ht : m.type = .tryPreAccept)
    (hb : i.ballot ≤ m.ballot) {c : Option Command}
    (hf : findConflict T r i m.command m.seq m.deps = some (none, c)) : i.status.rank < 2 := by
  simp only [Guarded, ht] at h
  by_contra hr
  have hc := h ⟨hb, by omega⟩
  have hbits : State.accepted.bits ≤ i.status.bits := by
    revert hr
    cases i.status <;> simp [State.rank, State.bits]
  unfold findConflict at hf
  rw [if_pos (by simp [Option.isSome_iff_ne_none.2 hc, hbits])] at hf
  cases hf

theorem Act.onward (ha : Act T r i ev i' io) (hl : Located r i ev) (hg : Guarded i ev) :
    i.Onward i' := by
  cases ha with
  | propose | checkpoint =>
    obtain ⟨-, rfl⟩ := hl
    exact .of_rank (show 0 < 3 by omega) (Nat.zero_le _)
  | slowTimeout | fastTimeout => exact .of_eq rfl rfl rfl rfl
  | execute => exact ⟨by cases i.status <;> simp [State.rank], fun _ => ⟨rfl, rfl, rfl⟩⟩
  | ignore | preAcceptNack | acceptNack | prepareNack | tryNack => exact .refl i
  | preAcceptReply _ hst | preAcceptOk _ hst =>
    rcases hst with hst | hst <;>
      exact .of_rank (by simp [hst, State.rank]) (by
        simp only [hst, preAcceptInst, State.rank]
        split_ifs <;> simp)
  | okCommit _ _ hst | okAccept _ _ hst | replyCommit _ _ hst | replyAccept _ _ hst
  | replyCount _ _ hst | acceptedCommit _ _ hst =>
    exact .of_rank (by simp [hst, State.rank]) (by simp [hst, State.rank, mergeReply])
  | okCount | nackCount | nackRecover | acceptedCount | preparePromise | preparedNack
  | preparedCount | triedRaise | triedPrepare | triedDefer | triedCount =>
    exact .of_eq rfl rfl rfl rfl
  | acceptStore _ hd =>
    have := decided_iff.not.1 hd
    exact .of_rank (by omega) (show i.status.rank ≤ 2 by omega)
  | preparedCommit ht hlt hr hn =>
    by_cases hd : i.Decided
    · obtain ⟨hs, -, h₁, h₂, h₃⟩ := (hg.prepared ht hlt hr hn).1 hd
      exact ⟨by simp [hs], fun _ => ⟨h₁, h₂, h₃⟩⟩
    · have := decided_iff.not.1 hd
      exact .of_rank (by omega) (show i.status.rank ≤ 3 by omega)
  | preparedNoop ht hlt hr hn hf | preparedAdopt ht hlt hr hn hf =>
    have := hg.undecided ht hlt hr hn hf
    exact .of_rank this (show i.status.rank ≤ 2 by omega)
  | preparedRestart ht hlt hr hn hf hlt' _ ha | preparedTry ht hlt hr hn hf hlt' _ ha =>
    subst hlt'
    have := hg.below ht hlt hr hn hf ha
    exact .of_rank (by omega) (show i.status.rank ≤ 1 by omega)
  | preparedTryOwn ht hlt hr hn hf hlt' _ ha =>
    subst hlt'
    exact .of_rank ((hg.below ht hlt hr hn hf ha).trans (by omega)) le_rfl
  | tryStore ht hb hf =>
    have := hg.store ht hb hf
    exact .of_rank (by omega) (show i.status.rank ≤ 1 by omega)
  | triedRestart ht hlt hr hs hn hb | triedRestartTwice ht hlt hr hs hn hb =>
    have := (hg.tried ht hlt hr hs).2 ⟨hn, hb⟩
    exact .of_rank (by omega) (show i.status.rank ≤ 1 by omega)
  | triedAccept ht hlt hr hs =>
    have := (hg.tried ht hlt hr hs).1
    exact .of_rank this (show i.status.rank ≤ 2 by omega)
  | commit ht =>
    simp only [Guarded, ht] at hg
    by_cases hd : i.Decided
    · have hs := hd.resolve_right hg.1
      obtain ⟨h₁, h₂⟩ := hg.2 hs
      exact ⟨by simp [hs], fun _ => ⟨rfl, h₁, h₂⟩⟩
    · have := decided_iff.not.1 hd
      exact .of_rank (by omega) (show i.status.rank ≤ 3 by omega)

end Step

/-- `w'` is reached from `w`, the instance registered at replica `k` all along. -/
inductive Keeps (T : RangeTree) (k : ℕ) (id : InstanceId) : World → World → Prop
  | refl {w} (h : ((w.replica k).find id).isSome) : Keeps T k id w w
  | next {w w₁ w₂ j ev} (h : Keeps T k id w w₁) (hn : w₁.next T j ev = some w₂)
      (hk : ((w₂.replica k).find id).isSome) : Keeps T k id w w₂

theorem Keeps.run {T : RangeTree} {k : ℕ} {id : InstanceId} {w w' : World}
    (h : Keeps T k id w w') (hr : Run T w) : Run T w' := by
  induction h with
  | refl _ => exact hr
  | next _ hn _ ih => exact .next ih hn

theorem Keeps.isSome {T : RangeTree} {k : ℕ} {id : InstanceId} {w w' : World}
    (h : Keeps T k id w w') : ((w'.replica k).find id).isSome := by
  cases h <;> assumption

/-- From any world of a run whose events are all guarded, as long as a replica keeps an instance
its copy goes onward. -/
theorem lifecycle_oneway {T : RangeTree} {k : ℕ} {id : InstanceId} {w w' : World}
    (hr : Run T w) (hk : Keeps T k id w w') (hg : ∀ t ∈ w'.log, Guarded t.before t.event)
    {i i' : Instance} (hi : (w.replica k).find id = some i)
    (hi' : (w'.replica k).find id = some i') : i.Onward i' := by
  induction hk generalizing i' with
  | refl _ =>
    rw [hi] at hi'
    cases hi'
    exact .refl i
  | @next w₁ w₂ j ev hk hn _ ih =>
    obtain ⟨t, hlog, -, -, ht, hstep⟩ := (hk.run hr).next_cases hn
    rw [hlog] at hg
    simp only [List.forall_mem_cons] at hg
    obtain ⟨x, hx⟩ := Option.isSome_iff_exists.1 hk.isSome
    refine (ih hg.2 hx).trans ?_
    rcases hstep k id x i' hx hi' with rfl | ⟨rfl, rfl⟩
    · exact .refl _
    · obtain ⟨io, ha, -⟩ := ht.acts
      exact ha.onward ht.located hg.1

theorem lifecycle_oneway_commit : ∃ w w', ∃ i i' : Instance,
    Run listTree w ∧ Keeps listTree 1 ⟨0, 1⟩ w w'
    ∧ i.status = .preAcceptedEq ∧ i'.status = .committed ∧ i.Onward i' := by
  obtain ⟨w, hr, i, hi, w', hw', hg, i', hi', hs, hs'⟩ := @exists_run fastCommit
    (fun w => ∃ i ∈ (w.replica 1).find ⟨0, 1⟩,
      ∃ w' ∈ w.next listTree 1 (deliver (fun m => m.type = .commit) w),
        (∀ t ∈ w'.log, Guarded t.before t.event)
          ∧ ∃ i' ∈ (w'.replica 1).find ⟨0, 1⟩,
            i.status = .preAcceptedEq ∧ i'.status = .committed) _ (by decide +kernel)
  have hk : Keeps listTree 1 ⟨0, 1⟩ w w' :=
    .next (.refl (Option.isSome_of_mem hi)) hw' (Option.isSome_of_mem hi')
  exact ⟨w, w', i, i', hr, hk, hs, hs', lifecycle_oneway hr hk hg hi hi'⟩

/-- A follower commits and executes; the `COMMIT` can still be delivered again. -/
def executed : List Move :=
  fastCommit ++ [deliverAt 1 .commit ⟨0, 1⟩, (1, fun _ => .execute ⟨0, 1⟩)]

theorem executed_steps_back : ¬ ∀ k id w w', Run listTree w → Keeps listTree k id w w' →
    ∀ i i', (w.replica k).find id = some i → (w'.replica k).find id = some i' → i.Onward i' := by
  intro h
  obtain ⟨w, hr, i, hi, w', hw', i', hi', hb⟩ := @exists_run executed
    (fun w => ∃ i ∈ (w.replica 1).find ⟨0, 1⟩,
      ∃ w' ∈ w.next listTree 1 (deliver (fun m => m.type = .commit) w),
        ∃ i' ∈ (w'.replica 1).find ⟨0, 1⟩, ¬ i.Onward i') _ (by decide +kernel)
  have hk : Keeps listTree 1 ⟨0, 1⟩ w w' :=
    .next (.refl (Option.isSome_of_mem hi)) hw' (Option.isSome_of_mem hi')
  exact hb (h 1 ⟨0, 1⟩ w w' hr hk i i' hi hi')

end Epx
