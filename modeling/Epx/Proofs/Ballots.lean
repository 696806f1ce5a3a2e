import Epx.Proofs.Schedules

/-!
# Ballots never go down

A ballot is a byte, so its round goes back to 0 after 15. `Rising` says when `larger_ballot` must
not be called, and when a `PHASE1` restart at the message's ballot must not be made, for every
ballot to grow.
-/

namespace Epx

open Log

/-- The event makes `recover` or `try_pre_accept_reply` choose a ballot with `larger_ballot`. -/
def Chooses (i : Instance) : Event → Prop
  | .timeout _ _ => i.timer = some .slowPath
  | .step m =>
    match m.type, i.lt with
    | .preAcceptReply, some lt =>
      i.status = .preAccepted ∧ i.ballot = m.ballot ∧ m.nack ≠ 0 ∧ N / 2 ≤ (lt.nack m).nacks
    | .acceptReply, some lt =>
      i.status = .accepted ∧ i.ballot = m.ballot ∧ m.nack ≠ 0 ∧ N / 2 ≤ (lt.nack m).nacks
    | .tryPreAcceptReply, some lt =>
      lt.recoveryStatus = .tryPreAccepting ∧ lt.ri.status ≠ .none ∧ m.nack ≠ 0
        ∧ i.ballot < m.ballot
    | _, _ => False
  | _ => False

instance (i : Instance) (ev : Event) : Decidable (Chooses i ev) := by
  unfold Chooses
  exact match ev with
  | .propose _ | .checkpoint _ | .timeout _ _ | .execute _ => inferInstance
  | .step m => by
    dsimp only
    exact match m.type, i.lt with
    | .preAcceptReply, none | .preAcceptReply, some _ | .acceptReply, none | .acceptReply, some _
    | .tryPreAcceptReply, none | .tryPreAcceptReply, some _ => inferInstance
    | .phase1, _ | .preAccept, _ | .preAcceptOk, _ | .accept, _ | .commit, _ | .prepare, _
    | .prepareReply, _ | .tryPreAccept, _ | .execute, _ => inferInstance

/-- The ballot does not go down, and where one is chosen it goes up. -/
def Record.Rises (t : Record) : Prop :=
  t.before.ballot ≤ t.after.ballot
    ∧ (Chooses t.before t.event → t.before.ballot < t.after.ballot)

instance (t : Record) : Decidable t.Rises := inferInstanceAs (Decidable (_ ∧ _))

/-- A ballot is chosen only above one of a round below 15, or, by `try_pre_accept_reply`, where the
copy's is below the replica's ballot of round 0; and a nack to `TRY_PRE_ACCEPT` with a committed
conflict or too many of the quorum gone, which restarts `PHASE1` at its own ballot, is at the
copy's. -/
def Rising (k : ℕ) (i : Instance) : Event → Prop
  | .step m =>
    match m.type, i.lt with
    | .tryPreAcceptReply, some lt =>
      lt.recoveryStatus = .tryPreAccepting ∧ lt.ri.status ≠ .none ∧ m.nack ≠ 0 →
        (i.ballot < m.ballot → m.ballot < 240 ∨ (m.ballot < 256 ∧ i.ballot < k))
          ∧ (m.ballot ≤ i.ballot ∧ m.Restarts lt → m.ballot = i.ballot)
    | _, _ => Chooses i (.step m) → i.ballot < 240
  | ev => Chooses i ev → i.ballot < 240

instance (k : ℕ) (i : Instance) (ev : Event) : Decidable (Rising k i ev) := by
  unfold Rising
  exact match ev with
  | .propose _ | .checkpoint _ | .timeout _ _ | .execute _ => inferInstance
  | .step m => by
    dsimp only
    exact match m.type, i.lt with
    | .tryPreAcceptReply, none | .tryPreAcceptReply, some _ => inferInstance
    | .phase1, _ | .preAccept, _ | .preAcceptOk, _ | .preAcceptReply, _ | .accept, _
    | .acceptReply, _ | .commit, _ | .prepare, _ | .prepareReply, _ | .tryPreAccept, _
    | .execute, _ => inferInstance

section Step

variable {T : RangeTree} {older : List Record} {k : ℕ} {ev : Event} {r : Replica}
  {i i' : Instance} {io : List Message} {m : Message} {lt : LeaderTracker} {e : Effect}

/-- What `try_pre_accept_reply` chooses is above the copy's ballot. -/
theorem lt_raised {a b : ℕ} (hk : k < N) (hab : a < b) (hb : b < 240 ∨ (b < 256 ∧ a < k)) :
    a < largerBallot b k := by
  rcases hb with hb | ⟨hb, ha⟩
  · exact hab.trans (lt_largerBallot hk hb)
  · have hk : k < 16 := by unfold N at hk; omega
    rw [largerBallot_eq _ hk]
    omega

theorem Rising.tried (h : Rising k i (.step m)) (ht : m.type = .tryPreAcceptReply)
    (hlt : i.lt = some lt) (hr : lt.recoveryStatus = .tryPreAccepting)
    (hs : lt.ri.status ≠ .none) (hn : m.nack ≠ 0) :
    (i.ballot < m.ballot → m.ballot < 240 ∨ (m.ballot < 256 ∧ i.ballot < k))
      ∧ (m.ballot ≤ i.ballot ∧ m.Restarts lt → m.ballot = i.ballot) := by
  simp only [Rising, ht, hlt] at h
  exact h ⟨hr, hs, hn⟩

theorem Rising.nacked (h : Rising k i (.step m))
    (ht : (m.type = .preAcceptReply ∧ i.status = .preAccepted)
      ∨ (m.type = .acceptReply ∧ i.status = .accepted))
    (hlt : i.lt = some lt) (hb : i.ballot = m.ballot) (hn : m.nack ≠ 0)
    (hk : N / 2 ≤ (lt.nack m).nacks) : i.ballot < 240 := by
  rcases ht with ⟨ht, hs⟩ | ⟨ht, hs⟩ <;> simp only [Rising, Chooses, ht, hlt] at h <;>
    exact h ⟨hs, hb, hn, hk⟩

/-- No event lowers a ballot. -/
theorem Act.ballot_le (ha : Act T r i ev i' io) (hl : Located r i ev) (hk : r.id < N)
    (hr : Rising r.id i ev) : i.ballot ≤ i'.ballot := by
  cases ha with
  | propose =>
    rw [hl.2]
    exact Nat.zero_le _
  | slowTimeout htm => exact (lt_largerBallot hk (hr htm)).le
  | nackRecover ht hlt hb hn hnk => exact (lt_largerBallot hk (hr.nacked ht hlt hb hn hnk)).le
  | preAcceptReply _ _ hb | preAcceptOk _ _ hb | acceptStore _ _ hb | preparePromise _ hb
  | tryStore _ hb => exact hb
  | triedRaise ht hlt hs hst hn hb =>
    exact (lt_raised hk hb ((hr.tried ht hlt hs hst hn).1 hb)).le
  | triedRestart ht hlt hs hst hn hb hcb _ _ _ hcs =>
    rcases hcb with ⟨-, rfl⟩ | ⟨-, rfl⟩
    · rcases hcs with h | h
      · exact h.ge
      · exact ((hr.tried ht hlt hs hst hn).2 ⟨hb, h⟩).ge
    · exact le_rfl
  | triedRestartTwice ht hlt hs hst hn hb _ _ _ _ _ hcs =>
    exact ((hr.tried ht hlt hs hst hn).2 ⟨hb, hcs⟩).ge
  | _ => exact le_rfl

theorem nackReply_ballot (hk : N / 2 ≤ (lt.nack m).nacks) :
    (nackReply r i lt m).inst.ballot = largerBallot i.ballot r.id := by
  rcases nackReply_cases (r := r) (i := i) (m := m) lt with ⟨-, h⟩ | ⟨hn, -⟩
  · rw [h]
    rfl
  · exact absurd hk hn

/-- Where a message makes its handler choose a ballot, it is the one after the copy's, which the
message repeats, or the one after the message's. -/
theorem chosen_step (h : progress T r i m = some e) (hc : Chooses i (.step m)) :
    (∃ lt, i.lt = some lt ∧ m.nack ≠ 0 ∧ i.ballot = m.ballot ∧ N / 2 ≤ (lt.nack m).nacks
        ∧ ((m.type = .preAcceptReply ∧ i.status = .preAccepted)
          ∨ (m.type = .acceptReply ∧ i.status = .accepted))
        ∧ e.inst.ballot = largerBallot i.ballot r.id)
      ∨ ∃ lt, m.type = .tryPreAcceptReply ∧ i.lt = some lt ∧ lt.recoveryStatus = .tryPreAccepting
        ∧ lt.ri.status ≠ .none ∧ m.nack ≠ 0 ∧ i.ballot < m.ballot
        ∧ e.inst.ballot = largerBallot m.ballot r.id := by
  simp only [Chooses] at hc
  split at hc
  · rename_i lt ht hlt
    obtain ⟨hs, hb, hn, hk⟩ := hc
    refine .inl ⟨lt, hlt, hn, hb, hk, .inl ⟨ht, hs⟩, ?_⟩
    rw [progress, ht] at h
    have he : preAcceptReply r i m = some (nackReply r i lt m) := by
      simp [preAcceptReply, hlt, hs, isState, hb, hn]
    rw [he] at h
    cases h
    exact nackReply_ballot hk
  · rename_i lt ht hlt
    obtain ⟨hs, hb, hn, hk⟩ := hc
    refine .inl ⟨lt, hlt, hn, hb, hk, .inr ⟨ht, hs⟩, ?_⟩
    rw [progress, ht] at h
    have he : acceptReply r i m = some (nackReply r i lt m) := by
      simp [acceptReply, hlt, hs, isState, hb, hn]
    rw [he] at h
    cases h
    exact nackReply_ballot hk
  · rename_i lt ht hlt
    obtain ⟨hr, hs, hn, hb⟩ := hc
    refine .inr ⟨lt, ht, hlt, hr, hs, hn, hb, ?_⟩
    rw [progress, ht] at h
    have he : tryPreAcceptReply T r i m = tryNack T r i { lt with nacks := u8 (lt.nacks + 1) } m := by
      simp [tryPreAcceptReply, hlt, hr, hs, hn]
    simp only [he, tryNack, if_pos hb] at h
    cases h
    rfl
  · exact hc.elim

end Step

/-- In runs whose events are all `Rising`, every event raises the copy's ballot or leaves it, and
raises it where it chooses one. -/
theorem ballots_rise {T : RangeTree} {w : World} (h : Run T w)
    (hc : ∀ t ∈ w.log, Rising t.who t.before t.event) : ∀ t ∈ w.log, t.Rises := by
  intro t ht
  obtain ⟨_, older, -, -, hh⟩ := h.grown.1.of_mem ht
  have hr := hc t ht
  have hk : t.pre.id < N := hh.who_eq ▸ hh.who_lt
  rw [← hh.who_eq] at hr
  obtain ⟨io, ha, -⟩ := hh.acts
  refine ⟨ha.ballot_le hh.located hk hr, fun hch => ?_⟩
  obtain ⟨e, he, hi, -⟩ := hh.handled
  rw [hi]
  cases hev : t.event with
  | propose m | checkpoint m | execute id =>
    rw [hev] at hch
    exact hch.elim
  | timeout id m =>
    rw [hev] at he hr hch
    obtain ⟨-, ⟨-, h⟩ | ⟨htm, -⟩⟩ := timeout_cases he
    · rw [h]
      exact lt_largerBallot hk (hr hch)
    · exact absurd (hch.symm.trans htm) (by simp)
  | step m =>
    rw [hev] at he hr hch
    rcases chosen_step (step_progress he).2 hch with
      ⟨lt, hlt, hn, hb, hnk, ht, h⟩ | ⟨lt, hty, hlt, hst, hs, hn, hb, h⟩ <;> rw [h]
    · exact lt_largerBallot hk (hr.nacked ht hlt hb hn hnk)
    · exact lt_raised hk hb ((hr.tried hty hlt hst hs hn).1 hb)

theorem ballots_rise_recovery : ∃ w, Run listTree w ∧ (∃ t ∈ w.log, Chooses t.before t.event)
    ∧ ∀ t ∈ w.log, t.Rises := by
  obtain ⟨w, hr, ht, hc⟩ := @exists_run
    [proposeAt 0 [49, 48] [50, 48], deliverAt 1 .preAccept ⟨0, 1⟩, timeoutAt 1 ⟨0, 1⟩,
      deliverAt 2 .prepare ⟨0, 1⟩]
    (fun w => (∃ t ∈ w.log, Chooses t.before t.event)
      ∧ ∀ t ∈ w.log, Rising t.who t.before t.event) _ (by decide +kernel)
  exact ⟨w, hr, ht, ballots_rise hr hc⟩

/-- A follower's timer goes off sixteen times: its ballots are 17, 33, .., 241, 1. -/
def sixteenRecoveries : List Move :=
  [proposeAt 0 [49, 48] [50, 48], deliverAt 1 .preAccept ⟨0, 1⟩]
    ++ List.replicate 16 (timeoutAt 1 ⟨0, 1⟩)

theorem sixteenRecoveries_wraps : ¬ ∀ w, Run listTree w → ∀ t ∈ w.log, t.Rises := by
  intro h
  obtain ⟨w, hr, t, ht, hn⟩ := @exists_run sixteenRecoveries (fun w => ∃ t ∈ w.log, ¬ t.Rises) _
    (by decide +kernel)
  exact hn (h w hr t ht)

end Epx
