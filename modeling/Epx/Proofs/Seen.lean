import Epx.Proofs.Once

/-!
# What the executor finds

The executor reads an instance where the replica keeps it. `commit` hands it over before it writes
the seq and the deps of the `COMMIT`, `do_commit` sends a message it has not filled in from the
instance, and a recovery under way can write to a committed instance. `Event.Sealed` says which
messages do none of this, and where these are all that is handled the executor finds what the
`COMMIT` carries from the hand-over on.
-/

namespace Epx

open Log

/-- The `COMMIT` of the event: the one it handles, or the one it sends. -/
def Record.committing (t : Record) : Option Message :=
  (t.message.filter fun m => m.type = .commit).or (t.sent.find? fun m => m.type = .commit)

/-- Replica `k` has handed the instance over with the `COMMIT` `m`, and has not executed it since. -/
def World.Awaits (w : World) (k : ℕ) (id : InstanceId) (m : Message) : Prop :=
  ∃ newer t older, w.log = newer ++ t :: older ∧ t.who = k ∧ t.after.key = id
    ∧ t.committing = some m ∧ ∀ p ∈ newer, ¬ (p.who = k ∧ p.event.executes id = true)

/-- The instance is committed with the seq and the deps of the message. -/
structure Instance.Holds (i : Instance) (m : Message) : Prop where
  status : i.status = .committed
  seq : i.seq = m.seq
  deps : i.deps = m.deps

/-- Where the message makes its handler call `commit` or `do_commit`, it has the seq and the deps
that the instance has when it is handed over. -/
def Message.Matches (m : Message) (i : Instance) : Prop :=
  match m.type with
  | .commit => i.seq = m.seq ∧ i.deps = m.deps
  | .preAcceptOk => ∀ lt ∈ i.lt, i.status = .preAccepted → isInitialBallot i.ballot →
      N / 2 ≤ u8 (lt.preAcceptOks + 1) → lt.equal ≠ 0 → hasUncommittedDeps i = false →
      i.seq = m.seq ∧ i.deps = m.deps
  | .preAcceptReply => ∀ lt ∈ i.lt, i.status = .preAccepted → i.ballot = m.ballot → m.nack = 0 →
      N / 2 ≤ u8 (lt.preAcceptOks + 1) →
      foldEqual lt.equal i.seq m.seq (i.deps.merge m.deps.slots).2 ≠ 0 →
      isInitialBallot i.ballot → hasUncommittedDeps (mergeReply i m lt) = false →
      i.seq ≤ m.seq ∧ (i.deps.merge m.deps.slots).1 = m.deps
  | .acceptReply => ∀ lt ∈ i.lt, i.status = .accepted → i.ballot = m.ballot → m.nack = 0 →
      N / 2 < u8 (lt.acceptOks + 1) + 1 → i.seq = m.seq ∧ i.deps = m.deps
  | _ => True

instance (m : Message) (i : Instance) : Decidable (m.Matches i) := by
  unfold Message.Matches
  exact match m.type with
  | .phase1 | .preAccept | .preAcceptOk | .preAcceptReply | .accept | .acceptReply | .commit
  | .prepare | .prepareReply | .tryPreAccept | .tryPreAcceptReply | .execute => inferInstance

/-- The record makes for a `TRY_PRE_ACCEPT`, and a conflict that is not committed keeps the instance
as it is. -/
def LeaderTracker.Blocked (T : RangeTree) (r : Replica) (i : Instance) (lt : LeaderTracker) :
    Prop :=
  lt.ri.status ≠ .none ∧ ¬ lt.ri.Acceptable ∧ lt.ri.leaderReplied = 0
    ∧ (N / 2 + 1) / 2 ≤ lt.ri.preAcceptCount
    ∧ ∀ q ∈ pacConflict T (r.put { i with lt := some lt.tryStart }).rows i i.shared
        lt.ri.command lt.ri.seq lt.ri.deps.slots,
      ∃ c ∈ q.1, c.status.bits < State.committed.bits

instance (T : RangeTree) (r : Replica) (i : Instance) (lt : LeaderTracker) :
    Decidable (lt.Blocked T r i) := by
  unfold LeaderTracker.Blocked RecoveryInstance.Acceptable
  infer_instance

/-- The message does not make a recovery write to the instance, which is committed. -/
def Message.Spares (T : RangeTree) (r : Replica) (i : Instance) (m : Message) : Prop :=
  match m.type with
  | .prepareReply => ∀ lt ∈ i.lt, lt.recoveryStatus = .preparing → m.nack = 0 →
      if m.Final then i.seq = m.seq ∧ i.deps = m.deps
      else (tallyReply i lt.prepareOk m).prepareOks < N / 2
        ∨ (tallyReply i lt.prepareOk m).Blocked T r (tallyInst i lt.prepareOk m)
  | .tryPreAccept => i.ballot ≤ m.ballot →
      ∀ q ∈ findConflict T r i m.command m.seq m.deps, q.1 ≠ none
  | .tryPreAcceptReply => ∀ lt ∈ i.lt, lt.recoveryStatus = .tryPreAccepting →
      lt.ri.status ≠ .none →
      if m.nack = 0 then u8 (lt.preAcceptOks + 1) < N / 2
      else i.ballot < m.ballot ∨ m.conflict.id = m.id
        ∨ ¬ (m.Restarts lt ∨ (lt.quorum.count 0 = N / 2
          ∧ (r.dh (dhKey m.id)).any fun k => decide (lt.quorum.getD k 0 ≠ 0)))
  | _ => True

instance (T : RangeTree) (r : Replica) (i : Instance) (m : Message) :
    Decidable (m.Spares T r i) := by
  unfold Message.Spares
  exact match m.type with
  | .phase1 | .preAccept | .preAcceptOk | .preAcceptReply | .accept | .acceptReply | .commit
  | .prepare | .prepareReply | .tryPreAccept | .tryPreAcceptReply | .execute => inferInstance

/-- The event hands an instance over with what the `COMMIT` carries, and leaves it so. -/
def Event.Sealed (T : RangeTree) (r : Replica) : Event → Prop
  | .step m => m.Matches (r.copy m.id) ∧ ((r.copy m.id).status = .committed →
      m.Spares T (r.put (r.copy m.id)) (r.copy m.id))
  | _ => True

instance (T : RangeTree) (r : Replica) (ev : Event) : Decidable (ev.Sealed T r) := by
  unfold Event.Sealed
  exact match ev with
  | .propose _ | .checkpoint _ | .timeout _ _ | .step _ | .execute _ => inferInstance

/-- The replica's events are `Sealed`; the executor may take any step. -/
def SealedStep (T : RangeTree) (c : Cluster) (k : ℕ) : Action → Prop
  | .replica ev => ev.Sealed T (c.world.replica k)
  | _ => True

instance (T : RangeTree) (c : Cluster) (k : ℕ) (a : Action) :
    Decidable (SealedStep T c k a) := by
  unfold SealedStep
  exact match a with
  | .replica _ | .write | .receive _ | .advance => inferInstance

section Commit

variable {T : RangeTree} {r : Replica} {i : Instance} {m p : Message} {e : Effect}

theorem doCommit_holds (h : doCommit r i m = some e) (hp : p ∈ e.io) (hs : i.seq = m.seq)
    (hd : i.deps = m.deps) : e.inst.Holds p := by
  obtain ⟨c, -, rfl⟩ := doCommit_eq h
  rw [List.mem_singleton.1 hp]
  exact ⟨rfl, hs, hd⟩

theorem preAcceptOk_holds (ht : m.type = .preAcceptOk) (h : preAcceptOk r i m = some e)
    (hc : m.Matches i) (hp : p ∈ e.io) (hpt : p.type = .commit) : e.inst.Holds p := by
  simp only [Message.Matches, ht] at hc
  rcases preAcceptOk_cases h with
    rfl | ⟨lt, hlt, hst, hib, ⟨hn, he, hu, h⟩ | ⟨-, rfl⟩ | ⟨-, rfl⟩⟩
  · simp [quiet] at hp
  · obtain ⟨hs, hd⟩ := hc lt hlt hst hib hn he hu
    exact doCommit_holds h hp hs hd
  · rw [List.mem_singleton.1 hp] at hpt
    cases hpt
  · simp [quiet] at hp

theorem nackReply_sent {lt : LeaderTracker} (hp : p ∈ (nackReply r i lt m).io) :
    p.type = .prepare := by
  rcases nackReply_cases (r := r) (i := i) (m := m) lt with ⟨-, h⟩ | ⟨-, h⟩ <;> rw [h] at hp
  · rw [recover_eq] at hp
    rw [List.mem_singleton.1 hp]
    rfl
  · simp [quiet] at hp

theorem preAcceptReply_holds (ht : m.type = .preAcceptReply) (h : preAcceptReply r i m = some e)
    (hc : m.Matches i) (hp : p ∈ e.io) (hpt : p.type = .commit) : e.inst.Holds p := by
  simp only [Message.Matches, ht] at hc
  rcases preAcceptReply_cases h with
    rfl | ⟨lt, hlt, hst, hb, ⟨-, rfl⟩ | ⟨hm, ⟨hn, he, hib, hu, h⟩ | ⟨-, rfl⟩ | ⟨-, rfl⟩⟩⟩
  · simp [quiet] at hp
  · rw [nackReply_sent hp] at hpt
    cases hpt
  · obtain ⟨hs, hd⟩ := hc lt hlt hst hb hm hn he hib hu
    exact doCommit_holds h hp (max_eq_right hs) hd
  · rw [List.mem_singleton.1 hp] at hpt
    cases hpt
  · simp [quiet] at hp

theorem acceptReply_holds (ht : m.type = .acceptReply) (h : acceptReply r i m = some e)
    (hc : m.Matches i) (hp : p ∈ e.io) (hpt : p.type = .commit) : e.inst.Holds p := by
  simp only [Message.Matches, ht] at hc
  rcases acceptReply_cases h with
    rfl | ⟨lt, hlt, hst, hb, ⟨-, rfl⟩ | ⟨hm, hn, h⟩ | ⟨-, rfl⟩⟩
  · simp [quiet] at hp
  · rw [nackReply_sent hp] at hpt
    cases hpt
  · obtain ⟨hs, hd⟩ := hc lt hlt hst hb hm hn
    exact doCommit_holds h hp hs hd
  · simp [quiet] at hp

/-- Of the other events only a final answer to `PREPARE` makes its handler send a `COMMIT`, which is
copied into the instance first. -/
theorem Act.holds_of_sent {ev : Event} {i' : Instance} {io : List Message}
    (h : Act T r i ev i' io) : ∀ p ∈ io, p.type = .commit →
      i'.Holds p ∨ ∃ m, ev = .step m ∧ (m.type = .preAcceptOk ∨ m.type = .preAcceptReply
        ∨ m.type = .acceptReply) := by
  cases h with
  | okCommit ht => exact fun _ _ _ => .inr ⟨_, rfl, .inl ht⟩
  | replyCommit ht => exact fun _ _ _ => .inr ⟨_, rfl, .inr (.inl ht)⟩
  | acceptedCommit ht => exact fun _ _ _ => .inr ⟨_, rfl, .inr (.inr ht)⟩
  | preparedCommit =>
    intro p hp _
    rw [List.mem_singleton.1 hp]
    exact .inl ⟨rfl, rfl, rfl⟩
  | _ => simp [recoverMsg, phase1Msg]

theorem Instance.Holds.ne_executed (h : i.Holds m) : i.status ≠ .executed := by simp [h.status]

theorem Instance.Holds.envelope (h : i.Holds p) (k : ℕ) : i.Holds (envelope k p) :=
  ⟨h.status, h.seq, h.deps⟩

/-- The instance that an event hands over holds what the event commits. -/
theorem Happens.holds {older : List Record} {t : Record} (h : Happens T older t)
    (hs : t.event.Sealed T t.pre) (hm : t.committing = some m) : t.after.Holds m := by
  obtain ⟨e, he, hae, hse⟩ := h.handled
  rcases Option.or_eq_some_iff.1 hm with hm | ⟨-, hm⟩
  · obtain ⟨hm, ht⟩ := Option.filter_eq_some_iff.1 hm
    rw [Record.mem_message.1 hm] at he
    obtain ⟨-, hp⟩ := step_progress he
    simp only [decide_eq_true_eq] at ht
    simp only [progress, ht, Option.some.injEq] at hp
    rw [hae, ← hp]
    exact ⟨rfl, rfl, rfl⟩
  · have ht : m.type = .commit := by simpa using List.find?_some hm
    have hmem := List.mem_of_find?_eq_some hm
    obtain ⟨io, ha, hio⟩ := h.acts
    have hmio := hmem
    rw [hio] at hmio
    obtain ⟨p, hp, rfl⟩ := List.mem_map.1 hmio
    rcases ha.holds_of_sent p hp ht with hh | ⟨m, hev, htm⟩
    · exact hh.envelope t.who
    · rw [hse] at hmem
      obtain ⟨q, hq, hqp⟩ := List.mem_map.1 hmem
      have hqt : q.type = .commit := by
        rw [← ht, ← hqp]
        rfl
      rw [hev] at he hs
      obtain ⟨hl, hpr⟩ := step_progress he
      have hc : m.Matches t.before := hl.1 ▸ hs.1
      rw [hae, ← hqp]
      rcases htm with htm | htm | htm <;> simp only [progress, htm] at hpr
      · exact (preAcceptOk_holds htm hpr hc hq hqt).envelope t.who
      · exact (preAcceptReply_holds htm hpr hc hq hqt).envelope t.who
      · exact (acceptReply_holds htm hpr hc hq hqt).envelope t.who

end Commit

section Keep

variable {T : RangeTree} {r : Replica} {i : Instance} {m q : Message} {e : Effect}

theorem prepareReply_keeps (ht : m.type = .prepareReply) (h : prepareReply T r i m = some e)
    (hs : m.Spares T r i) (hi : i.Holds q) : e.inst.Holds q := by
  simp only [Message.Spares, ht] at hs
  unfold prepareReply at h
  split at h
  · cases h
    exact hi
  rename_i lt hlt
  simp only at h
  split_ifs at h with h₁ h₂ h₃ h₄
  · cases h
    exact hi
  · cases h
    exact ⟨hi.status, hi.seq, hi.deps⟩
  · have hf : m.Final := by simpa [isState_iff, Message.Final] using h₃
    have hm := hs lt hlt (not_not.1 h₁) (not_not.1 h₂)
    rw [if_pos hf] at hm
    obtain ⟨c, -, rfl⟩ := doCommit_eq h
    exact ⟨rfl, hm.1.symm.trans hi.seq, hm.2.symm.trans hi.deps⟩
  · cases h
    exact ⟨hi.status, hi.seq, hi.deps⟩
  · have hf : ¬ m.Final := by simpa [isState_iff, Message.Final] using h₃
    have hm := hs lt hlt (not_not.1 h₁) (not_not.1 h₂)
    rw [if_neg hf] at hm
    obtain ⟨hn, ha, hl, hp, hb⟩ := hm.resolve_left h₄
    rcases decidePrepared_cases h with
      ⟨hn', -⟩ | ⟨ha', -⟩ | ⟨-, -, -, -, x, c, hx, hc⟩ | ⟨-, -, hlp, -⟩
    · exact absurd hn' hn
    · exact absurd ha' ha
    · obtain ⟨y, rfl, hy⟩ := hb _ hx
      rcases hc with ⟨_, hxy, hyc, -⟩ | ⟨_, -, -, rfl⟩ | ⟨hxy, -⟩
      · cases hxy
        exact absurd hy (by omega)
      · exact ⟨hi.status, hi.seq, hi.deps⟩
      · cases hxy
    · exact absurd ⟨hl, hp⟩ hlp

theorem tryPreAccept_keeps (ht : m.type = .tryPreAccept) (h : tryPreAccept T r i m = some e)
    (hs : m.Spares T r i) (hi : i.Holds q) : e.inst.Holds q := by
  simp only [Message.Spares, ht] at hs
  rcases tryPreAccept_cases h with ⟨-, rfl⟩ | ⟨hb, x, c, hf, ⟨_, -, rfl⟩ | ⟨rfl, -⟩⟩
  · exact hi
  · exact hi
  · exact absurd rfl (hs hb _ hf)

theorem tryNack_keeps {lt : LeaderTracker} (h : tryNack T r i lt m = some e)
    (hs : i.ballot < m.ballot ∨ m.conflict.id = m.id
      ∨ ¬ (m.Restarts lt ∨ (lt.quorum.count 0 = N / 2
        ∧ (r.dh (dhKey m.id)).any fun k => decide (lt.quorum.getD k 0 ≠ 0))))
    (hi : i.Holds q) : e.inst.Holds q := by
  unfold tryNack at h
  simp only at h
  split_ifs at h with h₁ h₂ h₃
  · cases h
    exact ⟨hi.status, hi.seq, hi.deps⟩
  · cases h
    exact ⟨hi.status, hi.seq, hi.deps⟩
  · obtain hs | hs | hs := hs
    · exact absurd hs h₁
    · exact absurd hs h₂
    · exact absurd (.inl ⟨h₂, h₃⟩) hs
  · obtain hs | hs | hs := hs
    · exact absurd hs h₁
    · exact absurd hs h₂
    · unfold deferConflict at h
      simp only [if_neg fun hd => hs (.inr hd), Option.map_some, Option.some.injEq] at h
      split_ifs at h <;> subst h <;> exact ⟨hi.status, hi.seq, hi.deps⟩

theorem tryPreAcceptReply_keeps (ht : m.type = .tryPreAcceptReply)
    (h : tryPreAcceptReply T r i m = some e) (hs : m.Spares T r i) (hi : i.Holds q) :
    e.inst.Holds q := by
  simp only [Message.Spares, ht] at hs
  unfold tryPreAcceptReply at h
  split at h
  · cases h
    exact hi
  rename_i lt hlt
  simp only at h
  split_ifs at h with h₁ h₂ h₃
  · cases h
    exact hi
  all_goals
    simp only [not_or, ne_eq, not_not] at h₁
    have hm := hs lt hlt h₁.1 h₁.2
  · rw [if_neg h₂] at hm
    exact tryNack_keeps h hm hi
  · rw [if_pos (not_not.1 h₂)] at hm
    omega
  · cases h
    exact ⟨hi.status, hi.seq, hi.deps⟩

theorem progress_keeps (h : progress T r i m = some e) (hm : m.type ≠ .phase1) (hc : m.Matches i)
    (hs : m.Spares T r i) (hi : i.Holds q) : e.inst.Holds q := by
  have hst := hi.status
  cases ht : m.type <;> simp only [progress, ht, Option.some.injEq] at h
  case phase1 => exact absurd ht hm
  case preAccept =>
    rcases preAccept_cases h with ⟨-, rfl⟩ | ⟨hp, -⟩ | ⟨hp, -⟩
    · exact hi
    · simp [hst] at hp
    · simp [hst] at hp
  case preAcceptOk =>
    rcases preAcceptOk_cases h with rfl | ⟨lt, -, hp, -⟩
    · exact hi
    · simp [hst] at hp
  case preAcceptReply =>
    rcases preAcceptReply_cases h with rfl | ⟨lt, -, hp, -⟩
    · exact hi
    · simp [hst] at hp
  case accept =>
    rcases accept_cases r i m with ⟨-, he⟩ | ⟨hd, -⟩ | ⟨hd, -⟩
    · exact h ▸ he ▸ hi
    · exact absurd (.inl hst) hd
    · exact absurd (.inl hst) hd
  case acceptReply =>
    rcases acceptReply_cases h with rfl | ⟨lt, -, hp, -⟩
    · exact hi
    · simp [hst] at hp
  case commit =>
    simp only [Message.Matches, ht] at hc
    subst h
    exact ⟨rfl, hc.1.symm.trans hi.seq, hc.2.symm.trans hi.deps⟩
  case prepare =>
    rcases prepare_cases r i m with ⟨-, he⟩ | ⟨-, he⟩ <;> rw [← h, he]
    · exact hi
    · exact ⟨hi.status, hi.seq, hi.deps⟩
  case prepareReply => exact prepareReply_keeps ht h hs hi
  case tryPreAccept => exact tryPreAccept_keeps ht h hs hi
  case tryPreAcceptReply => exact tryPreAcceptReply_keeps ht h hs hi
  case execute => exact h ▸ hi

end Keep

section Runs

variable {T : RangeTree} {w w' : World} {k j : ℕ} {ev : Event} {id : InstanceId} {m : Message}

/-- A registered copy after an event: what the event left, or what it was. -/
theorem find_apply_of_ne {r : Replica} {e : Effect} {i : Instance} (hi : i.status ≠ .executed)
    (hf : (id = e.inst.key ∧ e.inst = i) ∨ (id ≠ e.inst.key ∧ r.find id = some i)) :
    (r.apply e).find id = some i := by
  have hp : (r.put e.inst).find id = some i := by
    rw [Replica.find_put]
    rcases hf with ⟨hid, rfl⟩ | ⟨hid, hf⟩
    · rw [if_pos hid]
    · rw [if_neg hid, hf]
  show (if e.cleared then (r.put e.inst).clear else r.put e.inst).find id = some i
  split_ifs
  · exact Replica.find_clear_of_ne hi hp
  · exact hp

/-- An event on a committed copy that does not execute it. -/
theorem Happens.keeps {older : List Record} {t : Record} (hg : Grown (Happens T) older)
    (h : Happens T older t) (hs : t.event.Sealed T t.pre)
    (hx : t.event.executes t.before.key = false) (hi : t.before.Holds m) : t.after.Holds m := by
  obtain ⟨e, he, hae, -⟩ := h.handled
  have hl := h.located
  rw [hae]
  cases hev : t.event with
  | propose m' | checkpoint m' =>
    -- the instance is new
    rw [hev] at hl
    have hst := hi.status
    rw [hl.2] at hst
    cases hst
  | timeout id' m' =>
    rw [hev] at he
    obtain ⟨-, ⟨-, rfl⟩ | ⟨-, rfl⟩⟩ := timeout_cases he <;> exact ⟨hi.status, hi.seq, hi.deps⟩
  | step m' =>
    have hm := type_ne_of_sent hg (h.source m' hev).1
    rw [hev] at he hs hl
    obtain ⟨-, hp⟩ := step_progress he
    simp only [Event.Sealed, ← hl.1] at hs
    exact progress_keeps hp hm hs.1 (hs.2 hi.status) hi
  | execute id' =>
    rw [hev] at hl hx
    have hk := (h.found id' _ hl).key
    simp [Event.executes, hk] at hx

theorem awaits_cons {log : List Record} {t : Record} {rs : ℕ → Replica}
    (rs' : ℕ → Replica) (h : World.Awaits ⟨rs, t :: log⟩ j id m) :
    (World.Awaits ⟨rs', log⟩ j id m ∧ ¬ (t.who = j ∧ t.event.executes id = true))
      ∨ (t.who = j ∧ t.after.key = id ∧ t.committing = some m) := by
  obtain ⟨newer, u, older, hlog, hw, hk, hc, hx⟩ := h
  cases newer with
  | nil =>
    obtain ⟨rfl, -⟩ := List.cons.inj hlog
    exact .inr ⟨hw, hk, hc⟩
  | cons p newer =>
    obtain ⟨rfl, hlog'⟩ := List.cons.inj hlog
    exact .inl ⟨⟨newer, u, older, hlog', hw, hk, hc, fun q hq => hx q (List.mem_cons_of_mem _ hq)⟩,
      hx _ List.mem_cons_self⟩

/-- What waits for execution is registered with what was committed. -/
def World.Sound (w : World) : Prop :=
  ∀ k id m, w.Awaits k id m → ∃ i, (w.replica k).find id = some i ∧ i.Holds m

theorem World.Sound.init : World.init.Sound := by
  rintro k id m ⟨newer, t, older, hlog, -⟩
  simp [World.init] at hlog

theorem World.Sound.next (h : w.Sound) (hr : Run T w) (hn : w.next T k ev = some w')
    (hs : ev.Sealed T (w.replica k)) : w'.Sound := by
  have hg' := (Run.next hr hn).grown.1
  have hg := hr.grown.1
  obtain ⟨-, -, x, e, -, rfl⟩ := next_eq hn
  have ht := hg'.head
  intro j id m ha
  rcases awaits_cons w.replica ha with ⟨ha, hx⟩ | ⟨rfl, hk, hc⟩
  · obtain ⟨i, hf, hi⟩ := h j id m ha
    by_cases hj : j = k
    · subst hj
      simp only [Function.update_self]
      by_cases hid : id = e.inst.key
      · have hid : id = x.key := hid.trans ht.key
        subst hid
        obtain rfl : x = i := ht.before_eq hf
        have hx : ev.executes x.key = false := by simpa using hx
        have hk : e.inst.Holds m := ht.keeps hg hs hx hi
        exact ⟨e.inst, find_apply_of_ne hk.ne_executed (.inl ⟨ht.key.symm, rfl⟩), hk⟩
      · exact ⟨i, find_apply_of_ne hi.ne_executed (.inr ⟨hid, hf⟩), hi⟩
    · simp only [Function.update_of_ne hj]
      exact ⟨i, hf, hi⟩
  · have hh : e.inst.Holds m := ht.holds hs hc
    simp only [Function.update_self]
    exact ⟨e.inst, find_apply_of_ne hh.ne_executed (.inl ⟨hk.symm, rfl⟩), hh⟩

/-- What `commit` has still to write is there. -/
def Cluster.Level (c : Cluster) : Prop :=
  ∀ k, ∀ u ∈ (c.node k).unwritten, ∃ i, (c.world.replica k).find u.id = some i
    ∧ i.key = u.id ∧ i.deps = u.deps ∧ ∀ s ∈ u.seq, i.seq = s

/-- The executor finds what the replica has. -/
theorem Cluster.Level.find_view {c : Cluster} (h : c.Level) (k : ℕ) (id : InstanceId) :
    (c.view k).find id = (c.world.replica k).find id := by
  unfold Cluster.view Node.view
  cases hu : (c.node k).unwritten with
  | none => rfl
  | some u =>
    obtain ⟨i, hf, hk, hd, hs⟩ := h k u hu
    have hi : { i with seq := u.seq.getD i.seq, deps := u.deps } = i := by
      cases hq : u.seq with
      | none => rw [← hd]; rfl
      | some s => rw [← hd, ← hs s hq]; rfl
    simp only [hf, hi, Option.map_some, Option.getD_some]
    rw [Replica.find_put]
    split_ifs with hid
    · rw [hid, hk, hf]
    · rfl

theorem Cluster.Level.update {c : Cluster} {n : Node} (h : c.Level)
    (hn : n.unwritten = (c.node k).unwritten) :
    Cluster.Level { c with node := Function.update c.node k n } := by
  intro j u hu
  by_cases hj : j = k
  · subst hj
    simp only [Function.update_self] at hu
    exact h j u (hn ▸ hu)
  · simp only [Function.update_of_ne hj] at hu
    exact h j u hu

theorem Node.Steps.unwritten {n n' : Node} {r : Replica} {x : Option InstanceId}
    (h : n.Steps r n' x) : n'.unwritten = n.unwritten := by
  cases h <;> rfl

/-- `EXECUTED` is all that the executor writes. -/
theorem find_execute {r : Replica} {x i : Instance} {e : Effect} {v : InstanceId}
    (h : r.handle T (.execute id) = .handled x e)
    (hk : ∀ y, r.find id = some y → y.key = id) (hf : r.find v = some i) :
    ∃ i', (r.apply e).find v = some i' ∧ i'.key = i.key ∧ i'.seq = i.seq ∧ i'.deps = i.deps := by
  simp only [Replica.handle] at h
  split at h
  · cases h
  rename_i hy
  split_ifs at h
  cases h
  show ∃ i', (r.put { x with status := .executed }).find v = some i' ∧ _
  rw [Replica.find_put]
  split_ifs with hv
  · have hv : v = id := hv.trans (hk x hy)
    rw [hv, hy] at hf
    cases hf
    exact ⟨_, rfl, rfl, rfl, rfl⟩
  · exact ⟨i, hf, rfl, rfl, rfl⟩

theorem Cluster.Level.next {c c' : Cluster} {a : Action} (h : c.Level)
    (hr : Run T c.world) (ha : SealedStep T c k a) (hs : c.Step T k a c') : c'.Level := by
  cases hs with
  | @replica ev w i e hev hu hh hw =>
    obtain ⟨-, -, i', e', hh', rfl⟩ := next_eq hw
    obtain ⟨rfl, rfl⟩ : i = i' ∧ e = e' := by
      rw [hh] at hh'
      cases hh'
      exact ⟨rfl, rfl⟩
    intro j u hju
    by_cases hj : j = k
    · subst hj
      simp only [Function.update_self] at hju ⊢
      unfold Node.handOver at hju
      split_ifs at hju with hx
      · -- the instance is on the channel, and `commit` has its two last statements to go
        cases hev : ev with
        | step m =>
          rw [hev] at hju hh ha
          simp only [Option.mem_def] at hju
          split_ifs at hju with hm
          cases hju
          obtain ⟨hl, hp⟩ := step_progress hh
          have hc : m.Matches i := hl.1 ▸ ha.1
          simp only [progress, hm, Option.some.injEq] at hp
          simp only [Message.Matches, hm] at hc
          refine ⟨e.inst, find_apply_of_ne ?_ (.inl ⟨?_, rfl⟩), ?_, ?_, ?_⟩ <;> subst hp
          · exact nofun
          · rfl
          · rfl
          · exact hc.2.symm
          · exact fun s hs => hc.1.symm.trans (Option.some.inj hs)
        | propose | checkpoint | timeout | execute =>
          rw [hev] at hju
          simp at hju
      · rw [hu] at hju
        cases hju
    · simp only [Function.update_of_ne hj] at hju ⊢
      exact h j u hju
  | write hu =>
    intro j u hju
    by_cases hj : j = k
    · subst hj
      simp only [Function.update_self, Node.write] at hju
      obtain ⟨u', hu', hju⟩ := Option.bind_eq_some_iff.1 hju
      split_ifs at hju
      cases hju
      obtain ⟨i, hf, hk, hd, -⟩ := h j u' hu'
      exact ⟨i, hf, hk, hd, by simp⟩
    · simp only [Function.update_of_ne hj] at hju
      exact h j u hju
  | receive ht hc hf hvs => exact h.update rfl
  | advance hn => exact h.update ((Node.advance_steps hn).unwritten)
  | @mark n id w hn hw =>
    obtain ⟨-, -, x, e, hx, rfl⟩ := next_eq hw
    intro j u hju
    by_cases hj : j = k
    · subst hj
      simp only [Function.update_self] at hju ⊢
      rw [(Node.advance_steps hn).unwritten] at hju
      obtain ⟨i, hf, hk, hd, hs⟩ := h j u hju
      obtain ⟨i', hf', hk', hs', hd'⟩ := find_execute hx (fun y hy => hr.key hy) hf
      exact ⟨i', hf', hk'.trans hk, hd'.trans hd, fun s hsu => hs'.trans (hs s hsu)⟩
    · simp only [Function.update_of_ne hj] at hju ⊢
      exact h j u hju

theorem ClusterRun.sound {c : Cluster} (h : ClusterRun (SealedStep T) T c) :
    c.world.Sound ∧ c.Level := by
  induction h with
  | init => exact ⟨.init, fun k u hu => by simp [Cluster.init] at hu⟩
  | @next c c' k a h hok hn ih =>
    obtain ⟨hw, hl⟩ := ih
    have hs := Cluster.next_step hn
    refine ⟨?_, hl.next h.run hok hs⟩
    cases hs with
    | replica _ _ _ hnw => exact hw.next h.run hnw hok
    | mark _ hnw => exact hw.next h.run hnw trivial
    | write | receive | advance => exact hw

/-- From the hand-over until it executes the instance, the executor finds it committed with the seq
and the deps that the `COMMIT` carries. -/
theorem finds_committed {c : Cluster} (h : ClusterRun (SealedStep T) T c) (k : ℕ)
    (id : InstanceId) (m : Message) (ha : c.world.Awaits k id m) :
    ∃ i, (c.view k).find id = some i ∧ i.status = .committed ∧ i.seq = m.seq ∧ i.deps = m.deps := by
  obtain ⟨i, hf, hi⟩ := h.sound.1 k id m ha
  exact ⟨i, (h.sound.2.find_view k id).trans hf, hi.status, hi.seq, hi.deps⟩

end Runs

/-- The last event of the log hands the instance over. -/
theorem awaits_head {w : World} {t : Record} {m : Message} (ht : w.log.head? = some t)
    (hm : t.committing = some m) : w.Awaits t.who t.after.key m :=
  ⟨[], t, w.log.tail, (List.cons_head?_tail ht).symm, rfl, rfl, hm, by simp⟩

/-- Replica 1 has pre-accepted the instance when the `COMMIT` comes. -/
theorem finds_committed_follower : ∃ c m, ClusterRun (SealedStep listTree) listTree c
    ∧ c.world.Awaits 1 ⟨0, 1⟩ m
    ∧ ∃ i, (c.view 1).find ⟨0, 1⟩ = some i ∧ i.status = .committed ∧ i.seq = m.seq
      ∧ i.deps = m.deps := by
  obtain ⟨c, hc, t, ht, hw, hk, m, hm, -⟩ := exists_clusterRun (SealedStep listTree)
    ((fastCommit ++ [deliverAt 1 .commit ⟨0, 1⟩]).map Move.turn)
    (p := fun c => ∃ t ∈ c.world.log.head?, t.who = 1 ∧ t.after.key = ⟨0, 1⟩
      ∧ ∃ m ∈ t.committing, m.seq = 1)
    (by decide +kernel)
  have ha := awaits_head ht hm
  rw [hw, hk] at ha
  exact ⟨c, m, hc, ha, finds_committed hc 1 ⟨0, 1⟩ m ha⟩

/-- Replica 2, which has not pre-accepted the instance, is in `commit`, and the executor has received
it and begun the graph with the seq that it was made with. -/
theorem stale_read : ¬ ∀ c, ClusterRun (fun _ _ _ => True) listTree c → ∀ k id m,
    c.world.Awaits k id m →
    ∃ i, (c.view k).find id = some i ∧ i.status = .committed ∧ i.seq = m.seq ∧ i.deps = m.deps := by
  intro h
  obtain ⟨c, hc, t, ht, hw, hk, m, hm, hs, i, hi, hi₀⟩ := exists_clusterRun (fun _ _ _ => True)
    ((fastCommit ++ [deliverAt 2 .commit ⟨0, 1⟩]).map Move.turn ++ receiveAt 2 :: advanceAt 2 1)
    (p := fun c => ∃ t ∈ c.world.log.head?, t.who = 2 ∧ t.after.key = ⟨0, 1⟩
      ∧ ∃ m ∈ t.committing, m.seq = 1 ∧ ∃ i ∈ (c.view 2).find ⟨0, 1⟩, i.seq = 0)
    (by decide +kernel)
  have ha := awaits_head ht hm
  rw [hw, hk] at ha
  obtain ⟨j, hj, -, hjs, -⟩ := h c hc 2 ⟨0, 1⟩ m ha
  rw [Option.mem_def, hj] at hi
  cases hi
  omega

end Epx
