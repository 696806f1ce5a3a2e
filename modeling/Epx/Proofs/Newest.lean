import Epx.Proofs.Schedules

/-!
# The newest accepted value

A copy is accepted at the ballot of the `ACCEPT` that stored it, which the log has and the replicas
do not keep: `recover` starts from the ballot the copy has promised, and an answer to `PREPARE` has
the ballot of the `PREPARE`. `Ranked` says when this does not matter, and that what `prepare_reply`
proposes is then the accepted value with the highest ballot among those it has met.
-/

namespace Epx

open Log

/-- The record stores a value as accepted: that of an `ACCEPT` it does not refuse, or that of one it
sends. -/
def Record.Accepts (t : Record) : Prop :=
  match t.event with
  | .step m => (m.type = .accept ∧ ¬ t.before.Decided ∧ t.before.ballot ≤ m.ballot)
      ∨ ∃ a ∈ t.sent, a.type = .accept
  | _ => False

instance (t : Record) : Decidable t.Accepts := by
  unfold Record.Accepts
  exact match t.event with
  | .propose _ | .checkpoint _ | .timeout _ _ | .step _ | .execute _ => inferInstance

/-- The ballot of the `ACCEPT` that stored replica `k`'s copy. -/
def stored (log : List Record) (k : ℕ) (id : InstanceId) : Option ℕ :=
  (log.find? fun t => t.who = k ∧ t.after.key = id ∧ t.Accepts).map fun t => t.after.ballot

/-- The answer to `PREPARE` that the record counts. -/
def Record.tallied (t : Record) : Option Message :=
  t.message.filter fun m => m.type = .prepareReply ∧ m.nack = 0
    ∧ ∃ lt ∈ t.before.lt, lt.recoveryStatus = .preparing

/-- The record begins a recovery. -/
def Record.Recovers (t : Record) : Prop :=
  (match t.event with
    | .timeout _ _ => True
    | .step m => m.type = .preAcceptReply ∨ m.type = .acceptReply
    | _ => False)
  ∧ ∃ a ∈ t.sent, a.type = .prepare

instance (t : Record) : Decidable t.Recovers := by
  unfold Record.Recovers
  exact match t.event with
  | .propose _ | .checkpoint _ | .timeout _ _ | .step _ | .execute _ => inferInstance

/-- The answers that replica `k` has counted since it began to recover the instance. -/
def counted : List Record → ℕ → InstanceId → List Message
  | [], _, _ => []
  | t :: log, k, id =>
    if t.who = k ∧ t.after.key = id then
      if t.Recovers then [] else t.tallied.toList ++ counted log k id
    else counted log k id

namespace Record

/-- The value of the replica's own copy, or of the one that an answer reports. -/
def value (t : Record) : Option Message → Option Command × ℕ × Deps
  | none => (t.before.command, t.before.seq, t.before.deps)
  | some m => (m.command, m.seq, m.deps)

/-- The copies met in this recovery that were accepted: the replica's own, and those reported by the
answers it has counted. -/
def Met (older : List Record) (t : Record) : Option Message → Prop
  | none => t.before.status = .accepted
  | some m => m ∈ counted (t :: older) t.who t.before.key ∧ m.instanceStatus = .accepted

/-- The ballot of the `ACCEPT` that stored a copy met; where an answer was given more than once, those
at each time. -/
def ballots (older : List Record) (t : Record) : Option Message → List ℕ
  | none => (stored older t.who t.before.key).toList
  | some m => older.tails.flatMap fun
      | [] => []
      | p :: oldest => if m ∈ p.sent then (stored oldest p.who m.id).toList else []

/-- The copy `c'` has the value of `c`, or was not accepted at a higher ballot. -/
def NoNewer (older : List Record) (t : Record) (c c' : Option Message) : Prop :=
  t.value c' = t.value c ∨ ∀ b ∈ t.ballots older c, ∀ b' ∈ t.ballots older c', b' ≤ b

/-- The record counts the answer, and decides on the answers counted. -/
def Decides (t : Record) (m : Message) : Prop :=
  t.tallied = some m ∧ ∃ lt ∈ t.before.lt, N / 2 ≤ u8 (lt.prepareOks + 1)

/-- Where the record decides after meeting accepted copies and no decided ones, it adopts the value
of one that none with another value is newer than, and sends it in an `ACCEPT`. -/
def AdoptsNewest (older : List Record) (t : Record) : Prop :=
  ∀ m, t.Decides m → ¬ t.before.Decided →
    (∀ p ∈ counted (t :: older) t.who t.before.key, ¬ p.Final) → (∃ c, t.Met older c) →
    ∃ c, t.Met older c ∧ (∀ c', t.Met older c' → t.NoNewer older c c')
      ∧ t.after.status = .accepted ∧ (t.after.command, t.after.seq, t.after.deps) = t.value c
      ∧ ∃ a ∈ t.sent, a.type = .accept ∧ (a.command, a.seq, a.deps) = t.value c

/-- An accepted answer that is taken over: the replica's own copy is not newer. One that is not, or is
not accepted: where one of the two is, the recovery record is that of the replica's own accepted copy,
whose command the answer has, and the answer is not newer. -/
def Outranks (older : List Record) (t : Record) (lt : LeaderTracker) (m : Message) : Prop :=
  if m.instanceStatus = .accepted ∧ (lt.maxBallot < m.ballot ∨ lt.ri.status = .none) then
    t.before.status = .accepted → t.NoNewer older (some m) none
  else
    t.before.status = .accepted ∨ m.instanceStatus = .accepted →
      t.before.status = .accepted ∧ lt.ri.status = .accepted
        ∧ (lt.ri.command, lt.ri.seq, lt.ri.deps) = t.value none ∧ m.command = t.before.command
        ∧ (m.instanceStatus = .accepted → t.NoNewer older none (some m))

/-- An answer that is counted and not final meets no decided copy, does not wrap `prepare_oks`, and
the record left by it is that of the newer copy. -/
def Ranked (older : List Record) (t : Record) : Prop :=
  ∀ m ∈ t.tallied, ∀ lt ∈ t.before.lt, ¬ m.Final →
    ¬ t.before.Decided ∧ N / 2 ≤ u8 (lt.prepareOks + 1) ∧ t.Outranks older lt m

instance (t : Record) (m : Message) : Decidable (t.Decides m) := by
  unfold Decides; infer_instance

instance (older : List Record) (t : Record) (c c' : Option Message) :
    Decidable (t.NoNewer older c c') := by
  unfold NoNewer; infer_instance

instance (older : List Record) (t : Record) (lt : LeaderTracker) (m : Message) :
    Decidable (t.Outranks older lt m) := by
  unfold Outranks; infer_instance

instance (older : List Record) (t : Record) : Decidable (t.Ranked older) := by
  unfold Ranked; infer_instance

end Record

section Stored

variable {T : RangeTree} {log older : List Record} {t : Record} {r : Replica} {i i' : Instance}
  {ev : Event} {io : List Message} {k : ℕ} {id : InstanceId}

/-- Only an `ACCEPT`, handled or sent, makes a copy accepted. -/
theorem Act.accepted (h : Act T r i ev i' io) (hs : i'.status = .accepted) :
    i.status = .accepted ∨ ∃ m, ev = .step m
      ∧ ((m.type = .accept ∧ ¬ i.Decided ∧ i.ballot ≤ m.ballot) ∨ ∃ a ∈ io, a.type = .accept) := by
  cases h with
  | acceptStore ht hd hb => exact .inr ⟨_, rfl, .inl ⟨ht, hd, hb⟩⟩
  | okAccept | replyAccept | preparedNoop | preparedAdopt | triedAccept =>
    exact .inr ⟨_, rfl, .inr ⟨_, List.mem_singleton_self _, rfl⟩⟩
  | slowTimeout | fastTimeout | ignore | preAcceptNack | okCount | nackCount | nackRecover
  | replyCount | acceptNack | acceptedCount | prepareNack | preparePromise | preparedNack
  | preparedCount | preparedTryOwn | tryNack | triedRaise | triedPrepare | triedDefer
  | triedCount => exact .inl hs
  | preAcceptReply | preAcceptOk =>
    simp only [preAcceptInst] at hs
    split_ifs at hs
  | _ => cases hs

theorem Happens.accepts (h : Happens T older t) (hs : t.after.status = .accepted) :
    t.before.status = .accepted ∨ t.Accepts := by
  obtain ⟨io, ha, hio⟩ := h.acts
  refine (ha.accepted hs).imp_right ?_
  rintro ⟨m, hev, hm⟩
  unfold Record.Accepts
  rw [hev, hio]
  refine hm.imp_right ?_
  rintro ⟨a, ha, hat⟩
  exact ⟨envelope t.who a, List.mem_map_of_mem ha, hat⟩

/-- An accepted copy was stored by an `ACCEPT`. -/
theorem exists_stored (h : Grown (Happens T) log) {i : Instance} (hl : Last log k id i)
    (hs : i.status = .accepted) : ∃ b, stored log k id = some b := by
  induction h generalizing i with
  | nil => simp [Last] at hl
  | @cons t older hg ht ih =>
    unfold stored
    by_cases hx : t.who = k ∧ t.after.key = id ∧ t.Accepts
    · exact ⟨t.after.ballot, by simp [hx]⟩
    · rw [List.find?_cons_of_neg (by simpa using hx)]
      rcases last_cons.1 hl with ⟨rfl, rfl, rfl⟩ | ⟨-, hl⟩
      · have hb := (ht.accepts hs).resolve_right fun ha => hx ⟨rfl, rfl, ha⟩
        have hl := ht.last_of_status (by rw [hb]; rintro ⟨⟩)
        rw [← ht.key] at hl
        exact ih hl hb
      · exact ih hl hs

/-- An answer to `PREPARE` without a nack reports the copy at the ballot asked for. -/
theorem Act.answers_prepare (h : Act T r i ev i' io) : ∀ a ∈ io, a.type = .prepareReply →
    a.nack = 0 → a.instanceStatus = i.status ∧ a.value = i.value ∧ a.ballot = i'.ballot := by
  cases h <;> simp [recoverMsg, phase1Msg, Message.value, Instance.value]

theorem mem_counted {m : Message} (h : m ∈ counted log k id) :
    ∃ p ∈ log, p.tallied = some m := by
  induction log with
  | nil => simp [counted] at h
  | cons t log ih =>
    simp only [counted] at h
    split_ifs at h with hw hr
    · simp at h
    · rcases List.mem_append.1 h with h | h
      · exact ⟨t, List.mem_cons_self, by simpa using h⟩
      · obtain ⟨p, hp, h⟩ := ih h
        exact ⟨p, List.mem_cons_of_mem t hp, h⟩
    · obtain ⟨p, hp, h⟩ := ih h
      exact ⟨p, List.mem_cons_of_mem t hp, h⟩

theorem Record.tallied_eq_some {m : Message} : t.tallied = some m ↔ t.event = .step m
    ∧ m.type = .prepareReply ∧ m.nack = 0
    ∧ ∃ lt, t.before.lt = some lt ∧ lt.recoveryStatus = .preparing := by
  rw [Record.tallied, Option.filter_eq_some_iff, ← Record.mem_message, Option.mem_def]
  simp

/-- Every accepted copy met has the ballot of an `ACCEPT`. -/
theorem ballots_ne_nil (hg : Grown (Happens T) (t :: older)) {c : Option Message}
    (hc : t.Met older c) : t.ballots older c ≠ [] := by
  cases c with
  | none =>
    have hc : t.before.status = .accepted := hc
    obtain ⟨b, hb⟩ := exists_stored hg.tail (hg.head.last_of_status (by rw [hc]; nofun)) hc
    simp [Record.ballots, hb]
  | some m =>
    obtain ⟨hm, hs⟩ := hc
    obtain ⟨p, hp, hpm⟩ := mem_counted hm
    obtain ⟨hev, hty, hn, -⟩ := Record.tallied_eq_some.1 hpm
    -- the record that gave the answer came before the one that counts it
    obtain ⟨q, hq, hqm⟩ : ∃ q ∈ older, m ∈ q.sent := by
      obtain ⟨xs, ys, hl, -, hh⟩ := hg.of_mem hp
      obtain ⟨⟨q, hq, hqm⟩, -⟩ := hh.source m hev
      refine ⟨q, ?_, hqm⟩
      cases xs with
      | nil =>
        obtain ⟨-, rfl⟩ := List.cons.inj hl
        exact hq
      | cons x xs =>
        obtain ⟨-, rfl⟩ := List.cons.inj hl
        exact List.mem_append_right _ (List.mem_cons_of_mem p hq)
    obtain ⟨xs, oldest, rfl, hgo, hh⟩ := hg.tail.of_mem hq
    obtain ⟨io, ha, hio⟩ := hh.acts
    have hst : q.before.status = .accepted := by
      rw [hio] at hqm
      obtain ⟨m', hm', rfl⟩ := List.mem_map.1 hqm
      exact (ha.answers_prepare m' hm' hty hn).1.symm.trans hs
    obtain ⟨b, hb⟩ := exists_stored hgo (hh.last_of_status (by rw [hst]; nofun)) hst
    refine List.ne_nil_of_mem (a := b) (List.mem_flatMap.2 ⟨q :: oldest, ?_, ?_⟩)
    · exact (List.mem_tails _ _).2 (List.suffix_append xs _)
    · simp [hqm, hh.sent_id hqm, hb]

end Stored

section Run

variable {T : RangeTree} {log older : List Record} {t : Record} {k : ℕ} {m : Message}

/-- Where the recovery is not over, no answer counted in it was accepted. -/
def Open (log : List Record) (k : ℕ) (i : Instance) : Prop :=
  ∀ lt ∈ i.lt, lt.recoveryStatus = .preparing → (∀ p ∈ counted log k i.key, ¬ p.Final) →
    ∀ p ∈ counted log k i.key, p.instanceStatus ≠ .accepted

theorem tally_acceptable {i : Instance} {lt : LeaderTracker} (h : m.instanceStatus = .accepted)
    (ho : lt.maxBallot < m.ballot ∨ lt.ri.status = .none ∨ lt.ri.status = .accepted) :
    (tallyReply i lt m).ri.Acceptable := by
  rcases tally_cases i lt m with ⟨-, b, l, he, -⟩ | ⟨hn, c, l, he, -⟩
  · rw [he]
    exact .inl h
  · rw [he]
    rcases ho with ho | ho | ho
    · exact absurd (.inl ⟨h, .inl ho⟩) hn
    · exact absurd (.inl ⟨h, .inr ho⟩) hn
    · exact .inl ho

theorem Act.preparing {ev : Event} {r : Replica} {i i' : Instance} {io : List Message}
    (h : Act T r i ev i' io) {lt' : LeaderTracker} (hl : i'.lt = some lt')
    (hp : lt'.recoveryStatus = .preparing) :
    Record.Recovers ⟨k, ev, r, i, i', io.map (envelope k)⟩
      ∨ ∃ lt, i.lt = some lt ∧ lt.recoveryStatus = .preparing := by
  cases h with
  | slowTimeout => exact .inl ⟨trivial, by simp [recoverMsg, envelope]⟩
  | nackRecover hty =>
    exact .inl ⟨hty.imp And.left And.left, by simp [recoverMsg, envelope]⟩
  | preparedNack _ hlt hr | preparedCommit _ hlt hr | preparedCount _ hlt hr
  | preparedNoop _ hlt hr | preparedAdopt _ hlt hr | preparedRestart _ hlt hr
  | preparedTryOwn _ hlt hr | preparedTry _ hlt hr => exact .inr ⟨_, hlt, hr⟩
  | triedRaise _ _ hr | triedPrepare _ _ hr | triedDefer _ _ hr | triedCount _ _ hr =>
    cases hl
    exact absurd (hr.symm.trans hp) (by rintro ⟨⟩)
  | triedRestart | triedRestartTwice | triedAccept =>
    cases hl
    exact absurd hp (by rintro ⟨⟩)
  | propose h | okCommit _ h | okAccept _ h | okCount _ h | nackCount _ h | replyCommit _ h
  | replyAccept _ h | replyCount _ h | acceptedCommit _ h | acceptedCount _ h =>
    cases hl
    exact .inr ⟨_, h, hp⟩
  | _ => exact .inr ⟨lt', hl, hp⟩

/-- What `prepare_reply` does with an answer that it counts and that is not final. -/
theorem prepareReply_eq {r : Replica} {i : Instance} {lt : LeaderTracker} (hlt : i.lt = some lt)
    (hr : lt.recoveryStatus = .preparing) (hn : m.nack = 0) (hf : ¬ m.Final)
    (hk : N / 2 ≤ u8 (lt.prepareOks + 1)) :
    prepareReply T r i m = decidePrepared T r (tallyInst i lt.prepareOk m)
      (tallyReply i lt.prepareOk m) m := by
  have hf : ¬ isState m.instanceStatus [.committed, .executed] = true := by
    simpa [isState_iff, Message.Final] using hf
  have hk : ¬ (tallyReply i lt.prepareOk m).prepareOks < N / 2 := by
    have ho : (tallyReply i lt.prepareOk m).prepareOks = u8 (lt.prepareOks + 1) := by
      rcases tally_cases i lt.prepareOk m with ⟨-, b, l, he, -⟩ | ⟨-, c, l, he, -⟩ <;> rw [he] <;> rfl
    omega
  unfold prepareReply
  rw [hlt]
  simp only
  rw [if_neg (not_not.2 hr), if_neg (not_not.2 hn), if_neg hf]
  exact if_neg hk

theorem decidePrepared_eq {r : Replica} {i : Instance} {lt : LeaderTracker} {e : Effect}
    (ha : lt.ri.Acceptable) (h : decidePrepared T r i lt m = some e) :
    e = sending r
      { i with
        command := lt.ri.command, seq := lt.ri.seq, deps := lt.ri.deps, status := .accepted
        lt := some lt.settled, shared := true }
      { m with ballot := i.ballot, deps := lt.ri.deps, seq := lt.ri.seq, type := .accept } := by
  rcases decidePrepared_cases h with ⟨hn, -⟩ | ⟨-, he⟩ | ⟨-, hna, -⟩ | ⟨-, hna, -⟩
  · rcases ha with ha | ⟨-, -, ha⟩ <;> exact absurd (hn.symm.trans ha) nofun
  · exact he
  · exact absurd ha hna
  · exact absurd ha hna

/-- An accepted answer within `Ranked` is the last one that the recovery counts. -/
theorem Record.Outranks.acceptable {i : Instance} {lt : LeaderTracker} (h : t.Outranks older lt m)
    (hs : m.instanceStatus = .accepted) : (tallyReply i lt.prepareOk m).ri.Acceptable := by
  refine tally_acceptable hs ?_
  unfold Record.Outranks at h
  split_ifs at h with ho
  · exact ho.2.imp_right .inl
  · exact .inr (.inr (h (.inr hs)).2.1)

theorem open_step {ev : Event} {r : Replica} {i i' : Instance} {io : List Message}
    (ht : Happens T older ⟨k, ev, r, i, i', io.map (envelope k)⟩)
    (hr : Record.Ranked older ⟨k, ev, r, i, i', io.map (envelope k)⟩)
    (hi : Open older k i) (ha : Act T r i ev i' io) :
    Open (⟨k, ev, r, i, i', io.map (envelope k)⟩ :: older) k i' := by
  set t : Record := ⟨k, ev, r, i, i', io.map (envelope k)⟩ with htdef
  intro lt' hlt' hp hf
  have hc : counted (t :: older) k i'.key
      = if t.Recovers then [] else t.tallied.toList ++ counted older k i.key := by
    simp [counted, t, ha.key]
  rw [hc] at hf ⊢
  split_ifs at hf ⊢ with hrec
  · simp
  obtain ⟨lt, hlt, hpl⟩ := (ha.preparing hlt' hp).resolve_left hrec
  intro p hp'
  rcases List.mem_append.1 hp' with hm | hm
  · have hfin := hf p (List.mem_append_left _ hm)
    have hm : t.tallied = some p := by simpa using hm
    intro hs
    obtain ⟨hev, hty, hn, -⟩ := Record.tallied_eq_some.1 hm
    obtain ⟨-, hoks, hout⟩ := hr p hm lt hlt hfin
    obtain ⟨e, he, hie, -⟩ := ht.handled
    rw [hev] at he
    obtain ⟨-, he⟩ := step_progress he
    simp only [progress, hty] at he
    rw [prepareReply_eq hlt hpl hn hfin hoks] at he
    have hi' : i' = e.inst := hie
    rw [hi', decidePrepared_eq (hout.acceptable hs) he] at hlt'
    cases hlt'
    cases hp
  · exact hi lt hlt hpl (fun p hp => hf p (List.mem_append_right _ hp)) p hm

/-- In a log of ranked records. -/
theorem grown_open {C : List Record → Record → Prop} (hC : ∀ {older t}, C older t → t.Ranked older)
    (h : Grown (fun older t => Happens T older t ∧ C older t) log) :
    ∀ k id i, Last log k id i → Open log k i := by
  refine (run_rule (I := Open) (M := fun _ _ => True) ?_ (fun h => h) ?_ ?_ h).1
  · intro older t k i _ hi hne lt hlt hp
    have hc : counted (t :: older) k i.key = counted older k i.key := by
      simp [counted, hne]
    rw [hc]
    exact hi lt hlt hp
  · rintro older t - - - - (hb | hb) lt hlt hp <;> rw [hb] at hlt
    · cases hlt
      cases hp
    · cases hlt
  · intro older k ev r i i' io _ ht hc _ _ hi ha
    exact ⟨open_step ht (hC hc) hi ha, fun _ _ => trivial⟩

/-- An answer that is not taken over leaves the record's value. -/
theorem tally_value (i : Instance) {lt : LeaderTracker} (hs : lt.ri.status = .accepted)
    (hm : ¬ (m.instanceStatus = .accepted ∧ (lt.maxBallot < m.ballot ∨ lt.ri.status = .none))) :
    ∃ c l, (tallyReply i lt m).ri = { lt.ri with preAcceptCount := c, leaderReplied := l } := by
  rcases tally_cases i lt m with ⟨ht, -⟩ | ⟨-, c, l, he, -⟩
  · rcases ht with ht | ⟨-, hb⟩ | ⟨-, hn⟩
    · exact absurd ht hm
    · rw [hs] at hb
      exact absurd hb (lt_irrefl _)
    · exact absurd (hs.symm.trans hn) nofun
  · exact ⟨c, l, by rw [he]⟩

theorem tally_taken (i : Instance) (lt : LeaderTracker)
    (hm : m.instanceStatus = .accepted ∧ (lt.maxBallot < m.ballot ∨ lt.ri.status = .none)) :
    ∃ c l, (tallyReply i lt m).ri = ⟨m.command, m.deps, m.instanceStatus, m.seq, c, l⟩ := by
  rcases tally_cases i lt m with ⟨-, b, l, he, -⟩ | ⟨hn, -⟩
  · exact ⟨_, l, by rw [he]⟩
  · exact absurd (.inl hm) hn

/-- The copies that the record which counts the answer decides on: the replica's own and the one the
answer reports, where they are accepted. -/
def Record.Candidate (t : Record) (m : Message) : Option Message → Prop
  | none => t.before.status = .accepted
  | some p => p = m ∧ m.instanceStatus = .accepted

/-- A ranked record adopts the newest of its candidates. -/
theorem Happens.adopts (ht : Happens T older t) (hr : t.Ranked older) (hm : t.tallied = some m)
    (hfin : ¬ m.Final) {c₀ : Option Message} (hc₀ : t.Candidate m c₀) :
    ∃ c, t.Candidate m c ∧ (∀ c', t.Candidate m c' → t.NoNewer older c c')
      ∧ t.after.status = .accepted ∧ (t.after.command, t.after.seq, t.after.deps) = t.value c
      ∧ ∃ a ∈ t.sent, a.type = .accept ∧ a.ballot = t.before.ballot
        ∧ (a.command, a.seq, a.deps) = t.value c := by
  obtain ⟨hev, hty, hn, lt, hlt, hpl⟩ := Record.tallied_eq_some.1 hm
  obtain ⟨-, hoks, hout⟩ := hr m hm lt hlt hfin
  obtain ⟨e, he, hie, hse⟩ := ht.handled
  rw [hev] at he
  obtain ⟨-, he⟩ := step_progress he
  simp only [progress, hty] at he
  rw [prepareReply_eq hlt hpl hn hfin hoks] at he
  by_cases ho : m.instanceStatus = .accepted ∧ (lt.maxBallot < m.ballot ∨ lt.ri.status = .none)
  · obtain ⟨n, l, hri⟩ := tally_taken t.before lt.prepareOk ho
    have he := decidePrepared_eq (hout.acceptable ho.1) he
    rw [hri] at he
    rw [Record.Outranks, if_pos ho] at hout
    refine ⟨some m, ⟨rfl, ho.1⟩, fun c' hc' => ?_, ?_, ?_, ?_⟩
    · cases c' with
      | none => exact hout hc'
      | some p => exact .inl (by rw [hc'.1])
    · rw [hie, he]
      rfl
    · rw [hie, he]
      rfl
    · rw [hse, he]
      exact ⟨_, List.mem_singleton_self _, rfl, rfl, rfl⟩
  · rw [Record.Outranks, if_neg ho] at hout
    have hs : t.before.status = .accepted ∨ m.instanceStatus = .accepted := by
      cases c₀ with
      | none => exact .inl hc₀
      | some p => exact .inr hc₀.2
    obtain ⟨hst, hrs, hval, hcmd, hnew⟩ := hout hs
    obtain ⟨n, l, hri⟩ := @tally_value m t.before lt.prepareOk hrs ho
    have he := decidePrepared_eq (.inl (by rw [hri]; exact hrs)) he
    rw [hri] at he
    refine ⟨none, hst, fun c' hc' => ?_, ?_, ?_, ?_⟩
    · cases c' with
      | none => exact .inl rfl
      | some p =>
        obtain ⟨rfl, hs⟩ := hc'
        exact hnew hs
    · rw [hie, he]
      rfl
    · rw [hie, he]
      exact hval
    · rw [hse, he]
      refine ⟨_, List.mem_singleton_self _, rfl, rfl, ?_⟩
      rw [← hval]
      exact Prod.ext (hcmd.trans (congrArg Prod.fst hval).symm) rfl

theorem Record.counted_eq (hk : t.after.key = t.before.key) (hm : t.tallied = some m) :
    counted (t :: older) t.who t.before.key = m :: counted older t.who t.before.key := by
  obtain ⟨hev, hty, -⟩ := Record.tallied_eq_some.1 hm
  have hrec : ¬ t.Recovers := by
    rintro ⟨h, -⟩
    simp [hev, hty] at h
  simp [counted, hk, hrec, hm]

theorem Record.Candidate.met {c : Option Message} (h : t.Candidate m c)
    (hk : t.after.key = t.before.key) (hm : t.tallied = some m) : t.Met older c := by
  cases c with
  | none => exact h
  | some p =>
    obtain ⟨rfl, hs⟩ := h
    exact ⟨by simp [Record.counted_eq hk hm], hs⟩

/-- In a run of ranked records, every recovery that decides after meeting an accepted copy adopts the
newest of the accepted values it has met. -/
theorem adopts_newest {w : World} (h : Run T w)
    (hc : Grown (fun older t => t.Ranked older) w.log) {newer older : List Record} {t : Record}
    (hl : w.log = newer ++ t :: older) : t.AdoptsNewest older := by
  have hg := h.grown.1.both hc
  rw [hl] at hg
  obtain ⟨ht, hr⟩ := hg.entry
  rintro m ⟨hm, -⟩ - hf ⟨c₀, hc₀⟩
  obtain ⟨-, -, -, lt, hlt, hpl⟩ := Record.tallied_eq_some.1 hm
  have hcount := @Record.counted_eq older t m ht.key hm
  have hfin : ¬ m.Final := hf m (by simp [hcount])
  have hopen : Open older t.who t.before :=
    grown_open (fun h => h) hg.of_append.tail _ _ _ (ht.last_of_preparing hlt hpl)
  -- the copies met are the replica's own and the one that this answer reports
  have hmet : ∀ c, t.Met older c → t.Candidate m c := by
    rintro (_ | p) hp
    · exact hp
    · obtain ⟨hp, hs⟩ := hp
      rw [hcount] at hp hf
      rcases List.mem_cons.1 hp with rfl | hp
      · exact ⟨rfl, hs⟩
      · exact absurd hs (hopen lt hlt hpl (fun q hq => hf q (List.mem_cons_of_mem m hq)) p hp)
  obtain ⟨c, hcm, hnew, hst, hval, a, ha, hta, -, hav⟩ := ht.adopts hr hm hfin (hmet c₀ hc₀)
  exact ⟨c, hcm.met ht.key hm, fun c' hc' => hnew c' (hmet c' hc'), hst, hval, a, ha, hta, hav⟩

end Run

/-- The `ACCEPT` of the slow path is stored by replicas 1 and 2, and replica 1 recovers. -/
def acceptedRecovers : List Move :=
  [proposeAt 1 [49, 48] [50, 48], proposeAt 0 [49, 48] [50, 48], deliverAt 2 .preAccept ⟨0, 1⟩,
    deliverAt 1 .preAccept ⟨0, 1⟩, deliverAt 0 .preAcceptReply ⟨0, 1⟩, deliverAt 1 .accept ⟨0, 1⟩,
    deliverAt 2 .accept ⟨0, 1⟩, timeoutAt 1 ⟨0, 1⟩, deliverAt 2 .prepare ⟨0, 1⟩,
    deliverAt 1 .prepareReply ⟨0, 1⟩]

theorem adopts_newest_recovers : ∃ w newer t older, Run listTree w
    ∧ Grown (fun older t => t.Ranked older) w.log ∧ w.log = newer ++ t :: older
    ∧ (∃ m, t.Decides m) ∧ t.before.status = .accepted ∧ t.AdoptsNewest older := by
  obtain ⟨w, hr, hc, t, ht, ⟨m, -, hd⟩, hs⟩ := @exists_run acceptedRecovers
    (fun w => Grown (fun older t => t.Ranked older) w.log ∧ ∃ t ∈ w.log,
      (∃ m ∈ t.tallied, t.Decides m) ∧ t.before.status = .accepted) _ (by decide +kernel)
  obtain ⟨newer, older, hl⟩ := List.append_of_mem ht
  exact ⟨w, newer, t, older, hr, hc, hl, ⟨m, hd⟩, hs, adopts_newest hr hc hl⟩

/-- Replica 2 has its copy accepted at the ballot of its own recovery, and recovers again. Replica 0
answers with what it accepted at the initial ballot, under the ballot of the second `PREPARE`. -/
def promisedBallot : List Move :=
  [proposeAt 1 [49, 48] [50, 48], proposeAt 0 [49, 48] [50, 48], deliverAt 1 .preAccept ⟨0, 1⟩,
    deliverAt 0 .preAcceptReply ⟨0, 1⟩, deliverAt 2 .preAccept ⟨0, 1⟩, timeoutAt 2 ⟨0, 1⟩,
    proposeAt 1 [49, 48] [50, 48], deliverAt 1 .prepare ⟨0, 1⟩, deliverAt 2 .prepareReply ⟨0, 1⟩,
    deliverAt 1 .preAccept ⟨0, 1⟩, deliverAt 2 .preAcceptReply ⟨0, 1⟩, timeoutAt 2 ⟨0, 1⟩,
    timeoutAt 2 ⟨0, 1⟩, deliverAt 0 .prepare ⟨0, 1⟩, deliverAt 2 .prepareReply ⟨0, 1⟩]

theorem promisedBallot_adopts_older : ¬ ∀ w, Run listTree w → ∀ newer t older,
    w.log = newer ++ t :: older → t.AdoptsNewest older := by
  intro h
  obtain ⟨w, hr, t, ht, ⟨m, -, hd⟩, hnd, hf, hs, hne, hnew⟩ := @exists_run promisedBallot
    (fun w => ∃ t ∈ w.log.head?, (∃ m ∈ t.tallied, t.Decides m) ∧ ¬ t.before.Decided
      ∧ (∀ p ∈ counted (t :: w.log.tail) t.who t.before.key, ¬ p.Final)
      ∧ t.before.status = .accepted ∧ (t.after.command, t.after.seq, t.after.deps) ≠ t.value none
      ∧ ∀ p ∈ counted (t :: w.log.tail) t.who t.before.key, ¬ t.NoNewer w.log.tail (some p) none) _
    (by decide +kernel)
  have hl : w.log = [] ++ t :: w.log.tail := (List.cons_head?_tail ht).symm
  obtain ⟨c, hc, hmax, -, hval, -⟩ := h w hr [] t _ hl m hd hnd hf ⟨none, hs⟩
  cases c with
  | none => exact hne hval
  | some p => exact hnew p hc.1 (hmax none hs)

end Epx
