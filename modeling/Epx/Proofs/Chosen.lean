import Epx.Lib.Ballots
import Epx.Proofs.Lifecycle
import Epx.Proofs.Newest
import Epx.Proofs.SlowPath

/-!
# Values accepted by a majority

Above the initial ballots a replica sends `ACCEPT` only at a ballot where it has counted an answer
to its `PREPARE`. If two replicas have stored a value as accepted at a lower ballot, one of them is
that replica or has given the answer; so the recovery has met a copy that was accepted there or
above, and what it adopts was offered there or above.
-/

namespace Epx

open Log Ballots

/-- Replica `k` has counted an answer to its `PREPARE` at the ballot, or this is an initial one. -/
def Resolved (log : List Record) (id : InstanceId) (b k : ℕ) : Prop :=
  isInitialBallot b = true ∨ ∃ t ∈ log, t.who = k ∧ t.after.key = id ∧ t.before.ballot = b
    ∧ ∃ m, t.tallied = some m ∧ ¬ m.Final

/-- Replica `k` has stored a value as accepted at the ballot. -/
def Held (log : List Record) (k : ℕ) (id : InstanceId) (b : ℕ) : Prop :=
  ∃ u ∈ log, u.who = k ∧ u.after.key = id ∧ u.after.ballot = b ∧ u.after.status = .accepted
    ∧ u.Accepts

/-- The value has been sent in an `ACCEPT` at the ballot. -/
def Offered (log : List Record) (id : InstanceId) (b : ℕ) (v : Value) : Prop :=
  ∃ k a, Sent log k a ∧ a.type = .accept ∧ a.id = id ∧ a.ballot = b ∧ a.value = v

theorem Resolved.cons {log : List Record} {id : InstanceId} {b k : ℕ} (h : Resolved log id b k)
    (t : Record) : Resolved (t :: log) id b k := by
  refine h.imp_right ?_
  rintro ⟨u, hu, h⟩
  exact ⟨u, List.mem_cons_of_mem t hu, h⟩

theorem Held.cons {log : List Record} {id : InstanceId} {b k : ℕ} (h : Held log k id b)
    (t : Record) : Held (t :: log) k id b := by
  obtain ⟨u, hu, h⟩ := h
  exact ⟨u, List.mem_cons_of_mem t hu, h⟩

theorem Offered.of_subset {log log' : List Record} {id : InstanceId} {b : ℕ} {v : Value}
    (h : Offered log id b v) (hs : log ⊆ log') : Offered log' id b v := by
  obtain ⟨k, a, ⟨p, hp, h⟩, ha⟩ := h
  exact ⟨k, a, ⟨p, hs hp, h⟩, ha⟩

theorem stored_cons {log : List Record} {t : Record} {k : ℕ} {id : InstanceId} :
    stored (t :: log) k id = if t.who = k ∧ t.after.key = id ∧ t.Accepts then some t.after.ballot
      else stored log k id := by
  unfold stored
  by_cases h : t.who = k ∧ t.after.key = id ∧ t.Accepts
  · rw [if_pos h, List.find?_cons_of_pos (by simpa using h)]
    rfl
  · rw [if_neg h, List.find?_cons_of_neg (by simpa using h)]

section Act

variable {T : RangeTree} {r : Replica} {i i' : Instance} {ev : Event} {io : List Message} {k : ℕ}
  {m : Message}

theorem Act.answers_accept (h : Act T r i (.step m) i' io)
    (ht : m.type = .accept ∨ m.type = .acceptReply) : ∀ a ∈ io, a.type ≠ .accept := by
  cases h with
  | ignore | nackCount | acceptedCount => simp
  | nackRecover | acceptNack | acceptStore | acceptedCommit => simp [recoverMsg]
  | preAcceptNack hty | preAcceptReply hty | preAcceptOk hty | okCommit hty | okAccept hty
  | okCount hty | replyCommit hty | replyAccept hty | replyCount hty | prepareNack hty
  | preparePromise hty | preparedNack hty | preparedCommit hty | preparedCount hty
  | preparedNoop hty | preparedAdopt hty | preparedRestart hty | preparedTryOwn hty
  | preparedTry hty | tryNack hty | tryStore hty | triedRaise hty | triedPrepare hty
  | triedDefer hty | triedRestart hty | triedRestartTwice hty | triedAccept hty | triedCount hty
  | commit hty => rcases ht with ht | ht <;> exact absurd (ht.symm.trans hty) (by rintro ⟨⟩)

/-- An `ACCEPT` has the values of its sender's copy, which is accepted. -/
theorem Act.sent_accept (h : Act T r i ev i' io) (hs : Storing i ev) {a : Message} (ha : a ∈ io)
    (hta : a.type = .accept) : a.Carries i' ∧ i'.status = .accepted := by
  have faithful : Matching i ev → a.Carries i' ∧ i'.status = .accepted := by
    intro hm
    have hf := @Act.faithful T r i i' ev io 0 h hm (envelope 0 a) (List.mem_map_of_mem ha)
    exact ⟨hf.1 (.inl hta), hf.2.1 hta⟩
  cases ev with
  | step m =>
    by_cases hm : m.type = .accept ∨ m.type = .acceptReply
    · exact absurd hta (h.answers_accept hm a ha)
    · exact faithful (hs.matching (fun h => hm (.inr h)) fun h => hm (.inl h))
  | _ => exact faithful hs

/-- An accepted copy keeps its value until one is stored again. -/
theorem Act.keeps_accepted (h : Act T r i ev i' io) (hg : Guarded i ev)
    (hs : i.status = .accepted) (hs' : i'.status = .accepted)
    (hn : ¬ Record.Accepts ⟨k, ev, r, i, i', io.map (envelope k)⟩) : i'.value = i.value := by
  cases h with
  | acceptStore ht hd hb => exact absurd (.inl ⟨ht, hd, hb⟩) hn
  | okAccept | replyAccept | preparedNoop | preparedAdopt | triedAccept =>
    exact absurd (.inr ⟨_, List.mem_singleton_self _, rfl⟩) hn
  | preAcceptReply _ hst | preAcceptOk _ hst =>
    rcases hst with hst | hst <;> exact absurd (hs.symm.trans hst) (by rintro ⟨⟩)
  | replyCount _ _ hst => exact absurd (hs.symm.trans hst) (by rintro ⟨⟩)
  | slowTimeout | fastTimeout | ignore | preAcceptNack | okCount | nackCount | nackRecover
  | acceptNack | acceptedCount | prepareNack | preparePromise | preparedNack
  | preparedCount | tryNack | triedRaise | triedPrepare | triedDefer | triedCount => rfl
  | preparedTryOwn ht hlt hr hm hf hlt' _ ha =>
    -- the scan may widen the command, but the record of an accepted copy is adopted
    subst hlt'
    have := hg.below ht hlt hr hm hf ha
    simp [hs, State.rank] at this
  | _ => cases hs'

/-- `PREPARING` and `TRY_PRE_ACCEPTING` are for trackers only. -/
def State.OfCopy (s : State) : Prop := s ≠ .preparing ∧ s ≠ .tryPreAccepting

theorem Act.ofCopy (h : Act T r i ev i' io) (hs : i.status.OfCopy) : i'.status.OfCopy := by
  cases h with
  | slowTimeout | fastTimeout | ignore | preAcceptNack | okCount | nackCount | nackRecover
  | replyCount | acceptNack | acceptedCount | prepareNack | preparePromise | preparedNack
  | preparedCount | preparedTryOwn | tryNack | triedRaise | triedPrepare | triedDefer
  | triedCount => exact hs
  | preAcceptReply | preAcceptOk =>
    simp only [preAcceptInst]
    split_ifs <;> exact ⟨by rintro ⟨⟩, by rintro ⟨⟩⟩
  | _ => exact ⟨by rintro ⟨⟩, by rintro ⟨⟩⟩

end Act

section Log

variable {T : RangeTree} {C : List Record → Record → Prop} {W log older : List Record}
  {t : Record} {k : ℕ} {id : InstanceId} {b : ℕ} {a m : Message}

/-- An `ACCEPT` that is not refused. -/
theorem Happens.stores (ht : Happens T older t) (hev : t.event = .step m) (hty : m.type = .accept)
    (hd : ¬ t.before.Decided) (hb : t.before.ballot ≤ m.ballot) :
    t.after = { t.before with
      status := .accepted, ballot := m.ballot, seq := m.seq, deps := m.deps } := by
  obtain ⟨e, he, hie, -⟩ := ht.handled
  rw [hev] at he
  obtain ⟨-, he⟩ := step_progress he
  simp only [progress, hty, Option.some.injEq] at he
  rcases accept_cases (t.pre.put t.before) t.before m with ⟨h, -⟩ | ⟨-, h, -⟩ | ⟨-, -, h⟩
  · exact absurd h hd
  · omega
  · rw [hie, ← he, h]
    rfl

theorem Happens.offers (ht : Happens T older t) (hs : Storing t.before t.event) (ha : a ∈ t.sent)
    (hta : a.type = .accept) : a.ballot = t.after.ballot ∧ a.value = t.after.value
      ∧ a.id = t.after.key ∧ t.after.status = .accepted := by
  obtain ⟨io, hact, hio⟩ := ht.acts
  have hid := (ht.sent_id ha).trans ht.key.symm
  rw [hio] at ha
  obtain ⟨a, ha', rfl⟩ := List.mem_map.1 ha
  obtain ⟨⟨hc, hq, hb, hd⟩, hst⟩ := hact.sent_accept hs ha' hta
  exact ⟨hb, Prod.ext hc (Prod.ext hq hd), hid, hst⟩

/-- The values sent in an `ACCEPT` at one ballot are the same. -/
theorem offered_unique (hC : ∀ {older t}, C older t → t.Orderly)
    (hg : Grown (fun older t => Happens T older t ∧ C older t) W) : Unique (Offered W id) := by
  -- the later `ACCEPT` has the value of the copy, and so has the earlier one
  have later : ∀ {xs older t} {a a' : Message}, W = xs ++ t :: older → a' ∈ t.sent →
      a'.type = .accept → Sent (t :: older) t.who a → a.type = .accept → a.id = a'.id →
      a.ballot = a'.ballot → a.value = a'.value := by
    intro xs older t a a' hW ha' hta' ha hta hid hb
    have hgt := hg.upto hW
    obtain ⟨ht, hc⟩ := hgt.head
    obtain ⟨hb', hv', hid', hst'⟩ := ht.offers (hC hc).2.2.1 ha' hta'
    have hlast := last_self older t
    have hstands := ((grown_bound hC hgt).1 _ _ _ hlast).stands a
      ⟨ha, hid.trans hid', .inr hta⟩ (hb.trans hb')
    rcases hstands.2 hta with hd | ⟨-, h₁, h₂, h₃⟩
    · exact absurd hst' (by rcases hd with hd | hd <;> rw [hd] <;> rintro ⟨⟩)
    · exact (Prod.ext h₁ (Prod.ext h₂ h₃) : a.value = t.after.value).trans hv'.symm
  rintro b v v' ⟨k, a, ha, hta, hid, hb, rfl⟩ ⟨k', a', ha', hta', hid', hb', rfl⟩
  have hk : k = k' := by
    refine request_unique (fun h => ?_) hg ha ha' ?_ ?_ (hid.trans hid'.symm) (hb.trans hb'.symm)
    · exact ⟨(hC h).1, (hC h).2.1⟩
    · exact .inl (.inr (.inr hta))
    · exact .inl (.inr (.inr hta'))
  subst hk
  obtain ⟨t, ht, hw, hat⟩ := ha
  obtain ⟨t', ht', hw', hat'⟩ := ha'
  obtain ⟨xs', older', hW'⟩ := List.append_of_mem ht'
  rcases comparable hW' ht with ⟨xs, ys, hW, hty⟩ | rfl | hto
  · exact (later hW hat hta ⟨t', List.mem_cons_of_mem t hty, hw'.trans hw.symm, hat'⟩ hta'
      (hid'.trans hid.symm) (hb'.trans hb.symm)).symm
  · exact later hW' hat' hta' ⟨t, List.mem_cons_self, rfl, hat⟩ hta (hid.trans hid'.symm)
      (hb.trans hb'.symm)
  · exact later hW' hat' hta' ⟨t, List.mem_cons_of_mem t' hto, hw.trans hw'.symm, hat⟩ hta
      (hid.trans hid'.symm) (hb.trans hb'.symm)

/-- An accepted copy has the value offered at the ballot it was stored at. -/
theorem grown_stored (hC : ∀ {older t}, C older t → t.Orderly ∧ Guarded t.before t.event)
    (hg : Grown (fun older t => Happens T older t ∧ C older t) log) {i : Instance}
    (hl : Last log k id i) (hs : i.status = .accepted) (hb : stored log k id = some b) :
    Offered log id b i.value ∧ b ≤ i.ballot := by
  have hI : i.status = .accepted → ∀ b, stored log k i.key = some b →
      Offered log i.key b i.value ∧ b ≤ i.ballot := by
    refine (run_rule (C := C) (M := fun _ _ => True) (I := fun log k i =>
      i.status = .accepted → ∀ b, stored log k i.key = some b →
        Offered log i.key b i.value ∧ b ≤ i.ballot) ?_ (fun h => h) ?_ ?_ hg).1 k id i hl
    · intro older t k i _ hi hne hs b hb
      rw [stored_cons, if_neg fun h => hne ⟨h.1, h.2.1⟩] at hb
      exact (hi hs b hb).imp_left (·.of_subset (List.subset_cons_self t older))
    · rintro older t - - - - (hb | hb) hs <;> rw [hb] at hs <;> cases hs
    · intro older k ev r i i' io _ ht hc _ _ hi ha
      refine ⟨fun hs b hb => ?_, fun _ _ => trivial⟩
      obtain ⟨⟨hu, hl, hst, -⟩, hgd⟩ := hC hc
      rw [stored_cons] at hb
      split_ifs at hb with hacc
      · cases hb
        refine ⟨?_, le_rfl⟩
        have hacc := hacc.2.2
        unfold Record.Accepts at hacc
        cases ev with
        | step m =>
          rcases hacc with ⟨hty, hd, hbm⟩ | ⟨a, hat, hta⟩
          · have hi' : i' = _ := ht.stores rfl hty hd hbm
            obtain ⟨⟨q, hq, hqm⟩, -⟩ := ht.source m rfl
            refine ⟨q.who, m, ⟨q, List.mem_cons_of_mem _ hq, rfl, hqm⟩, hty, ?_, ?_, ?_⟩
            · exact (ht.step_key rfl).1.symm.trans ha.key.symm
            · rw [hi']
            · rw [hi']
              exact Prod.ext (hst.command hty hd hbm) rfl
          · obtain ⟨hb, hv, hid, -⟩ := ht.offers hst hat hta
            exact ⟨k, a, ⟨_, List.mem_cons_self, rfl, hat⟩, hta, hid, hb, hv⟩
        | propose m | checkpoint m | timeout id m | execute id => exact hacc.elim
      · have hn : ¬ Record.Accepts ⟨k, ev, r, i, i', io.map (envelope k)⟩ := fun h =>
          hacc ⟨rfl, rfl, h⟩
        have hs₀ := (ht.accepts hs).resolve_right hn
        obtain ⟨ho, hle⟩ := hi hs₀ b (ha.key ▸ hb)
        rw [ha.keeps_accepted hgd hs₀ hs hn, ha.key]
        exact ⟨ho.of_subset (List.subset_cons_self _ older), hle.trans (ht.ballot_le hu hl)⟩
  obtain rfl := hl.key
  exact hI hs b hb

/-- The ballot a copy was last stored at is no lower than any other. -/
theorem stored_ge (hC : ∀ {older t}, C older t → t.Orderly)
    (hg : Grown (fun older t => Happens T older t ∧ C older t) log) {u : Record} (hu : u ∈ log)
    (hacc : u.Accepts) (hb : stored log u.who u.after.key = some b) : u.after.ballot ≤ b := by
  obtain ⟨t, hfind, rfl⟩ := Option.map_eq_some_iff.1 hb
  obtain ⟨hp, xs, ys, hlog, hxs⟩ := List.find?_eq_some_iff_append.1 hfind
  obtain ⟨hw, hk, -⟩ := of_decide_eq_true hp
  rw [hlog] at hu
  rcases List.mem_append.1 hu with hu | hu
  · have := hxs u hu
    simp [hacc] at this
  rcases List.mem_cons.1 hu with rfl | hu
  · exact le_rfl
  obtain ⟨hgt, ht, hc⟩ := hg.cut hlog
  obtain ⟨huw, hl, -, hfr⟩ := hC hc
  refine le_trans ?_ (ht.ballot_le huw hl)
  refine ht.ballot_older (fun h => ?_) hgt hfr hu hw.symm (hk.symm.trans ht.key)
  exact ⟨(hC h).1, (hC h).2.1, (hC h).2.2.2⟩

theorem grown_ofCopy (hg : Grown (fun older t => Happens T older t ∧ C older t) log) {i : Instance}
    (hl : Last log k id i) : i.status.OfCopy := by
  refine (run_rule (C := C) (M := fun _ _ => True) (I := fun _ _ i => i.status.OfCopy)
    (fun _ h _ => h) (fun h => h) ?_ ?_ hg).1 k id i hl
  · rintro older t - - - - (hb | hb) <;> rw [hb] <;> exact ⟨by rintro ⟨⟩, by rintro ⟨⟩⟩
  · exact fun _ _ _ _ _ hi ha => ⟨ha.ofCopy hi, fun _ _ => trivial⟩

/-- A copy's status is no lower than at any record of it. -/
theorem grown_rank (hC : ∀ {older t}, C older t → Guarded t.before t.event ∧ t.Fresh)
    (hg : Grown (fun older t => Happens T older t ∧ C older t) log) {i : Instance}
    (hl : Last log k id i) :
    ∀ p ∈ log, p.who = k → p.after.key = i.key → p.after.status.rank ≤ i.status.rank := by
  refine grown_mono (R := fun _ i j => i.status.rank ≤ j.status.rank) (fun h => (hC h).2)
    (fun _ _ => le_rfl) le_trans (fun ht hc _ => ?_) hg hl
  obtain ⟨io, ha, -⟩ := ht.acts
  exact (ha.onward ht.located (hC hc).1).1

/-- A copy that was accepted once is when an event meets it, or has been decided. -/
theorem Happens.accepted_older
    (hC : ∀ {older t}, C older t → Guarded t.before t.event ∧ t.Fresh)
    (hg : Grown (fun older t => Happens T older t ∧ C older t) older) (ht : Happens T older t)
    (hf : t.Fresh) {p : Record} (hp : p ∈ older) (hw : p.who = t.who)
    (hk : p.after.key = t.before.key) (hs : p.after.status = .accepted) :
    t.before.status = .accepted ∨ t.before.Decided := by
  rcases ht.before with hl | ⟨hmade, -⟩
  · obtain ⟨h₁, h₂⟩ := grown_ofCopy hg hl
    have hle := grown_rank hC hg hl p hp hw hk
    rw [hs] at hle
    unfold Instance.Decided
    revert hle h₁ h₂
    cases t.before.status <;> simp [State.rank]
  · exact absurd hk (ht.fresh hf hmade p hp hw)

end Log

/-- A copy that waits for answers to `TRY_PRE_ACCEPT` or for its fast-path timer at a ballot of its
replica's has been recovered at that ballot; and an accepted one that waits for the timer was stored
there. -/
structure Earned (log : List Record) (k : ℕ) (i : Instance) : Prop where
  trying : ∀ lt, i.lt = some lt → lt.recoveryStatus = .tryPreAccepting → Own k i.ballot →
    Resolved log i.key i.ballot k
  timed : i.timer = some .fastPath → Own k i.ballot →
    Resolved log i.key i.ballot k ∧ (i.status = .accepted → Held log k i.key i.ballot)

/-- A proposal is sent after a recovery at its ballot, an `ACCEPT` by a replica that holds it. -/
structure Message.Earned (log : List Record) (m : Message) : Prop where
  proposal : m.type.Proposal → Resolved log m.id m.ballot m.sender
  held : m.type = .accept → Held log m.sender m.id m.ballot
  answer : m.type = .preAcceptReply → m.nack = 0 → Resolved log m.id m.ballot m.dest

namespace Earned

variable {log : List Record} {k j : ℕ} {i i' : Instance}

theorem cons (h : Earned log k i) (t : Record) : Earned (t :: log) k i := by
  refine ⟨fun lt hlt hr ho => (h.trying lt hlt hr ho).cons t, fun ht ho => ?_⟩
  obtain ⟨hr, hh⟩ := h.timed ht ho
  exact ⟨hr.cons t, fun hs => (hh hs).cons t⟩

theorem of_idle (h₁ : ∀ lt, i.lt = some lt → lt.recoveryStatus ≠ .tryPreAccepting)
    (h₂ : i.timer ≠ some .fastPath) : Earned log k i :=
  ⟨fun lt hlt hr => absurd hr (h₁ lt hlt), fun ht => absurd ht h₂⟩

theorem of_resolved (h : Own k i.ballot → Resolved log i.key i.ballot k)
    (hs : i.timer = some .fastPath → i.status = .accepted → Own k i.ballot →
      Held log k i.key i.ballot) : Earned log k i :=
  ⟨fun _ _ _ => h, fun ht ho => ⟨h ho, fun hst => hs ht hst ho⟩⟩

theorem of_foreign (hj : Own j i.ballot) (hjk : j ≠ k)
    (hs : i.status = .accepted → Held log k i.key i.ballot) : Earned log k i :=
  .of_resolved (fun hk => .inl (hj.initial hk hjk)) fun _ h _ => hs h

theorem of_same (h : Earned log k i) (hk : i'.key = i.key) (hb : i'.ballot = i.ballot)
    (hl : ∀ lt', i'.lt = some lt' → lt'.recoveryStatus = .tryPreAccepting →
      ∃ lt, i.lt = some lt ∧ lt.recoveryStatus = .tryPreAccepting)
    (ht : i'.timer = some .fastPath → i.timer = some .fastPath)
    (hs : i'.status = .accepted → i.status = .accepted ∨ Held log k i'.key i'.ballot) :
    Earned log k i' := by
  constructor
  · intro lt' hlt' hr ho
    obtain ⟨lt, hlt, hr⟩ := hl lt' hlt' hr
    rw [hk, hb]
    exact h.trying lt hlt hr (hb ▸ ho)
  · intro htm ho
    obtain ⟨hr, hh⟩ := h.timed (ht htm) (hb ▸ ho)
    rw [hk, hb] at hs ⊢
    exact ⟨hr, fun hst => (hs hst).elim hh id⟩

end Earned

namespace Message.Earned

variable {log : List Record} {m : Message}

theorem cons (h : m.Earned log) (t : Record) : m.Earned (t :: log) where
  proposal hp := (h.proposal hp).cons t
  held hp := (h.held hp).cons t
  answer ht hn := (h.answer ht hn).cons t

theorem of_proposal (ht : m.type.Proposal) (hr : Resolved log m.id m.ballot m.sender)
    (hh : m.type = .accept → Held log m.sender m.id m.ballot) : m.Earned log where
  proposal _ := hr
  held := hh
  answer h := by rw [h] at ht; simp [MessageType.Proposal] at ht

theorem of_answer (ht : m.type = .preAcceptReply)
    (h : m.nack = 0 → Resolved log m.id m.ballot m.dest) : m.Earned log where
  proposal hp := by simp [ht, MessageType.Proposal] at hp
  held hp := by simp [ht] at hp
  answer _ := h

theorem of_other (ht : ¬ m.type.Proposal ∧ m.type ≠ .preAcceptReply) : m.Earned log where
  proposal hp := absurd hp ht.1
  held hp := absurd (.inr (.inr hp)) ht.1
  answer hp := absurd hp ht.2

end Message.Earned

section Step

variable {T : RangeTree} {C : List Record → Record → Prop} {older : List Record} {k : ℕ}
  {ev : Event} {r : Replica} {i i' : Instance} {io : List Message}

theorem earned_step (hC : ∀ {older t}, C older t → t.Orderly)
    (hg : Grown (fun older t => Happens T older t ∧ C older t) older)
    (ht : Happens T older ⟨k, ev, r, i, i', io.map (envelope k)⟩)
    (hc : Record.Orderly ⟨k, ev, r, i, i', io.map (envelope k)⟩)
    (hw : Record.Rooted ⟨k, ev, r, i, i', io.map (envelope k)⟩)
    (hm : ∀ p ∈ older, ∀ m ∈ p.sent, m.Earned older) (hi : Earned older k i)
    (ha : Act T r i ev i' io) :
    Earned (⟨k, ev, r, i, i', io.map (envelope k)⟩ :: older) k i'
      ∧ ∀ m ∈ io, (envelope k m).Earned (⟨k, ev, r, i, i', io.map (envelope k)⟩ :: older) := by
  obtain ⟨hl, hst⟩ : Licensed k i ev ∧ Storing i ev := ⟨hc.2.1, hc.2.2.1⟩
  have hV := (vouched_of_grown (fun h => (hC h).2.1) hg).2
  have hv : ∀ m, ev = .step m → Vouched older m ∧ m.Earned older := fun m hev => by
    obtain ⟨⟨p, hp, hpm⟩, -⟩ := ht.source m hev
    exact ⟨hV p hp m hpm, hm p hp m hpm⟩
  have hkey : ∀ m, ev = .step m → i.key = m.id := fun m hev => (ht.step_key hev).1
  have hforeign : ∀ m, ev = .step m → m.type.Proposal ∨ m.type = .prepare →
      Own m.sender m.ballot ∧ m.sender ≠ k := fun m hev hty =>
    ⟨(hv m hev).1.own hty, ht.foreign hev (by
      rcases hty with (h | h | h) | h <;> simp [MessageType.Broadcast, h])⟩
  set t : Record := ⟨k, ev, r, i, i', io.map (envelope k)⟩ with htdef
  -- what the event itself accepts
  have stores : t.Accepts → i'.status = .accepted → Held (t :: older) k i'.key i'.ballot :=
    fun hacc hs => ⟨t, List.mem_cons_self, rfl, rfl, rfl, hs, hacc⟩
  have accepts : ∀ a ∈ io, a.type = .accept → (∃ m, ev = .step m) →
      Held (t :: older) k i'.key i'.ballot := by
    rintro a ha' hta ⟨m, rfl⟩
    exact stores (.inr ⟨_, List.mem_map_of_mem ha', hta⟩) (ha.sent_accept hst ha' hta).2
  have accept : ∀ a ∈ io, a.type = .accept → (∃ m, ev = .step m) →
      Resolved (t :: older) i.key a.ballot k → (envelope k a).Earned (t :: older) := by
    intro a ha' hta hev hr
    obtain ⟨⟨-, -, hb, -⟩, hs⟩ := ha.sent_accept hst ha' hta
    have hid : a.id = i.key := ha.sent_id (fun m hm => hkey m hm) a ha'
    refine .of_proposal (.inr (.inr hta)) ?_ fun _ => ?_
    · show Resolved _ a.id a.ballot k
      rw [hid]
      exact hr
    · show Held _ k a.id a.ballot
      rw [hid, hb, ← ha.key]
      exact accepts a ha' hta hev
  -- the answer that a recovery counts
  have recovers : ∀ m lt, ev = .step m → m.type = .prepareReply → i.lt = some lt →
      lt.recoveryStatus = .preparing → m.nack = 0 → ¬ m.Final →
      Resolved (t :: older) i.key i.ballot k := by
    intro m lt hev hty hlt hr hn hf
    refine .inr ⟨t, List.mem_cons_self, rfl, ha.key, rfl, m, ?_, hf⟩
    exact Record.tallied_eq_some.2 ⟨hev, hty, hn, lt, hlt, hr⟩
  have self : ∀ a : Message, a ∈ [a] := List.mem_singleton_self
  have hi := hi.cons t
  cases ha with
  | propose =>
    simp only [List.forall_mem_singleton]
    exact ⟨.of_resolved (fun _ => .inl hl) (by rintro - ⟨⟩),
      .of_proposal (.inl rfl) (.inl hl) (by rintro ⟨⟩)⟩
  | checkpoint =>
    have hb : isInitialBallot i.ballot = true := by
      have : i = r.ownInstance := ht.located.2
      rw [this]
      exact (by decide : isInitialBallot 0 = true)
    simp only [List.forall_mem_singleton]
    exact ⟨.of_resolved (fun _ => .inl hb) (by rintro - ⟨⟩),
      .of_proposal (.inl rfl) (.inl hb) (by rintro ⟨⟩)⟩
  | slowTimeout | nackRecover =>
    simp only [List.forall_mem_singleton]
    refine ⟨.of_idle ?_ (by simp [recoverInst]), .of_other (by simp [recoverMsg, envelope,
      MessageType.Proposal])⟩
    rintro _ ⟨⟩
    simp [recoverTracker_preparing]
  | fastTimeout htm =>
    simp only [List.forall_mem_singleton]
    have hs : i.status = .accepted := hst htm
    obtain ⟨hr, hh⟩ := hi.timed htm (hl htm)
    refine ⟨hi.of_same rfl rfl (fun lt hlt hr => ⟨lt, hlt, hr⟩) (by simp) .inl, ?_⟩
    exact .of_proposal (.inr (.inr rfl)) hr fun _ => hh hs
  | execute =>
    exact ⟨hi.of_same rfl rfl (fun lt hlt hr => ⟨lt, hlt, hr⟩) id (by rintro ⟨⟩), by simp⟩
  | ignore => exact ⟨hi, by simp⟩
  | preAcceptNack =>
    simp only [List.forall_mem_singleton]
    exact ⟨hi, .of_answer rfl fun h => absurd h (by simp [envelope])⟩
  | @preAcceptReply m s hty =>
    simp only [List.forall_mem_singleton]
    obtain ⟨ho, hne⟩ := hforeign m rfl (.inl (.inl hty))
    refine ⟨.of_foreign ho hne ?_, .of_answer rfl fun _ => ?_⟩
    · simp only [preAcceptInst]
      split_ifs <;> rintro ⟨⟩
    · exact ((hv m rfl).2.proposal (.inl hty)).cons t
  | @preAcceptOk m s hty =>
    simp only [List.forall_mem_singleton]
    obtain ⟨ho, hne⟩ := hforeign m rfl (.inl (.inl hty))
    refine ⟨.of_foreign ho hne ?_, .of_other (by simp [envelope, MessageType.Proposal])⟩
    simp only [preAcceptInst]
    split_ifs
    rintro ⟨⟩
  | okCommit hty hlt | replyCommit hty hlt | acceptedCommit hty hlt | preparedCommit hty hlt =>
    simp only [List.forall_mem_singleton]
    refine ⟨hi.of_same rfl rfl ?_ (by simp) (by rintro ⟨⟩),
      .of_other (by simp [envelope, MessageType.Proposal])⟩
    rintro _ ⟨⟩ h
    exact ⟨_, hlt, h⟩
  | @okAccept m lt hty hlt =>
    have hb := (hv m rfl).1.ok hty
    refine ⟨hi.of_same rfl rfl ?_ id fun _ => .inr (accepts _ (self _) rfl ⟨m, rfl⟩),
      List.forall_mem_singleton.2 (accept _ (self _) rfl ⟨m, rfl⟩ (.inl hb))⟩
    rintro _ ⟨⟩ h
    exact ⟨_, hlt, h⟩
  | okCount hty hlt | nackCount hty hlt | replyCount hty hlt | acceptedCount hty hlt
  | preparedNack hty hlt | triedCount hty hlt =>
    refine ⟨hi.of_same rfl rfl ?_ id .inl, by simp⟩
    rintro _ ⟨⟩ h
    exact ⟨_, hlt, h⟩
  | @replyAccept m lt hty hlt _ hb hn =>
    have hr : Resolved older m.id m.ballot k := by
      have hd : m.dest = k := ht.dest rfl (by simp [MessageType.Broadcast, hty])
      exact hd ▸ (hv m rfl).2.answer hty hn
    refine ⟨hi.of_same rfl rfl ?_ id fun _ => .inr (accepts _ (self _) rfl ⟨m, rfl⟩),
      List.forall_mem_singleton.2 (accept _ (self _) rfl ⟨m, rfl⟩ ?_)⟩
    · rintro _ ⟨⟩ h
      exact ⟨_, hlt, h⟩
    · exact hkey m rfl ▸ hr.cons t
  | acceptNack =>
    simp only [List.forall_mem_singleton]
    exact ⟨hi, .of_other (by simp [envelope, MessageType.Proposal])⟩
  | @acceptStore m hty hd hb =>
    simp only [List.forall_mem_singleton]
    obtain ⟨ho, hne⟩ := hforeign m rfl (.inl (.inr (.inr hty)))
    exact ⟨.of_foreign ho hne fun hs => stores (.inl ⟨hty, hd, hb⟩) hs,
      .of_other (by simp [envelope, MessageType.Proposal])⟩
  | prepareNack =>
    simp only [List.forall_mem_singleton]
    exact ⟨hi, .of_other (by simp [envelope, MessageType.Proposal])⟩
  | @preparePromise m hty hb =>
    simp only [List.forall_mem_singleton]
    obtain ⟨ho, hne⟩ := hforeign m rfl (.inr hty)
    have hab := (hw.msg m rfl).above (.inl hty)
    have unowned : ¬ Own k m.ballot := fun hk =>
      absurd (hab.symm.trans (ho.initial hk hne)) (by rintro ⟨⟩)
    exact ⟨.of_resolved (fun hk => absurd hk unowned) fun _ _ hk => absurd hk unowned,
      .of_other (by simp [envelope, MessageType.Proposal])⟩
  | @preparedCount m lt hty hlt =>
    refine ⟨hi.of_same rfl rfl ?_ id .inl, by simp⟩
    rintro _ ⟨⟩ h
    exact ⟨_, hlt, by rwa [tally_recoveryStatus] at h⟩
  | @preparedNoop m lt lt' hty hlt hrec hn hf | @preparedAdopt m lt lt' hty hlt hrec hn hf =>
    refine ⟨hi.of_same rfl rfl ?_ id fun _ => .inr (accepts _ (self _) rfl ⟨m, rfl⟩),
      List.forall_mem_singleton.2 (accept _ (self _) rfl ⟨m, rfl⟩
        (recovers m lt rfl hty hlt hrec hn hf))⟩
    rintro _ ⟨⟩ h
    cases h
  | @preparedRestart m lt lt' lt'' c s hty hlt hrec hn hf =>
    simp only [List.forall_mem_singleton]
    have hr := recovers m lt rfl hty hlt hrec hn hf
    exact ⟨.of_resolved (fun _ => hr) (by rintro - ⟨⟩),
      .of_proposal (.inl rfl) hr (by rintro ⟨⟩)⟩
  | @preparedTryOwn m lt lt' c hty hlt hrec hn hf =>
    simp only [List.forall_mem_singleton]
    have hr := recovers m lt rfl hty hlt hrec hn hf
    refine ⟨.of_resolved (fun _ => hr) fun htm hs ho => (hi.timed htm ho).2 hs,
      .of_proposal (.inr (.inl rfl)) ?_ (by rintro ⟨⟩)⟩
    exact hkey m rfl ▸ hr
  | @preparedTry m lt lt' c hty hlt hrec hn hf =>
    simp only [List.forall_mem_singleton]
    have hr := recovers m lt rfl hty hlt hrec hn hf
    refine ⟨.of_resolved (fun _ => hr) (by rintro - ⟨⟩),
      .of_proposal (.inr (.inl rfl)) ?_ (by rintro ⟨⟩)⟩
    exact hkey m rfl ▸ hr
  | tryNack =>
    simp only [List.forall_mem_singleton]
    exact ⟨hi, .of_other (by simp [envelope, MessageType.Proposal])⟩
  | @tryStore m c hty =>
    simp only [List.forall_mem_singleton]
    obtain ⟨ho, hne⟩ := hforeign m rfl (.inl (.inr (.inl hty)))
    exact ⟨.of_foreign ho hne (by rintro ⟨⟩), .of_other (by simp [envelope, MessageType.Proposal])⟩
  | triedRaise hty hlt hrec hs hn hb =>
    obtain ⟨hbm, -⟩ := hl.tried hty hlt hrec hs hn
    omega
  | triedPrepare hty hlt hrec hs hn =>
    simp only [List.forall_mem_singleton]
    refine ⟨hi.of_same rfl rfl ?_ id .inl, .of_other (by simp [envelope, MessageType.Proposal])⟩
    rintro _ ⟨⟩ h
    exact ⟨_, hlt, h⟩
  | triedDefer hty hlt _ _ _ _ htm =>
    refine ⟨hi.of_same rfl rfl ?_ ?_ .inl, by simp⟩
    · rintro _ ⟨⟩ h
      exact ⟨_, hlt, h⟩
    · rcases htm with rfl | rfl <;> simp
  | @triedRestart m lt c b s tm hty hlt hrec hs hn _ hcb =>
    simp only [List.forall_mem_singleton]
    obtain ⟨hbm, ho⟩ := hl.tried hty hlt hrec hs hn
    have hb : b = i.ballot := by rcases hcb with ⟨-, rfl⟩ | ⟨-, rfl⟩ <;> simp [hbm]
    subst hb
    have hr := hi.trying lt hlt hrec ho
    exact ⟨.of_resolved (fun _ => hr) (by rintro - ⟨⟩),
      .of_proposal (.inl rfl) hr (by rintro ⟨⟩)⟩
  | @triedRestartTwice m lt s s' tm hty hlt hrec hs hn =>
    obtain ⟨hbm, ho⟩ := hl.tried hty hlt hrec hs hn
    have hr := hi.trying lt hlt hrec ho
    rw [← hbm] at hr
    simp only [List.forall_mem_cons, List.not_mem_nil, false_imp_iff, implies_true, and_true]
    exact ⟨.of_resolved (fun _ => hr) (by rintro - ⟨⟩),
      .of_proposal (.inl rfl) hr (by rintro ⟨⟩), .of_proposal (.inl rfl) hr (by rintro ⟨⟩)⟩
  | @triedAccept m lt hty hlt hrec hs hn =>
    have hb : m.ballot = i.ballot :=
      ((hst.matching (by simp [hty]) (by simp [hty])).tried hty hlt hrec hs).1 hn
    have ho : Own k m.ballot := by
      have hd : m.dest = k := ht.dest rfl (by simp [MessageType.Broadcast, hty])
      exact hd ▸ ((hv m rfl).1.answer ⟨hn, .inr (.inl hty)⟩).1
    have hr := hi.trying lt hlt hrec (hb ▸ ho)
    rw [← hb] at hr
    refine ⟨hi.of_same rfl rfl ?_ id fun _ => .inr (accepts _ (self _) rfl ⟨m, rfl⟩),
      List.forall_mem_singleton.2 (accept _ (self _) rfl ⟨m, rfl⟩ hr)⟩
    rintro _ ⟨⟩ h
    cases h
  | commit =>
    exact ⟨hi.of_same rfl rfl (fun lt hlt hr => ⟨lt, hlt, hr⟩) (by simp) (by rintro ⟨⟩), by simp⟩

/-- The leader's copy stays at an initial ballot, or leaves the initial ballots. -/
theorem initial_step (ht : Happens T older ⟨k, ev, r, i, i', io.map (envelope k)⟩)
    (hc : Record.Orderly ⟨k, ev, r, i, i', io.map (envelope k)⟩)
    (hw : Record.Rooted ⟨k, ev, r, i, i', io.map (envelope k)⟩) (hk : i.key.replicaId = k)
    (hb : isInitialBallot i'.ballot = true)
    (hmade : ¬ Record.Made ⟨k, ev, r, i, i', io.map (envelope k)⟩) (ha : Act T r i ev i' io) :
    i'.ballot = i.ballot := by
  obtain ⟨hu, hl⟩ : Unwrapped i ev ∧ Licensed k i ev := ⟨hc.1, hc.2.1⟩
  have hkN : r.id < N := by rw [show r.id = k from ht.who_eq]; exact ht.who_lt
  have request : ∀ m, ev = .step m → m.type = .preAccept ∨ m.type = .accept →
      isInitialBallot m.ballot = true → False := by
    intro m hev hty hib
    refine ht.foreign hev (by rcases hty with h | h <;> simp [MessageType.Broadcast, h]) ?_
    exact ((hw.msg m hev).request hty hib).trans ((ht.step_key hev).1 ▸ hk)
  have above : ∀ m, ev = .step m → m.type = .prepare ∨ m.type = .tryPreAccept →
      isInitialBallot m.ballot = true → False := by
    intro m hev hty hib
    rw [(hw.msg m hev).above (hty.imp_right .inl)] at hib
    cases hib
  have raised : ∀ {b}, b < 240 → isInitialBallot (largerBallot b r.id) = true → False := by
    intro b hlt hib
    rw [largerBallot_not_initial hkN hlt] at hib
    cases hib
  cases ha with
  | propose => exact absurd ht.located.1 hmade
  | slowTimeout htm => exact (raised (hu htm) hb).elim
  | nackRecover hty hlt hbm hn => exact (raised (hu.nacked hty hlt hbm hn) hb).elim
  | preAcceptReply hty | preAcceptOk hty => exact (request _ rfl (.inl hty) hb).elim
  | acceptStore hty => exact (request _ rfl (.inr hty) hb).elim
  | preparePromise hty => exact (above _ rfl (.inl hty) hb).elim
  | tryStore hty => exact (above _ rfl (.inr hty) hb).elim
  | triedRaise hty hlt hr hs hn hbm =>
    have := (hl.tried hty hlt hr hs hn).1
    omega
  | triedRestart hty hlt hr hs hn _ hcb =>
    rcases hcb with ⟨-, rfl⟩ | ⟨-, rfl⟩
    · exact (hl.tried hty hlt hr hs hn).1
    · rfl
  | triedRestartTwice hty hlt hr hs hn => exact (hl.tried hty hlt hr hs hn).1
  | _ => rfl

end Step

section Run

variable {T : RangeTree} {C : List Record → Record → Prop} {W log older : List Record}
  {t : Record} {k : ℕ} {id : InstanceId} {b b' : ℕ} {v v' : Value} {m : Message}

theorem earned_made (hb : t.before = t.pre.ownInstance
      ∨ t.before = { newInstance t.before.key with timer := some .slowPath }) :
    Earned older t.who t.before := by
  rcases hb with hb | hb <;> rw [hb]
  · refine .of_idle ?_ (by simp [Replica.ownInstance, newInstance])
    rintro _ ⟨⟩
    simp [newTracker]
  · exact .of_idle (by simp [newInstance]) (by simp)

/-- In a log of orderly records every proposal is earned. -/
theorem grown_earned (hC : ∀ {older t}, C older t → t.Orderly)
    (hg : Grown (fun older t => Happens T older t ∧ C older t) log) :
    ∀ p ∈ log, ∀ m ∈ p.sent, m.Earned log :=
  (run_rule (C := fun older t => C older t ∧ t.Rooted) (I := Earned)
    (M := fun log m => m.Earned log) (fun _ h _ => h.cons _) (fun h => h.cons _)
    (fun _ _ _ _ hb => earned_made hb)
    (fun hg ht hc _ hm hi ha => earned_step (fun h => hC h.1) hg ht (hC hc.1) hc.2 hm hi ha)
    (grown_rooted (fun h => (hC h).1) hg)).2

/-- The leader has had its copy at one initial ballot only. -/
theorem grown_initial (hC : ∀ {older t}, C older t → t.Orderly)
    (hg : Grown (fun older t => Happens T older t ∧ C older t) log) {i : Instance}
    (hl : Last log k id i) : ∀ p ∈ log, p.who = k → p.after.key = i.key → p.after.key = i.key
      ∧ (i.key.replicaId = k → isInitialBallot i.ballot = true → p.after.ballot = i.ballot) := by
  refine grown_mono (C := fun older t => C older t ∧ t.Rooted) (R := fun k i j => i.key = j.key
    ∧ (j.key.replicaId = k → isInitialBallot j.ballot = true → i.ballot = j.ballot))
    (fun h => (hC h.1).2.2.2) (fun _ _ => ⟨rfl, fun _ _ => rfl⟩) ?_ ?_
    (grown_rooted (fun h => (hC h).1) hg) hl
  · rintro k i j l ⟨hij, h₁⟩ ⟨hjl, h₂⟩
    refine ⟨hij.trans hjl, fun hk hb => ?_⟩
    have he := h₂ hk hb
    exact (h₁ (hjl ▸ hk) (he ▸ hb)).trans he
  · intro older t ht hc hmade
    obtain ⟨io, ha, hio⟩ := ht.acts
    obtain ⟨k, ev, r, i, i', sent⟩ := t
    dsimp only at hio
    subst hio
    refine ⟨ha.key.symm, fun hk hb => ?_⟩
    exact (initial_step ht (hC hc.1) hc.2 (ha.key ▸ hk) hb hmade ha).symm

/-- An `ACCEPT` is sent at one initial ballot only. -/
theorem offered_initial (hC : ∀ {older t}, C older t → t.Orderly)
    (hg : Grown (fun older t => Happens T older t ∧ C older t) W) (hv : Offered W id b v)
    (hv' : Offered W id b' v') (hb : isInitialBallot b = true) (hb' : isInitialBallot b' = true) :
    b = b' := by
  obtain ⟨-, hroot⟩ := rooted_of_grown (fun h => (hC h).1) hg
  -- whoever sends it is the leader, whose copy is at the ballot afterwards
  have leads : ∀ {a : Message} {k}, Sent W k a → a.type = .accept → a.id = id →
      isInitialBallot a.ballot = true → ∃ xs t older, W = xs ++ t :: older
        ∧ t.who = id.replicaId ∧ t.after.key = id ∧ t.after.ballot = a.ballot := by
    rintro a k ⟨t, ht, rfl, hat⟩ hta rfl hib
    obtain ⟨xs, older, hW⟩ := List.append_of_mem ht
    obtain ⟨-, hh, hc⟩ := hg.cut hW
    obtain ⟨hab, -, hid, -⟩ := hh.offers (hC hc).2.2.1 hat hta
    refine ⟨xs, t, older, hW, ?_, hid.symm, hab.symm⟩
    rw [← hh.sender hat]
    exact (hroot t ht a hat).request (.inr hta) hib
  -- the later of two such records is at the ballot of the earlier one
  have later : ∀ {xs : List Record} {t older p}, W = xs ++ t :: older → p ∈ t :: older →
      t.who = id.replicaId → t.after.key = id → isInitialBallot t.after.ballot = true →
      p.who = id.replicaId → p.after.key = id → p.after.ballot = t.after.ballot := by
    intro xs t older p hW hp hw hk hib hpw hpk
    have hgt := hg.upto hW
    have hlast := last_self older t
    exact (grown_initial hC hgt hlast p hp (hpw.trans hw.symm) (hpk.trans hk.symm)).2
      (hk ▸ hw.symm) hib
  obtain ⟨k, a, ha, hta, hid, rfl, -⟩ := hv
  obtain ⟨k', a', ha', hta', hid', rfl, -⟩ := hv'
  obtain ⟨xs, t, older, hW, hw, hk, htb⟩ := leads ha hta hid hb
  obtain ⟨xs', t', older', hW', hw', hk', htb'⟩ := leads ha' hta' hid' hb'
  rw [← htb] at hb ⊢
  rw [← htb'] at hb' ⊢
  have ht' : t' ∈ W := by rw [hW']; simp
  rcases comparable hW ht' with ⟨us, vs, hus, htv⟩ | rfl | ht'
  · exact later hus (List.mem_cons_of_mem t' htv) hw' hk' hb' hw hk
  · rfl
  · exact (later hW (List.mem_cons_of_mem t ht') hw hk hb hw' hk').symm

/-- What a replica holds was offered. -/
theorem Held.offered (hC : ∀ {older t}, C older t → t.Orderly ∧ Guarded t.before t.event)
    (hg : Grown (fun older t => Happens T older t ∧ C older t) W) (h : Held W k id b) :
    ∃ v, Offered W id b v := by
  obtain ⟨u, hu, rfl, rfl, rfl, hs, hacc⟩ := h
  obtain ⟨xs, older, hW⟩ := List.append_of_mem hu
  have hgu := hg.upto hW
  have hlast := last_self older u
  have hst : stored (u :: older) u.who u.after.key = some u.after.ballot := by
    rw [stored_cons, if_pos ⟨rfl, rfl, hacc⟩]
  obtain ⟨ho, -⟩ := grown_stored hC hgu hlast hs hst
  refine ⟨u.after.value, ho.of_subset ?_⟩
  rw [hW]
  exact List.subset_append_right xs _

/-- A record at a lower ballot of the copy comes before. -/
theorem mem_older (hC : ∀ {older t}, C older t → t.Orderly)
    (hg : Grown (fun older t => Happens T older t ∧ C older t) W) {newer : List Record}
    (hW : W = newer ++ t :: older) {u : Record} (hu : u ∈ W) (hw : u.who = t.who)
    (hk : u.after.key = t.after.key) (hb : u.after.ballot < t.after.ballot) : u ∈ older := by
  rcases comparable hW hu with ⟨xs, ys, hxs, hty⟩ | rfl | hu
  · obtain ⟨hgu, hhu, hcu⟩ := hg.cut hxs
    obtain ⟨h₁, h₂, -, h₃⟩ := hC hcu
    have hle : t.after.ballot ≤ u.before.ballot := by
      refine hhu.ballot_older (fun h => ?_) hgu h₃ hty hw.symm (hk.symm.trans hhu.key)
      exact ⟨(hC h).1, (hC h).2.1, (hC h).2.2.2⟩
    have := hhu.ballot_le h₁ h₂
    omega
  · omega
  · exact hu

/-- The record that gave the answer. -/
theorem Happens.answered_by (ht : Happens T older t) (hm : t.tallied = some m) {q : Record}
    {oldest : List Record} (hq : Happens T oldest q) (hqm : m ∈ q.sent) :
    q.before.status = m.instanceStatus ∧ q.before.value = m.value ∧ q.after.ballot = m.ballot
      ∧ q.before.key = t.before.key ∧ q.who = m.sender := by
  obtain ⟨hev, hty, hn, -⟩ := Record.tallied_eq_some.1 hm
  have hid := hq.sent_id hqm
  have hs := hq.sender hqm
  obtain ⟨io, ha, hio⟩ := hq.acts
  rw [hio] at hqm
  obtain ⟨a, haio, rfl⟩ := List.mem_map.1 hqm
  obtain ⟨h₁, h₂, h₃⟩ := ha.answers_prepare a haio hty hn
  exact ⟨h₁.symm, h₂.symm, h₃.symm, hid.symm.trans (ht.step_key hev).1.symm, hs.symm⟩

/-- Where a recovery counts an answer, no `ACCEPT` has been sent at its ballot. -/
theorem Happens.unoffered (hC : ∀ {older t}, C older t → t.Orderly)
    (hg : Grown (fun older t => Happens T older t ∧ C older t) older) (ht : Happens T older t)
    (hc : t.Orderly) (hm : t.tallied = some m) (hf : ¬ m.Final)
    (hib : ¬ isInitialBallot t.before.ballot = true) :
    ¬ Offered older t.before.key t.before.ballot v := by
  rintro ⟨j, a, ha, hta, hid, hab, -⟩
  obtain ⟨hev, hty, hn, lt, hlt, hr⟩ := Record.tallied_eq_some.1 hm
  obtain ⟨-, hl, hst, -⟩ := hc
  rw [hev] at hl hst
  have hmb := hl.prepared hty hlt hr hn hf
  have hV := (vouched_of_grown (fun h => (hC h).2.1) hg).2
  have hlast := ht.last_of_preparing hlt hr
  -- the ballot is the recovering replica's own
  have hown : Own t.who t.before.ballot := by
    obtain ⟨⟨q, hq, hqm⟩, -⟩ := ht.source m hev
    have h := ((hV q hq m hqm).answer ⟨hn, .inr (.inr hty)⟩).1
    rwa [ht.dest hev (by simp [MessageType.Broadcast, hty]), hmb] at h
  have hj : j = t.who := by
    obtain ⟨q, hq, rfl, hqa⟩ := ha
    obtain ⟨_, _, -, -, hqh, -⟩ := hg.of_mem hq
    have h := (hV q hq a hqa).own (.inl (.inr (.inr hta)))
    rw [hqh.sender hqa, hab] at h
    by_contra hne
    exact hib (h.initial hown hne)
  subst hj
  have hstands := ((grown_bound hC hg).1 _ _ _ hlast).stands a ⟨ha, hid, .inr hta⟩ hab
  exact hst.not_idle hty hlt hr hn hf hstands.1

/-- A candidate of a recovery has a value that was offered below the ballot of the recovery. -/
theorem Record.Candidate.offered
    (hC : ∀ {older t}, C older t → t.Orderly ∧ Guarded t.before t.event)
    (hg : Grown (fun older t => Happens T older t ∧ C older t) older) (ht : Happens T older t)
    (hc : t.Orderly) (hm : t.tallied = some m) (hf : ¬ m.Final)
    (hib : ¬ isInitialBallot t.before.ballot = true) {c : Option Message}
    (h : t.Candidate m c) : ∀ b ∈ t.ballots older c,
      b < t.before.ballot ∧ Offered older t.before.key b (t.value c) := by
  intro b hb
  obtain ⟨hev, hty, hn, lt, hlt, hr⟩ := Record.tallied_eq_some.1 hm
  have below : ∀ {v}, Offered older t.before.key b v → b ≤ t.before.ballot →
      b < t.before.ballot ∧ Offered older t.before.key b v := by
    intro v ho hle
    refine ⟨lt_of_le_of_ne hle ?_, ho⟩
    rintro rfl
    exact ht.unoffered (fun h => (hC h).1) hg hc hm hf hib ho
  cases c with
  | none =>
    have hb : stored older t.who t.before.key = some b := by simpa [Record.ballots] using hb
    obtain ⟨ho, hle⟩ := grown_stored hC hg (ht.last_of_preparing hlt hr) h hb
    exact below ho hle
  | some p =>
    obtain ⟨rfl, hs⟩ := h
    have hmb : p.ballot = t.before.ballot := by
      have hl := hc.2.1
      rw [hev] at hl
      exact hl.prepared hty hlt hr hn hf
    obtain ⟨l, hlm, hb⟩ := List.mem_flatMap.1 hb
    obtain ⟨ys, hys⟩ := (List.mem_tails _ _).1 hlm
    cases l with
    | nil => simp at hb
    | cons q oldest =>
      dsimp only at hb
      split_ifs at hb with hqm
      · obtain ⟨hgo, hqh, hqc⟩ := hg.cut hys.symm
        obtain ⟨hqs, hqv, hqb, hqk, -⟩ := ht.answered_by hm hqh hqm
        rw [hs] at hqs
        have hb : stored oldest q.who q.before.key = some b := by
          rw [hqk, (ht.step_key hev).1]
          simpa using hb
        obtain ⟨ho, hle⟩ := grown_stored hC hgo
          (hqh.last_of_status (by rw [hqs]; rintro ⟨⟩)) hqs hb
        rw [hqv, hqk] at ho
        refine below (ho.of_subset ?_) (hle.trans ?_)
        · rw [← hys]
          exact fun x hx => List.mem_append_right ys (List.mem_cons_of_mem q hx)
        · exact (hqh.ballot_le (hC hqc).1.1 (hC hqc).1.2.1).trans (hqb.trans hmb).le
      · simp at hb

/-- One of the two replicas that a recovery at a higher ballot decides on holds a value: its copy is
a candidate, and was stored at no lower a ballot. -/
theorem Held.candidate
    (hC : ∀ {older t}, C older t → t.Orderly ∧ Guarded t.before t.event ∧ t.Ranked older)
    (hg : Grown (fun older t => Happens T older t ∧ C older t) W) {newer : List Record}
    (hW : W = newer ++ t :: older) (hm : t.tallied = some m) (hf : ¬ m.Final)
    (h : Held W k t.before.key b) (hb : b < t.before.ballot) (hk : k = t.who ∨ k = m.sender) :
    ∃ c, t.Candidate m c ∧ ∀ b' ∈ t.ballots older c, b ≤ b' := by
  have hO : ∀ {older t}, C older t → t.Orderly := fun h => (hC h).1
  have hG : ∀ {older t}, C older t → Guarded t.before t.event ∧ t.Fresh := fun h =>
    ⟨(hC h).2.1, (hC h).1.2.2.2⟩
  obtain ⟨hgo, ht, hc⟩ := hg.cut hW
  obtain ⟨ho, -, hr⟩ := hC hc
  obtain ⟨hev, hty, hn, lt, hlt, hpr⟩ := Record.tallied_eq_some.1 hm
  obtain ⟨u, hu, rfl, huk, rfl, hus, hacc⟩ := h
  rcases hk with hk | hk
  · -- the recovering replica's own copy
    have hu : u ∈ older := by
      refine mem_older hO hg hW hu hk (huk.trans ht.key.symm) (hb.trans_le ?_)
      exact ht.ballot_le ho.1 ho.2.1
    have hst : t.before.status = .accepted := by
      refine (ht.accepted_older hG hgo ho.2.2.2 hu hk huk hus).resolve_right ?_
      exact (hr m hm lt hlt hf).1
    refine ⟨none, hst, fun b' hb' => ?_⟩
    have hb' : stored older t.who t.before.key = some b' := by simpa [Record.ballots] using hb'
    exact stored_ge hO hgo hu hacc (by rw [hk, huk]; exact hb')
  · -- the copy that the answer reports
    have hmb : m.ballot = t.before.ballot := by
      have hl := ho.2.1
      rw [hev] at hl
      exact hl.prepared hty hlt hpr hn hf
    have earlier : ∀ {ys q oldest}, older = ys ++ q :: oldest → m ∈ q.sent → u ∈ oldest := by
      intro ys q oldest hq hqm
      obtain ⟨-, hqh, -⟩ := hgo.cut hq
      obtain ⟨-, -, hqb, hqk, hqw⟩ := ht.answered_by hm hqh hqm
      have hW' : W = (newer ++ t :: ys) ++ q :: oldest := by
        rw [hW, hq, List.append_assoc, List.cons_append]
      refine mem_older hO hg hW' hu (hk.trans hqw.symm) ?_ ?_
      · exact huk.trans (hqk.symm.trans hqh.key.symm)
      · rw [hqb, hmb]
        exact hb
    have hs : m.instanceStatus = .accepted := by
      obtain ⟨⟨q, hq, hqm⟩, -⟩ := ht.source m hev
      obtain ⟨ys, oldest, hys⟩ := List.append_of_mem hq
      obtain ⟨hgq, hqh, hqc⟩ := hgo.cut hys
      obtain ⟨hqs, -, -, hqk, hqw⟩ := ht.answered_by hm hqh hqm
      rw [← hqs]
      refine (hqh.accepted_older hG hgq (hG hqc).2 (earlier hys hqm) (hk.trans hqw.symm)
        (huk.trans hqk.symm) hus).resolve_right fun hd => hf ?_
      unfold Message.Final
      rw [← hqs]
      exact hd
    refine ⟨some m, ⟨rfl, hs⟩, fun b' hb' => ?_⟩
    obtain ⟨l, hlm, hb'⟩ := List.mem_flatMap.1 hb'
    obtain ⟨ys, hys⟩ := (List.mem_tails _ _).1 hlm
    cases l with
    | nil => simp at hb'
    | cons q oldest =>
      dsimp only at hb'
      split_ifs at hb' with hqm
      · obtain ⟨hgq, hqh, -⟩ := hgo.cut hys.symm
        obtain ⟨-, -, -, -, hqw⟩ := ht.answered_by hm hqh hqm
        refine stored_ge hO hgq (earlier hys.symm hqm) hacc ?_
        rw [hk, huk, ← hqw, (ht.step_key hev).1]
        simpa using hb'
      · simp at hb'

/-- Where two replicas hold values at a ballot, those sent in an `ACCEPT` above it repeat one that
was sent from that ballot on. -/
theorem repeats_of_held
    (hC : ∀ {older t}, C older t → t.Orderly ∧ Guarded t.before t.event ∧ t.Ranked older)
    (hg : Grown (fun older t => Happens T older t ∧ C older t) W) {q : ℕ} (hk : Held W k id b)
    (hq : Held W q id b) (hkq : k ≠ q) : Repeats (Offered W id) b := by
  have hO : ∀ {older t}, C older t → t.Orderly := fun h => (hC h).1
  have hOG : ∀ {older t}, C older t → t.Orderly ∧ Guarded t.before t.event := fun h =>
    ⟨(hC h).1, (hC h).2.1⟩
  have lt_N : ∀ {k}, Held W k id b → k < N := by
    rintro k ⟨u, hu, rfl, -⟩
    obtain ⟨_, _, -, -, hh, -⟩ := hg.of_mem hu
    exact hh.who_lt
  have hkN := lt_N hk
  have hqN := lt_N hq
  rintro b' v' hb hv'
  by_cases hib : isInitialBallot b' = true
  · obtain ⟨v, hv⟩ := hk.offered hOG hg
    have := offered_initial hO hg hv hv' (initial_of_le hb.le hib) hib
    omega
  have hsent := hv'
  obtain ⟨k', a', ⟨p, hp, rfl, hpa⟩, hta', rfl, rfl, rfl⟩ := hsent
  obtain ⟨_, _, -, -, hph, -⟩ := hg.of_mem hp
  have hres := (grown_earned hO hg p hp a' hpa).proposal (.inr (.inr hta'))
  obtain ⟨t, ht, hw, hkey, htb, m, hm, hf⟩ := hres.resolve_left hib
  obtain ⟨newer, older, hW⟩ := List.append_of_mem ht
  obtain ⟨hgo, hh, hc⟩ := hg.cut hW
  obtain ⟨ho, -, hr⟩ := hC hc
  obtain ⟨hev, hty, -⟩ := Record.tallied_eq_some.1 hm
  have hid : t.before.key = a'.id := hh.key.symm.trans hkey
  rw [← htb] at hb hib hv'
  rw [← hid] at hk hq hv'
  -- the two replicas of the recovery meet the two that hold a value
  obtain ⟨c₀, hc₀, hge⟩ : ∃ c, t.Candidate m c ∧ ∀ b' ∈ t.ballots older c, b ≤ b' := by
    have hne : m.sender ≠ t.who := by
      have hnb : ¬ m.type.Broadcast := by simp [MessageType.Broadcast, hty]
      have hroot := (grown_rooted (fun h => (hO h).1) hg).cut hW
      have h := (hroot.2.2.2.msg m hev).apart hnb
      rwa [hh.dest hev hnb] at h
    have hs : m.sender < N := by
      obtain ⟨⟨q, hq, hqm⟩, -⟩ := hh.source m hev
      obtain ⟨_, _, -, -, hqh, -⟩ := hgo.of_mem hq
      exact hqh.sender hqm ▸ hqh.who_lt
    have hmeet : (k = t.who ∨ k = m.sender) ∨ q = t.who ∨ q = m.sender := by
      have htN := hh.who_lt
      unfold N at *
      omega
    rcases hmeet with h | h
    · exact hk.candidate hC hg hW hm hf hb h
    · exact hq.candidate hC hg hW hm hf hb h
  obtain ⟨c, hcand, hnew, hst, -, a, hat, hta, hab, hav⟩ := hh.adopts hr hm hf hc₀
  have hv : a'.value = t.value c := by
    refine (offered_unique hO hg _ _ _ hv' ⟨t.who, a, ⟨t, ht, rfl, hat⟩, hta, ?_, hab, ?_⟩)
    · exact hh.sent_id hat
    · exact hav
  rw [hv]
  have hoff : ∀ {c}, t.Candidate m c → ∀ b' ∈ t.ballots older c, b' < t.before.ballot
      ∧ Offered W t.before.key b' (t.value c) := by
    intro c hc b' hb'
    obtain ⟨hlt, hoff⟩ := hc.offered hOG hgo hh ho hm hf hib b' hb'
    refine ⟨hlt, hoff.of_subset ?_⟩
    rw [hW]
    exact fun x hx => List.mem_append_right newer (List.mem_cons_of_mem t hx)
  have hgt : Grown (Happens T) (t :: older) := (hg.upto hW).imp fun _ _ h => h.1
  have first : ∀ {c}, t.Candidate m c → ∃ b', b' ∈ t.ballots older c := fun hc =>
    List.exists_mem_of_ne_nil _ (ballots_ne_nil hgt (hc.met hh.key hm))
  obtain ⟨b₀, hb₀⟩ := first hc₀
  rcases hnew c₀ hc₀ with heq | hle
  · obtain ⟨hlt, hv₀⟩ := hoff hc₀ b₀ hb₀
    exact ⟨b₀, hge b₀ hb₀, htb ▸ hlt, hid ▸ heq ▸ hv₀⟩
  · obtain ⟨b₁, hb₁⟩ := first hcand
    obtain ⟨hlt, hv₁⟩ := hoff hcand b₁ hb₁
    exact ⟨b₁, (hge b₀ hb₀).trans (hle b₁ hb₁ b₀ hb₀), htb ▸ hlt, hid ▸ hv₁⟩

end Run

end Epx
