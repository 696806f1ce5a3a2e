import Epx.Proofs.Newest

/-!
# What the recovery counts

`recover` counts the replica's own copy where its status is `PRE_ACCEPTED`, and starts from what the
last recovery left otherwise. Each answer that `prepare_reply` meets is counted against its own copy
rather than the record, and again when it comes again. `CountsOnce` says when the count is that of
the replicas that have reported the record.
-/

namespace Epx

open Log

/-- What a replica reports of its copy. -/
structure Report where
  replica : ℕ
  status : State
  seq : ℕ
  deps : Deps

def Message.report (m : Message) : Report := ⟨m.sender, m.instanceStatus, m.seq, m.deps⟩

/-- The replica's own copy, as it is when the recovery begins. -/
def Record.report (t : Record) : Report := ⟨t.who, t.before.status, t.before.seq, t.before.deps⟩

/-- The reports that replica `k` has of the instance in this recovery, its own among them. -/
def reports : List Record → ℕ → InstanceId → List Report
  | [], _, _ => []
  | t :: log, k, id =>
    if t.who = k ∧ t.after.key = id then
      if t.Recovers then [t.report]
      else t.tallied.toList.map Message.report ++ reports log k id
    else reports log k id

instance (a b : Deps) : Decidable (a.SameIds b) :=
  decidable_of_iff ((∀ d ∈ a.entries, b.Has d.id) ∧ ∀ d ∈ b.entries, a.Has d.id)
    ⟨fun h _ => ⟨fun ⟨d, hd, hid⟩ => hid ▸ h.1 d hd, fun ⟨d, hd, hid⟩ => hid ▸ h.2 d hd⟩,
      fun h => ⟨fun d hd => (h d.id).1 ⟨d, hd, rfl⟩, fun d hd => (h d.id).2 ⟨d, hd, rfl⟩⟩⟩

namespace Report

/-- The copy reported is pre-accepted. -/
def PreAccepts (p : Report) : Prop := p.status = .preAccepted ∨ p.status = .preAcceptedEq

instance : DecidablePred PreAccepts := fun _ => inferInstanceAs (Decidable (_ ∨ _))

/-- The copy reported is pre-accepted with the record's seq and dependency ids. -/
def Matches (ri : RecoveryInstance) (p : Report) : Prop :=
  p.PreAccepts ∧ p.seq = ri.seq ∧ p.deps.SameIds ri.deps

instance (ri : RecoveryInstance) : DecidablePred (Matches ri) := fun _ =>
  inferInstanceAs (Decidable (_ ∧ _ ∧ _))

/-- The replicas with a report that has the property. -/
def replicas (P : Report → Prop) [DecidablePred P] (ps : List Report) : Finset ℕ :=
  ((ps.filter P).map replica).toFinset

end Report

open Report

/-- The record is one of pre-accepted copies. -/
def RecoveryInstance.PreAccepted (ri : RecoveryInstance) : Prop :=
  ri.status = .preAccepted ∨ ri.status = .preAcceptedEq

instance (ri : RecoveryInstance) : Decidable ri.PreAccepted := inferInstanceAs (Decidable (_ ∨ _))

/-- A record of pre-accepted copies counts the replicas that report it, and says whether the leader
reports a pre-accepted copy. -/
def Counted (leader : ℕ) (ps : List Report) (ri : RecoveryInstance) : Prop :=
  ri.PreAccepted → ri.preAcceptCount = (replicas (Matches ri) ps).card
    ∧ (ri.leaderReplied = 1 ↔ leader ∈ replicas PreAccepts ps)

/-- With nothing recorded, nothing has been counted or reported. Otherwise an answer marked equal is
one of a replica that has not reported the record, and reports it; and one that is not marked equal
is taken to agree if and only if it is of such a replica. -/
def CountsOnce (i : Instance) (lt : LeaderTracker) (ps : List Report) (m : Message) : Prop :=
  m.report.PreAccepts → lt.ri.status.bits < State.accepted.bits →
    if lt.ri.status = .none then
      lt.ri.preAcceptCount = 0 ∧ lt.ri.leaderReplied = 0 ∧ ∀ p ∈ ps, ¬ p.PreAccepts
    else
      m.instanceStatus = .preAcceptedEq ∨ (m.seq = i.seq ∧ m.deps.equalDeps i.deps = true)
        ↔ m.report.Matches lt.ri ∧ m.sender ∉ replicas (Matches lt.ri) ps

namespace Record

/-- A copy marked equal is counted already when its recovery begins. -/
def StartsCounted (t : Record) : Prop :=
  t.before.status = .preAcceptedEq →
    (t.before.lt.getD newTracker).ri.preAcceptCount = 1
      ∧ (t.before.lt.getD newTracker).ri.leaderReplied
        = if t.who = t.before.key.replicaId then 1 else 0

/-- The count is right when the recovery begins, and each answer keeps it so. -/
def Countable (older : List Record) (t : Record) : Prop :=
  (t.Recovers → t.StartsCounted) ∧ ∀ m ∈ t.tallied, ∀ lt ∈ t.before.lt,
    CountsOnce t.before lt (reports older t.who t.before.key) m

/-- Where `prepare_reply` decides, the recovery record is counted. -/
def Tallies (older : List Record) (t : Record) : Prop :=
  ∀ m, t.Decides m → ¬ m.Final → ∀ lt ∈ t.before.lt,
    Counted t.before.key.replicaId (reports (t :: older) t.who t.before.key)
      (tallyReply t.before lt.prepareOk m).ri

end Record

section Tally

variable {i : Instance} {lt : LeaderTracker} {m : Message} {ps : List Report} {leader : ℕ}

/-- Not a pre-accepted answer, or past the pre-accepted: the record stays, or becomes accepted. -/
theorem tally_passes (h : m.report.PreAccepts → ¬ lt.ri.status.bits < State.accepted.bits) :
    (tallyReply i lt m).ri = lt.ri ∨ (tallyReply i lt m).ri.status = .accepted := by
  unfold tallyReply
  by_cases ha : m.instanceStatus = .accepted
  · have hp : isState m.instanceStatus [.preAccepted, .preAcceptedEq] = false := by
      rw [ha]
      decide
    simp only [hp, Bool.false_and, Bool.false_eq_true, if_false]
    split_ifs
    · exact .inr ha
    · exact .inl rfl
  · have hs : isState m.instanceStatus [.accepted] = false := by simp [isState, ha]
    simp only [hs, Bool.false_and, Bool.false_eq_true, if_false]
    rw [if_neg]
    · exact .inl rfl
    · simp only [Bool.and_eq_true, isState_iff, List.mem_cons, List.not_mem_nil, or_false,
        decide_eq_true_eq]
      exact fun hc => h hc.1 hc.2

/-- A pre-accepted answer met before any accepted one. -/
theorem tally_counts (h : m.report.PreAccepts) (hb : lt.ri.status.bits < State.accepted.bits) :
    (tallyReply i lt m).ri.leaderReplied
        = (if m.sender = m.id.replicaId then 1 else lt.ri.leaderReplied)
      ∧ (((tallyReply i lt m).ri.status = m.instanceStatus ∧ (tallyReply i lt m).ri.seq = m.seq
          ∧ (tallyReply i lt m).ri.deps = m.deps
          ∧ (tallyReply i lt m).ri.preAcceptCount = u8 (lt.ri.preAcceptCount + 1)
          ∧ (lt.ri.status = .none ∨ m.instanceStatus = .preAcceptedEq))
        ∨ (lt.ri.status ≠ .none ∧ m.instanceStatus ≠ .preAcceptedEq
          ∧ (tallyReply i lt m).ri.seq = lt.ri.seq ∧ (tallyReply i lt m).ri.deps = lt.ri.deps
          ∧ (tallyReply i lt m).ri.preAcceptCount
            = if m.seq = i.seq ∧ m.deps.equalDeps i.deps = true then u8 (lt.ri.preAcceptCount + 1)
              else lt.ri.preAcceptCount)) := by
  have hp : isState m.instanceStatus [.preAccepted, .preAcceptedEq] = true :=
    isState_iff.2 (List.mem_pair.2 h)
  have hs : isState m.instanceStatus [.accepted] = false := by
    rcases h with h | h <;> rw [show m.instanceStatus = _ from h] <;> rfl
  unfold tallyReply
  simp only [hs, hp, hb, Bool.false_and, Bool.false_eq_true, if_false, decide_true, Bool.true_and,
    if_true, isState_iff, List.mem_singleton, Bool.or_eq_true, Bool.and_eq_true, decide_eq_true_eq]
  by_cases ht : lt.ri.status = .none ∨ m.instanceStatus = .preAcceptedEq
  · simp only [if_pos ht]
    split_ifs <;> exact ⟨rfl, .inl ⟨rfl, rfl, rfl, rfl, ht⟩⟩
  · simp only [if_neg ht]
    rw [not_or] at ht
    split_ifs <;> exact ⟨rfl, .inr ⟨ht.1, ht.2, rfl, rfl, rfl⟩⟩

theorem mem_replicas {P : Report → Prop} [DecidablePred P] {n : ℕ} :
    n ∈ replicas P ps ↔ ∃ p ∈ ps, P p ∧ p.replica = n := by
  simp [replicas, and_assoc]

theorem replicas_cons (P : Report → Prop) [DecidablePred P] (p : Report) :
    replicas P (p :: ps) = if P p then insert p.replica (replicas P ps) else replicas P ps := by
  unfold replicas
  rw [List.filter_cons]
  by_cases h : P p
  · rw [if_pos (by simpa using h), if_pos h, List.map_cons, List.toFinset_cons]
  · rw [if_neg (by simpa using h), if_neg h]

/-- A report of a copy that is not pre-accepted makes no difference. -/
theorem replicas_pass {P : Report → Prop} [DecidablePred P] {p : Report}
    (hP : ∀ q, P q → q.PreAccepts) (h : ¬ p.PreAccepts) : replicas P (p :: ps) = replicas P ps := by
  rw [replicas_cons, if_neg fun hp => h (hP p hp)]

theorem card_replicas_le {P : Report → Prop} [DecidablePred P] (h : ∀ p ∈ ps, p.replica < N) :
    (replicas P ps).card ≤ N := by
  have hsub : replicas P ps ⊆ Finset.range N := fun n hn => by
    obtain ⟨p, hp, -, rfl⟩ := mem_replicas.1 hn
    exact Finset.mem_range.2 (h p hp)
  simpa using Finset.card_le_card hsub

theorem matches_congr {ri ri' : RecoveryInstance} (hs : ri'.seq = ri.seq)
    (hd : ri'.deps.SameIds ri.deps) (p : Report) : p.Matches ri' ↔ p.Matches ri := by
  unfold Report.Matches
  rw [hs]
  exact and_congr_right fun _ => and_congr_right fun _ => ⟨fun h => h.trans hd,
    fun h => h.trans hd.symm⟩

theorem replicas_congr {P Q : Report → Prop} [DecidablePred P] [DecidablePred Q]
    (h : ∀ p, P p ↔ Q p) : replicas P ps = replicas Q ps := by
  ext n
  simp only [mem_replicas, h]

/-- A replica that has not reported the record is one more. -/
theorem card_report {ri : RecoveryInstance} (hm : m.report.Matches ri)
    (hn : m.sender ∉ replicas (Matches ri) ps) :
    (replicas (Matches ri) (m.report :: ps)).card = (replicas (Matches ri) ps).card + 1 := by
  rw [replicas_cons, if_pos hm]
  exact Finset.card_insert_of_notMem hn

theorem state_below {s : State} (h : s.bits < State.accepted.bits) :
    s = .none ∨ s = .preAccepted ∨ s = .preAcceptedEq := by
  revert h
  cases s <;> decide

theorem tally_leader (h : m.report.PreAccepts) (hb : lt.ri.status.bits < State.accepted.bits)
    (hid : m.id.replicaId = leader)
    (hl : lt.ri.leaderReplied = 1 ↔ leader ∈ replicas PreAccepts ps) :
    (tallyReply i lt m).ri.leaderReplied = 1
      ↔ leader ∈ replicas PreAccepts (m.report :: ps) := by
  rw [(tally_counts h hb).1, replicas_cons, if_pos h, Finset.mem_insert, hid, ← hl]
  by_cases hsend : m.sender = leader
  · rw [if_pos hsend]
    exact iff_of_true rfl (.inl hsend.symm)
  · rw [if_neg hsend]
    exact ⟨.inr, fun h => h.resolve_left fun h => hsend h.symm⟩

theorem replicas_eq_empty (P : Report → Prop) [DecidablePred P] (hP : ∀ p, P p → p.PreAccepts)
    (h : ∀ p ∈ ps, ¬ p.PreAccepts) : replicas P ps = ∅ := by
  refine Finset.eq_empty_of_forall_notMem fun n hn => ?_
  obtain ⟨p, hp, hpp, -⟩ := mem_replicas.1 hn
  exact h p hp (hP p hpp)

/-- The first report of a pre-accepted copy is the record. -/
theorem tally_first (h : m.report.PreAccepts) (hn : lt.ri.status = .none)
    (h₀ : lt.ri.preAcceptCount = 0) (hnone : ∀ p ∈ ps, ¬ p.PreAccepts) :
    (tallyReply i lt m).ri.preAcceptCount
      = (replicas (Matches (tallyReply i lt m).ri) (m.report :: ps)).card := by
  rcases (tally_counts (i := i) h (by rw [hn]; decide)).2 with ⟨-, hseq, hdeps, hc, -⟩ | ⟨hne, -⟩
  · have hempty := replicas_eq_empty (Matches (tallyReply i lt m).ri) (fun _ h => h.1) hnone
    rw [card_report ⟨h, hseq.symm, hdeps ▸ .refl _⟩, hempty, hc, h₀]
    · rfl
    · rw [hempty]
      exact Finset.notMem_empty _
  · exact absurd hn hne

/-- A later one that is counted once. -/
theorem tally_next (hps : ∀ p ∈ m.report :: ps, p.replica < N) (h : m.report.PreAccepts)
    (hb : lt.ri.status.bits < State.accepted.bits) (hn : lt.ri.status ≠ .none)
    (hcnt : lt.ri.preAcceptCount = (replicas (Matches lt.ri) ps).card)
    (hc : m.instanceStatus = .preAcceptedEq ∨ (m.seq = i.seq ∧ m.deps.equalDeps i.deps = true)
      ↔ m.report.Matches lt.ri ∧ m.sender ∉ replicas (Matches lt.ri) ps) :
    (tallyReply i lt m).ri.preAcceptCount
      = (replicas (Matches (tallyReply i lt m).ri) (m.report :: ps)).card := by
  -- there are at most `N` replicas, so that a further one does not wrap the count
  have hmore : m.report.Matches lt.ri → m.sender ∉ replicas (Matches lt.ri) ps →
      u8 (lt.ri.preAcceptCount + 1) = (replicas (Matches lt.ri) (m.report :: ps)).card := by
    intro hm hnew
    have hcard := card_replicas_le (P := Matches lt.ri) hps
    rw [card_report hm hnew] at hcard ⊢
    rw [hcnt]
    exact Nat.mod_eq_of_lt (by unfold N at hcard; omega)
  rcases (tally_counts (i := i) h hb).2 with ⟨-, hseq, hdeps, hu, ht⟩ | ⟨-, hne, hseq, hdeps, hu⟩
  · obtain ⟨hm, hnew⟩ := hc.1 (.inl (ht.resolve_left hn))
    rw [replicas_congr (matches_congr (hseq.trans hm.2.1) (hdeps ▸ hm.2.2)), hu]
    exact hmore hm hnew
  · rw [replicas_congr (matches_congr hseq (hdeps ▸ .refl _)), hu]
    by_cases ha : m.seq = i.seq ∧ m.deps.equalDeps i.deps = true
    · obtain ⟨hm, hnew⟩ := hc.1 (.inr ha)
      rw [if_pos ha]
      exact hmore hm hnew
    · rw [if_neg ha, hcnt, replicas_cons]
      split_ifs with hm
      · -- the replica has reported the record before
        have hold : m.sender ∈ replicas (Matches lt.ri) ps := by
          by_contra hnew
          exact (hc.2 ⟨hm, hnew⟩).elim hne ha
        exact congrArg _ (Finset.insert_eq_of_mem hold).symm
      · rfl

/-- An answer counted once keeps the record counted. -/
theorem tally_counted (hps : ∀ p ∈ m.report :: ps, p.replica < N) (hid : m.id.replicaId = leader)
    (hi : Counted leader ps lt.ri) (hc : CountsOnce i lt ps m) :
    Counted leader (m.report :: ps) (tallyReply i lt m).ri := by
  intro hpre
  by_cases hp : m.report.PreAccepts ∧ lt.ri.status.bits < State.accepted.bits
  · obtain ⟨hpa, hb⟩ := hp
    have hc := hc hpa hb
    split_ifs at hc with hn
    · obtain ⟨h₀, hl₀, hnone⟩ := hc
      refine ⟨tally_first hpa hn h₀ hnone, tally_leader hpa hb hid ?_⟩
      rw [hl₀, replicas_eq_empty _ (fun _ h => h) hnone]
      exact iff_of_false (by decide) (Finset.notMem_empty _)
    · obtain ⟨hcnt, hld⟩ := hi ((state_below hb).resolve_left hn)
      exact ⟨tally_next hps hpa hb hn hcnt hc, tally_leader hpa hb hid hld⟩
  · have hri : (tallyReply i lt m).ri = lt.ri := by
      refine (tally_passes (not_and.1 hp)).resolve_right fun ha => ?_
      rcases hpre with hpre | hpre <;> rw [ha] at hpre <;> cases hpre
    rw [hri] at hpre ⊢
    have hnot : ¬ m.report.PreAccepts := fun h => hp ⟨h, by
      rcases hpre with hpre | hpre <;> rw [hpre] <;> decide⟩
    rw [replicas_pass (fun _ h => h.1) hnot, replicas_pass (fun _ h => h) hnot]
    exact hi hpre

end Tally

section Step

variable {T : RangeTree} {log older : List Record} {t : Record} {r : Replica} {i i' : Instance}
  {ev : Event} {io : List Message} {k : ℕ}

/-- An answer that is counted: the record is as it was, or as the answer leaves it, or the phases
start again and nothing is recorded. -/
theorem prepareReply_record {m : Message} {lt lt' : LeaderTracker} {e : Effect}
    (hlt : i.lt = some lt) (hr : lt.recoveryStatus = .preparing) (hn : m.nack = 0)
    (h : prepareReply T r i m = some e) (hl : e.inst.lt = some lt')
    (hp : lt'.recoveryStatus = .preparing) :
    (m.Final ∧ lt'.ri = lt.ri)
      ∨ (¬ m.Final ∧ (lt'.ri.status = .none ∨ lt'.ri = (tallyReply i lt.prepareOk m).ri)) := by
  have hf : isState m.instanceStatus [.committed, .executed] = true ↔ m.Final :=
    isState_iff.trans List.mem_pair
  unfold prepareReply at h
  rw [hlt] at h
  dsimp only at h
  rw [if_neg (not_not.2 hr), if_neg (not_not.2 hn)] at h
  split_ifs at h with h₁ h₂
  · obtain ⟨c, -, rfl⟩ := doCommit_eq h
    cases hl
    exact .inl ⟨hf.1 h₁, rfl⟩
  · cases h
    cases hl
    exact .inr ⟨fun h => h₁ (hf.2 h), .inr rfl⟩
  refine .inr ⟨fun h => h₁ (hf.2 h), ?_⟩
  rcases decidePrepared_cases h with ⟨-, rfl⟩ | ⟨-, rfl⟩ | ⟨-, -, -, -, conflict, command, -,
    ⟨c, -, -, h⟩ | ⟨c, -, -, rfl⟩ | ⟨-, rfl⟩⟩ | ⟨-, -, -, h⟩
  · cases hl
    cases hp
  · cases hl
    cases hp
  · obtain ⟨j, lt₀, s, -, -, -, rfl⟩ := restart_eq h
    cases hl
    exact .inl rfl
  · cases hl
    cases hp
  · cases hl
    cases hp
  · obtain ⟨j, lt₀, s, -, -, -, rfl⟩ := restart_eq h
    cases hl
    exact .inl rfl

/-- A recovery that begins has the record of the replica's own copy. -/
theorem Act.recovers (h : Act T r i ev i' io)
    (hr : Record.Recovers ⟨k, ev, r, i, i', io.map (envelope k)⟩) {lt' : LeaderTracker}
    (hl : i'.lt = some lt') : lt'.ri = (recoverTracker r i).ri := by
  obtain ⟨hev, a, ha, hat⟩ := hr
  cases h with
  | slowTimeout =>
    cases hl
    rfl
  | nackRecover hty hlt =>
    cases hl
    unfold recoverTracker
    rw [hlt]
    dsimp only
    split_ifs <;> rfl
  | triedPrepare ht =>
    rcases hev with hev | hev <;> cases ht.symm.trans hev
  | propose | checkpoint | execute => exact hev.elim
  | triedRestartTwice =>
    simp only [List.map_cons, List.map_nil, List.mem_cons, List.not_mem_nil, or_false] at ha
    rcases ha with rfl | rfl <;> cases hat
  | ignore | okCount | nackCount | replyCount | acceptedCount | preparedNack | preparedCount
  | triedDefer | triedCount | commit => exact absurd ha List.not_mem_nil
  | _ =>
    cases List.mem_singleton.1 ha
    cases hat

/-- Any event that neither begins a recovery nor counts an answer leaves the record, or nothing
recorded. -/
theorem Act.record (h : Act T r i ev i' io)
    (hrec : ¬ Record.Recovers ⟨k, ev, r, i, i', io.map (envelope k)⟩)
    (ht : (Record.mk k ev r i i' (io.map (envelope k))).tallied = none) {lt' : LeaderTracker}
    (hl : i'.lt = some lt') (hp : lt'.recoveryStatus = .preparing) :
    ∃ lt, i.lt = some lt ∧ lt.recoveryStatus = .preparing
      ∧ (lt'.ri.status = .none ∨ lt'.ri = lt.ri) := by
  have hcounted : ∀ {m : Message} {lt : LeaderTracker}, ev = .step m → m.type = .prepareReply →
      m.nack = 0 → i.lt = some lt → lt.recoveryStatus ≠ .preparing := by
    intro m lt hev hty hn hlt hr
    have hm : (Record.mk k ev r i i' (io.map (envelope k))).tallied = some m :=
      Record.tallied_eq_some.2 ⟨hev, hty, hn, lt, hlt, hr⟩
    rw [ht] at hm
    cases hm
  cases h with
  | slowTimeout => exact absurd ⟨trivial, by simp [recoverMsg, envelope]⟩ hrec
  | nackRecover hty =>
    exact absurd ⟨hty.imp And.left And.left, by simp [recoverMsg, envelope]⟩ hrec
  | preparedNack _ hlt hr =>
    cases hl
    exact ⟨_, hlt, hr, .inr rfl⟩
  | preparedCommit hty hlt hr hn | preparedCount hty hlt hr hn | preparedNoop hty hlt hr hn
  | preparedAdopt hty hlt hr hn | preparedRestart hty hlt hr hn | preparedTryOwn hty hlt hr hn
  | preparedTry hty hlt hr hn => exact absurd hr (hcounted rfl hty hn hlt)
  | triedRaise _ _ hr | triedPrepare _ _ hr | triedDefer _ _ hr | triedCount _ _ hr =>
    cases hl
    exact absurd (hr.symm.trans hp) (by rintro ⟨⟩)
  | triedRestart | triedRestartTwice | triedAccept =>
    cases hl
    exact absurd hp (by rintro ⟨⟩)
  | propose h =>
    cases hl
    exact ⟨_, h, hp, .inl rfl⟩
  | okCommit _ h | okAccept _ h | okCount _ h | nackCount _ h | replyCommit _ h
  | replyAccept _ h | replyCount _ h | acceptedCommit _ h | acceptedCount _ h =>
    cases hl
    exact ⟨_, h, hp, .inr rfl⟩
  | _ => exact ⟨lt', hl, hp, .inr rfl⟩

/-- The reports of a recovery are those of replicas. -/
theorem reports_lt (h : Grown (Happens T) log) (k : ℕ) (id : InstanceId) :
    ∀ p ∈ reports log k id, p.replica < N := by
  induction h with
  | nil => exact fun _ h => absurd h List.not_mem_nil
  | @cons t older _ ht ih =>
    rename_i hg
    intro p hp
    simp only [reports] at hp
    split_ifs at hp with hk hrec
    · cases List.mem_singleton.1 hp
      exact ht.who_lt
    · rcases List.mem_append.1 hp with hp | hp
      · obtain ⟨m, hm, rfl⟩ := List.mem_map.1 hp
        obtain ⟨hev, -⟩ := Record.tallied_eq_some.1 (Option.mem_toList.1 hm)
        obtain ⟨⟨q, hq, hqm⟩, -⟩ := ht.source m hev
        obtain ⟨_, _, -, -, hh⟩ := hg.of_mem hq
        show m.sender < N
        rw [hh.sender hqm]
        exact hh.who_lt
      · exact ih p hp
    · exact ih p hp

/-- The record of a recovery that goes on is counted. -/
def Recounted (log : List Record) (k : ℕ) (i : Instance) : Prop :=
  ∀ lt ∈ i.lt, lt.recoveryStatus = .preparing →
    Counted i.key.replicaId (reports log k i.key) lt.ri

theorem Counted.of_none {leader : ℕ} {ps : List Report} {ri : RecoveryInstance}
    (h : ri.status = .none) : Counted leader ps ri := by
  rintro (hp | hp) <;> rw [h] at hp <;> cases hp

/-- A report of a copy that is not pre-accepted leaves the record counted. -/
theorem Counted.pass {leader : ℕ} {ps : List Report} {ri : RecoveryInstance} {p : Report}
    (h : Counted leader ps ri) (hp : ¬ p.PreAccepts) : Counted leader (p :: ps) ri := by
  intro hpre
  rw [replicas_pass (fun _ h => h.1) hp, replicas_pass (fun _ h => h) hp]
  exact h hpre

/-- The record that a recovery begins with is counted. -/
theorem counted_start (hid : r.id = k)
    (hs : Record.StartsCounted ⟨k, ev, r, i, i', io.map (envelope k)⟩) :
    Counted i.key.replicaId [⟨k, i.status, i.seq, i.deps⟩] (recoverTracker r i).ri := by
  intro hpre
  have hvalue : (recoverTracker r i).ri.status = i.status ∧ (recoverTracker r i).ri.seq = i.seq
      ∧ (recoverTracker r i).ri.deps = i.deps := ⟨rfl, rfl, rfl⟩
  obtain ⟨hst, hseq, hdeps⟩ := hvalue
  have hown : Report.PreAccepts ⟨k, i.status, i.seq, i.deps⟩ := hpre
  have hcount : (recoverTracker r i).ri.preAcceptCount = 1
      ∧ (recoverTracker r i).ri.leaderReplied = if k = i.key.replicaId then 1 else 0 := by
    unfold recoverTracker
    rcases hown with ho | ho
    · have ho : i.status = .preAccepted := ho
      simp [isState, ho, hid]
    · have ho : i.status = .preAcceptedEq := ho
      simpa [isState, ho] using hs ho
  rw [hcount.1, hcount.2, replicas_cons, replicas_cons,
    if_pos ⟨hown, hseq.symm, hdeps ▸ .refl _⟩, if_pos hown]
  refine ⟨rfl, ?_⟩
  split_ifs with hk
  · exact iff_of_true rfl (hk ▸ Finset.mem_insert_self _ _)
  · refine iff_of_false (by decide) fun hm => hk ?_
    exact (Finset.mem_insert.1 hm).elim Eq.symm fun h => absurd h (Finset.notMem_empty _)

theorem recounted_step
    (ht : Happens T older ⟨k, ev, r, i, i', io.map (envelope k)⟩)
    (hg : Grown (Happens T) older)
    (hc : Record.Countable older ⟨k, ev, r, i, i', io.map (envelope k)⟩)
    (hi : Recounted older k i) (ha : Act T r i ev i' io) :
    Recounted (⟨k, ev, r, i, i', io.map (envelope k)⟩ :: older) k i' := by
  set t : Record := ⟨k, ev, r, i, i', io.map (envelope k)⟩ with htdef
  intro lt' hlt' hp
  have hps := reports_lt (hg.cons ht) k i'.key
  have hreports : reports (t :: older) k i'.key
      = if t.Recovers then [t.report]
        else t.tallied.toList.map Message.report ++ reports older k i.key := by
    simp [reports, t, ha.key]
  rw [hreports] at hps ⊢
  rw [ha.key]
  split_ifs at hps ⊢ with hrec
  · rw [ha.recovers hrec hlt']
    exact counted_start ht.who_eq (hc.1 hrec)
  cases hm : t.tallied with
  | none =>
    obtain ⟨lt, hlt, hr, h₀ | hri⟩ := ha.record hrec hm hlt' hp
    · exact .of_none h₀
    · rw [hri]
      exact hi lt hlt hr
  | some m =>
    obtain ⟨hev, hty, hn, lt, hlt, hr⟩ := Record.tallied_eq_some.1 hm
    obtain ⟨e, he, hie, -⟩ := ht.handled
    rw [hev] at he
    obtain ⟨hloc, he⟩ := step_progress he
    simp only [progress, hty] at he
    have hlt'' : e.inst.lt = some lt' := by rw [← hie]; exact hlt'
    rw [hm] at hps
    have hold : Counted i.key.replicaId (reports older k i.key) lt.ri := hi lt hlt hr
    rcases prepareReply_record hlt hr hn he hlt'' hp with ⟨hf, hri⟩ | ⟨-, h₀ | hri⟩
    · rw [hri]
      refine hold.pass ?_
      rintro (h | h) <;> rcases hf with hf | hf <;> cases h.symm.trans hf
    · exact .of_none h₀
    · rw [hri]
      have hid : m.id.replicaId = i.key.replicaId :=
        congrArg InstanceId.replicaId (ht.step_key hev).1.symm
      exact tally_counted hps hid hold (hc.2 m hm lt hlt)

/-- In a log of countable records. -/
theorem grown_recounted
    (h : Grown (fun older t => Happens T older t ∧ t.Countable older) log) :
    ∀ k id i, Last log k id i → Recounted log k i := by
  refine (run_rule (I := Recounted) (M := fun _ _ => True) ?_ (fun h => h) ?_ ?_ h).1
  · intro older t k i _ hi hne
    have hr : reports (t :: older) k i.key = reports older k i.key := by simp [reports, hne]
    unfold Recounted
    rw [hr]
    exact hi
  · rintro older t - - - - (hb | hb) lt hlt hp <;> rw [hb] at hlt
    · cases hlt
      cases hp
    · cases hlt
  · intro older k ev r i i' io hg ht hc _ _ hi ha
    exact ⟨recounted_step ht (hg.imp fun _ _ h => h.1) hc hi ha, fun _ _ => trivial⟩

end Step

/-- In every run whose records are countable, the recovery record that `prepare_reply` decides on
counts the replicas that have reported it, and says whether the leader has. -/
theorem recovery_tally {T : RangeTree} {w : World} (h : Run T w)
    (hc : Grown (fun older t => t.Countable older) w.log) {newer older : List Record} {t : Record}
    (hl : w.log = newer ++ t :: older) : t.Tallies older := by
  have hg := h.grown.1.both hc
  rw [hl] at hg
  obtain ⟨ht, hcount⟩ := hg.entry
  rintro m ⟨hm, -⟩ - lt hlt
  obtain ⟨hev, hty, -, lt', hlt', hr⟩ := Record.tallied_eq_some.1 hm
  cases Option.some.inj (hlt.symm.trans hlt')
  have hold : Recounted older t.who t.before := by
    rcases ht.before with hlast | ⟨-, hb | hb⟩
    · exact grown_recounted hg.of_append.tail _ _ _ hlast
    · rw [hb] at hlt
      cases hlt
      cases hr
    · rw [hb] at hlt
      cases hlt
  have hreports : reports (t :: older) t.who t.before.key
      = m.report :: reports older t.who t.before.key := by
    have hrec : ¬ t.Recovers := by
      rintro ⟨h, -⟩
      simp [hev, hty] at h
    simp [reports, ht.key, hrec, hm]
  have hps := reports_lt (hg.of_append.imp fun _ _ h => h.1) t.who t.before.key
  rw [hreports] at hps ⊢
  have hid : m.id.replicaId = t.before.key.replicaId :=
    congrArg InstanceId.replicaId (ht.step_key hev).1.symm
  exact tally_counted hps hid (hold lt hlt hr) (hcount.2 m hm lt hlt)

instance (t : Record) : Decidable t.StartsCounted := by
  unfold Record.StartsCounted; infer_instance

instance (i : Instance) (lt : LeaderTracker) (ps : List Report) (m : Message) :
    Decidable (CountsOnce i lt ps m) := by
  unfold CountsOnce; infer_instance

instance (older : List Record) (t : Record) : Decidable (t.Countable older) := by
  unfold Record.Countable; infer_instance

instance (leader : ℕ) (ps : List Report) (ri : RecoveryInstance) :
    Decidable (Counted leader ps ri) := by
  unfold Counted; infer_instance

/-- The record decides on pre-accepted copies. -/
def Record.DecidesPreAccepted (t : Record) : Prop :=
  ∃ m ∈ t.tallied, t.Decides m ∧ ¬ m.Final
    ∧ ∃ lt ∈ t.before.lt, (tallyReply t.before lt.prepareOk m).ri.PreAccepted

instance (t : Record) : Decidable t.DecidesPreAccepted := by
  unfold Record.DecidesPreAccepted; infer_instance

/-- The leader recovers its own instance, which replica 1 has not seen. -/
def ownRecovery : List Move :=
  [proposeAt 0 [49, 48] [50, 48], timeoutAt 0 ⟨0, 1⟩, timeoutAt 0 ⟨0, 1⟩,
    deliverAt 1 .prepare ⟨0, 1⟩, deliverAt 0 .prepareReply ⟨0, 1⟩]

theorem recovery_tally_own : ∃ w newer t older, Run listTree w
    ∧ Grown (fun older t => t.Countable older) w.log ∧ w.log = newer ++ t :: older
    ∧ t.DecidesPreAccepted ∧ t.Tallies older := by
  obtain ⟨w, hr, hc, t, ht, hd⟩ := @exists_run ownRecovery
    (fun w => Grown (fun older t => t.Countable older) w.log ∧ ∃ t ∈ w.log,
      t.DecidesPreAccepted) _ (by decide +kernel)
  obtain ⟨newer, older, hl⟩ := List.append_of_mem ht
  exact ⟨w, newer, t, older, hr, hc, hl, hd, recovery_tally hr hc hl⟩

/-- Replica 1 recovers an instance that its own copy marks equal, and replica 2 has not seen it. -/
def equalRecovery : List Move :=
  [proposeAt 0 [49, 48] [50, 48], deliverAt 1 .preAccept ⟨0, 1⟩, timeoutAt 1 ⟨0, 1⟩,
    deliverAt 2 .prepare ⟨0, 1⟩, deliverAt 1 .prepareReply ⟨0, 1⟩]

/-- The record is that of replica 1's own copy, and counts none. -/
theorem equal_uncounted : ¬ ∀ w, Run listTree w → ∀ newer t older,
    w.log = newer ++ t :: older → t.Tallies older := by
  intro h
  obtain ⟨w, hr, t, ht, m, -, hd, hf, lt, hlt, hn⟩ := @exists_run equalRecovery
    (fun w => ∃ t ∈ w.log.head?, ∃ m ∈ t.tallied, t.Decides m ∧ ¬ m.Final
      ∧ ∃ lt ∈ t.before.lt, ¬ Counted t.before.key.replicaId
        (reports (t :: w.log.tail) t.who t.before.key) (tallyReply t.before lt.prepareOk m).ri) _
    (by decide +kernel)
  have hl : w.log = [] ++ t :: w.log.tail := (List.cons_head?_tail ht).symm
  exact hn (h w hr [] t _ hl m hd hf lt hlt)

end Epx
