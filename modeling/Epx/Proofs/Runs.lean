import Epx.Lib.Log
import Epx.Proofs.Acts
import Epx.Proofs.Ids

/-!
# Runs as logs

The log of a run says everything about it: the copy a replica has of an instance is what the last
record about the two left (`Last`), a message delivered was sent by an earlier record, and every
record is an `Act`. `run_rule` is the induction for the invariants that are about one copy or one
message at a time.
-/

namespace Epx

open Log

/-- Replica `k`'s copy of `id` as the last record about it left it. -/
def Last (log : List Record) (k : ℕ) (id : InstanceId) (i : Instance) : Prop :=
  ∃ t, log.find? (fun t => t.who = k ∧ t.after.key = id) = some t ∧ t.after = i

theorem Last.key {log : List Record} {k : ℕ} {id : InstanceId} {i : Instance}
    (h : Last log k id i) : i.key = id := by
  obtain ⟨t, ht, rfl⟩ := h
  have := List.find?_some ht
  simp only [decide_eq_true_eq] at this
  exact this.2

theorem Last.exists_mem {log : List Record} {k : ℕ} {id : InstanceId} {i : Instance}
    (h : Last log k id i) : ∃ t ∈ log, t.who = k ∧ t.after.key = id ∧ t.after = i := by
  obtain ⟨t, ht, rfl⟩ := h
  have := List.find?_some ht
  simp only [decide_eq_true_eq] at this
  exact ⟨t, List.mem_of_find?_eq_some ht, this.1, this.2, rfl⟩

theorem last_cons {log : List Record} {t : Record} {k : ℕ} {id : InstanceId} {i : Instance} :
    Last (t :: log) k id i
      ↔ (t.who = k ∧ t.after.key = id ∧ t.after = i)
        ∨ (¬ (t.who = k ∧ t.after.key = id) ∧ Last log k id i) := by
  unfold Last
  by_cases h : t.who = k ∧ t.after.key = id
  · simp [h]
  · rw [List.find?_cons_of_neg (by simpa using h)]
    exact ⟨fun hl => .inr ⟨h, hl⟩, fun hl => hl.elim (fun hl => absurd ⟨hl.1, hl.2.1⟩ h) And.right⟩

/-- What a record left is the replica's copy at that time. -/
theorem last_self (log : List Record) (t : Record) : Last (t :: log) t.who t.after.key t.after :=
  last_cons.2 (.inl ⟨rfl, rfl, rfl⟩)

/-- The command, the seq and the dependencies. -/
abbrev Value := Option Command × ℕ × Deps

def Instance.value (i : Instance) : Value := (i.command, i.seq, i.deps)

def Message.value (m : Message) : Value := (m.command, m.seq, m.deps)

theorem Instance.agrees_of_value {i j : Instance} (h : i.value = j.value) : i.Agrees j := by
  simp only [Instance.value, Prod.mk.injEq] at h
  exact ⟨h.1, h.2.1, h.2.2 ▸ .refl _⟩

/-- The record's instance was made for the event. -/
def Record.Made (t : Record) : Prop := t.pre.find t.before.key = none

instance (t : Record) : Decidable t.Made := inferInstanceAs (Decidable (_ = _))

/-- The message the record handles. -/
def Record.message (t : Record) : Option Message :=
  match t.event with
  | .step m => some m
  | _ => none

theorem Record.mem_message {t : Record} {m : Message} : m ∈ t.message ↔ t.event = .step m := by
  unfold Record.message
  cases t.event <;> simp

/-- What is known of a record when it is added to the log. -/
structure Happens (T : RangeTree) (older : List Record) (t : Record) : Prop where
  who_lt : t.who < N
  who_eq : t.pre.id = t.who
  handled : ∃ e, t.pre.handle T t.event = .handled t.before e ∧ t.after = e.inst
    ∧ t.sent = e.io.map (envelope t.who)
  acts : ∃ io, Act T t.pre t.before t.event t.after io ∧ t.sent = io.map (envelope t.who)
  located : Located t.pre t.before t.event
  source : ∀ m, t.event = .step m → (∃ p ∈ older, m ∈ p.sent) ∧ m.Reaches t.who
  found : ∀ id i, t.pre.find id = some i → Last older t.who id i
  ids : ∀ p ∈ older, p.who = t.who → p.after.key.replicaId = t.who →
    p.after.key.instanceId ≤ t.pre.maxLocal
  kept : ∀ p ∈ older, p.who = t.who → t.pre.find p.after.key = none →
    p.after.key ∈ t.pre.handed

section Act

variable {T : RangeTree} {r : Replica} {i i' : Instance} {ev : Event} {io : List Message}

theorem Act.key (h : Act T r i ev i' io) : i'.key = i.key := by
  cases h <;> rfl

/-- What is sent is about the instance handled. -/
theorem Act.sent_id (h : Act T r i ev i' io) (hk : ∀ m, ev = .step m → i.key = m.id) :
    ∀ m ∈ io, m.id = i.key := by
  cases h
  all_goals
    simp only [List.forall_mem_cons, List.not_mem_nil, false_imp_iff, implies_true, and_true,
      phase1Msg, recoverMsg, messageFromInstance, and_self]
  all_goals exact (hk _ rfl).symm

/-- Only the executor's write makes an instance executed. -/
theorem Act.executed (h : Act T r i ev i' io) (hs : i'.status = .executed) :
    i.status = .executed ∨ ∃ id ∈ r.handed, ev = .execute id := by
  cases h with
  | execute h => exact .inr ⟨_, h, rfl⟩
  | slowTimeout | fastTimeout | ignore | preAcceptNack | okCount | nackCount | nackRecover
  | replyCount | acceptNack | acceptedCount | prepareNack | preparePromise | preparedNack
  | preparedCount | preparedTryOwn | tryNack | triedRaise | triedPrepare | triedDefer
  | triedCount => exact .inl hs
  | preAcceptReply | preAcceptOk =>
    simp only [preAcceptInst] at hs
    split_ifs at hs
  | _ => cases hs

theorem Act.type_ne (h : Act T r i ev i' io) : ∀ m ∈ io, m.type ≠ .phase1 := by
  cases h <;> simp [phase1Msg, recoverMsg]

end Act

variable {T : RangeTree} {w w' : World} {k : ℕ} {ev : Event}

theorem next_eq (h : w.next T k ev = some w') :
    k < N ∧ w.Enabled k ev ∧ ∃ i e, (w.replica k).handle T ev = .handled i e
      ∧ w' = { replica := Function.update w.replica k ((w.replica k).apply e)
               log := ⟨k, ev, w.replica k, i, e.inst, e.io.map (envelope k)⟩ :: w.log } := by
  unfold World.next at h
  split_ifs at h with hk
  split at h
  · rename_i i e he
    exact ⟨hk.1, hk.2, i, e, he, (Option.some.inj h).symm⟩
  · cases h

/-- After the effect, the replica has the instance handled, and of the others what it had. -/
theorem find_apply {r : Replica} {e : Effect} {id : InstanceId} {i : Instance}
    (h : (r.apply e).find id = some i) :
    (id = e.inst.key ∧ i = e.inst) ∨ (id ≠ e.inst.key ∧ r.find id = some i) := by
  have hp : (r.put e.inst).find id = some i := by
    have h' : (if e.cleared then (r.put e.inst).clear else r.put e.inst).find id = some i := h
    split_ifs at h' with hc
    · exact Replica.find_clear h'
    · exact h'
  rw [Replica.find_put] at hp
  split_ifs at hp with hid
  · exact .inl ⟨hid, (Option.some.inj hp).symm⟩
  · exact .inr ⟨hid, hp⟩

/-- What the effect leaves out of the indexes was not there, or executed. -/
theorem find_apply_none {r : Replica} {e : Effect} {id : InstanceId}
    (h : (r.apply e).find id = none) :
    (id ≠ e.inst.key ∧ r.find id = none)
      ∨ ∃ i, i.status = .executed
        ∧ ((id = e.inst.key ∧ i = e.inst) ∨ (id ≠ e.inst.key ∧ r.find id = some i)) := by
  have h' : (if e.cleared then (r.put e.inst).clear else r.put e.inst).find id = none := h
  have hp := r.find_put e.inst id
  cases hf : (r.put e.inst).find id with
  | none =>
    rw [hf] at hp
    split_ifs at hp with hid
    exact .inl ⟨hid, hp.symm⟩
  | some i =>
    have hs : i.status = .executed := by
      by_contra hs
      have hc := Replica.find_clear_of_ne hs hf
      split_ifs at h'
      · rw [hc] at h'
        cases h'
      · rw [hf] at h'
        cases h'
    rw [hf] at hp
    refine .inr ⟨i, hs, ?_⟩
    split_ifs at hp with hid
    · exact .inl ⟨hid, Option.some.inj hp⟩
    · exact .inr ⟨hid, hp.symm⟩

theorem type_ne_of_sent {log : List Record} (h : Grown (Happens T) log) {m : Message}
    (hm : ∃ p ∈ log, m ∈ p.sent) : m.type ≠ .phase1 := by
  obtain ⟨p, hp, hm⟩ := hm
  obtain ⟨_, _, -, -, ht⟩ := h.of_mem hp
  obtain ⟨io, ha, hs⟩ := ht.acts
  rw [hs] at hm
  obtain ⟨m', hm', rfl⟩ := List.mem_map.1 hm
  exact ha.type_ne m' hm'

theorem mem_sent {m : Message} : m ∈ w.sent ↔ ∃ p ∈ w.log, m ∈ p.sent := by
  simp [World.sent]

theorem handed_apply {r : Replica} {id : InstanceId} (e : Effect) (h : id ∈ r.handed) :
    id ∈ (r.apply e).handed := by
  unfold Replica.apply
  have hc : (if e.cleared then (r.put e.inst).clear else r.put e.inst).handed = r.handed := by
    split_ifs <;> rfl
  simp only [hc]
  split_ifs
  · exact List.mem_cons_of_mem _ h
  · exact h

/-- What the replicas of a world have in their indexes is what the log says; what they have no
more was executed. -/
structure World.Indexed (w : World) : Prop where
  id : ∀ k, (w.replica k).id = k
  last : ∀ k id i, (w.replica k).find id = some i → Last w.log k id i
  max : ∀ k, ∀ p ∈ w.log, p.who = k → p.after.key.replicaId = k →
    p.after.key.instanceId ≤ (w.replica k).maxLocal
  executed : ∀ k id i, (w.replica k).find id = some i → i.status = .executed →
    id ∈ (w.replica k).handed
  dropped : ∀ k, ∀ p ∈ w.log, p.who = k → (w.replica k).find p.after.key = none →
    p.after.key ∈ (w.replica k).handed

theorem World.Indexed.init : World.init.Indexed where
  id _ := rfl
  last k id i h := by
    simp [World.init, newReplica, Replica.find, InstanceIndex.find, InstanceIndex.empty] at h
  max _ p hp := by simp [World.init] at hp
  executed k id i h := by
    simp [World.init, newReplica, Replica.find, InstanceIndex.find, InstanceIndex.empty] at h
  dropped _ p hp := by simp [World.init] at hp

/-- An instance an event leaves executed was handed to the executor. -/
theorem World.Indexed.handed {w : World} (h : w.Indexed) {k : ℕ} {i i' : Instance}
    {io : List Message} (hl : Located (w.replica k) i ev) (ha : Act T (w.replica k) i ev i' io)
    (hs : i'.status = .executed) : i'.key ∈ (w.replica k).handed := by
  rw [ha.key]
  rcases ha.executed hs with hs | ⟨id, hid, rfl⟩
  · have found : ∀ id, (w.replica k).find id = some i → i.key ∈ (w.replica k).handed := by
      intro id hf
      have := h.executed k id i hf hs
      rwa [(h.last k id i hf).key]
    cases ev with
    | propose m | checkpoint m =>
      rw [hl.2] at hs
      cases hs
    | timeout id m => exact found id hl
    | step m =>
      cases hc : (w.replica k).find m.id with
      | none =>
        rw [hl.1, Replica.copy, hc] at hs
        cases hs
      | some j =>
        have : i = j := by rw [hl.1, Replica.copy, hc]; rfl
        exact found m.id (this ▸ hc)
    | execute id => exact found id hl
  · rwa [(h.last k id i hl).key]

/-- The indexes after an event. -/
theorem World.Indexed.next {w : World} (h : w.Indexed) {k : ℕ} {i : Instance} {e : Effect}
    {io : List Message} (hl : Located (w.replica k) i ev)
    (ha : Act T (w.replica k) i ev e.inst io) :
    World.Indexed
      { replica := Function.update w.replica k ((w.replica k).apply e)
        log := ⟨k, ev, w.replica k, i, e.inst, e.io.map (envelope k)⟩ :: w.log } where
  id j := by
    by_cases hj : j = k
    · subst hj
      simp only [Function.update_self, Replica.apply]
      split_ifs <;> exact h.id j
    · simp only [Function.update_of_ne hj]
      exact h.id j
  last j id x hx := by
    rw [last_cons]
    by_cases hj : j = k
    · subst hj
      simp only [Function.update_self] at hx
      rcases find_apply hx with ⟨rfl, rfl⟩ | ⟨hne, hx⟩
      · exact .inl ⟨rfl, rfl, rfl⟩
      · exact .inr ⟨fun h => hne h.2.symm, h.last j id x hx⟩
    · simp only [Function.update_of_ne hj] at hx
      exact .inr ⟨fun h => hj h.1.symm, h.last j id x hx⟩
  max j p hp hpj hpk := by
    have hmax := (w.replica k).maxLocal_apply e
    by_cases hj : j = k
    · subst hj
      simp only [Function.update_self]
      rcases List.mem_cons.1 hp with rfl | hp
      · exact hmax.2 (hpk.trans (h.id j).symm)
      · exact (h.max j p hp hpj hpk).trans hmax.1
    · simp only [Function.update_of_ne hj]
      rcases List.mem_cons.1 hp with rfl | hp
      · exact absurd hpj.symm hj
      · exact h.max j p hp hpj hpk
  executed j id x hx hs := by
    by_cases hj : j = k
    · subst hj
      simp only [Function.update_self] at hx ⊢
      refine handed_apply e ?_
      rcases find_apply hx with ⟨rfl, rfl⟩ | ⟨-, hx⟩
      · exact h.handed hl ha hs
      · exact h.executed j id x hx hs
    · simp only [Function.update_of_ne hj] at hx ⊢
      exact h.executed j id x hx hs
  dropped j p hp hpj hf := by
    by_cases hj : j = k
    · subst hj
      simp only [Function.update_self] at hf ⊢
      refine handed_apply e ?_
      rcases find_apply_none hf with ⟨hne, hf⟩ | ⟨x, hs, ⟨hid, rfl⟩ | ⟨-, hx⟩⟩
      · rcases List.mem_cons.1 hp with rfl | hp
        · exact absurd rfl hne
        · exact h.dropped j p hp hpj hf
      · rw [hid]
        exact h.handed hl ha hs
      · exact h.executed j _ x hx hs
    · simp only [Function.update_of_ne hj] at hf ⊢
      rcases List.mem_cons.1 hp with rfl | hp
      · exact absurd hpj.symm hj
      · exact h.dropped j p hp hpj hf

/-- The log of a run, and the copies the replicas have at its end. -/
theorem Run.grown (h : Run T w) : Grown (Happens T) w.log ∧ w.Indexed := by
  induction h with
  | init => exact ⟨.nil, .init⟩
  | @next w₀ _ k ev _ hn ih =>
    obtain ⟨hlog, hw⟩ := ih
    obtain ⟨hk, hen, i, e, hh, rfl⟩ := next_eq hn
    have hsrc : ∀ m, ev = .step m → (∃ p ∈ w₀.log, m ∈ p.sent) ∧ m.Reaches k := by
      rintro m rfl
      exact ⟨mem_sent.1 hen.1, hen.2⟩
    obtain ⟨hl, ha⟩ := handle_act (fun m hm => type_ne_of_sent hlog (hsrc m hm).1) hh
    refine ⟨.cons hlog ?_, hw.next hl ha⟩
    exact ⟨hk, hw.id k, ⟨e, hh, rfl, rfl⟩, ⟨_, ha, rfl⟩, hl, hsrc, hw.last k, hw.max k, hw.dropped k⟩

section Record

variable {older : List Record} {t : Record}

theorem Happens.key (h : Happens T older t) : t.after.key = t.before.key := by
  obtain ⟨io, ha, -⟩ := h.acts
  exact ha.key

/-- The instance a record is about is the replica's copy, or was made for the event. -/
theorem Happens.before (h : Happens T older t) :
    Last older t.who t.before.key t.before
      ∨ (t.Made ∧ (t.before = t.pre.ownInstance
        ∨ t.before = { newInstance t.before.key with timer := some .slowPath })) := by
  have hl := h.located
  have hf := h.found
  obtain ⟨who, ev, pre, before, after, sent⟩ := t
  cases ev with
  | propose m => exact .inr ⟨hl.1, .inl hl.2⟩
  | checkpoint m => exact .inr ⟨hl.1, .inl hl.2⟩
  | timeout id m =>
    have := hf id before hl
    exact .inl (this.key ▸ this)
  | step m =>
    obtain ⟨hl, -, -⟩ := hl
    simp only [Replica.copy] at hl
    cases hc : pre.find m.id with
    | none =>
      rw [hc] at hl
      subst hl
      exact .inr ⟨hc, .inr rfl⟩
    | some i =>
      rw [hc] at hl
      subst hl
      have := hf m.id before hc
      exact .inl (this.key ▸ this)
  | execute id =>
    have := hf id before hl
    exact .inl (this.key ▸ this)

/-- A copy with a status is registered. -/
theorem Happens.last_of_status (h : Happens T older t) (hs : t.before.status ≠ .none) :
    Last older t.who t.before.key t.before := by
  rcases h.before with hl | ⟨-, hb | hb⟩
  · exact hl
  · rw [hb] at hs
    exact absurd rfl hs
  · rw [hb] at hs
    exact absurd rfl hs

/-- A copy in a recovery is registered. -/
theorem Happens.last_of_preparing (h : Happens T older t) {lt : LeaderTracker}
    (hlt : t.before.lt = some lt) (hr : lt.recoveryStatus = .preparing) :
    Last older t.who t.before.key t.before := by
  rcases h.before with hl | ⟨-, hb | hb⟩
  · exact hl
  · rw [hb] at hlt
    cases hlt
    cases hr
  · rw [hb] at hlt
    cases hlt

/-- A message is handled on the copy of the instance it names. -/
theorem Happens.step_key (h : Happens T older t) {m : Message} (hm : t.event = .step m) :
    t.before.key = m.id ∧ m.id.replicaId < N ∧ m.id.instanceId ≠ 0 := by
  have hl := h.located
  have hf := h.found
  rw [hm] at hl
  obtain ⟨hl, h₀, hN⟩ := hl
  refine ⟨?_, hN, h₀⟩
  rw [hl, Replica.copy]
  cases hc : t.pre.find m.id with
  | none => rfl
  | some i => exact (hf m.id i hc).key

/-- A request comes from another replica. -/
theorem Happens.foreign (ht : Happens T older t) {m : Message} (hev : t.event = .step m)
    (hm : m.type.Broadcast) : m.sender ≠ t.who := by
  have := (ht.source m hev).2
  rw [Message.Reaches, if_pos hm] at this
  exact this.symm

/-- An answer comes to the replica it is addressed to. -/
theorem Happens.dest (ht : Happens T older t) {m : Message} (hev : t.event = .step m)
    (hm : ¬ m.type.Broadcast) : m.dest = t.who := by
  have := (ht.source m hev).2
  rw [Message.Reaches, if_neg hm] at this
  exact this.symm

theorem Happens.sent_id (h : Happens T older t) {m : Message} (hm : m ∈ t.sent) :
    m.id = t.before.key := by
  obtain ⟨io, ha, hs⟩ := h.acts
  rw [hs] at hm
  obtain ⟨m', hm', rfl⟩ := List.mem_map.1 hm
  exact ha.sent_id (fun m hm => (h.step_key hm).1) m' hm'

theorem Happens.sender (h : Happens T older t) {m : Message} (hm : m ∈ t.sent) :
    m.sender = t.who := by
  obtain ⟨io, -, hs⟩ := h.acts
  rw [hs] at hm
  obtain ⟨m', -, rfl⟩ := List.mem_map.1 hm
  rfl

/-- The registered copy, where there is one, is the instance handled. -/
theorem Happens.before_eq (h : Happens T older t) {i : Instance}
    (hi : t.pre.find t.before.key = some i) : t.before = i := by
  have hl := h.located
  have hf := h.found
  obtain ⟨who, ev, pre, before, after, sent⟩ := t
  have found : ∀ id, pre.find id = some before → before = i := fun id hid => by
    have hk := (hf id before hid).key
    have hi : pre.find before.key = some i := hi
    rw [hk, hid] at hi
    exact Option.some.inj hi
  cases ev with
  | propose m => exact absurd hi (by simp [hl.1])
  | checkpoint m => exact absurd hi (by simp [hl.1])
  | timeout id m => exact found id hl
  | step m =>
    obtain ⟨hl, -, -⟩ := hl
    simp only [Replica.copy] at hl
    cases hc : pre.find m.id with
    | none =>
      rw [hc] at hl
      subst hl
      exact absurd hi (by simp [newInstance, hc])
    | some j =>
      rw [hc] at hl
      subst hl
      exact found m.id hc
  | execute id => exact found id hl

end Record

/-- Instance ids are `uint64_t`. -/
theorem key_lt {log : List Record} (h : Grown (Happens T) log) :
    ∀ p ∈ log, p.after.key.instanceId < 2 ^ 64 := by
  induction h with
  | nil => simp
  | @cons t older h ht ih =>
    simp only [List.forall_mem_cons]
    refine ⟨?_, ih⟩
    have hown : t.pre.ownInstance.key.instanceId < 2 ^ 64 := Nat.mod_lt _ (by norm_num)
    rw [ht.key]
    rcases ht.before with hb | ⟨-, hb | hb⟩
    · obtain ⟨p, hp, -, -, hpa⟩ := hb.exists_mem
      exact hpa ▸ ih p hp
    · exact hb ▸ hown
    · have hl := ht.located
      cases hev : t.event with
      | propose m =>
        rw [hev] at hl
        exact hl.2 ▸ hown
      | checkpoint m =>
        rw [hev] at hl
        exact hl.2 ▸ hown
      | timeout id m =>
        rw [hev] at hl
        obtain ⟨p, hp, -, -, hpa⟩ := (ht.found id _ hl).exists_mem
        exact hpa ▸ ih p hp
      | step m =>
        obtain ⟨⟨p, hp, hm⟩, -⟩ := ht.source m hev
        obtain ⟨_, _, -, -, hpp⟩ := h.of_mem hp
        rw [(ht.step_key hev).1, hpp.sent_id hm, ← hpp.key]
        exact ih p hp
      | execute id =>
        rw [hev] at hl
        obtain ⟨p, hp, -, -, hpa⟩ := (ht.found id _ hl).exists_mem
        exact hpa ▸ ih p hp

/-- `propose` or `checkpoint`, which give a new instance its id. -/
def Event.Assigns : Event → Prop
  | .propose _ | .checkpoint _ => True
  | _ => False

instance (ev : Event) : Decidable ev.Assigns :=
  match ev with
  | .propose _ | .checkpoint _ => isTrue trivial
  | .timeout _ _ | .step _ | .execute _ => isFalse not_false

theorem Happens.assigns_before {older : List Record} {t : Record} (h : Happens T older t)
    (ho : t.event.Assigns) : t.before = t.pre.ownInstance ∧ t.before.key.replicaId = t.who := by
  have hl := h.located
  have hid := h.who_eq
  cases hev : t.event <;> rw [hev] at hl ho <;> try exact ho.elim
  all_goals exact ⟨hl.2, hl.2 ▸ hid⟩

/-- The id of a new instance is new: no record of the replica is about it. -/
theorem fresh_id {older : List Record} {t : Record} (hg : Grown (Happens T) older)
    (h : Happens T older t) (ho : t.event.Assigns) (h₀ : t.after.key.instanceId ≠ 0) :
    ∀ p ∈ older, ¬ (p.who = t.who ∧ p.after.key = t.after.key) := by
  rintro p hp ⟨hw, hk⟩
  obtain ⟨hb, hr⟩ := h.assigns_before ho
  rw [h.key] at hk h₀
  have hle := h.ids p hp hw (by rw [hk, hr])
  have hid : t.before.key.instanceId = (t.pre.maxLocal + 1) % 2 ^ 64 := by rw [hb]; rfl
  -- `max_local` is itself the id of a record, so the next id wraps to 0 or is larger
  have hmax : t.pre.maxLocal < 2 ^ 64 := by
    rcases t.pre.exists_maxLocal with h₀ | ⟨i, hi⟩
    · rw [h₀]; norm_num
    · have hl := h.found _ i hi
      obtain ⟨q, hq, -, hqk, -⟩ := hl.exists_mem
      have := key_lt hg q hq
      rwa [hqk] at this
  rw [hk, hid] at hle
  rw [hid] at h₀
  omega

theorem Run.key (h : Run T w) {id : InstanceId} {i : Instance}
    (hf : (w.replica k).find id = some i) : i.key = id := (h.grown.2.last k id i hf).key

/-- A step of a run: the record it adds, and what becomes of a registered copy. -/
theorem Run.next_cases (h : Run T w) (hn : w.next T k ev = some w') :
    ∃ t, w'.log = t :: w.log ∧ t.who = k ∧ t.event = ev ∧ Happens T w.log t
      ∧ ∀ j id i i', (w.replica j).find id = some i → (w'.replica j).find id = some i' →
        i' = i ∨ (t.before = i ∧ t.after = i') := by
  have hr : Run T w' := .next h hn
  have hg := hr.grown.1
  obtain ⟨-, -, x, e, -, rfl⟩ := next_eq hn
  refine ⟨_, rfl, rfl, rfl, hg.head, fun j id i i' hi hi' => ?_⟩
  by_cases hj : j = k
  · subst hj
    simp only [Function.update_self] at hi'
    rcases find_apply hi' with ⟨rfl, rfl⟩ | ⟨-, hi'⟩
    · exact .inr ⟨hg.head.before_eq (by rw [← hg.head.key]; exact hi), rfl⟩
    · exact .inl (Option.some.inj (hi'.symm.trans hi))
  · simp only [Function.update_of_ne hj] at hi'
    exact .inl (Option.some.inj (hi'.symm.trans hi))

/-- The induction for a property `I` of a replica's copy and a property `M` of a message, in runs
whose records meet `C`: a record about another copy keeps `I`, any record keeps `M`, an instance
made for an event has `I`, and an act gives `I` to the instance it leaves and `M` to the messages
it sends. -/
theorem run_rule {C : List Record → Record → Prop} {I : List Record → ℕ → Instance → Prop}
    {M : List Record → Message → Prop}
    (frame : ∀ {older t k i}, Happens T older t → I older k i →
      ¬ (t.who = k ∧ t.after.key = i.key) → I (t :: older) k i)
    (keep : ∀ {older t m}, M older m → M (t :: older) m)
    (made : ∀ {older t}, Grown (fun older t => Happens T older t ∧ C older t) older →
      Happens T older t → C older t → t.Made →
      (t.before = t.pre.ownInstance
        ∨ t.before = { newInstance t.before.key with timer := some .slowPath }) →
      I older t.who t.before)
    (step : ∀ {older k ev r i i' io}, Grown (fun older t => Happens T older t ∧ C older t) older →
      Happens T older ⟨k, ev, r, i, i', io.map (envelope k)⟩ →
      C older ⟨k, ev, r, i, i', io.map (envelope k)⟩ →
      (∀ k id i, Last older k id i → I older k i) → (∀ p ∈ older, ∀ m ∈ p.sent, M older m) →
      I older k i → Act T r i ev i' io →
      I (⟨k, ev, r, i, i', io.map (envelope k)⟩ :: older) k i'
        ∧ ∀ m ∈ io, M (⟨k, ev, r, i, i', io.map (envelope k)⟩ :: older) (envelope k m))
    {log : List Record} (h : Grown (fun older t => Happens T older t ∧ C older t) log) :
    (∀ k id i, Last log k id i → I log k i) ∧ ∀ p ∈ log, ∀ m ∈ p.sent, M log m := by
  induction h with
  | nil => exact ⟨fun k id i hl => by simp [Last] at hl, by simp⟩
  | cons h ht ih =>
    rename_i t older
    obtain ⟨ht, hc⟩ := ht
    have hb : I older t.who t.before := by
      rcases ht.before with hl | ⟨hm, hb⟩
      · exact ih.1 _ _ _ hl
      · exact made h ht hc hm hb
    obtain ⟨io, ha, hs⟩ := ht.acts
    obtain ⟨k, ev, r, i, i', sent⟩ := t
    simp only at hs hb ha
    subst hs
    obtain ⟨hi, hm⟩ := step h ht hc ih.1 ih.2 hb ha
    refine ⟨fun j id x hl => ?_, fun p hp m hpm => ?_⟩
    · rcases last_cons.1 hl with ⟨rfl, -, rfl⟩ | ⟨hne, hl⟩
      · exact hi
      · exact frame ht (ih.1 j id x hl) (by rwa [hl.key])
    · rcases List.mem_cons.1 hp with rfl | hp
      · obtain ⟨m, hmem, rfl⟩ := List.mem_map.1 hpm
        exact hm m hmem
      · exact keep (ih.2 p hp m hpm)

end Epx
