import Epx.Proofs.Absences
import Epx.Proofs.FreshIds
import Epx.Proofs.InOrder

/-!
# A proposal can be completed

`run` ends when `step` or `propose` returns -1. Neither does while the replicas have ids to assign:
each new instance has an id that is new and not 0. And whatever state the replicas are in, a proposal
that one other replica pre-accepts can be committed with that replica alone.
-/

namespace Epx

open Log Relation

section Loop

variable {T : RangeTree} {w : World} {k : ℕ}

/-- `run` ends after the event: `step` or `propose` has returned -1. -/
def Replica.Stops (T : RangeTree) (r : Replica) (ev : Event) : Prop :=
  match ev with
  | .propose _ | .step _ => r.handle T ev = .rejected
  | _ => False

/-- No id is 0 while the replicas have ids to assign. -/
theorem key_ne_zero (h : Run T w) (hn : ∀ k, w.assigned k < 2 ^ 64 - 1) {p : Record}
    (hp : p ∈ w.log) : p.after.key.instanceId ≠ 0 := by
  obtain ⟨hg, -⟩ := h.grown
  obtain ⟨o, ho, hop, hok, -⟩ := exists_assigns hg hp
  obtain ⟨newer, older, hlog, hgo, hh⟩ := hg.of_mem ho
  have hcount : older.countP (fun t => t.who = o.who ∧ t.event.Assigns) ≤ w.assigned o.who := by
    unfold World.assigned
    rw [hlog, List.countP_append, List.countP_cons]
    omega
  have hmax : o.pre.maxLocal ≤ older.countP fun t => t.who = o.who ∧ t.event.Assigns :=
    maxLocal_le hgo (hh.who_eq ▸ hh.found) (hh.who_eq ▸ assigned_le hgo o.who)
  have hlt := hn o.who
  rw [← hok, hh.assigned hop, u64, Nat.mod_eq_of_lt (by omega)]
  omega

/-- No record is about the id that a replica assigns next. -/
theorem no_record_of_nextId (h : Run T w) (hn : w.assigned k < 2 ^ 64 - 1) :
    ∀ p ∈ w.log, p.after.key ≠ (w.replica k).nextId := by
  obtain ⟨hg, hw⟩ := h.grown
  intro p hp he
  obtain ⟨o, ho, -, hok, how⟩ := exists_assigns hg hp
  have hid : (w.replica k).nextId.replicaId = k := hw.id k
  rw [he] at hok how
  have hle := hw.max k o ho (how.trans hid) (by rw [hok, hid])
  have hmax := h.maxLocal_le k
  have hnext : (w.replica k).nextId.instanceId = (w.replica k).maxLocal + 1 :=
    Nat.mod_eq_of_lt (by omega)
  rw [hok, hnext] at hle
  omega

theorem find_nextId (h : Run T w) (hn : w.assigned k < 2 ^ 64 - 1) (j : ℕ) :
    (w.replica j).find (w.replica k).nextId = none := by
  rw [Option.eq_none_iff_forall_ne_some]
  intro i hi
  obtain ⟨p, hp, -, hpk, -⟩ := (h.grown.2.last j _ i hi).exists_mem
  exact no_record_of_nextId h hn p hp hpk

/-- While the replicas have ids to assign, nothing that they can be given ends the loop of `run`. -/
theorem run_goes_on (h : Run T w) (hn : ∀ k, w.assigned k < 2 ^ 64 - 1) (k : ℕ) (ev : Event)
    (hen : w.Enabled k ev) : ¬ (w.replica k).Stops T ev := by
  cases ev with
  | propose m =>
    have hf : (w.replica k).find (w.replica k).ownInstance.key = none := find_nextId h (hn k) k
    simp only [Replica.Stops, Replica.handle, hf, Option.isSome_none, Bool.false_eq_true, if_false]
    cases restart T ((w.replica k).put (w.replica k).ownInstance) (w.replica k).ownInstance m <;>
      rintro ⟨⟩
  | step m =>
    obtain ⟨p, hp, hpm⟩ := mem_sent.1 hen.1
    obtain ⟨_, _, -, -, hph⟩ := h.grown.1.of_mem hp
    have h₀ : m.id.instanceId ≠ 0 := by
      rw [hph.sent_id hpm, ← hph.key]
      exact key_ne_zero h hn hp
    simp only [Replica.Stops, Replica.handle, if_neg h₀]
    split_ifs
    · rintro ⟨⟩
    · cases progress T ((w.replica k).put ((w.replica k).copy m.id)) ((w.replica k).copy m.id) m <;>
        rintro ⟨⟩
  | checkpoint m => exact id
  | timeout id' m => exact id
  | execute id' => exact id

end Loop

theorem assigned_lt {w : World} {n : ℕ} (h : w.log.length < n) (k : ℕ) : w.assigned k < n :=
  List.countP_le_length.trans_lt h

/-- The first message that a replica gets. -/
theorem run_goes_on_first : ∃ w m, Run listTree w ∧ m.type = .preAccept
    ∧ w.Enabled 1 (.step m) ∧ ¬ (w.replica 1).Stops listTree (.step m) := by
  obtain ⟨w, hr, ⟨m, hm, hd, ht⟩, hlen⟩ := @exists_run [proposeAt 0 [49, 48] [50, 48]]
    (fun w => (∃ m ∈ w.sent, m.Reaches 1 ∧ m.type = .preAccept) ∧ w.log.length < 2 ^ 64 - 1) _
    (by decide +kernel)
  exact ⟨w, m, hr, ht, ⟨hm, hd⟩, run_goes_on hr (assigned_lt hlen) 1 (.step m) ⟨hm, hd⟩⟩

section Steps

variable {T : RangeTree} {w w' : World} {j k : ℕ} {id : InstanceId}

/-- The world after some more events of the two replicas and of no other. -/
def ReachesBy (T : RangeTree) (k j : ℕ) : World → World → Prop :=
  ReflTransGen fun w w' => ∃ l ev, (l = k ∨ l = j) ∧ w.next T l ev = some w'

/-- The message is handled on a copy that is registered. -/
theorem exists_step {i : Instance} {m : Message} {e : Effect} (hk : k < N)
    (hf : (w.replica k).find id = some i) (hid : m.id = id) (h₀ : id.instanceId ≠ 0)
    (hr : id.replicaId < N) (hm : m ∈ w.sent) (hd : m.Reaches k)
    (he : progress T ((w.replica k).put i) i m = some e) (hkey : e.inst.key = id)
    (hx : e.inst.status ≠ .executed) :
    ∃ w', w.next T k (.step m) = some w' ∧ (w'.replica k).find id = some e.inst
      ∧ (∀ l, l ≠ k → w'.replica l = w.replica l) ∧ ∀ p ∈ e.io, envelope k p ∈ w'.sent := by
  have hc : (w.replica k).copy m.id = i := by rw [hid, Replica.copy, hf, Option.getD_some]
  have hh : (w.replica k).handle T (.step m) = .handled i e := by
    simp only [Replica.handle, hc, he, Outcome.of, if_neg (hid ▸ h₀), if_neg (not_le.2 (hid ▸ hr))]
  refine ⟨_, by rw [World.next, if_pos ⟨hk, hm, hd⟩, hh], ?_, fun l hl => ?_, fun p hp => ?_⟩
  · simp only [Function.update_self]
    exact find_apply_of_ne hx (.inl ⟨hkey.symm, rfl⟩)
  · exact Function.update_of_ne hl _ _
  · exact mem_sent.2 ⟨_, List.mem_cons_self, List.mem_map_of_mem hp⟩

/-- What the leader does with the answer of its quorum: it commits, or it asks for acceptance. -/
def Effect.Goes (e : Effect) (i : Instance) (m : Message) : Prop :=
  e.inst.key = i.key ∧ ((e.inst.status = .committed ∧ { m with type := .commit } ∈ e.io)
    ∨ (e.inst.status = .accepted ∧ e.inst.ballot = i.ballot ∧ e.inst.command = i.command
      ∧ (∃ lt, e.inst.lt = some lt ∧ ∃ lt₀, i.lt = some lt₀ ∧ lt.acceptOks = lt₀.acceptOks)
      ∧ { m with type := .accept } ∈ e.io))

section Handlers

variable {r : Replica} {i : Instance} {m : Message} {lt : LeaderTracker}

theorem doCommit_goes {i₀ : Instance} (hk : i.key = i₀.key) (hc : i.command ≠ none) :
    ∃ e, doCommit r i m = some e ∧ e.Goes i₀ m := by
  obtain ⟨c, hc⟩ := Option.ne_none_iff_exists'.1 hc
  exact ⟨_, by rw [doCommit, hc, Option.map_some], hk, .inl ⟨rfl, List.mem_singleton_self _⟩⟩

theorem preAcceptOk_goes (hs : i.status = .preAccepted) (hb : isInitialBallot i.ballot = true)
    (hlt : i.lt = some lt) (hn : lt.preAcceptOks = 0) (hc : i.command ≠ none) :
    ∃ e, preAcceptOk r i m = some e ∧ e.Goes i m := by
  have hq : N / 2 ≤ u8 (lt.preAcceptOks + 1) := by rw [hn]; decide
  have hg : ¬ (!isState i.status [.preAccepted] || !isInitialBallot i.ballot) = true := by
    simp [isState_iff, hs, hb]
  unfold preAcceptOk
  simp only [if_neg hg, hlt]
  split_ifs
  · exact doCommit_goes rfl hc
  · exact ⟨_, rfl, rfl, .inr ⟨rfl, rfl, rfl, ⟨_, rfl, lt, hlt, rfl⟩, List.mem_singleton_self _⟩⟩

theorem preAcceptReply_goes (hs : i.status = .preAccepted) (hb : i.ballot = m.ballot)
    (hm : m.nack = 0) (hlt : i.lt = some lt) (hn : lt.preAcceptOks = 0) (hc : i.command ≠ none) :
    ∃ e, preAcceptReply r i m = some e ∧ e.Goes i m := by
  have hq : N / 2 ≤ u8 (lt.preAcceptOks + 1) := by rw [hn]; decide
  have hg : ¬ (!isState i.status [.preAccepted] || decide (i.ballot ≠ m.ballot)) = true := by
    simp [isState_iff, hs, hb]
  unfold preAcceptReply
  simp only [if_neg hg, hlt, if_neg (not_not.2 hm)]
  split_ifs
  · exact doCommit_goes rfl hc
  · exact ⟨_, rfl, rfl, .inr ⟨rfl, rfl, rfl, ⟨_, rfl, lt, hlt, rfl⟩, List.mem_singleton_self _⟩⟩

theorem acceptReply_goes (hs : i.status = .accepted) (hb : i.ballot = m.ballot) (hm : m.nack = 0)
    (hlt : i.lt = some lt) (hn : lt.acceptOks = 0) (hc : i.command ≠ none) :
    ∃ e, acceptReply r i m = some e ∧ e.inst.key = i.key ∧ e.inst.status = .committed
      ∧ { m with type := .commit } ∈ e.io := by
  have hq : N / 2 < u8 (lt.acceptOks + 1) + 1 := by rw [hn]; decide
  have hg : ¬ (!isState i.status [.accepted] || decide (i.ballot ≠ m.ballot)) = true := by
    simp [isState_iff, hs, hb]
  obtain ⟨c, hc⟩ := Option.ne_none_iff_exists'.1 hc
  unfold acceptReply
  simp only [if_neg hg, hlt, if_neg (not_not.2 hm), if_pos hq, doCommit, hc, Option.map_some]
  exact ⟨_, rfl, rfl, rfl, List.mem_singleton_self _⟩

end Handlers

/-- The leader `k` waits for an answer of `j` that is on its way, and both are at the ballot `b`. -/
structure World.Answered (w : World) (k j : ℕ) (id : InstanceId) (b : ℕ) : Prop where
  leader : ∃ i, (w.replica k).find id = some i ∧ i.status = .preAccepted ∧ i.ballot = b
    ∧ i.command ≠ none ∧ ∃ lt, i.lt = some lt ∧ lt.preAcceptOks = 0 ∧ lt.acceptOks = 0
  follower : ∃ i, (w.replica j).find id = some i ∧ ¬ i.Decided ∧ i.ballot = b
  sent : ∃ m ∈ w.sent, m.id = id ∧ m.ballot = b ∧ m.nack = 0 ∧ m.dest = k
    ∧ ((m.type = .preAcceptOk ∧ isInitialBallot b = true) ∨ m.type = .preAcceptReply)

/-- The `ACCEPT` of `k` is on its way to `j`. -/
structure World.Asked (w : World) (k j : ℕ) (id : InstanceId) (b : ℕ) : Prop where
  leader : ∃ i, (w.replica k).find id = some i ∧ i.status = .accepted ∧ i.ballot = b
    ∧ i.command ≠ none ∧ ∃ lt, i.lt = some lt ∧ lt.acceptOks = 0
  follower : ∃ i, (w.replica j).find id = some i ∧ ¬ i.Decided ∧ i.ballot = b
  sent : ∃ m ∈ w.sent, m.id = id ∧ m.ballot = b ∧ m.nack = 0 ∧ m.sender = k ∧ m.type = .accept

/-- The answer of `j` to it is on its way. -/
structure World.Agreed (w : World) (k j : ℕ) (id : InstanceId) (b : ℕ) : Prop where
  leader : ∃ i, (w.replica k).find id = some i ∧ i.status = .accepted ∧ i.ballot = b
    ∧ i.command ≠ none ∧ ∃ lt, i.lt = some lt ∧ lt.acceptOks = 0
  follower : ∃ i, (w.replica j).find id = some i
  sent : ∃ m ∈ w.sent, m.id = id ∧ m.ballot = b ∧ m.nack = 0 ∧ m.dest = k ∧ m.type = .acceptReply

/-- The `COMMIT` of `k` is on its way to `j`. -/
structure World.Committing (w : World) (k j : ℕ) (id : InstanceId) : Prop where
  leader : ∃ i, (w.replica k).find id = some i ∧ i.status = .committed
  follower : ∃ i, (w.replica j).find id = some i
  sent : ∃ m ∈ w.sent, m.id = id ∧ m.sender = k ∧ m.type = .commit

/-- Both have committed the instance. -/
def World.Completed (w : World) (k j : ℕ) (id : InstanceId) : Prop :=
  (w.replica k).HasCommitted id ∧ (w.replica j).HasCommitted id

section Stages

variable {b : ℕ}

theorem World.Answered.next (h : w.Answered k j id b) (hw : Run T w) (hkj : j ≠ k) (hk : k < N)
    (h₀ : id.instanceId ≠ 0) (hr : id.replicaId < N) :
    ∃ w', (∃ ev, w.next T k ev = some w') ∧ (w'.Asked k j id b ∨ w'.Committing k j id) := by
  obtain ⟨⟨i, hf, hs, rfl, hc, lt, hlt, hp, ha⟩, ⟨x, hfx, hx, hxb⟩, m, hm, hid, hb, hn, hd, ht⟩ := h
  have hkey := hw.key hf
  obtain ⟨e, he, hek, hgo⟩ : ∃ e, progress T ((w.replica k).put i) i m = some e ∧ e.Goes i m := by
    rcases ht with ⟨ht, hib⟩ | ht <;> rw [progress, ht]
    · exact preAcceptOk_goes hs hib hlt hp hc
    · exact preAcceptReply_goes hs hb.symm hn hlt hp hc
  have hmk : m.Reaches k := by
    rw [Message.Reaches, if_neg (by rcases ht with ⟨ht, -⟩ | ht <;> rw [ht] <;> decide), hd]
  have hex : e.inst.status ≠ .executed := by
    rcases hgo with ⟨hst, -⟩ | ⟨hst, -⟩ <;> simp [hst]
  obtain ⟨w', hnext, hfind, hrest, hsent⟩ :=
    exists_step hk hf hid h₀ hr hm hmk he (hek.trans hkey) hex
  refine ⟨w', ⟨_, hnext⟩, ?_⟩
  rcases hgo with ⟨hst, hio⟩ | ⟨hst, heb, hec, ⟨lt', hlt', lt₀, hlt₀, hao⟩, hio⟩
  · exact .inr ⟨⟨_, hfind, hst⟩, ⟨x, by rw [hrest j hkj, hfx]⟩, _, hsent _ hio, hid, rfl, rfl⟩
  · obtain rfl : lt = lt₀ := Option.some.inj (hlt.symm.trans hlt₀)
    exact .inl ⟨⟨_, hfind, hst, heb, by rwa [hec], lt', hlt', hao.trans ha⟩,
      ⟨x, by rw [hrest j hkj, hfx], hx, hxb⟩, _, hsent _ hio, hid, hb, hn, rfl, rfl⟩

theorem World.Asked.next (h : w.Asked k j id b) (hw : Run T w) (hkj : j ≠ k) (hj : j < N)
    (h₀ : id.instanceId ≠ 0) (hr : id.replicaId < N) :
    ∃ w', (∃ ev, w.next T j ev = some w') ∧ w'.Agreed k j id b := by
  obtain ⟨⟨i, hf, hi⟩, ⟨x, hfx, hx, rfl⟩, m, hm, hid, hb, hn, hsd, ht⟩ := h
  have hkey := hw.key hfx
  have he : progress T ((w.replica j).put x) x m = some (accept ((w.replica j).put x) x m) := by
    rw [progress, ht]
  have hmj : m.Reaches j := by
    rw [Message.Reaches, if_pos (by rw [ht]; decide), hsd]
    exact hkj
  rcases accept_cases ((w.replica j).put x) x m with ⟨hdec, -⟩ | ⟨-, hlt, -⟩ | ⟨-, -, heq⟩
  · exact absurd hdec hx
  · omega
  rw [heq] at he
  obtain ⟨w', hnext, hfind, hrest, hsent⟩ := exists_step hj hfx hid h₀ hr hm hmj he hkey (by rintro ⟨⟩)
  refine ⟨w', ⟨_, hnext⟩, ⟨i, by rw [hrest k hkj.symm, hf], hi⟩, ⟨_, hfind⟩, _,
    hsent _ (List.mem_singleton_self _), hid, hb, hn, hsd, rfl⟩

theorem World.Agreed.next (h : w.Agreed k j id b) (hw : Run T w) (hkj : j ≠ k) (hk : k < N)
    (h₀ : id.instanceId ≠ 0) (hr : id.replicaId < N) :
    ∃ w', (∃ ev, w.next T k ev = some w') ∧ w'.Committing k j id := by
  obtain ⟨⟨i, hf, hs, rfl, hc, lt, hlt, ha⟩, ⟨x, hfx⟩, m, hm, hid, hb, hn, hd, ht⟩ := h
  have hkey := hw.key hf
  obtain ⟨e, he, hek, hst, hio⟩ := acceptReply_goes (r := (w.replica k).put i) hs hb.symm hn hlt ha hc
  have hmk : m.Reaches k := by
    rw [Message.Reaches, if_neg (by rw [ht]; decide), hd]
  have he : progress T ((w.replica k).put i) i m = some e := by rw [progress, ht, he]
  obtain ⟨w', hnext, hfind, hrest, hsent⟩ :=
    exists_step hk hf hid h₀ hr hm hmk he (hek.trans hkey) (by simp [hst])
  exact ⟨w', ⟨_, hnext⟩, ⟨_, hfind, hst⟩, ⟨x, by rw [hrest j hkj, hfx]⟩, _, hsent _ hio, hid, rfl, rfl⟩

theorem World.Committing.next (h : w.Committing k j id) (hw : Run T w) (hkj : j ≠ k) (hj : j < N)
    (h₀ : id.instanceId ≠ 0) (hr : id.replicaId < N) :
    ∃ w', (∃ ev, w.next T j ev = some w') ∧ w'.Completed k j id := by
  obtain ⟨⟨i, hf, hi⟩, ⟨x, hfx⟩, m, hm, hid, hsd, ht⟩ := h
  have he : progress T ((w.replica j).put x) x m = some (commit ((w.replica j).put x) x m) := by
    rw [progress, ht]
  have hmj : m.Reaches j := by
    rw [Message.Reaches, if_pos (by rw [ht]; decide), hsd]
    exact hkj
  have hkey : x.key = id := hw.key hfx
  obtain ⟨w', hnext, hfind, hrest, -⟩ := exists_step hj hfx hid h₀ hr hm hmj he hkey (by rintro ⟨⟩)
  exact ⟨w', ⟨_, hnext⟩, ⟨i, by rw [hrest k hkj.symm, hf], hi⟩, ⟨_, hfind, rfl⟩⟩

/-- From the answer on, the two complete the instance. -/
theorem World.Answered.completes (h : w.Answered k j id b) (hw : Run T w) (hkj : j ≠ k) (hk : k < N)
    (hj : j < N) (h₀ : id.instanceId ≠ 0) (hr : id.replicaId < N) :
    ∃ w', ReachesBy T k j w w' ∧ w'.Completed k j id := by
  have finish : ∀ {w : World}, Run T w → w.Committing k j id →
      ∃ w', ReachesBy T k j w w' ∧ w'.Completed k j id := fun hw hc => by
    obtain ⟨w', ⟨ev, hn⟩, hc⟩ := hc.next hw hkj hj h₀ hr
    exact ⟨w', .single ⟨j, ev, .inr rfl, hn⟩, hc⟩
  obtain ⟨w₁, ⟨ev₁, hn₁⟩, ha | hc⟩ := h.next hw hkj hk h₀ hr
  · have hw₁ : Run T w₁ := .next hw hn₁
    obtain ⟨w₂, ⟨ev₂, hn₂⟩, hg⟩ := ha.next hw₁ hkj hj h₀ hr
    have hw₂ : Run T w₂ := .next hw₁ hn₂
    obtain ⟨w₃, ⟨ev₃, hn₃⟩, hc⟩ := hg.next hw₂ hkj hk h₀ hr
    obtain ⟨w', hreach, hdone⟩ := finish (.next hw₂ hn₃) hc
    exact ⟨w', .head ⟨k, ev₁, .inl rfl, hn₁⟩ (.head ⟨j, ev₂, .inr rfl, hn₂⟩
      (.head ⟨k, ev₃, .inl rfl, hn₃⟩ hreach)), hdone⟩
  · obtain ⟨w', hreach, hdone⟩ := finish (.next hw hn₁) hc
    exact ⟨w', .head ⟨k, ev₁, .inl rfl, hn₁⟩ hreach, hdone⟩

end Stages

section Proposal

variable {w₁ w₂ : World} {m pa : Message}

/-- What a proposal leaves: its instance, and the only message about it. -/
theorem proposed (h : Run T w) (hn : w.assigned k < 2 ^ 64 - 1) (hm : m.nack = 0)
    (hc : m.command ≠ none) (hp : w.next T k (.propose m) = some w₁) :
    (∃ i, (w₁.replica k).find (w.replica k).nextId = some i ∧ i.status = .preAccepted
      ∧ i.ballot = m.ballot ∧ i.command ≠ none
      ∧ ∃ lt, i.lt = some lt ∧ lt.preAcceptOks = 0 ∧ lt.acceptOks = 0)
    ∧ (∀ l, l ≠ k → w₁.replica l = w.replica l)
    ∧ ∀ pa ∈ w₁.sent, pa.id = (w.replica k).nextId →
      pa.type = .preAccept ∧ pa.ballot = m.ballot ∧ pa.nack = 0 ∧ pa.sender = k
        ∧ pa.command ≠ none := by
  obtain ⟨-, -, i, e, hh, rfl⟩ := next_eq hp
  have hf : (w.replica k).find (w.replica k).ownInstance.key = none := find_nextId h hn k
  simp only [Replica.handle, hf, Option.isSome_none, Bool.false_eq_true, if_false] at hh
  cases hr : restart T ((w.replica k).put (w.replica k).ownInstance) (w.replica k).ownInstance m with
  | none =>
    rw [hr] at hh
    cases hh
  | some e' =>
    rw [hr] at hh
    cases hh
    obtain ⟨x, lt, s, -, hlt, hs, rfl⟩ := restart_eq hr
    obtain rfl : newTracker = lt := Option.some.inj hlt
    have hcmd : s.2.1 ≠ none := sdLoop_isSome hc hs
    refine ⟨⟨phase1Inst (w.replica k).ownInstance m newTracker s, ?_, rfl, rfl, hcmd,
        _, rfl, rfl, rfl⟩,
      fun l hl => Function.update_of_ne hl _ _, fun pa hpa hid => ?_⟩
    · simp only [Function.update_self]
      exact find_apply_of_ne (by rintro ⟨⟩) (.inl ⟨rfl, rfl⟩)
    · obtain ⟨p, hp, hpm⟩ := mem_sent.1 hpa
      rcases List.mem_cons.1 hp with rfl | hp
      · obtain ⟨q, hq, rfl⟩ := List.mem_map.1 hpm
        obtain rfl := List.mem_singleton.1 hq
        exact ⟨rfl, rfl, hm, rfl, hcmd⟩
      · obtain ⟨_, _, -, -, hph⟩ := h.grown.1.of_mem hp
        exact absurd (by rw [hph.key, ← hph.sent_id hpm, hid]) (no_record_of_nextId h hn p hp)

/-- The answer of a replica that pre-accepts the proposal. -/
theorem answered (h : Run T w) (hn : w.assigned k < 2 ^ 64 - 1) (hm : m.nack = 0)
    (hc : m.command ≠ none) (hp : w.next T k (.propose m) = some w₁) (hpa : pa ∈ w₁.sent)
    (hid : pa.id = (w.replica k).nextId) (hd : w₁.next T j (.step pa) = some w₂) :
    j ≠ k ∧ w₂.Answered k j (w.replica k).nextId m.ballot := by
  obtain ⟨⟨i, hf, hi⟩, hrest, hsent⟩ := proposed h hn hm hc hp
  obtain ⟨hty, hb, hnack, hsd, -⟩ := hsent pa hpa hid
  obtain ⟨-, ⟨-, hreach⟩, x, e, hh, rfl⟩ := next_eq hd
  have hjk : j ≠ k := by
    rw [Message.Reaches, if_pos (by rw [hty]; decide), hsd] at hreach
    exact hreach
  have hnone : (w₁.replica j).find pa.id = none := by
    rw [hrest j hjk, hid]
    exact find_nextId h hn j
  obtain ⟨hloc, hpr⟩ := step_progress hh
  have hx : x = { newInstance pa.id with timer := some .slowPath } := by
    rw [hloc.1, Replica.copy, hnone]
    rfl
  simp only [progress, hty] at hpr
  -- what it sends, and the copy it sends it from
  obtain ⟨s, hei, q, hq, hqid, hqb, hqn, hqs, hqt⟩ : ∃ s, e.inst = preAcceptInst x pa s ∧ ∃ q ∈ e.io,
      q.id = pa.id ∧ q.ballot = pa.ballot ∧ q.nack = pa.nack ∧ q.sender = pa.sender
        ∧ ((q.type = .preAcceptOk ∧ isInitialBallot pa.ballot = true) ∨ q.type = .preAcceptReply) := by
    rcases preAccept_cases hpr with ⟨hst, -⟩ | ⟨-, hlt, -⟩ | ⟨-, -, s, -, he | ⟨-, -, -, hib, he⟩⟩
    · exact absurd (.inr (by rw [hx]; rfl)) hst
    · rw [hx] at hlt
      exact absurd hlt (Nat.not_lt_zero _)
    · rw [he]
      exact ⟨s, rfl, _, List.mem_singleton_self _, rfl, rfl, rfl, rfl, .inr rfl⟩
    · rw [he]
      exact ⟨s, rfl, _, List.mem_singleton_self _, rfl, rfl, rfl, rfl, .inl ⟨rfl, hib⟩⟩
  have hst : e.inst.status = .preAcceptedEq ∨ e.inst.status = .preAccepted := by
    rw [hei, preAcceptInst]
    dsimp only
    split_ifs
    · exact .inl rfl
    · exact .inr rfl
  have hek : e.inst.key = (w.replica k).nextId := by
    rw [hei, hx, ← hid]
    rfl
  refine ⟨hjk, ⟨i, ?_, hi⟩, ⟨e.inst, ?_, ?_, ?_⟩, envelope j q, ?_, hqid.trans hid, hqb.trans hb,
    hqn.trans hnack, hqs.trans hsd, ?_⟩
  · simp only [Function.update_of_ne hjk.symm]
    exact hf
  · simp only [Function.update_self]
    exact find_apply_of_ne (by rcases hst with hst | hst <;> simp [hst]) (.inl ⟨hek.symm, rfl⟩)
  · rintro (hd | hd) <;> rcases hst with hst | hst <;> rw [hst] at hd <;> cases hd
  · rw [hei]
    exact hb
  · exact mem_sent.2 ⟨_, List.mem_cons_self, List.mem_map_of_mem hq⟩
  · exact hb ▸ hqt

/-- Whatever state the replicas are in, a proposal that one other replica pre-accepts can be committed
at both by steps of these two alone. -/
theorem proposal_completes (h : Run T w) (hn : ∀ k, w.assigned k < 2 ^ 64 - 1) (hm : m.nack = 0)
    (hc : m.command ≠ none) (hp : w.next T k (.propose m) = some w₁) (hpa : pa ∈ w₁.sent)
    (hid : pa.id = (w.replica k).nextId) (hd : w₁.next T j (.step pa) = some w₂) :
    ∃ w', ReachesBy T k j w₂ w' ∧ (w'.replica k).HasCommitted (w.replica k).nextId
      ∧ (w'.replica j).HasCommitted (w.replica k).nextId := by
  obtain ⟨hjk, ha⟩ := answered h (hn k) hm hc hp hpa hid hd
  have hw₁ : Run T w₁ := .next h hp
  have hw₂ : Run T w₂ := .next hw₁ hd
  have hk := (next_eq hp).1
  obtain ⟨hj, -, i, e, hh, -⟩ := next_eq hd
  obtain ⟨hloc, -⟩ := step_progress hh
  exact ha.completes hw₂ hjk hk hj (hid ▸ hloc.2.1) (hid ▸ hloc.2.2)

end Proposal

end Steps

/-- A write that meets a committed one. -/
theorem proposal_completes_second : ∃ w w', Run listTree w ∧ ReachesBy listTree 1 2 w w'
    ∧ (w'.replica 1).HasCommitted ⟨1, 1⟩ ∧ (w'.replica 2).HasCommitted ⟨1, 1⟩ := by
  obtain ⟨w, hr, hp, hid, hlen⟩ := @exists_run fastCommit
    (fun w => ((w.next listTree 1 (.propose (request (writeOf [49, 48] [50, 48])))).any fun w₁ =>
      w₁.sent.any fun m => decide (m.id = ⟨1, 1⟩) && (w₁.next listTree 2 (.step m)).isSome) = true
      ∧ (w.replica 1).nextId = ⟨1, 1⟩ ∧ w.log.length < 2 ^ 64 - 1) _ (by decide +kernel)
  obtain ⟨w₁, hp, hw₁⟩ := (Option.any_eq_true _ _).1 hp
  obtain ⟨pa, hpa, h⟩ := List.any_eq_true.1 hw₁
  simp only [Bool.and_eq_true, decide_eq_true_eq] at h
  obtain ⟨hpid, hd⟩ := h
  obtain ⟨w₂, hd⟩ := Option.isSome_iff_exists.1 hd
  obtain ⟨w', hreach, h₁, h₂⟩ := proposal_completes hr (assigned_lt hlen) rfl (by rintro ⟨⟩) hp hpa
    (hpid.trans hid.symm) hd
  rw [hid] at h₁ h₂
  exact ⟨w₂, w', .next (.next hr hp) hd, hreach, h₁, h₂⟩

end Epx
