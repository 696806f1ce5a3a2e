import Epx.Proofs.Initial
import Epx.Proofs.Promises

/-!
# Ballots and their owners

Under the conditions of the last two modules a copy's ballot only grows, and whatever is asked for
at a ballot is asked for by one replica.
-/

namespace Epx

open Log

/-- No message is about an instance the replica has handed to the executor and dropped. -/
def Record.Fresh (t : Record) : Prop := t.Made → t.before.key ∉ t.pre.handed

instance (t : Record) : Decidable t.Fresh := inferInstanceAs (Decidable (_ → _))

theorem Happens.fresh {T : RangeTree} {older : List Record} {t : Record} (ht : Happens T older t)
    (hf : t.Fresh) (hm : t.Made) : ∀ p ∈ older, p.who = t.who → p.after.key ≠ t.before.key := by
  intro p hp hw hk
  exact hf hm (hk ▸ ht.kept p hp hw (hk.symm ▸ hm))

/-- `PRE_ACCEPT`, `ACCEPT`, `TRY_PRE_ACCEPT` or `PREPARE`. -/
def MessageType.Request (t : MessageType) : Prop := t.Proposal ∨ t = .prepare

/-- Replica `k` has sent the message. -/
def Sent (log : List Record) (k : ℕ) (m : Message) : Prop := ∃ p ∈ log, p.who = k ∧ m ∈ p.sent

theorem Sent.cons {log : List Record} {k : ℕ} {m : Message} (h : Sent log k m) (t : Record) :
    Sent (t :: log) k m := by
  obtain ⟨p, hp, h⟩ := h
  exact ⟨p, List.mem_cons_of_mem t hp, h⟩

theorem sent_cons {log : List Record} {k : ℕ} {m : Message} {t : Record} :
    Sent (t :: log) k m ↔ (t.who = k ∧ m ∈ t.sent) ∨ Sent log k m := by
  simp [Sent]

section Step

variable {T : RangeTree} {older : List Record} {k : ℕ} {ev : Event} {r : Replica}
  {i i' : Instance} {io : List Message}

/-- No event lowers a ballot. -/
theorem ballot_le (ht : Happens T older ⟨k, ev, r, i, i', io.map (envelope k)⟩)
    (hu : Unwrapped i ev) (hl : Licensed k i ev) (ha : Act T r i ev i' io) :
    i.ballot ≤ i'.ballot := by
  have hk : r.id < N := by rw [show r.id = k from ht.who_eq]; exact ht.who_lt
  cases ha with
  | propose =>
    have ho : i = r.ownInstance := ht.located.2
    rw [ho]
    exact Nat.zero_le _
  | slowTimeout htm => exact (lt_largerBallot hk (hu htm)).le
  | nackRecover hty hlt hb hn => exact (lt_largerBallot hk (hu.nacked hty hlt hb hn)).le
  | preAcceptReply _ _ hb | preAcceptOk _ _ hb | acceptStore _ _ hb | preparePromise _ hb
  | tryStore _ hb => exact hb
  | triedRaise hty hlt hr hs hn hb =>
    have := (hl.tried hty hlt hr hs hn).1
    omega
  | triedRestart hty hlt hr hs hn _ hcb =>
    rcases hcb with ⟨-, rfl⟩ | ⟨-, rfl⟩
    · exact (hl.tried hty hlt hr hs hn).1.ge
    · exact le_rfl
  | triedRestartTwice hty hlt hr hs hn => exact (hl.tried hty hlt hr hs hn).1.ge
  | _ => exact le_rfl

end Step

theorem Happens.ballot_le {T : RangeTree} {older : List Record} {t : Record}
    (ht : Happens T older t) (hu : Unwrapped t.before t.event)
    (hl : Licensed t.who t.before t.event) : t.before.ballot ≤ t.after.ballot := by
  obtain ⟨io, ha, hio⟩ := ht.acts
  obtain ⟨k, ev, r, i, i', sent⟩ := t
  dsimp only at hio
  subst hio
  exact Epx.ballot_le ht hu hl ha

/-- What no event on a registered copy breaks relates every record of a copy to the copy. -/
theorem grown_mono {T : RangeTree} {C : List Record → Record → Prop}
    {R : ℕ → Instance → Instance → Prop} (hC : ∀ {older t}, C older t → t.Fresh)
    (refl : ∀ k i, R k i i) (trans : ∀ {k i j l}, R k i j → R k j l → R k i l)
    (step : ∀ {older t}, Happens T older t → C older t → ¬ t.Made → R t.who t.before t.after)
    {log : List Record}
    (h : Grown (fun older t => Happens T older t ∧ C older t) log) {k : ℕ} {id : InstanceId}
    {i : Instance} (hl : Last log k id i) :
    ∀ p ∈ log, p.who = k → p.after.key = i.key → R k p.after i := by
  refine (run_rule (C := C) (M := fun _ _ => True) (I := fun log k i =>
    ∀ p ∈ log, p.who = k → p.after.key = i.key → R k p.after i) ?_ (fun h => h) ?_ ?_ h).1 k id i hl
  · intro older t k i _ hi hne
    exact List.forall_mem_cons.2 ⟨fun hw hk => absurd ⟨hw, hk⟩ hne, hi⟩
  · intro older t _ ht hc hmade _ p hp hw hk
    exact absurd hk (ht.fresh (hC hc) hmade p hp hw)
  · intro older k ev r i i' io _ ht hc _ _ hi ha
    refine ⟨List.forall_mem_cons.2 ⟨fun _ _ => refl k i', fun p hp hw hk => ?_⟩, fun _ _ => trivial⟩
    have hk : p.after.key = i.key := hk.trans ha.key
    refine trans (hi p hp hw hk) (step ht hc fun hmade => ?_)
    exact ht.fresh (hC hc) hmade p hp hw hk

/-- In such a log a copy is at no lower ballot than any record of it left it at. -/
theorem grown_ballots {T : RangeTree} {C : List Record → Record → Prop}
    (hC : ∀ {older t}, C older t → Unwrapped t.before t.event
      ∧ Licensed t.who t.before t.event ∧ t.Fresh) {log : List Record}
    (h : Grown (fun older t => Happens T older t ∧ C older t) log) {k : ℕ} {id : InstanceId}
    {i : Instance} (hl : Last log k id i) :
    ∀ p ∈ log, p.who = k → p.after.key = i.key → p.after.ballot ≤ i.ballot :=
  grown_mono (R := fun _ i j => i.ballot ≤ j.ballot) (fun h => (hC h).2.2) (fun _ _ => le_rfl)
    le_trans (fun ht hc _ => ht.ballot_le (hC hc).1 (hC hc).2.1) h hl

/-- An earlier record of the copy left it at no higher ballot. -/
theorem Happens.ballot_older {T : RangeTree} {C : List Record → Record → Prop}
    (hC : ∀ {older t}, C older t → Unwrapped t.before t.event
      ∧ Licensed t.who t.before t.event ∧ t.Fresh) {older : List Record}
    (h : Grown (fun older t => Happens T older t ∧ C older t) older) {t : Record}
    (ht : Happens T older t) (hf : t.Fresh) {p : Record} (hp : p ∈ older) (hw : p.who = t.who)
    (hk : p.after.key = t.before.key) : p.after.ballot ≤ t.before.ballot := by
  rcases ht.before with hl | ⟨hmade, -⟩
  · exact grown_ballots hC h hl p hp hw hk
  · exact absurd hk (ht.fresh hf hmade p hp hw)

/-- Whoever asks at a ballot owns it: no other replica asks at the ballot for that instance. -/
theorem request_unique {T : RangeTree} {C : List Record → Record → Prop}
    (hC : ∀ {older t}, C older t →
      Unwrapped t.before t.event ∧ Licensed t.who t.before t.event) {log : List Record}
    (h : Grown (fun older t => Happens T older t ∧ C older t) log) {j k : ℕ} {a b : Message}
    (ha : Sent log j a) (hb : Sent log k b) (hta : a.type.Request) (htb : b.type.Request)
    (hid : a.id = b.id) (hab : a.ballot = b.ballot) : j = k := by
  obtain ⟨-, hr⟩ := rooted_of_grown (fun h => (hC h).1) h
  obtain ⟨-, hv⟩ := vouched_of_grown (fun h => (hC h).2) h
  have hs : ∀ p ∈ log, ∀ m ∈ p.sent, m.sender = p.who := fun p hp m hm => by
    obtain ⟨_, _, -, -, hp, -⟩ := h.of_mem hp
    exact hp.sender hm
  obtain ⟨p, hp, rfl, hap⟩ := ha
  obtain ⟨q, hq, rfl, hbq⟩ := hb
  have h₁ := (hv p hp a hap).own hta
  have h₂ := (hv q hq b hbq).own htb
  rw [hs p hp a hap] at h₁
  rw [hs q hq b hbq, ← hab] at h₂
  by_contra hne
  -- at an initial ballot both are the leader
  have hib := h₁.initial h₂ hne
  have leads : ∀ {p : Record} {m : Message}, p ∈ log → m ∈ p.sent → m.type.Request →
      isInitialBallot m.ballot = true → p.who = m.id.replicaId := by
    intro p m hp hm ht hi
    have hroot := hr p hp m hm
    have habove : ¬ (m.type = .prepare ∨ m.type = .tryPreAccept) := fun h => by
      have := hroot.above (h.imp_right .inl)
      rw [hi] at this
      cases this
    rw [← hs p hp m hm]
    rcases ht with (h | h | h) | h
    · exact hroot.request (.inl h) hi
    · exact absurd (.inr h) habove
    · exact hroot.request (.inr h) hi
    · exact absurd (.inl h) habove
  exact hne ((leads hp hap hta hib).trans (hid ▸ (leads hq hbq htb (hab ▸ hib)).symm))

/-- A request is at a ballot the replica it reaches has never asked at for that instance. -/
theorem foreign_ballot {T : RangeTree} {C : List Record → Record → Prop}
    (hC : ∀ {older t}, C older t →
      Unwrapped t.before t.event ∧ Licensed t.who t.before t.event) {older : List Record}
    (h : Grown (fun older t => Happens T older t ∧ C older t) older) {t : Record}
    (ht : Happens T older t) {m a : Message} (hev : t.event = .step m) (hm : m.type.Request)
    (ha : Sent older t.who a) (hta : a.type.Request) (hid : a.id = m.id) : a.ballot ≠ m.ballot := by
  intro hb
  obtain ⟨⟨p, hp, hpm⟩, -⟩ := ht.source m hev
  obtain ⟨_, _, -, -, hph, -⟩ := h.of_mem hp
  have hne : m.sender ≠ t.who := ht.foreign hev (by
    rcases hm with (h | h | h) | h <;> simp [MessageType.Broadcast, h])
  refine hne ?_
  rw [hph.sender hpm]
  exact request_unique hC h ⟨p, hp, rfl, hpm⟩ ha hm hta hid.symm hb.symm

end Epx
