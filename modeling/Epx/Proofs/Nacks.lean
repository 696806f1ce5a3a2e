import Epx.Proofs.Owners

/-!
# Nacks

An answer is the request sent back, so a nack the request came with is in the answer too. No handler
clears it: what `recover` sends after a nack and what `try_pre_accept_reply` sends still have it.
-/

namespace Epx

open Log

/-- The handler of the request answers it. -/
def Answers (i : Instance) (m : Message) : Prop :=
  match m.type with
  | .preAccept => i.status = .preAccepted ∨ i.status = .none
  | .accept => ¬ i.Decided
  | .prepare | .tryPreAccept => True
  | _ => False

instance (i : Instance) (m : Message) : Decidable (Answers i m) := by
  unfold Answers
  exact match m.type with
  | .phase1 | .preAccept | .preAcceptOk | .preAcceptReply | .accept | .acceptReply | .commit
  | .prepare | .prepareReply | .tryPreAccept | .tryPreAcceptReply | .execute => inferInstance

/-- The copy's ballot is above the request's, or there is a conflict with a `TRY_PRE_ACCEPT`. -/
def Refuses (T : RangeTree) (r : Replica) (i : Instance) (m : Message) : Prop :=
  m.ballot < i.ballot
    ∨ (m.type = .tryPreAccept
      ∧ (findConflict T r i m.command m.seq m.deps).any fun p => p.1.isSome)

instance (T : RangeTree) (r : Replica) (i : Instance) (m : Message) :
    Decidable (Refuses T r i m) := inferInstanceAs (Decidable (_ ∨ _))

/-- The two copies have the same command, seq, dependencies and status. -/
def Instance.Same (i j : Instance) : Prop :=
  j.command = i.command ∧ j.seq = i.seq ∧ j.deps = i.deps ∧ j.status = i.status

instance (i j : Instance) : Decidable (i.Same j) := inferInstanceAs (Decidable (_ ∧ _))

/-- The answer to a request is a nack exactly where the request was refused and changed nothing. -/
def Record.Truthful (T : RangeTree) (t : Record) : Prop :=
  ∀ m ∈ t.message, m.type.Request → ∀ a ∈ t.sent,
    (a.nack = 1 ↔ Refuses T (t.pre.put t.before) t.before m ∧ t.before.Same t.after)

instance (t : MessageType) : Decidable t.Request := inferInstanceAs (Decidable (_ ∨ _))

instance (T : RangeTree) (t : Record) : Decidable (t.Truthful T) := by
  unfold Record.Truthful; infer_instance

/-- A request that is answered and not refused does not come with a nack. -/
def Record.Unmarked (T : RangeTree) (t : Record) : Prop :=
  ∀ m ∈ t.message, Answers t.before m → ¬ Refuses T (t.pre.put t.before) t.before m → m.nack ≠ 1

instance (T : RangeTree) (t : Record) : Decidable (t.Unmarked T) := by
  unfold Record.Unmarked; infer_instance

theorem Instance.Same.refl (i : Instance) : i.Same i := ⟨rfl, rfl, rfl, rfl⟩

section Step

variable {T : RangeTree} {r : Replica} {i : Instance} {m : Message} {e : Effect}

/-- What the handler of a request sends: nothing, or a refusal, or the request with its own nack. -/
theorem answer_cases (hm : m.type.Request) (h : progress T r i m = some e) :
    (¬ Answers i m ∧ e.io = [])
      ∨ (Answers i m ∧ ∃ a, e.io = [a]
        ∧ ((Refuses T r i m ∧ a.nack = 1 ∧ e.inst = i) ∨ (¬ Refuses T r i m ∧ a.nack = m.nack))) := by
  have ballot : ∀ {t}, m.type = t → t ≠ .tryPreAccept →
      (Refuses T r i m ↔ m.ballot < i.ballot) := by
    rintro t rfl ht
    simp [Refuses, ht]
  rcases hm with (ht | ht | ht) | ht <;> rw [progress, ht] at h
  · have hr := ballot ht (by simp)
    have ha : Answers i m ↔ i.status = .preAccepted ∨ i.status = .none := by simp [Answers, ht]
    rcases preAccept_cases h with
      ⟨hst, rfl⟩ | ⟨hst, hb, rfl⟩ | ⟨hst, hb, s, -, rfl | ⟨-, -, -, -, rfl⟩⟩
    · exact .inl ⟨ha.not.2 hst, rfl⟩
    · exact .inr ⟨ha.2 hst, _, rfl, .inl ⟨hr.2 hb, rfl, rfl⟩⟩
    · exact .inr ⟨ha.2 hst, _, rfl, .inr ⟨hr.not.2 (by omega), rfl⟩⟩
    · exact .inr ⟨ha.2 hst, _, rfl, .inr ⟨hr.not.2 (by omega), rfl⟩⟩
  · have ha : Answers i m := by simp [Answers, ht]
    rcases tryPreAccept_cases h with ⟨hb, rfl⟩ | ⟨hb, conflict, c, hf, ⟨f, rfl, rfl⟩ | ⟨rfl, rfl⟩⟩
    · exact .inr ⟨ha, _, rfl, .inl ⟨.inl hb, rfl, rfl⟩⟩
    · exact .inr ⟨ha, _, rfl, .inl ⟨.inr ⟨ht, by simp [hf]⟩, rfl, rfl⟩⟩
    · refine .inr ⟨ha, _, rfl, .inr ⟨?_, rfl⟩⟩
      rintro (h | ⟨-, h⟩)
      · omega
      · simp [hf] at h
  · have hr := ballot ht (by simp)
    have ha : Answers i m ↔ ¬ i.Decided := by simp [Answers, ht]
    cases h
    rcases accept_cases r i m with ⟨hd, h⟩ | ⟨hd, hb, h⟩ | ⟨hd, hb, h⟩ <;> rw [h]
    · exact .inl ⟨ha.not.2 (not_not.2 hd), rfl⟩
    · exact .inr ⟨ha.2 hd, _, rfl, .inl ⟨hr.2 hb, rfl, rfl⟩⟩
    · exact .inr ⟨ha.2 hd, _, rfl, .inr ⟨hr.not.2 (by omega), rfl⟩⟩
  · have hr := ballot ht (by simp)
    have ha : Answers i m := by simp [Answers, ht]
    cases h
    rcases prepare_cases r i m with ⟨hb, h⟩ | ⟨hb, h⟩ <;> rw [h]
    · exact .inr ⟨ha, _, rfl, .inl ⟨hr.2 hb, rfl, rfl⟩⟩
    · exact .inr ⟨ha, _, rfl, .inr ⟨hr.not.2 (by omega), rfl⟩⟩

theorem Answers.request (h : Answers i m) : m.type.Request := by
  unfold Answers at h
  split at h
  · rename_i ht
    exact .inl (.inl ht)
  · rename_i ht
    exact .inl (.inr (.inr ht))
  · rename_i ht
    exact .inr ht
  · rename_i ht
    exact .inl (.inr (.inl ht))
  · exact h.elim

end Step

/-- In every run, the answers to requests are truthful exactly where no request that is granted
comes with a nack. -/
theorem nack_truthful {T : RangeTree} {w : World} (h : Run T w) :
    ∀ t ∈ w.log, t.Truthful T ↔ t.Unmarked T := by
  intro t ht
  obtain ⟨_, older, -, -, hh⟩ := h.grown.1.of_mem ht
  obtain ⟨e, he, hi, hs⟩ := hh.handled
  have answer : ∀ m ∈ t.message, m.type.Request →
      (¬ Answers t.before m ∧ t.sent = [])
        ∨ (Answers t.before m ∧ ∃ a, t.sent = [a]
          ∧ ((Refuses T (t.pre.put t.before) t.before m ∧ a.nack = 1 ∧ t.after = t.before)
            ∨ (¬ Refuses T (t.pre.put t.before) t.before m ∧ a.nack = m.nack))) := by
    intro m hm hr
    rw [Record.mem_message.1 hm] at he
    rcases answer_cases hr (step_progress he).2 with ⟨ha, hio⟩ | ⟨ha, a, hio, hc⟩
    · exact .inl ⟨ha, by rw [hs, hio]; rfl⟩
    · refine .inr ⟨ha, envelope t.who a, by rw [hs, hio]; rfl, ?_⟩
      rw [hi]
      exact hc
  constructor
  · intro htr m hm ha href hn
    rcases answer m hm ha.request with ⟨hna, -⟩ | ⟨-, a, hsent, ⟨hr, -⟩ | ⟨-, hk⟩⟩
    · exact hna ha
    · exact href hr
    · exact href ((htr m hm ha.request a (by simp [hsent])).1 (hk.trans hn)).1
  · intro hun m hm hr a hsa
    rcases answer m hm hr with ⟨-, hsent⟩ | ⟨ha, b, hsent, ⟨href, hk, hsame⟩ | ⟨href, hk⟩⟩
      <;> rw [hsent] at hsa
    · simp at hsa
    · rw [List.mem_singleton.1 hsa, hsame]
      exact ⟨fun _ => ⟨href, .refl _⟩, fun _ => hk⟩
    · rw [List.mem_singleton.1 hsa, hk]
      exact ⟨fun hn => absurd hn (hun m hm ha href), fun hn => absurd hn.1 href⟩

/-- A `PRE_ACCEPT` is refused by a replica that has promised a higher ballot. -/
theorem nack_truthful_refusal : ∃ w t, Run listTree w ∧ t ∈ w.log
    ∧ (∃ a ∈ t.sent, a.type = .preAcceptReply ∧ a.nack = 1)
    ∧ t.Unmarked listTree ∧ t.Truthful listTree := by
  obtain ⟨w, hr, t, ht, ha, hu⟩ := @exists_run
    [proposeAt 0 [49, 48] [50, 48], deliverAt 2 .preAccept ⟨0, 1⟩, timeoutAt 2 ⟨0, 1⟩,
      deliverAt 1 .prepare ⟨0, 1⟩, deliverAt 1 .preAccept ⟨0, 1⟩]
    (fun w => ∃ t ∈ w.log, (∃ a ∈ t.sent, a.type = .preAcceptReply ∧ a.nack = 1)
      ∧ t.Unmarked listTree) _ (by decide +kernel)
  exact ⟨w, t, hr, ht, ha, hu, (nack_truthful hr t ht).2 hu⟩

/-- The leader hears of the higher ballot and then of its refusal, recovers, and is granted the next
ballot with the nack still set. -/
def markedPrepare : List Move :=
  [proposeAt 0 [49, 48] [50, 48], deliverAt 2 .preAccept ⟨0, 1⟩, timeoutAt 2 ⟨0, 1⟩,
    deliverAt 1 .prepare ⟨0, 1⟩, deliverAt 1 .preAccept ⟨0, 1⟩, deliverAt 0 .prepare ⟨0, 1⟩,
    deliverAt 0 .preAcceptReply ⟨0, 1⟩, deliverAt 1 .prepare ⟨0, 1⟩]

theorem markedPrepare_untruthful :
    ¬ ∀ w, Run listTree w → ∀ t ∈ w.log, t.Truthful listTree := by
  intro h
  obtain ⟨w, hr, t, ht, hn⟩ := @exists_run markedPrepare
    (fun w => ∃ t ∈ w.log, ¬ t.Truthful listTree) _ (by decide +kernel)
  exact hn (h w hr t ht)

end Epx
