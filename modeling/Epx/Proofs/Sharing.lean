import Epx.Proofs.Accesses
import Epx.Proofs.Schedules
import Epx.Refs
import Epx.Uses

/-!
# Who has a message buffer

A handler gives its buffer to one queue and leaves it alone, unless it commits a write, or restarts
phase 1 for a nack and goes on with the nack. On `chan_io`, the buffer is freed once, after its last
use, in the interleavings in which every connection has room for it and no reader is done with the
last entry before `io_reader` is.
-/

namespace Epx

section Conditions

variable (r : Replica) (i : Instance) (m : Message)

/-- The command is there and writes. -/
def Writes (c : Option Command) : Prop := ∃ cmd, c = some cmd ∧ cmd.writing = .write

/-- The message makes the handler commit a write. -/
def CommitsWrite : Prop :=
  match m.type, i.lt with
  | .preAcceptOk, some lt => Writes i.command ∧ i.status = .preAccepted
      ∧ isInitialBallot i.ballot = true ∧ N / 2 ≤ u8 (lt.preAcceptOks + 1) ∧ lt.equal ≠ 0
      ∧ hasUncommittedDeps i = false
  | .preAcceptReply, some lt => Writes i.command ∧ i.status = .preAccepted ∧ i.ballot = m.ballot
      ∧ m.nack = 0 ∧ N / 2 ≤ u8 (lt.preAcceptOks + 1)
      ∧ foldEqual lt.equal i.seq m.seq (i.deps.merge m.deps.slots).2 ≠ 0
      ∧ isInitialBallot i.ballot = true
      ∧ hasUncommitted (i.deps.merge m.deps.slots).1.slots = false
  | .acceptReply, some lt => Writes i.command ∧ i.status = .accepted ∧ i.ballot = m.ballot
      ∧ m.nack = 0 ∧ N / 2 < u8 (lt.acceptOks + 1) + 1
  | .prepareReply, some lt => Writes m.command ∧ lt.recoveryStatus = .preparing ∧ m.nack = 0
      ∧ (m.instanceStatus = .committed ∨ m.instanceStatus = .executed)
  | _, _ => False

/-- The deferred instance of the message is one that the quorum still counts. -/
def Deferred (lt : LeaderTracker) : Prop := ∃ k, r.dh (dhKey m.id) = some k ∧ lt.quorum.getD k 0 ≠ 0

/-- The message is a nack for which phase 1 restarts, and which is used once more then. -/
def GoesOn : Prop :=
  match m.type, i.lt with
  | .tryPreAcceptReply, some lt => lt.recoveryStatus = .tryPreAccepting ∧ lt.ri.status ≠ .none
      ∧ m.nack ≠ 0 ∧ m.ballot ≤ i.ballot ∧ m.conflict.id ≠ m.id
      ∧ (((State.committed.bits ≤ m.conflict.status.bits ∨ N / 2 < lt.quorum.count 0)
          ∧ (lt.quorum.count 0 = N / 2 ∨ N / 2 < u8 (lt.tryPreAcceptOks + 1)))
        ∨ (lt.quorum.count 0 = N / 2 ∧ Deferred r m lt ∧ N / 2 < u8 (lt.tryPreAcceptOks + 1)))
  | _, _ => False

instance (c : Option Command) : Decidable (Writes c) :=
  decidable_of_iff ((c.any fun c => decide (c.writing = .write)) = true) (by
    rw [Option.any_eq_true]
    simp [Writes])

instance : Decidable (CommitsWrite i m) := by
  unfold CommitsWrite
  exact match m.type, i.lt with
  | .preAcceptOk, none | .preAcceptOk, some _ | .preAcceptReply, none | .preAcceptReply, some _
  | .acceptReply, none | .acceptReply, some _ | .prepareReply, none | .prepareReply, some _ =>
    inferInstance
  | .phase1, _ | .preAccept, _ | .accept, _ | .commit, _ | .prepare, _ | .tryPreAccept, _
  | .tryPreAcceptReply, _ | .execute, _ => inferInstance

instance (lt : LeaderTracker) : Decidable (Deferred r m lt) :=
  decidable_of_iff (((r.dh (dhKey m.id)).any fun k => decide (lt.quorum.getD k 0 ≠ 0)) = true) (by
    rw [Option.any_eq_true]
    simp [Deferred])

instance : Decidable (GoesOn r i m) := by
  unfold GoesOn
  exact match m.type, i.lt with
  | .tryPreAcceptReply, none | .tryPreAcceptReply, some _ => inferInstance
  | .phase1, _ | .preAccept, _ | .preAcceptOk, _ | .preAcceptReply, _ | .accept, _
  | .acceptReply, _ | .commit, _ | .prepare, _ | .prepareReply, _ | .tryPreAccept, _
  | .execute, _ => inferInstance

end Conditions

section Uses

@[simp] theorem oneOwner_nil : OneOwner [] := nofun

@[simp] theorem oneOwner_access {us : List Use} : OneOwner (.access :: us) ↔ OneOwner us := by
  cases us with
  | nil => exact iff_of_true nofun nofun
  | cons u us => simp [OneOwner]

@[simp] theorem oneOwner_sendIo {us : List Use} : OneOwner (.sendIo :: us) ↔ us = [] := by
  cases us with
  | nil => exact iff_of_true nofun rfl
  | cons u us => simp [OneOwner]

variable {r : Replica} {i : Instance} {m : Message}

theorem writes_iff {c : Option Command} :
    (c.any fun c => decide (c.writing = .write)) = true ↔ Writes c := by
  unfold Writes
  rw [Option.any_eq_true]
  simp

theorem doCommitUses_iff {c : Option Command} : OneOwner (doCommitUses c) ↔ ¬ Writes c := by
  unfold doCommitUses
  rw [oneOwner_access, oneOwner_sendIo, ← writes_iff]
  split_ifs with h <;> simp [h]

theorem nackReplyUses_owner {lt : LeaderTracker} : OneOwner (nackReplyUses lt) := by
  unfold nackReplyUses answerUses
  split_ifs <;> simp

theorem answerUses_owner : OneOwner answerUses := by decide

theorem preAcceptUses_owner : OneOwner (preAcceptUses i) := by
  unfold preAcceptUses
  split_ifs <;> decide

theorem acceptUses_owner : OneOwner (acceptUses i) := by
  unfold acceptUses
  split_ifs <;> decide

theorem preAcceptOkUses_iff (ht : m.type = .preAcceptOk) :
    OneOwner (preAcceptOkUses i) ↔ ¬ CommitsWrite i m := by
  unfold preAcceptOkUses CommitsWrite
  rw [ht]
  rcases hlt : i.lt with _ | lt
  · split_ifs <;> simp
  dsimp only
  split_ifs with h₁ h₂ h₃ <;>
    simp only [oneOwner_nil, answerUses_owner, doCommitUses_iff, true_iff] <;>
    grind [isState_iff]

theorem preAcceptReplyUses_iff (ht : m.type = .preAcceptReply) :
    OneOwner (preAcceptReplyUses i m) ↔ ¬ CommitsWrite i m := by
  unfold preAcceptReplyUses CommitsWrite
  rw [ht]
  rcases hlt : i.lt with _ | lt
  · split_ifs <;> simp
  dsimp only
  split_ifs with h₁ h₂ h₃ h₄ h₅ <;>
    simp only [oneOwner_nil, oneOwner_access, answerUses_owner, nackReplyUses_owner,
      doCommitUses_iff, true_iff] <;>
    unfold hasUncommittedDeps at * <;> grind [isState_iff]

theorem acceptReplyUses_iff (ht : m.type = .acceptReply) :
    OneOwner (acceptReplyUses i m) ↔ ¬ CommitsWrite i m := by
  unfold acceptReplyUses CommitsWrite
  rw [ht]
  rcases hlt : i.lt with _ | lt
  · split_ifs <;> simp
  dsimp only
  split_ifs with h₁ h₂ h₃ h₄ <;>
    simp only [oneOwner_nil, oneOwner_access, nackReplyUses_owner, doCommitUses_iff, true_iff] <;>
    grind [isState_iff]

theorem prepareReplyUses_iff (ht : m.type = .prepareReply) :
    OneOwner (prepareReplyUses i m) ↔ ¬ CommitsWrite i m := by
  unfold prepareReplyUses CommitsWrite
  rw [ht]
  rcases hlt : i.lt with _ | lt
  · simp
  dsimp only
  split_ifs with h₁ h₂ h₃ h₄ <;>
    simp only [oneOwner_nil, oneOwner_access, answerUses_owner, doCommitUses_iff, true_iff] <;>
    grind [isState_iff]

theorem deferred_iff {lt : LeaderTracker} :
    ((r.dh (dhKey m.id)).any fun k => decide (lt.quorum.getD k 0 ≠ 0)) = true ↔ Deferred r m lt := by
  unfold Deferred
  rw [Option.any_eq_true]
  simp

/-- After a restart of phase 1 nothing may follow. -/
theorem deferConflictUses_eq_nil {lt : LeaderTracker} {nq : ℕ} :
    deferConflictUses r lt nq m = [] ↔ nq ≠ N / 2 ∧ ¬ N / 2 < lt.tryPreAcceptOks := by
  unfold deferConflictUses
  dsimp only
  split_ifs with h₁ h₂ h₃ <;> simp [*]

/-- Where it restarts phase 1 itself, nothing may follow either. -/
theorem deferConflictUses_iff {lt : LeaderTracker} {nq : ℕ} :
    OneOwner (deferConflictUses r lt nq m)
      ↔ ¬ (nq = N / 2 ∧ Deferred r m lt ∧ N / 2 < lt.tryPreAcceptOks) := by
  unfold deferConflictUses
  rw [← deferred_iff]
  dsimp only
  generalize ((r.dh (dhKey m.id)).any fun k => decide (lt.quorum.getD k 0 ≠ 0)) = d
  split_ifs with h₁ h₂ h₃ h₃ <;> simp [answerUses, *]

theorem tryNackUses_iff {lt : LeaderTracker} : OneOwner (tryNackUses r i lt m)
    ↔ ¬ (m.ballot ≤ i.ballot ∧ m.conflict.id ≠ m.id
      ∧ (((State.committed.bits ≤ m.conflict.status.bits ∨ N / 2 < lt.quorum.count 0)
          ∧ (lt.quorum.count 0 = N / 2 ∨ N / 2 < u8 (lt.tryPreAcceptOks + 1)))
        ∨ (lt.quorum.count 0 = N / 2 ∧ Deferred r m lt
          ∧ N / 2 < u8 (lt.tryPreAcceptOks + 1)))) := by
  unfold tryNackUses
  dsimp only
  split_ifs with h₁ h₂ h₃
  · exact iff_of_true answerUses_owner fun h => Nat.not_lt.2 h.1 h₁
  · exact iff_of_true answerUses_owner fun h => h.2.1 h₂
  · have hb : m.ballot ≤ i.ballot := Nat.not_lt.1 h₁
    rw [oneOwner_access]
    unfold answerUses
    rw [List.cons_append, List.cons_append, List.nil_append, oneOwner_access, oneOwner_sendIo,
      deferConflictUses_eq_nil]
    have hd : Deferred r m { lt with tryPreAcceptOks := u8 (lt.tryPreAcceptOks + 1) }
        ↔ Deferred r m lt := Iff.rfl
    tauto
  · have hb : m.ballot ≤ i.ballot := Nat.not_lt.1 h₁
    rw [oneOwner_access, deferConflictUses_iff]
    have hd : Deferred r m { lt with tryPreAcceptOks := u8 (lt.tryPreAcceptOks + 1) }
        ↔ Deferred r m lt := Iff.rfl
    tauto

theorem tryPreAcceptReplyUses_iff (ht : m.type = .tryPreAcceptReply) :
    OneOwner (tryPreAcceptReplyUses r i m) ↔ ¬ GoesOn r i m := by
  unfold tryPreAcceptReplyUses GoesOn
  rw [ht]
  rcases hlt : i.lt with _ | lt
  · simp
  dsimp only
  split_ifs with h₁ h₂ h₃
  · exact iff_of_true oneOwner_nil fun h => h₁.elim (· h.1) h.2.1
  · rw [oneOwner_access, tryNackUses_iff]
    have h₁ := not_or.1 h₁
    simp only [not_not.1 h₁.1, h₁.2, h₂, ne_eq, not_false_eq_true, true_and]
    exact Iff.rfl
  · exact iff_of_true (by decide) fun h => h₂ h.2.2.1
  · exact iff_of_true (by decide) fun h => h₂ h.2.2.1

/-- A handler keeps to one owner unless it commits a write or goes on after a restart. -/
theorem progressUses_iff :
    OneOwner (progressUses r i m) ↔ ¬ CommitsWrite i m ∧ ¬ GoesOn r i m := by
  have hg : m.type ≠ .tryPreAcceptReply → ¬ GoesOn r i m := by
    intro h
    unfold GoesOn
    split
    · contradiction
    · exact id
  unfold progressUses
  rw [oneOwner_access]
  cases ht : m.type
  case preAcceptOk => simp [preAcceptOkUses_iff ht, hg (by rw [ht]; nofun)]
  case preAcceptReply => simp [preAcceptReplyUses_iff ht, hg (by rw [ht]; nofun)]
  case acceptReply => simp [acceptReplyUses_iff ht, hg (by rw [ht]; nofun)]
  case prepareReply => simp [prepareReplyUses_iff ht, hg (by rw [ht]; nofun)]
  all_goals
    have hc : ¬ CommitsWrite i m := by
      unfold CommitsWrite
      rw [ht]
      exact id
  case tryPreAcceptReply => simp [tryPreAcceptReplyUses_iff ht, hc]
  all_goals refine iff_of_true ?_ ⟨hc, hg (by rw [ht]; nofun)⟩
  case preAccept => exact preAcceptUses_owner
  case accept => exact acceptUses_owner
  case commit => exact oneOwner_access.2 oneOwner_nil
  case execute => exact oneOwner_nil
  all_goals exact answerUses_owner

end Uses

/-- The uses that put the buffer on a queue are those the effect has messages for. -/
structure Traced (us : List Use) (e : Effect) : Prop where
  io : us.count .sendIo = e.io.length
  eo : us.count .sendEo = e.eo.length

section Traced

variable {T : RangeTree} {r : Replica} {i : Instance} {m x : Message} {lt : LeaderTracker}
  {e : Effect} {us : List Use}

theorem traced_access : Traced (.access :: us) e ↔ Traced us e := by
  refine ⟨fun h => ⟨?_, ?_⟩, fun h => ⟨?_, ?_⟩⟩
  · simpa using h.io
  · simpa using h.eo
  · simpa using h.io
  · simpa using h.eo

theorem traced_quiet : Traced [] (quiet r i) := ⟨rfl, rfl⟩

theorem traced_answer : Traced answerUses (sending r i x) := ⟨rfl, rfl⟩

theorem doCommit_traced {c : Option Command} (h : doCommit r i m = some e) (hc : i.command = c) :
    Traced (doCommitUses c) e := by
  obtain ⟨cmd, hcmd, rfl⟩ := doCommit_eq h
  rw [← hc, hcmd]
  unfold doCommitUses commitEffect
  rw [Option.any_some]
  simp only [decide_eq_true_eq]
  split_ifs <;> exact ⟨rfl, rfl⟩

theorem restart_traced (h : restart T r i m = some e) : Traced answerUses e := by
  obtain ⟨q, -, rfl⟩ := Option.map_eq_some_iff.1 h
  exact traced_answer

theorem nackReply_traced : Traced (nackReplyUses lt) (nackReply r i lt m) := by
  unfold nackReplyUses nackReply
  rw [traced_access]
  dsimp only
  split_ifs <;> first | exact traced_answer | exact traced_quiet

theorem preAccept_traced (h : preAccept T r i m = some e) : Traced (preAcceptUses i) e := by
  unfold preAccept at h
  unfold preAcceptUses
  split_ifs at h ⊢
  · cases h
    exact traced_quiet
  · cases h
    exact traced_quiet
  · cases h
    exact traced_answer
  · split at h
    · cases h
    · cases h
      dsimp only
      split_ifs <;> exact ⟨rfl, rfl⟩

theorem preAcceptOk_traced (h : preAcceptOk r i m = some e) : Traced (preAcceptOkUses i) e := by
  unfold preAcceptOk at h
  unfold preAcceptOkUses
  rcases hlt : i.lt with _ | lt <;> rw [hlt] at h <;> unfold hasUncommittedDeps at * <;>
    dsimp only at h ⊢ <;> split_ifs at h ⊢
  · cases h
    exact traced_quiet
  · cases h
    exact traced_quiet
  · exact doCommit_traced h rfl
  · cases h
    exact traced_answer
  · cases h
    exact traced_quiet

theorem preAcceptReply_traced (h : preAcceptReply r i m = some e) :
    Traced (preAcceptReplyUses i m) e := by
  unfold preAcceptReply at h
  unfold preAcceptReplyUses
  by_cases hs : isState i.status [.preAccepted] = true
  · rw [hs] at h ⊢
    simp only [Bool.not_true, Bool.false_eq_true, if_false, Bool.false_or, decide_eq_true_eq]
      at h ⊢
    rw [traced_access]
    rcases hlt : i.lt with _ | lt <;> rw [hlt] at h <;> unfold hasUncommittedDeps at * <;>
      dsimp only at h ⊢ <;> split_ifs at h ⊢
    · cases h
      exact traced_quiet
    · cases h
      exact traced_quiet
    · cases h
      exact nackReply_traced
    · exact doCommit_traced h rfl
    · cases h
      exact traced_answer
    · cases h
      exact traced_quiet
  · rw [Bool.not_eq_true] at hs
    rw [hs] at h ⊢
    cases h
    exact traced_quiet

theorem acceptReply_traced (h : acceptReply r i m = some e) : Traced (acceptReplyUses i m) e := by
  unfold acceptReply at h
  unfold acceptReplyUses
  by_cases hs : isState i.status [.accepted] = true
  · rw [hs] at h ⊢
    simp only [Bool.not_true, Bool.false_eq_true, if_false, Bool.false_or, decide_eq_true_eq]
      at h ⊢
    rw [traced_access]
    rcases hlt : i.lt with _ | lt <;> rw [hlt] at h <;> dsimp only at h ⊢ <;> split_ifs at h ⊢
    · cases h
      exact traced_quiet
    · cases h
      exact traced_quiet
    · cases h
      exact nackReply_traced
    · exact doCommit_traced h rfl
    · cases h
      exact traced_quiet
  · rw [Bool.not_eq_true] at hs
    rw [hs] at h ⊢
    cases h
    exact traced_quiet

theorem accept_traced : Traced (acceptUses i) (accept r i m) := by
  unfold accept acceptUses
  split_ifs
  · exact traced_quiet
  · exact traced_answer
  · exact ⟨rfl, rfl⟩

theorem prepare_traced : Traced answerUses (prepare r i m) := by
  unfold prepare
  split_ifs <;> exact traced_answer

theorem decidePrepared_traced (h : decidePrepared T r i lt m = some e) : Traced answerUses e := by
  rcases decidePrepared_cases h with
    ⟨-, rfl⟩ | ⟨-, rfl⟩ | ⟨-, -, -, -, conflict, c, -, h⟩ | ⟨-, -, -, h⟩
  · exact traced_answer
  · exact traced_answer
  · rcases h with ⟨-, -, -, h⟩ | ⟨-, -, -, rfl⟩ | ⟨-, rfl⟩
    · exact restart_traced h
    · exact traced_answer
    · exact traced_answer
  · exact restart_traced h

theorem prepareReply_traced (h : prepareReply T r i m = some e) :
    Traced (prepareReplyUses i m) e := by
  unfold prepareReply at h
  unfold prepareReplyUses
  rcases hlt : i.lt with _ | lt <;> rw [hlt] at h <;> dsimp only at h ⊢
  · cases h
    exact traced_quiet
  split_ifs at h ⊢
  · cases h
    exact traced_quiet
  · cases h
    exact traced_access.2 traced_quiet
  · exact traced_access.2 (doCommit_traced h rfl)
  · cases h
    exact traced_access.2 traced_quiet
  · exact traced_access.2 (decidePrepared_traced h)

theorem tryPreAccept_traced (h : tryPreAccept T r i m = some e) : Traced answerUses e := by
  rcases tryPreAccept_cases h with ⟨-, rfl⟩ | ⟨-, -, -, -, ⟨-, -, rfl⟩ | ⟨-, rfl⟩⟩ <;>
    exact traced_answer

/-- What `deferConflict` puts on `chan_io` beyond what is there. -/
theorem deferConflict_io {nq : ℕ} {ri : RecoveryInstance} {io : List Message}
    (h : deferConflict T r i lt nq ri m io = some e) : e.eo = []
      ∧ e.io.length = io.length + if nq = N / 2 ∧
        ((r.dh (dhKey m.id)).any fun k => decide (lt.quorum.getD k 0 ≠ 0)) then 1 else 0 := by
  unfold deferConflict at h
  dsimp only at h
  by_cases hd : nq = N / 2 ∧
    ((r.dh (dhKey m.id)).any fun k => decide (lt.quorum.getD k 0 ≠ 0)) = true
  · rw [if_pos hd] at h ⊢
    obtain ⟨q, hq, rfl⟩ := Option.map_eq_some_iff.1 h
    obtain ⟨q', -, rfl⟩ := Option.map_eq_some_iff.1 hq
    dsimp only
    split_ifs <;> simp [quiet]
  · rw [if_neg hd] at h ⊢
    obtain ⟨q, hq, rfl⟩ := Option.map_eq_some_iff.1 h
    cases hq
    dsimp only
    split_ifs <;> simp [quiet]

theorem deferConflict_traced {nq : ℕ} {ri : RecoveryInstance} {io : List Message}
    (us : List Use) (h : deferConflict T r i lt nq ri m io = some e)
    (hio : us.count .sendIo = io.length) (heo : us.count .sendEo = 0) :
    Traced (us ++ deferConflictUses r lt nq m) e := by
  obtain ⟨h₁, h₂⟩ := deferConflict_io h
  constructor
  · rw [h₂, List.count_append, hio]
    unfold deferConflictUses
    dsimp only
    generalize ((r.dh (dhKey m.id)).any fun k => decide (lt.quorum.getD k 0 ≠ 0)) = d
    split_ifs <;> simp_all [answerUses]
  · rw [h₁, List.count_append, heo]
    unfold deferConflictUses
    dsimp only
    split_ifs <;> simp [answerUses]

theorem tryNack_traced (h : tryNack T r i lt m = some e) : Traced (tryNackUses r i lt m) e := by
  unfold tryNack at h
  unfold tryNackUses
  dsimp only at h ⊢
  split_ifs at h ⊢
  · cases h
    exact traced_answer
  · cases h
    exact traced_answer
  · split at h
    · cases h
    · rename_i j x hp
      have hid : x.id = i.key := phase1_id hp
      have hd := deferConflict_traced answerUses h rfl rfl
      unfold deferConflictUses at hd ⊢
      rw [hid] at hd
      exact traced_access.2 hd
  · exact traced_access.2 (deferConflict_traced [] h rfl rfl)

theorem tryPreAcceptReply_traced (h : tryPreAcceptReply T r i m = some e) :
    Traced (tryPreAcceptReplyUses r i m) e := by
  unfold tryPreAcceptReply at h
  unfold tryPreAcceptReplyUses
  rcases hlt : i.lt with _ | lt <;> rw [hlt] at h <;> dsimp only at h ⊢
  · cases h
    exact traced_quiet
  split_ifs at h ⊢
  · cases h
    exact traced_quiet
  · exact traced_access.2 (tryNack_traced h)
  · cases h
    exact traced_access.2 traced_answer
  · cases h
    exact traced_access.2 traced_quiet

theorem progress_traced (h : progress T r i m = some e) : Traced (progressUses r i m) e := by
  unfold progress at h
  unfold progressUses
  rw [traced_access]
  cases ht : m.type <;> rw [ht] at h <;> dsimp only at h ⊢
  case phase1 => exact restart_traced h
  case preAccept => exact preAccept_traced h
  case preAcceptOk => exact preAcceptOk_traced h
  case preAcceptReply => exact preAcceptReply_traced h
  case acceptReply => exact acceptReply_traced h
  case prepareReply => exact prepareReply_traced h
  case tryPreAccept => exact tryPreAccept_traced h
  case tryPreAcceptReply => exact tryPreAcceptReply_traced h
  all_goals cases h
  case accept => exact accept_traced
  case prepare => exact prepare_traced
  case commit => exact ⟨rfl, rfl⟩
  case execute => exact traced_quiet

end Traced

namespace Buffer

/-- What has to be so for a turn not to go wrong: there is room for an entry, no client takes the
buffer from `eo_reader`, which receives it before `io_reader` sets `ref` or when that is 1, and no
reader drops the last entry before the two consumers are done. -/
def Safe (b : Buffer) : IoTurn → Prop
  | .ioSend room => room = true
  | .eoReceive _ => b.Uncounted ∨ b.ref = 1
  | .eoSend taken => taken = false
  | .drop _ => b.ref = 1 → b.ioTask = .waiting ∧ b.eo = 0 ∧ b.eoTask = .waiting
  | _ => True

instance (b : Buffer) : ∀ t : IoTurn, Decidable (b.Safe t)
  | .ioSend room => inferInstanceAs (Decidable (room = true))
  | .eoReceive _ => inferInstanceAs (Decidable ((_ ∨ _) ∨ b.ref = 1))
  | .eoSend taken => inferInstanceAs (Decidable (taken = false))
  | .drop _ => inferInstanceAs (Decidable (b.ref = 1 → _ ∧ _ ∧ _))
  | .ioReceive | .ioCount | .ioCheck | .eoRead | .eoReturn | .take _ | .write _ | .load _ =>
    instDecidableTrue

/-- Where the buffer is on its way: on `chan_io`, with `io_reader`, held, or freed. -/
inductive Way (b : Buffer) : Prop
  | queued (io : b.io = 1) (task : b.ioTask = .waiting) (none : b.holders = 0) (frees : b.frees = 0)
  | received (io : b.io = 0) (task : b.ioTask = .received) (none : b.holders = 0)
      (frees : b.frees = 0) (ref : b.ref = 1)
  | held (io : b.io = 0) (task : b.ioTask ≠ .received) (back : b.ioTask ≠ .returned)
      (frees : b.frees = 0) (ref : b.ref = b.holders + b.pending) (pos : 0 < b.ref)
  | freed (io : b.io = 0) (task : b.ioTask = .waiting) (eo : b.eo = 0) (eoTask : b.eoTask = .waiting)
      (none : b.holders = 0) (frees : b.frees = 1) (ref : b.ref = 0)

theorem Way.owned {b : Buffer} (h : b.Way) (hs : b.stale = false) : b.Owned := by
  refine ⟨hs, ?_, ?_, ?_⟩
  · cases h <;> omega
  · intro hu
    rcases h with ⟨io, -, -, -⟩ | ⟨-, ht, -, -, -⟩ | ⟨-, -, -, -, ref, -⟩ | ⟨-, ht, -, -, hn, -, ref⟩
    · exact absurd (.inl (io ▸ Nat.one_pos)) hu
    · exact absurd (.inr ht) hu
    · exact ref
    · simp [ref, hn, pending, ht]
  · intro ha h₀
    rcases h with ⟨io, -, -, -⟩ | ⟨-, ht, -, -, -⟩ | ⟨-, -, hb, -, ref, pos⟩ | ⟨-, -, -, -, -, hf, -⟩
    · exact absurd (io ▸ ha.io) nofun
    · rcases ha.ioTask with h | h <;> rw [ht] at h <;> cases h
    · have hw : b.ioTask = .waiting := ha.ioTask.resolve_right hb
      simp only [h₀, pending, hw] at ref
      omega
    · exact hf

variable {nodeId : ℕ} {quorum : List ℕ} {m : Message} {b b' : Buffer} {t : IoTurn}

theorem touch_stale (hs : b.stale = false) (hf : b.frees = 0) : b.touch.stale = false := by
  simp [touch, hs, hf]

theorem pending_next {ks : List ℕ} (h : b.ioTask = .next ks) : b.pending = ks.length := by
  cases ks <;> simp [pending, h, IoTask.next]

theorem next_ne (ks : List ℕ) : IoTask.next ks ≠ .received ∧ IoTask.next ks ≠ .returned := by
  cases ks <;> exact ⟨nofun, nofun⟩

/-- In a broadcast the count is that of the entries made and to be made. -/
theorem Way.sending (h : b.Way) (hw : b.ioTask ≠ .waiting) (hr : b.ioTask ≠ .received) :
    b.io = 0 ∧ b.frees = 0 ∧ b.ref = b.holders + b.pending ∧ 0 < b.ref := by
  rcases h with ⟨-, ht, -, -⟩ | ⟨-, ht, -, -⟩ | ⟨io, -, -, hf, ref, pos⟩ | ⟨-, ht, -, -, -, -, -⟩
  · exact absurd ht hw
  · exact absurd ht hr
  · exact ⟨io, hf, ref, pos⟩
  · exact absurd ht hw

/-- Who finds the buffer held finds it not freed. -/
theorem Way.holding (h : b.Way) (hn : b.holders ≠ 0) : b.io = 0 ∧ b.ioTask ≠ .received
    ∧ b.ioTask ≠ .returned ∧ b.frees = 0 ∧ b.ref = b.holders + b.pending ∧ 0 < b.ref := by
  rcases h with ⟨-, -, h₀, -⟩ | ⟨-, -, h₀, -⟩ | ⟨io, ht, hb, hf, ref, pos⟩ | ⟨-, -, -, -, h₀, -, -⟩
  · exact absurd h₀ hn
  · exact absurd h₀ hn
  · exact ⟨io, ht, hb, hf, ref, pos⟩
  · exact absurd h₀ hn

theorem Way.ioReceive (h : b.Way) (hs : b.stale = false)
    (hb : b.turn nodeId quorum m .ioReceive = some b') : b'.Way ∧ b'.stale = false := by
  simp only [turn, Option.ite_none_right_eq_some, Option.some.injEq] at hb
  obtain ⟨⟨hio, ht⟩, rfl⟩ := hb
  rcases h with ⟨io, -, hn, hf⟩ | ⟨io, -, -, -⟩ | ⟨io, -, -, -, -⟩ | ⟨io, -, -, -, -, -⟩
  · exact ⟨.received (by simp [io]) rfl hn hf rfl, touch_stale hs hf⟩
  all_goals exact absurd hio (by omega)

theorem Way.ioCount (h : b.Way) (hs : b.stale = false)
    (hlen : (broadcastRef m.type).getD 1 = (ioReader nodeId quorum m).length)
    (hpos : 0 < (ioReader nodeId quorum m).length)
    (hb : b.turn nodeId quorum m .ioCount = some b') : b'.Way ∧ b'.stale = false := by
  simp only [turn, Option.ite_none_right_eq_some, Option.some.injEq] at hb
  obtain ⟨ht, rfl⟩ := hb
  rcases h with ⟨-, ht', -, -⟩ | ⟨io, -, hn, hf, hr⟩ | ⟨-, ht', -, -, -, -⟩ | ⟨-, ht', -, -, -, -, -⟩
  · rw [ht] at ht'
    cases ht'
  · have hp := next_ne (ioReader nodeId quorum m)
    rw [hr, hlen]
    refine ⟨.held io hp.1 hp.2 hf ?_ ?_, touch_stale hs hf⟩
    · rw [pending_next rfl]
      unfold holders at hn ⊢
      dsimp only [touch]
      omega
    · dsimp only
      omega
  · exact absurd ht ht'
  · rw [ht] at ht'
    cases ht'

theorem Way.ioSend (h : b.Way) (hs : b.stale = false)
    (hb : b.turn nodeId quorum m (.ioSend true) = some b') : b'.Way ∧ b'.stale = false := by
  simp only [turn, if_true] at hb
  split at hb
  · rename_i k ks ht
    cases hb
    obtain ⟨io, hf, hr, hp⟩ := h.sending (ht ▸ nofun) (ht ▸ nofun)
    refine ⟨.held io nofun nofun hf ?_ hp, touch_stale hs hf⟩
    simp only [holders, pending, ht, touch, List.length_cons] at hr ⊢
    omega
  · cases hb

theorem Way.ioCheck (h : b.Way) (hs : b.stale = false)
    (hb : b.turn nodeId quorum m .ioCheck = some b') : b'.Way ∧ b'.stale = false := by
  simp only [turn] at hb
  split at hb
  · rename_i ks ht
    cases hb
    obtain ⟨io, hf, hr, hp⟩ := h.sending (ht ▸ nofun) (ht ▸ nofun)
    refine ⟨.held io (next_ne ks).1 (next_ne ks).2 hf ?_ hp, touch_stale hs hf⟩
    rw [pending_next rfl]
    simpa [holders, pending, ht, touch] using hr
  · cases hb

/-- What changes none of these fields, or sets a count of 1 to 1, changes nothing here. -/
theorem Way.congr (h : b.Way) (hio : b'.io = b.io) (ht : b'.ioTask = b.ioTask)
    (hn : b'.holders = b.holders) (hf : b'.frees = b.frees)
    (hr : b'.ref = b.ref ∨ (b'.ref = 1 ∧ b.Uncounted))
    (he : b.eo = 0 → b.eoTask = .waiting → b'.eo = 0 ∧ b'.eoTask = .waiting) : b'.Way := by
  have hp : b'.pending = b.pending := by rw [pending, pending, ht]
  rcases h with ⟨io, h₁, h₂, h₃⟩ | ⟨io, h₁, h₂, h₃, h₄⟩ | ⟨io, h₁, h₂, h₃, h₄, h₅⟩
    | ⟨io, h₁, h₂, h₃, h₄, h₅, h₆⟩
  · exact .queued (hio.trans io) (ht.trans h₁) (hn.trans h₂) (hf.trans h₃)
  · refine .received (hio.trans io) (ht.trans h₁) (hn.trans h₂) (hf.trans h₃) ?_
    exact hr.elim (·.trans h₄) And.left
  · have hr : b'.ref = b.ref := hr.resolve_right fun h => h.2.elim (fun h => by omega) h₁
    exact .held (hio.trans io) (ht ▸ h₁) (ht ▸ h₂) (hf.trans h₃) (by rw [hr, h₄, hn, hp]) (hr ▸ h₅)
  · have hr : b'.ref = b.ref := hr.resolve_right fun h => h.2.elim (fun h => by omega) fun h => by
      rw [h₁] at h
      cases h
    obtain ⟨he₁, he₂⟩ := he h₂ h₃
    exact .freed (hio.trans io) (ht.trans h₁) he₁ he₂ (hn.trans h₄) (hf.trans h₅) (hr.trans h₆)

/-- `eo_reader` has the buffer before it is freed. -/
theorem Way.unfreed (h : b.Way) (he : 0 < b.eo ∨ b.eoTask ≠ .waiting) : b.frees = 0 := by
  rcases h with ⟨-, -, -, hf⟩ | ⟨-, -, -, hf, -⟩ | ⟨-, -, -, hf, -, -⟩ | ⟨-, -, h₁, h₂, -, -, -⟩
  · exact hf
  · exact hf
  · exact hf
  · exact he.elim (fun h => by omega) fun h => absurd h₂ h

theorem Way.eoReceive {cs : List ℕ} (h : b.Way) (hs : b.stale = false)
    (hsafe : b.Safe (.eoReceive cs)) (hb : b.turn nodeId quorum m (.eoReceive cs) = some b') :
    b'.Way ∧ b'.stale = false := by
  simp only [turn, Option.ite_none_right_eq_some, Option.some.injEq] at hb
  obtain ⟨⟨he, -⟩, rfl⟩ := hb
  refine ⟨h.congr rfl rfl rfl rfl ?_ fun h₀ => absurd h₀ (by omega),
    touch_stale hs (h.unfreed (.inl he))⟩
  exact hsafe.elim (fun h => .inr ⟨rfl, h⟩) fun h => .inl h.symm

theorem Way.eoRead (h : b.Way) (hs : b.stale = false)
    (hb : b.turn nodeId quorum m .eoRead = some b') : b'.Way ∧ b'.stale = false := by
  simp only [turn] at hb
  split at hb
  · rename_i hw
    cases hb
    exact ⟨h.congr rfl rfl rfl rfl (.inl rfl) fun h₁ h₂ => ⟨h₁, h₂⟩,
      touch_stale hs (h.unfreed (.inr (hw ▸ nofun)))⟩
  · cases hb

theorem Way.eoSend (h : b.Way) (hs : b.stale = false)
    (hb : b.turn nodeId quorum m (.eoSend false) = some b') : b'.Way ∧ b'.stale = false := by
  simp only [turn] at hb
  split at hb
  · rename_i hw
    cases hb
    exact ⟨h.congr rfl rfl rfl rfl (.inl rfl) fun _ h₂ => absurd h₂ (hw ▸ nofun), hs⟩
  · cases hb

theorem Way.eoReturn (h : b.Way) (hs : b.stale = false)
    (hb : b.turn nodeId quorum m .eoReturn = some b') : b'.Way ∧ b'.stale = false := by
  simp only [turn, Option.ite_none_right_eq_some, Option.some.injEq] at hb
  obtain ⟨-, rfl⟩ := hb
  exact ⟨h.congr rfl rfl rfl rfl (.inl rfl) fun h₁ _ => ⟨h₁, rfl⟩, hs⟩

variable {p : Peer} {s s' : Stage}

theorem holders_leave (h : (p, s) ∈ b.writers) : (b.leave p s).holders + 1 = b.holders := by
  have := List.length_pos_of_mem h
  simp only [holders, leave, List.length_erase_of_mem h]
  omega

theorem holders_advance (h : (p, s) ∈ b.writers) : (b.advance p s s').holders = b.holders := by
  have := List.length_pos_of_mem h
  simp only [holders, advance, List.length_cons, List.length_erase_of_mem h]
  omega

theorem holders_ne (h : (p, s) ∈ b.writers) : b.holders ≠ 0 := by
  have := List.length_pos_of_mem h
  unfold holders
  omega

theorem Way.take (h : b.Way) (hs : b.stale = false)
    (hb : b.turn nodeId quorum m (.take p) = some b') : b'.Way ∧ b'.stale = false := by
  simp only [turn, Option.ite_none_right_eq_some, Option.some.injEq] at hb
  obtain ⟨⟨hp, -⟩, rfl⟩ := hb
  refine ⟨h.congr rfl rfl ?_ rfl (.inl rfl) fun h₁ h₂ => ⟨h₁, h₂⟩, hs⟩
  have := List.length_pos_of_mem hp
  simp only [holders, List.length_cons, List.length_erase_of_mem hp]
  omega

theorem Way.write (h : b.Way) (hs : b.stale = false)
    (hb : b.turn nodeId quorum m (.write p) = some b') : b'.Way ∧ b'.stale = false := by
  simp only [turn, Option.ite_none_right_eq_some, Option.some.injEq] at hb
  obtain ⟨hp, rfl⟩ := hb
  obtain ⟨-, -, -, hf, -⟩ := h.holding (holders_ne hp)
  exact ⟨h.congr rfl rfl (holders_advance hp) rfl (.inl rfl) fun h₁ h₂ => ⟨h₁, h₂⟩,
    touch_stale hs hf⟩

/-- The load finds the count of at least one. -/
theorem Way.load (h : b.Way) (hs : b.stale = false)
    (hb : b.turn nodeId quorum m (.load p) = some b') : b'.Way ∧ b'.stale = false := by
  simp only [turn, Option.ite_none_right_eq_some, Option.some.injEq] at hb
  obtain ⟨hp, rfl⟩ := hb
  obtain ⟨-, -, -, hf, -, hpos⟩ := h.holding (holders_ne hp)
  rw [if_neg (by omega)]
  exact ⟨h.congr rfl rfl (holders_advance hp) rfl (.inl rfl) fun h₁ h₂ => ⟨h₁, h₂⟩,
    touch_stale hs hf⟩

theorem Way.drop (h : b.Way) (hs : b.stale = false) (hsafe : b.Safe (.drop p))
    (hb : b.turn nodeId quorum m (.drop p) = some b') : b'.Way ∧ b'.stale = false := by
  simp only [turn, Option.ite_none_right_eq_some, Option.some.injEq] at hb
  obtain ⟨hp, rfl⟩ := hb
  obtain ⟨io, hr, hret, hf, href, hpos⟩ := h.holding (holders_ne hp)
  have hn : (b.touch.leave p .loaded).decrement.holders + 1 = b.holders := holders_leave hp
  refine ⟨?_, touch_stale hs hf⟩
  by_cases h₁ : b.ref = 1
  · obtain ⟨hw, he, het⟩ := hsafe h₁
    have h₀ : b.pending = 0 := by rw [pending, hw]
    refine .freed io hw he het ?_ ?_ ?_
    · omega
    · simp [decrement, leave, touch, h₁, hf]
    · simp [decrement, leave, touch, h₁]
  · refine .held io hr hret ?_ ?_ ?_
    · have : b.ref - 1 ≠ 0 := by omega
      simp [decrement, leave, touch, this, hf]
    · show b.ref - 1 = _ + ((b.pending : ℕ) : ℤ)
      omega
    · show 0 < b.ref - 1
      omega

/-- A safe turn keeps the buffer on its way. -/
theorem Way.turn (h : b.Way) (hs : b.stale = false) (hsafe : b.Safe t)
    (hlen : (broadcastRef m.type).getD 1 = (ioReader nodeId quorum m).length)
    (hpos : 0 < (ioReader nodeId quorum m).length)
    (hb : b.turn nodeId quorum m t = some b') : b'.Way ∧ b'.stale = false := by
  cases t with
  | ioReceive => exact h.ioReceive hs hb
  | ioCount => exact h.ioCount hs hlen hpos hb
  | ioSend room =>
    cases hsafe
    exact h.ioSend hs hb
  | ioCheck => exact h.ioCheck hs hb
  | eoReceive cs => exact h.eoReceive hs hsafe hb
  | eoRead => exact h.eoRead hs hb
  | eoSend taken =>
    cases hsafe
    exact h.eoSend hs hb
  | eoReturn => exact h.eoReturn hs hb
  | take p => exact h.take hs hb
  | write p => exact h.write hs hb
  | load p => exact h.load hs hb
  | drop p => exact h.drop hs hsafe hb

theorem Reaches.owned {b₀ : Buffer} (h₀ : b₀.Way) (hs : b₀.stale = false)
    (hlen : (broadcastRef m.type).getD 1 = (ioReader nodeId quorum m).length)
    (hpos : 0 < (ioReader nodeId quorum m).length)
    (h : b₀.Reaches Safe nodeId quorum m b) : b.Owned := by
  suffices hw : b.Way ∧ b.stale = false from hw.1.owned hw.2
  induction h with
  | start => exact ⟨h₀, hs⟩
  | turn _ ht hb ih => exact ih.1.turn ih.2 ht hlen hpos hb

end Buffer

/-- A broadcast sets `ref` to the number of its entries. -/
theorem length_ioReader {nodeId : ℕ} {quorum : List ℕ} {m : Message} (hn : nodeId < N)
    (hq : quorum.length = N) :
    (broadcastRef m.type).getD 1 = (ioReader nodeId quorum m).length := by
  have hp : ∀ k < N, (broadcastPrepare k).length = N - 1 := by decide
  unfold broadcastRef ioReader
  cases m.type <;>
    simp [hp nodeId hn, broadcastPreAccept, broadcastTryPreAccept, broadcastCommit, hq, N]

theorem ioReader_pos {nodeId : ℕ} {quorum : List ℕ} {m : Message} (hn : nodeId < N)
    (hq : quorum.length = N) : 0 < (ioReader nodeId quorum m).length := by
  have h := length_ioReader (m := m) hn hq
  unfold broadcastRef at h
  cases ht : m.type <;> rw [ht] at h <;> simp only [Option.getD_some, Option.getD_none, N] at h <;>
    omega

section Handled

variable {T : RangeTree} {r : Replica} {i : Instance} {m : Message} {e : Effect} {ev : Event}

theorem OneOwner.count_le {us : List Use} (h : OneOwner us) : us.count .sendIo ≤ 1 := by
  induction us with
  | nil => exact Nat.zero_le _
  | cons u us ih =>
    cases u with
    | access => simpa using ih (oneOwner_access.1 h)
    | sendIo => simp [oneOwner_sendIo.1 h]
    | sendEo =>
      cases us with
      | nil => decide
      | cons v us => exact absurd (h .sendEo (by simp)) nofun

theorem doCommitUses_count (c : Option Command) : (doCommitUses c).count .sendIo = 1 := by
  unfold doCommitUses
  split_ifs <;> rfl

theorem nackReplyUses_count (lt : LeaderTracker) : (nackReplyUses lt).count .sendIo ≤ 1 :=
  nackReplyUses_owner.count_le

/-- The buffer is on `chan_io` once, where no restart is gone on with. -/
theorem progressUses_count (hg : ¬ GoesOn r i m) : (progressUses r i m).count .sendIo ≤ 1 := by
  by_cases ho : OneOwner (progressUses r i m)
  · exact ho.count_le
  -- a write is committed
  have hc : CommitsWrite i m := not_not.1 fun hc => ho (progressUses_iff.2 ⟨hc, hg⟩)
  rcases hlt : i.lt with _ | lt
  · unfold CommitsWrite at hc
    rw [hlt] at hc
    split at hc <;> contradiction
  have access : ∀ us : List Use, (Use.access :: us).count .sendIo = us.count .sendIo := fun us =>
    List.count_cons_of_ne (by decide)
  unfold progressUses
  rw [access]
  cases ht : m.type <;> dsimp only
  case preAcceptOk =>
    unfold preAcceptOkUses
    rw [hlt]
    dsimp only
    split_ifs <;> simp [answerUses, doCommitUses_count]
  case preAcceptReply =>
    unfold preAcceptReplyUses
    rw [hlt]
    dsimp only
    split_ifs <;> simp [access, answerUses, doCommitUses_count, nackReplyUses_count]
  case acceptReply =>
    unfold acceptReplyUses
    rw [hlt]
    dsimp only
    split_ifs <;> simp [access, doCommitUses_count, nackReplyUses_count]
  case prepareReply =>
    unfold prepareReplyUses
    rw [hlt]
    dsimp only
    split_ifs <;> simp [answerUses, doCommitUses_count]
  all_goals
    unfold CommitsWrite at hc
    rw [ht] at hc
    exact hc.elim

theorem progressUses_congr {r' : Replica} (h : r'.dh = r.dh) :
    progressUses r' i m = progressUses r i m := by
  unfold progressUses tryPreAcceptReplyUses tryNackUses deferConflictUses
  rw [h]

theorem uses_traced (h : r.handle T ev = .handled i e) : Traced (r.uses ev) e := by
  cases ev with
  | propose m =>
    unfold Replica.handle at h
    dsimp only at h
    split_ifs at h
    cases hc : restart T (r.put r.ownInstance) r.ownInstance m <;> rw [hc] at h <;> cases h
    exact traced_access.2 (restart_traced hc)
  | checkpoint m =>
    unfold Replica.handle at h
    dsimp only at h
    split_ifs at h
    cases hc : r.checkpointEffect r.ownInstance m <;> rw [hc] at h <;> cases h
    obtain ⟨deps, -, rfl⟩ := Option.map_eq_some_iff.1 hc
    exact traced_answer
  | timeout id m =>
    obtain ⟨-, ⟨-, rfl⟩ | ⟨-, rfl⟩⟩ := timeout_cases h
    · unfold slowPathTimeout
      rw [recover_eq]
      exact traced_answer
    · exact traced_answer
  | step m =>
    obtain ⟨⟨rfl, -, -⟩, hp⟩ := step_progress h
    have ht := progress_traced hp
    rw [progressUses_congr (r.put_dh _)] at ht
    exact traced_access.2 ht
  | execute id =>
    unfold Replica.handle at h
    dsimp only at h
    split at h
    · cases h
    · split_ifs at h
      cases h
      exact traced_quiet

/-- The handler of a message is the only one that can fail to give its buffer away once. -/
theorem uses_iff (h : r.handle T ev = .handled i e) : OneOwner (r.uses ev)
    ↔ ∀ m, ev = .step m → ¬ CommitsWrite i m ∧ ¬ GoesOn r i m := by
  cases ev with
  | step m =>
    obtain ⟨⟨rfl, -, -⟩, -⟩ := step_progress h
    refine (oneOwner_access.trans progressUses_iff).trans ⟨?_, fun h => h m rfl⟩
    rintro h _ ⟨⟩
    exact h
  | propose m => exact iff_of_true (oneOwner_access.2 answerUses_owner) (by rintro _ ⟨⟩)
  | checkpoint m | timeout id m => exact iff_of_true answerUses_owner (by rintro _ ⟨⟩)
  | execute id => exact iff_of_true oneOwner_nil (by rintro _ ⟨⟩)

/-- A handler puts its message buffer on a queue once at most and leaves it alone from then on, if
and only if it does not commit a write and does not go on with a nack for which it has restarted
phase 1. In the interleavings in which every turn is safe, a buffer on `chan_io` has one reference
for each entry, and is freed once, after its last use. -/
theorem buffers_owned (h : r.handle T ev = .handled i e) :
    (OneOwner (r.uses ev) ↔ ∀ m, ev = .step m → ¬ CommitsWrite i m ∧ ¬ GoesOn r i m)
      ∧ ((∀ m, ev = .step m → ¬ GoesOn r i m) → ∀ x ∈ e.io, ∀ nodeId < N, ∀ quorum : List ℕ,
        quorum.length = N → ∀ ref b,
          (Buffer.handed e.io.length e.eo.length ref).Reaches Buffer.Safe nodeId quorum x b →
            b.Owned) := by
  refine ⟨uses_iff h, fun hg x hx nodeId hn quorum hq ref b hb => ?_⟩
  have hle : (r.uses ev).count .sendIo ≤ 1 := by
    cases ev with
    | step m =>
      obtain ⟨⟨rfl, -, -⟩, -⟩ := step_progress h
      exact (List.count_cons_of_ne (by decide)).trans_le (progressUses_count (hg m rfl))
    | _ => exact ((uses_iff h).2 (by rintro _ ⟨⟩)).count_le
  have hio : e.io.length = 1 := by
    have := List.length_pos_of_mem hx
    have := (uses_traced h).io
    omega
  exact hb.owned (.queued hio rfl rfl rfl) rfl (length_ioReader hn hq) (ioReader_pos hn hq)

end Handled

/-- The buffer after the turns, as far as `P` holds of them. -/
def Buffer.turns (P : Buffer → IoTurn → Prop) [∀ b t, Decidable (P b t)] (nodeId : ℕ)
    (quorum : List ℕ) (m : Message) : List IoTurn → Buffer → Option Buffer
  | [], b => some b
  | t :: ts, b =>
    if P b t then (b.turn nodeId quorum m t).bind (turns P nodeId quorum m ts) else none

theorem reaches_turns {P : Buffer → IoTurn → Prop} [∀ b t, Decidable (P b t)] {nodeId : ℕ}
    {quorum : List ℕ} {m : Message} {b₀ : Buffer} :
    ∀ {ts : List IoTurn} {b b' : Buffer}, b₀.Reaches P nodeId quorum m b →
      b.turns P nodeId quorum m ts = some b' → b₀.Reaches P nodeId quorum m b'
  | [], _, _, h, hb => Option.some.inj hb ▸ h
  | _ :: _, _, _, h, hb => by
    rw [Buffer.turns] at hb
    split_ifs at hb with ht
    obtain ⟨b₁, h₁, hb⟩ := Option.bind_eq_some_iff.1 hb
    exact reaches_turns (.turn h ht h₁) hb

/-- An answer goes to its peer, and its buffer is freed. -/
theorem answer_delivered {x : Message} {nodeId : ℕ} {quorum : List ℕ} (ref : ℤ)
    (ht : x.type = .preAcceptOk) : ∃ b,
      (Buffer.handed 1 0 ref).Reaches Buffer.Safe nodeId quorum x b
        ∧ b.AtRest ∧ b.holders = 0 ∧ b.frees = 1 := by
  have hr : (Buffer.handed 1 0 ref).turns Buffer.Safe nodeId quorum x
      [.ioReceive, .ioCount, .ioSend true, .ioCheck, .take (.node x.sender),
        .write (.node x.sender), .load (.node x.sender), .drop (.node x.sender)]
      = some { Buffer.handed 0 0 0 with frees := 1 } := by
    simp [Buffer.turns, Buffer.turn, Buffer.handed, Buffer.touch, Buffer.advance, Buffer.leave,
      Buffer.decrement, Buffer.Safe, broadcastRef, ioReader, ht, IoTask.next]
  exact ⟨_, reaches_turns .start hr, ⟨rfl, rfl, .inl rfl, rfl⟩, rfl, rfl⟩

/-- A handler that answers with a `PRE_ACCEPT_OK`. -/
theorem exists_answer : ∃ w t e x, Run listTree w ∧ t ∈ w.log ∧ t.who < N
    ∧ t.pre.handle listTree t.event = .handled t.before e ∧ x ∈ e.io ∧ x.type = .preAcceptOk
    ∧ e.io.length = 1 ∧ e.eo.length = 0
    ∧ ∀ m ∈ t.message, ¬ CommitsWrite t.before m ∧ ¬ GoesOn t.pre t.before m := by
  obtain ⟨w, hr, t, ht, hu, ⟨m, hm, hty⟩, hg⟩ := @exists_run fastCommit
    (fun w => ∃ t ∈ w.log, t.pre.uses t.event = .access :: .access :: answerUses
      ∧ (∃ m ∈ t.sent, m.type = .preAcceptOk)
      ∧ ∀ m ∈ t.message, ¬ CommitsWrite t.before m ∧ ¬ GoesOn t.pre t.before m) _
    (by decide +kernel)
  obtain ⟨_, _, -, -, hh⟩ := hr.grown.1.of_mem ht
  obtain ⟨e, he, -, hs⟩ := hh.handled
  rw [hs] at hm
  obtain ⟨x, hx, rfl⟩ := List.mem_map.1 hm
  have hu := hu ▸ uses_traced he
  exact ⟨w, t, e, x, hr, ht, hh.who_lt, he, hx, hty, hu.io.symm, hu.eo.symm, hg⟩

/-- The answer of a follower, which goes to the leader. -/
theorem buffers_owned_fastCommit : ∃ w t e x b, Run listTree w ∧ t ∈ w.log
    ∧ t.pre.handle listTree t.event = .handled t.before e ∧ x ∈ e.io
    ∧ OneOwner (t.pre.uses t.event)
    ∧ (Buffer.handed e.io.length e.eo.length 1).Reaches Buffer.Safe t.who [0, 0, 0] x b
    ∧ b.AtRest ∧ b.holders = 0 ∧ b.frees = 1 ∧ b.Owned := by
  obtain ⟨w, t, e, x, hr, ht, hk, he, hx, hty, hio, heo, hg⟩ := exists_answer
  have hg : ∀ m, t.event = .step m → ¬ CommitsWrite t.before m ∧ ¬ GoesOn t.pre t.before m :=
    fun m hev => hg m (Record.mem_message.2 hev)
  obtain ⟨b, hb, hrest, hnone, hfree⟩ := @answer_delivered x t.who [0, 0, 0] 1 hty
  have hb : (Buffer.handed e.io.length e.eo.length 1).Reaches Buffer.Safe t.who [0, 0, 0] x b := by
    rwa [hio, heo]
  obtain ⟨hone, howned⟩ := buffers_owned he
  exact ⟨w, t, e, x, b, hr, ht, he, hx, hone.2 hg, hb, hrest, hnone, hfree,
    howned (fun m hev => (hg m hev).2) x hx t.who hk [0, 0, 0] rfl 1 b hb⟩

/-- The reader of the one connection is done with an answer before `io_reader` has looked at the
connection's status, for which it reads the message. -/
theorem answer_overtaken {x : Message} {nodeId : ℕ} {quorum : List ℕ} (ref : ℤ)
    (ht : x.type = .preAcceptOk) : ∃ b,
      (Buffer.handed 1 0 ref).Reaches (fun _ _ => True) nodeId quorum x b ∧ b.stale = true := by
  have hr : (Buffer.handed 1 0 ref).turns (fun _ _ => True) nodeId quorum x
      [.ioReceive, .ioCount, .ioSend true, .take (.node x.sender), .write (.node x.sender),
        .load (.node x.sender), .drop (.node x.sender), .ioCheck]
      = some { Buffer.handed 0 0 0 with frees := 1, stale := true } := by
    simp [Buffer.turns, Buffer.turn, Buffer.handed, Buffer.touch, Buffer.advance, Buffer.leave,
      Buffer.decrement, broadcastRef, ioReader, ht, IoTask.next]
  exact ⟨_, reaches_turns .start hr, rfl⟩

/-- The `COMMIT` of a write is on both queues, and an answer can be freed too early. -/
theorem buffers_shared : (¬ ∀ w, Run listTree w → ∀ t ∈ w.log, OneOwner (t.pre.uses t.event))
    ∧ ¬ ∀ w, Run listTree w → ∀ t ∈ w.log, ∀ e, t.pre.handle listTree t.event = .handled t.before e →
      ∀ x ∈ e.io, ∀ quorum : List ℕ, quorum.length = N → ∀ ref b,
        (Buffer.handed e.io.length e.eo.length ref).Reaches (fun _ _ => True) t.who quorum x b →
          b.Owned := by
  refine ⟨fun h => ?_, fun h => ?_⟩
  · obtain ⟨w, hr, t, ht, ho⟩ := @exists_run fastCommit
      (fun w => ∃ t ∈ w.log, ¬ OneOwner (t.pre.uses t.event)) _ (by decide +kernel)
    exact ho (h w hr t ht)
  · obtain ⟨w, t, e, x, hr, ht, -, he, hx, hty, hio, heo, -⟩ := exists_answer
    obtain ⟨b, hb, hst⟩ := @answer_overtaken x t.who [0, 0, 0] 1 hty
    have hbo := h w hr t ht e he x hx [0, 0, 0] rfl 1 b
    rw [hio, heo] at hbo
    exact absurd (hst.symm.trans (hbo hb).fresh) nofun

end Epx
