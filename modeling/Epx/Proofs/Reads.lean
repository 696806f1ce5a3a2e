import Epx.Proofs.Handlers
import Epx.Wire

/-!
# What a handler reads

The table `reads` is complete. A replica given one of two messages that agree on the fields their
type reads is left the same, hands over the same instance, and sends messages that agree again, as
far as they are carried, on the fields their types read.
-/

namespace Epx

section Alike

/-- The field is the same in both messages. -/
def Field.Equal (m m' : Message) : Field → Prop
  | ballot => m'.ballot = m.ballot
  | nack => m'.nack = m.nack
  | command => m'.command = m.command
  | seq => m'.seq = m.seq
  | deps => m'.deps = m.deps
  | sender => m'.sender = m.sender
  | instanceStatus => m'.instanceStatus = m.instanceStatus
  | conflict => m'.conflict = m.conflict

/-- The wire has the field for messages of the type. -/
def Field.Carried (type : MessageType) : Field → Prop
  | command | seq | deps => type ≠ .preAcceptOk
  | conflict => False
  | _ => True

/-- The fields a message's handler reads. -/
def Message.reads (m : Message) : List Field := Epx.reads m.type (decide (m.nack ≠ 0))

/-- The handler reads the same in both messages. -/
structure Message.Alike (m m' : Message) : Prop where
  type : m'.type = m.type
  id : m'.id = m.id
  read : ∀ f ∈ m.reads, f.Equal m m'

/-- Two messages sent, the same for the handlers that get them as far as they are carried. -/
structure Message.SentAlike (m m' : Message) : Prop where
  type : m'.type = m.type
  id : m'.id = m.id
  dest : ¬ m.type.Broadcast → m'.dest = m.dest
  read : ∀ f ∈ m.reads, f.Carried m.type → f.Equal m m'

/-- The same in all that is sent on, the sender and the status apart. -/
structure Message.SameData (m m' : Message) : Prop where
  type : m'.type = m.type
  id : m'.id = m.id
  ballot : m'.ballot = m.ballot
  nack : m'.nack = m.nack
  command : m'.command = m.command
  seq : m'.seq = m.seq
  deps : m'.deps = m.deps

/-- The same is left behind, and what replica `k` sends is alike. -/
structure Effect.Alike (k : ℕ) (e e' : Effect) : Prop where
  inst : e'.inst = e.inst
  dh : e'.dh = e.dh
  cleared : e'.cleared = e.cleared
  io : List.Forall₂ Message.SentAlike (e.io.map (envelope k)) (e'.io.map (envelope k))
  eo : e'.eo.map Message.command = e.eo.map Message.command
  exec : e'.exec = e.exec

variable {k : ℕ} {r : Replica} {i : Instance} {m m' : Message}

theorem Message.Alike.get {t : MessageType} (h : m.Alike m') (ht : m.type = t) (f : Field)
    (hf : f ∈ Epx.reads t (decide (m.nack ≠ 0))) : f.Equal m m' :=
  h.read f (by rwa [Message.reads, ht])

/-- A handler that sends the message on reads all its data. -/
theorem Message.Alike.sameData {t : MessageType} (h : m.Alike m') (ht : m.type = t)
    (hr : ∀ f ∈ [Field.ballot, .nack, .command, .seq, .deps],
      f ∈ Epx.reads t (decide (m.nack ≠ 0))) : m.SameData m' where
  type := h.type
  id := h.id
  ballot := h.get ht .ballot (hr _ (by decide))
  nack := h.get ht .nack (hr _ (by decide))
  command := h.get ht .command (hr _ (by decide))
  seq := h.get ht .seq (hr _ (by decide))
  deps := h.get ht .deps (hr _ (by decide))

theorem instanceStatus_not_mem_reads {t : MessageType} {b : Bool} (ht : t ≠ .prepareReply) :
    .instanceStatus ∉ reads t b := by
  cases t <;> cases b <;> first | exact absurd rfl ht | decide

/-- Messages with the same data are alike once sent. -/
theorem Message.SameData.sent (h : m.SameData m') (ht : m.type ≠ .prepareReply)
    (hs : m.type.Broadcast ∨ m'.sender = m.sender) :
    (envelope k m).SentAlike (envelope k m') where
  type := h.type
  id := h.id
  dest := hs.resolve_left
  read f hf hc := by
    cases f with
    | ballot => exact h.ballot
    | nack => exact h.nack
    | command => exact h.command
    | seq => exact h.seq
    | deps => exact h.deps
    | sender => rfl
    | instanceStatus => exact absurd hf (instanceStatus_not_mem_reads ht)
    | conflict => exact hc.elim

theorem Message.SameData.broadcast (h : m.SameData m') (ht : m.type.Broadcast) :
    (envelope k m).SentAlike (envelope k m') := by
  refine h.sent ?_ (.inl ht)
  rcases ht with h | h | h | h | h <;> rw [h] <;> decide

theorem quiet_alike : (quiet r i).Alike k (quiet r i) :=
  ⟨rfl, rfl, rfl, .nil, rfl, rfl⟩

theorem sending_alike (h : (envelope k m).SentAlike (envelope k m')) :
    (sending r i m).Alike k (sending r i m') :=
  ⟨rfl, rfl, rfl, .cons h .nil, rfl, rfl⟩

theorem cleared_alike {b : Bool} (h : (envelope k m).SentAlike (envelope k m')) :
    ({ sending r i m with cleared := b }).Alike k { sending r i m' with cleared := b } :=
  ⟨rfl, rfl, rfl, .cons h .nil, rfl, rfl⟩

theorem rel_map {α β : Type*} {R : β → β → Prop} {f g : α → β} {o : Option α}
    (h : ∀ a, o = some a → R (f a) (g a)) : Option.Rel R (o.map f) (o.map g) := by
  cases o with
  | none => exact .none
  | some a => exact .some (h a rfl)

theorem doCommit_alike (h : m.SameData m') :
    Option.Rel (Effect.Alike k) (doCommit r i m) (doCommit r i m') := by
  refine rel_map fun c _ => ⟨rfl, rfl, rfl, .cons ?_ .nil, ?_, rfl⟩
  · exact Message.SameData.broadcast { h with type := rfl } (.inr (.inr (.inr (.inr rfl))))
  · dsimp only
    split_ifs
    · exact congrArg (fun c => [c]) h.command
    · rfl

theorem recover_alike (hn : m'.nack = m.nack) :
    (recover r i m).Alike k (recover r i m') := by
  have hr : ∀ f ∈ Message.reads (envelope k { m with type := .prepare }),
      f = .ballot ∨ f = .nack ∨ f = .sender := by
    simp [Message.reads, reads, envelope]
  refine sending_alike ⟨rfl, rfl, fun h => absurd (.inl rfl) h, fun f hf _ => ?_⟩
  rcases hr f hf with rfl | rfl | rfl
  · rfl
  · exact hn
  · rfl

end Alike

section Handlers

variable {T : RangeTree} {k : ℕ} {r : Replica} {i : Instance} {m m' : Message}

/-- The message with the fields that `phase1` does not touch taken from another. -/
def Message.onto (m m' : Message) : Message :=
  { m with
    dest := m'.dest, sender := m'.sender, instanceStatus := m'.instanceStatus
    conflict := m'.conflict }

/-- `phase1` reads no more than the ballot, the nack and the command. -/
theorem phase1_congr (hb : m'.ballot = m.ballot) (hn : m'.nack = m.nack)
    (hc : m'.command = m.command) :
    phase1 T r i m' = (phase1 T r i m).map fun q => (q.1, q.2.onto m') := by
  unfold phase1
  simp only [hb, hn, hc]
  cases sdForCommand T (r.put { instanceReset i with timer := none }) m.command
    (some (instanceReset i).key) ⟨0, .zero⟩ <;> cases (instanceReset i).lt <;> rfl

theorem phase1_type {q : Instance × Message} (h : phase1 T r i m = some q) :
    q.2.type = .preAccept := by
  obtain ⟨_, _, _, _, _, _, rfl⟩ := phase1_eq h
  rfl

theorem phase1_conflict {q : Instance × Message} (h : phase1 T r i m = some q) :
    q.2.conflict = m.conflict := by
  obtain ⟨_, _, _, _, _, _, rfl⟩ := phase1_eq h
  rfl

theorem onto_sent {q : Instance × Message} (h : phase1 T r i m = some q) :
    (envelope k q.2).SentAlike (envelope k (q.2.onto m')) :=
  Message.SameData.broadcast ⟨rfl, rfl, rfl, rfl, rfl, rfl, rfl⟩ (.inr (.inr (.inl (phase1_type h))))

theorem restart_alike (hb : m'.ballot = m.ballot) (hn : m'.nack = m.nack)
    (hc : m'.command = m.command) :
    Option.Rel (Effect.Alike k) (restart T r i m) (restart T r i m') := by
  unfold restart
  rw [phase1_congr hb hn hc, Option.map_map]
  exact rel_map fun q hq => sending_alike (onto_sent hq)

theorem preAccept_alike (h : m.Alike m') (ht : m.type = .preAccept) :
    Option.Rel (Effect.Alike k) (preAccept T r i m) (preAccept T r i m') := by
  have hb : m'.ballot = m.ballot := h.get ht .ballot (by simp [reads])
  have hn : m'.nack = m.nack := h.get ht .nack (by simp [reads])
  have hc : m'.command = m.command := h.get ht .command (by simp [reads])
  have hq : m'.seq = m.seq := h.get ht .seq (by simp [reads])
  have hs : m'.sender = m.sender := h.get ht .sender (by simp [reads])
  unfold preAccept
  simp only [hb, hc, hq]
  split_ifs
  · exact .some quiet_alike
  · exact .some quiet_alike
  · exact .some (sending_alike
      (Message.SameData.sent ⟨rfl, h.id, rfl, rfl, rfl, rfl, rfl⟩ nofun (.inr hs)))
  · split
    · exact .none
    · rename_i mseq command p hscan
      have hreply (nseq : ℕ) : (envelope k { m with
            ballot := m.ballot, command, seq := nseq, deps := p.deps
            type := .preAcceptReply }).SentAlike (envelope k { m' with
            ballot := m.ballot, command, seq := nseq, deps := p.deps
            type := .preAcceptReply }) :=
        Message.SameData.sent ⟨rfl, h.id, rfl, hn, rfl, rfl, rfl⟩ nofun (.inr hs)
      have hok : (envelope k { m with command, type := .preAcceptOk }).SentAlike
          (envelope k { m' with
            ballot := m.ballot, command, seq := m.seq, type := .preAcceptOk }) := by
        -- the wire has none of the data of a `PRE_ACCEPT_OK`
        refine ⟨rfl, h.id, fun _ => hs, fun f hf hw => ?_⟩
        cases f with
        | nack => exact hn
        | ballot | command | sender | seq => rfl
        | deps => exact absurd rfl hw
        | conflict => exact hw.elim
        | instanceStatus => exact absurd hf (instanceStatus_not_mem_reads nofun)
      refine .some ?_
      split_ifs
      · exact cleared_alike (hreply _)
      · exact cleared_alike hok
      · exact cleared_alike (hreply _)
      · exact cleared_alike hok

/-- The `ACCEPT` of the message. -/
theorem accept_sent (h : m.SameData m') :
    (envelope k { m with type := .accept }).SentAlike
      (envelope k { m' with type := .accept }) :=
  Message.SameData.broadcast { h with type := rfl } (.inr (.inl rfl))

theorem preAcceptOk_alike (h : m.Alike m') (ht : m.type = .preAcceptOk) :
    Option.Rel (Effect.Alike k) (preAcceptOk r i m) (preAcceptOk r i m') := by
  have hd : m.SameData m' := h.sameData ht (by simp [reads])
  unfold preAcceptOk
  split_ifs
  · exact .some quiet_alike
  · split
    · exact .none
    · dsimp only
      split_ifs
      · exact doCommit_alike hd
      · exact .some (sending_alike (accept_sent hd))
      · exact .some quiet_alike

theorem nackReply_alike {lt : LeaderTracker} (hb : m'.ballot = m.ballot) (hn : m'.nack = m.nack) :
    (nackReply r i lt m).Alike k (nackReply r i lt m') := by
  unfold nackReply
  simp only [hb]
  split_ifs
  · exact recover_alike hn
  · exact quiet_alike
  · exact recover_alike hn
  · exact quiet_alike

theorem preAcceptReply_alike (h : m.Alike m') (ht : m.type = .preAcceptReply) :
    Option.Rel (Effect.Alike k) (preAcceptReply r i m) (preAcceptReply r i m') := by
  have hb : m'.ballot = m.ballot := h.get ht .ballot (by unfold reads; split_ifs <;> simp)
  have hn : m'.nack = m.nack := h.get ht .nack (by unfold reads; split_ifs <;> simp)
  unfold preAcceptReply
  simp only [hb, hn]
  split_ifs with h₁ h₂
  · exact .some quiet_alike
  · split
    · exact .none
    · exact .some (nackReply_alike hb hn)
  · have hd : m.SameData m' := h.sameData ht (by simp [reads, not_not.1 h₂])
    split
    · exact .none
    rw [hd.seq, hd.deps]
    split_ifs
    · exact doCommit_alike hd
    · exact .some (sending_alike (Message.SameData.broadcast
        ⟨rfl, h.id, rfl, rfl, hd.command, rfl, rfl⟩ (.inr (.inl rfl))))
    · exact .some quiet_alike

theorem accept_alike (h : m.Alike m') (ht : m.type = .accept) :
    (accept r i m).Alike k (accept r i m') := by
  have hd : m.SameData m' := h.sameData ht (by simp [reads])
  have hs : m'.sender = m.sender := h.get ht .sender (by simp [reads])
  unfold accept
  rw [hd.ballot, hd.command, hd.seq, hd.deps]
  split_ifs
  · exact quiet_alike
  · exact sending_alike
      (Message.SameData.sent ⟨rfl, h.id, rfl, rfl, rfl, rfl, rfl⟩ nofun (.inr hs))
  · refine ⟨rfl, rfl, rfl, .cons ?_ .nil, rfl, rfl⟩
    exact Message.SameData.sent ⟨rfl, h.id, rfl, hd.nack, rfl, rfl, rfl⟩ nofun (.inr hs)

theorem acceptReply_alike (h : m.Alike m') (ht : m.type = .acceptReply) :
    Option.Rel (Effect.Alike k) (acceptReply r i m) (acceptReply r i m') := by
  have hb : m'.ballot = m.ballot := h.get ht .ballot (by unfold reads; split_ifs <;> simp)
  have hn : m'.nack = m.nack := h.get ht .nack (by unfold reads; split_ifs <;> simp)
  unfold acceptReply
  simp only [hb, hn]
  split_ifs with h₁ h₂
  · exact .some quiet_alike
  · split
    · exact .none
    · exact .some (nackReply_alike hb hn)
  · have hd : m.SameData m' := h.sameData ht (by simp [reads, not_not.1 h₂])
    split
    · exact .none
    split_ifs
    · exact doCommit_alike hd
    · exact .some quiet_alike

theorem commit_alike (h : m.Alike m') (ht : m.type = .commit) :
    (commit r i m).Alike k (commit r i m') := by
  have hq : m'.seq = m.seq := h.get ht .seq (by simp [reads])
  have hd : m'.deps = m.deps := h.get ht .deps (by simp [reads])
  unfold commit
  rw [hq, hd]
  exact ⟨rfl, rfl, rfl, .nil, rfl, rfl⟩

theorem prepare_alike (h : m.Alike m') (ht : m.type = .prepare) :
    (prepare r i m).Alike k (prepare r i m') := by
  have hb : m'.ballot = m.ballot := h.get ht .ballot (by simp [reads])
  have hn : m'.nack = m.nack := h.get ht .nack (by simp [reads])
  have hs : m'.sender = m.sender := h.get ht .sender (by simp [reads])
  unfold prepare
  rw [hb]
  split_ifs
  · -- a nack is counted and nothing else of it looked at
    refine sending_alike ⟨rfl, h.id, fun _ => hs, fun f hf _ => ?_⟩
    obtain rfl : f = .nack := List.mem_singleton.1 hf
    rfl
  · refine sending_alike ⟨rfl, h.id, fun _ => hs, fun f _ hw => ?_⟩
    cases f with
    | nack => exact hn
    | ballot | command | seq | deps | sender | instanceStatus => rfl
    | conflict => exact hw.elim

theorem tallyReply_congr {lt : LeaderTracker} (h : m.SameData m') (hs : m'.sender = m.sender)
    (hi : m'.instanceStatus = m.instanceStatus) : tallyReply i lt m' = tallyReply i lt m := by
  unfold tallyReply updateRecoveryInstance
  rw [h.id, h.ballot, h.command, h.seq, h.deps, hs, hi]

theorem tallyInst_congr {lt : LeaderTracker} (h : m.SameData m') (hs : m'.sender = m.sender)
    (hi : m'.instanceStatus = m.instanceStatus) : tallyInst i lt m' = tallyInst i lt m := by
  have ht : m'.Taken lt ↔ m.Taken lt := by
    unfold Message.Taken
    rw [h.ballot, hi]
  unfold tallyInst
  rw [tallyReply_congr h hs hi, decide_eq_decide.2 ht]

theorem decidePrepared_alike {lt : LeaderTracker} (h : m.SameData m') :
    Option.Rel (Effect.Alike k) (decidePrepared T r i lt m) (decidePrepared T r i lt m') := by
  unfold decidePrepared
  dsimp only
  rw [h.id]
  split_ifs
  · exact .some (sending_alike (Message.SameData.broadcast
      ⟨rfl, rfl, rfl, h.nack, rfl, h.seq, rfl⟩ (.inr (.inl rfl))))
  · exact .some (sending_alike (Message.SameData.broadcast
      ⟨rfl, rfl, rfl, h.nack, h.command, rfl, rfl⟩ (.inr (.inl rfl))))
  · split
    · exact .none
    · split_ifs
      · exact restart_alike rfl h.nack rfl
      · exact .some (sending_alike (Message.SameData.broadcast
          ⟨rfl, rfl, rfl, h.nack, rfl, rfl, rfl⟩ (.inr (.inr (.inr (.inl rfl))))))
    · exact .some (sending_alike (Message.SameData.broadcast
        ⟨rfl, rfl, rfl, h.nack, rfl, rfl, rfl⟩ (.inr (.inr (.inr (.inl rfl))))))
  · exact restart_alike rfl h.nack rfl

theorem prepareReply_alike (h : m.Alike m') (ht : m.type = .prepareReply) :
    Option.Rel (Effect.Alike k) (prepareReply T r i m) (prepareReply T r i m') := by
  have hn : m'.nack = m.nack := h.get ht .nack (by unfold reads; split_ifs <;> simp)
  unfold prepareReply
  rw [hn]
  split
  · exact .some quiet_alike
  by_cases h₀ : m.nack = 0
  · have hd : m.SameData m' := h.sameData ht (by simp [reads, h₀])
    have hs : m'.sender = m.sender := h.get ht .sender (by simp [reads, h₀])
    have hi : m'.instanceStatus = m.instanceStatus := h.get ht .instanceStatus (by simp [reads, h₀])
    dsimp only
    rw [hi, tallyReply_congr hd hs hi, tallyInst_congr hd hs hi]
    split_ifs with h₁ h₂ h₃ h₄
    · exact .some quiet_alike
    · exact .some quiet_alike
    · rw [hd.seq, hd.command, hd.deps]
      exact doCommit_alike ⟨hd.type, hd.id, rfl, rfl, rfl, rfl, rfl⟩
    · exact .some quiet_alike
    · exact decidePrepared_alike hd
  · rw [if_pos h₀, if_pos h₀]
    split_ifs <;> exact .some quiet_alike

theorem tryPreAccept_alike (h : m.Alike m') (ht : m.type = .tryPreAccept) :
    Option.Rel (Effect.Alike k) (tryPreAccept T r i m) (tryPreAccept T r i m') := by
  have hd : m.SameData m' := h.sameData ht (by simp [reads])
  have hs : m'.sender = m.sender := h.get ht .sender (by simp [reads])
  unfold tryPreAccept
  rw [hd.id, hd.ballot, hd.command, hd.seq, hd.deps]
  split_ifs
  · exact .some (sending_alike
      (Message.SameData.sent ⟨rfl, rfl, rfl, rfl, rfl, rfl, rfl⟩ nofun (.inr hs)))
  · split
    · exact .none
    · exact .some (sending_alike
        (Message.SameData.sent ⟨rfl, rfl, rfl, rfl, rfl, rfl, rfl⟩ nofun (.inr hs)))
    · exact .some (sending_alike
        (Message.SameData.sent ⟨rfl, rfl, rfl, hd.nack, rfl, rfl, rfl⟩ nofun (.inr hs)))

theorem deferConflict_alike {lt : LeaderTracker} {nq : ℕ} {ri : RecoveryInstance}
    {io io' : List Message} (hid : m'.id = m.id) (hn : m'.nack = m.nack)
    (hf : m'.conflict = m.conflict)
    (hio : List.Forall₂ Message.SentAlike (io.map (envelope k)) (io'.map (envelope k))) :
    Option.Rel (Effect.Alike k) (deferConflict T r i lt nq ri m io)
      (deferConflict T r i lt nq ri m' io') := by
  unfold deferConflict
  dsimp only
  rw [hid]
  by_cases hr : nq = N / 2 ∧
      ((r.dh (dhKey m.id)).any fun k => decide (lt.quorum.getD k 0 ≠ 0)) = true
  · have hp (j : Instance) :
        phase1 T r j { m' with command := ri.command, ballot := i.ballot, id := m.id }
          = (phase1 T r j { m with command := ri.command, ballot := i.ballot }).map
              fun q => (q.1, q.2.onto m') :=
      phase1_congr rfl hn rfl
    rw [if_pos hr, if_pos hr, hp]
    simp only [Option.map_map]
    refine rel_map fun q hq => ?_
    have hc : q.2.conflict = m.conflict := (phase1_conflict hq :)
    have hio' : List.Forall₂ Message.SentAlike ((io ++ [q.2]).map (envelope k))
        ((io' ++ [q.2.onto m']).map (envelope k)) := by
      rw [List.map_append, List.map_append]
      exact List.rel_append hio (.cons (onto_sent hq) .nil)
    dsimp only [Function.comp_apply]
    rw [show (q.2.onto m').conflict = q.2.conflict from hf.trans hc.symm]
    split_ifs
    · exact ⟨rfl, rfl, rfl, hio', rfl, rfl⟩
    · exact ⟨rfl, rfl, rfl, hio', rfl, rfl⟩
  · rw [if_neg hr, if_neg hr]
    refine .some ?_
    dsimp only
    rw [hid, hf]
    split_ifs
    · exact ⟨rfl, rfl, rfl, hio, rfl, rfl⟩
    · exact ⟨rfl, rfl, rfl, hio, rfl, rfl⟩

theorem tryNack_alike {lt : LeaderTracker} (h : m.SameData m') (hs : m'.sender = m.sender)
    (hf : m'.conflict = m.conflict) :
    Option.Rel (Effect.Alike k) (tryNack T r i lt m) (tryNack T r i lt m') := by
  unfold tryNack
  rw [h.id, h.ballot, hs, hf]
  dsimp only
  split_ifs
  · exact .some (sending_alike (Message.SameData.broadcast
      ⟨rfl, rfl, rfl, h.nack, h.command, h.seq, h.deps⟩ (.inr (.inr (.inr (.inl rfl))))))
  · exact .some (sending_alike (Message.SameData.broadcast
      ⟨rfl, rfl, rfl, h.nack, h.command, h.seq, h.deps⟩ (.inl rfl)))
  · rw [phase1_congr h.ballot h.nack h.command]
    cases hp : phase1 T r { i with lt := some { lt with
      tryPreAcceptOks := u8 (lt.tryPreAcceptOks + 1), recoveryStatus := .none } } m with
    | none => exact .none
    | some q =>
      exact deferConflict_alike rfl rfl (hf.trans (phase1_conflict hp).symm)
        (.cons (onto_sent hp) .nil)
  · exact deferConflict_alike h.id h.nack hf .nil

theorem tryPreAcceptReply_alike (h : m.Alike m') (ht : m.type = .tryPreAcceptReply) :
    Option.Rel (Effect.Alike k) (tryPreAcceptReply T r i m) (tryPreAcceptReply T r i m') := by
  have hb : m'.ballot = m.ballot := h.get ht .ballot (by unfold reads; split_ifs <;> simp)
  have hn : m'.nack = m.nack := h.get ht .nack (by unfold reads; split_ifs <;> simp)
  unfold tryPreAcceptReply
  rw [hn]
  split
  · exact .some quiet_alike
  dsimp only
  split_ifs with h₁ h₂ h₃
  · exact .some quiet_alike
  · have hd : m.SameData m' := h.sameData ht (by simp [reads, h₂])
    exact tryNack_alike hd (h.get ht .sender (by simp [reads, h₂]))
      (h.get ht .conflict (by simp [reads, h₂]))
  · exact .some (sending_alike (Message.SameData.broadcast
      ⟨rfl, h.id, hb, rfl, rfl, rfl, rfl⟩ (.inr (.inl rfl))))
  · exact .some quiet_alike

/-- Messages that agree on what their handler reads have the same effect. -/
theorem progress_alike (h : m.Alike m') :
    Option.Rel (Effect.Alike k) (progress T r i m) (progress T r i m') := by
  unfold progress
  rw [h.type]
  cases ht : m.type with
  | phase1 =>
    exact restart_alike (h.get ht .ballot (by simp [reads])) (h.get ht .nack (by simp [reads]))
      (h.get ht .command (by simp [reads]))
  | preAccept => exact preAccept_alike h ht
  | preAcceptOk => exact preAcceptOk_alike h ht
  | preAcceptReply => exact preAcceptReply_alike h ht
  | accept => exact .some (accept_alike h ht)
  | acceptReply => exact acceptReply_alike h ht
  | commit => exact .some (commit_alike h ht)
  | prepare => exact .some (prepare_alike h ht)
  | prepareReply => exact prepareReply_alike h ht
  | tryPreAccept => exact tryPreAccept_alike h ht
  | tryPreAcceptReply => exact tryPreAcceptReply_alike h ht
  | execute => exact .some quiet_alike

end Handlers

end Epx
