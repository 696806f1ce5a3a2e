import Epx.Lib.Queues
import Epx.SimpleChannel

/-!
# Threads on a simple channel

Every place in the buffer is counted once: in `s_sem`, by a sender that has waited and not written,
in the queue, or by a receiver that has read and not posted. Every entry of the queue is counted
once too: in `c_sem`, by a sender that has written and not posted, or by a receiver that has waited
and not read. So there is room where one writes and an entry where one reads, and the semaphores and
the lock hold up only those that have nothing to do.
-/

namespace Epx

open Queues

namespace SimpleChan

variable {θ α : Type*} {b : SimpleChan θ α}

theorem place_ofNat (n : ℕ) : place (.ofNat n) = Fin.ofNat simpleCapacity n := by
  apply Fin.ext
  show (UInt32.ofNat n &&& 2047).toNat = n % 2048
  rw [UInt32.toNat_and, UInt32.toNat_ofNat', show (2047 : UInt32).toNat = 2 ^ 11 - 1 from rfl,
    Nat.and_two_pow_sub_one_eq_mod]
  omega

/-- Where the counters have wrapped as well. -/
theorem size_eq {r q : ℕ} (hr : b.read = .ofNat r) (hw : b.write = .ofNat (r + q))
    (hq : q ≤ simpleCapacity) : b.size = q := by
  have hsub : b.write - b.read = .ofNat q := by
    rw [hr, hw, ← UInt32.toNat_inj, UInt32.toNat_sub, UInt32.toNat_ofNat', UInt32.toNat_ofNat',
      UInt32.toNat_ofNat']
    omega
  have hn : (UInt32.ofNat q).toBitVec.toNat = q := by
    have : (UInt32.ofNat q).toNat = q % 2 ^ 32 := UInt32.toNat_ofNat'
    exact this.trans (Nat.mod_eq_of_lt (by unfold simpleCapacity at hq; omega))
  rw [size, hsub]
  show (UInt32.ofNat q).toBitVec.toInt = q
  rw [BitVec.toInt_eq_toNat_of_lt (by rw [hn]; unfold simpleCapacity at hq; omega), hn]

end SimpleChan

namespace CallStage

variable {α : Type*}

/-- The thread holds the lock. -/
def locks : CallStage α → Bool
  | sendWrite _ | sendUnlock | recvRead | recvUnlock _ => true
  | _ => false

/-- It has a place to write to. -/
def reserves : CallStage α → Bool
  | sendLock _ | sendWrite _ => true
  | _ => false

/-- It has written an entry that is not in `c_sem` yet. -/
def fills : CallStage α → Bool
  | sendUnlock | sendPost => true
  | _ => false

/-- It has an entry to read. -/
def takes : CallStage α → Bool
  | recvLock | recvRead => true
  | _ => false

/-- It has read an entry whose place is not in `s_sem` yet. -/
def frees : CallStage α → Bool
  | recvUnlock _ | recvPost _ => true
  | _ => false

/-- What it has been called with and has not written. -/
def unsent : CallStage α → List α
  | sendWait data | sendLock data | sendWrite data => [data]
  | _ => []

/-- What it has read and not returned. -/
def unreturned : CallStage α → List α
  | recvUnlock result | recvPost result => [result]
  | _ => []

/-- How many steps are left. -/
def left : CallStage α → ℕ
  | idle => 0
  | sendPost | recvPost _ => 1
  | sendUnlock | recvUnlock _ => 2
  | sendWrite _ | recvRead => 3
  | sendLock _ | recvLock => 4
  | sendWait _ | recvWait => 5

theorem unsent_length (b : CallStage α) : b.unsent.length ≤ 1 := by
  cases b <;> simp [unsent]

theorem unreturned_length (b : CallStage α) : b.unreturned.length ≤ 1 := by
  cases b <;> simp [unreturned]

theorem left_le (b : CallStage α) : b.left ≤ 5 := by
  cases b <;> simp [left]

end CallStage

namespace Threads

variable {θ α : Type*}

/-- What has been written and not read. -/
def queue (s : Threads θ α) : List α := (s.sent.map Prod.snd).drop s.received.length

section Counts

variable [Fintype θ]

structure Sound (s : Threads θ α) : Prop where
  fifo : s.sent.map Prod.snd = s.received.map Prod.snd ++ s.queue
  holds : InSlots s.chan.buffer s.received.length s.queue
  write : s.chan.write = .ofNat s.sent.length
  read : s.chan.read = .ofNat s.received.length
  lock : ∀ t, s.chan.lock = some t ↔ (s.stage t).locks = true
  places : s.chan.sSem + numAt CallStage.reserves s.stage + s.queue.length
    + numAt CallStage.frees s.stage = simpleCapacity
  entries : s.chan.cSem + numAt CallStage.fills s.stage + numAt CallStage.takes s.stage
    = s.queue.length

variable {s s' : Threads θ α} {t : θ} {b : CallStage α}

theorem sound_init (buffer : Fin simpleCapacity → α) :
    (init (θ := θ) buffer).Sound where
  fifo := rfl
  holds i hi := absurd hi (Nat.not_lt_zero i)
  write := rfl
  read := rfl
  lock t := by simp [init, SimpleChan.init, CallStage.locks]
  places := by
    rw [numAt_eq_zero fun _ => rfl, numAt_eq_zero fun _ => rfl]
    rfl
  entries := by
    rw [numAt_eq_zero fun _ => rfl, numAt_eq_zero fun _ => rfl]
    rfl

theorem Sound.sent_length (hs : s.Sound) : s.sent.length = s.received.length + s.queue.length := by
  have := congrArg List.length hs.fifo
  rwa [List.length_append, List.length_map, List.length_map] at this

variable [DecidableEq θ]

/-- A thread gets to a stage at which it holds the lock as before. -/
theorem Sound.lock_keep (hs : s.Sound) (hb : b.locks = (s.stage t).locks) (u : θ) :
    s.chan.lock = some u ↔ (Function.update s.stage t b u).locks = true := by
  rw [hs.lock u]
  by_cases hu : u = t
  · subst hu
    rw [Function.update_self, hb]
  · rw [Function.update_of_ne hu]

theorem Sound.lock_take (hs : s.Sound) (hn : s.chan.lock = none) (hb : b.locks = true) (u : θ) :
    some t = some u ↔ (Function.update s.stage t b u).locks = true := by
  by_cases hu : u = t
  · subst hu
    rw [Function.update_self, hb]
    exact ⟨fun _ => rfl, fun _ => rfl⟩
  · rw [Function.update_of_ne hu, ← hs.lock u, hn]
    exact ⟨fun he => absurd (Option.some.inj he).symm hu, by rintro ⟨⟩⟩

theorem Sound.lock_drop (hs : s.Sound) (ht : (s.stage t).locks = true) (hb : b.locks = false)
    (u : θ) :
    none = some u ↔ (Function.update s.stage t b u).locks = true := by
  by_cases hu : u = t
  · subst hu
    rw [Function.update_self, hb]
    exact ⟨by rintro ⟨⟩, by rintro ⟨⟩⟩
  · rw [Function.update_of_ne hu, ← hs.lock u, (hs.lock t).2 ht]
    exact ⟨by rintro ⟨⟩, fun he => absurd (Option.some.inj he).symm hu⟩

/-- A step that leaves the buffer and its counters alone: what the thread gives up of the counts is
in the semaphores, or the other way round. -/
theorem Sound.moved (hs : s.Sound) (hst : s'.stage = Function.update s.stage t b)
    (hsent : s'.sent = s.sent) (hrec : s'.received = s.received)
    (hbuf : s'.chan.buffer = s.chan.buffer) (hw : s'.chan.write = s.chan.write)
    (hr : s'.chan.read = s.chan.read)
    (hlock : ∀ u, s'.chan.lock = some u ↔ (Function.update s.stage t b u).locks = true)
    (hp : s'.chan.sSem + b.reserves.toNat + b.frees.toNat
      = s.chan.sSem + (s.stage t).reserves.toNat + (s.stage t).frees.toNat)
    (he : s'.chan.cSem + b.fills.toNat + b.takes.toNat
      = s.chan.cSem + (s.stage t).fills.toNat + (s.stage t).takes.toNat) : s'.Sound := by
  have hq : s'.queue = s.queue := by rw [queue, hsent, hrec]; rfl
  have hplaces := hs.places
  have hentries := hs.entries
  have h₁ := numAt_update CallStage.reserves s.stage t b
  have h₂ := numAt_update CallStage.frees s.stage t b
  have h₃ := numAt_update CallStage.fills s.stage t b
  have h₄ := numAt_update CallStage.takes s.stage t b
  refine ⟨?_, ?_, ?_, ?_, ?_, ?_, ?_⟩
  · rw [hsent, hrec, hq]
    exact hs.fifo
  · rw [hbuf, hrec, hq]
    exact hs.holds
  · rw [hw, hsent]
    exact hs.write
  · rw [hr, hrec]
    exact hs.read
  · rw [hst]
    exact hlock
  · rw [hst, hq]
    omega
  · rw [hst, hq]
    omega

/-- Where a thread writes there is room, and no entry of the queue is overwritten. -/
theorem Sound.written {data : α} (hs : s.Sound) (ht : s.stage t = .sendWrite data)
    (hst : s'.stage = Function.update s.stage t .sendUnlock)
    (hsent : s'.sent = s.sent ++ [(t, data)])
    (hrec : s'.received = s.received)
    (hchan : s'.chan = { s.chan with
      buffer := Function.update s.chan.buffer (SimpleChan.place s.chan.write) data
      write := s.chan.write + 1 }) : s'.Sound := by
  have hplaces := hs.places
  have hentries := hs.entries
  have hlen := hs.sent_length
  have h₁ := numAt_update CallStage.reserves s.stage t .sendUnlock
  have h₂ := numAt_update CallStage.frees s.stage t .sendUnlock
  have h₃ := numAt_update CallStage.fills s.stage t .sendUnlock
  have h₄ := numAt_update CallStage.takes s.stage t .sendUnlock
  rw [ht] at h₁ h₂ h₃ h₄
  simp only [CallStage.reserves, CallStage.frees, CallStage.fills, CallStage.takes, Bool.toNat_true,
    Bool.toNat_false] at h₁ h₂ h₃ h₄
  have hq : s'.queue = s.queue ++ [data] := by
    rw [queue, hsent, hrec, List.map_append,
      List.drop_append_of_le_length (by rw [List.length_map]; omega)]
    rfl
  have hpl : SimpleChan.place s.chan.write
      = Fin.ofNat simpleCapacity (s.received.length + s.queue.length) := by
    rw [hs.write, SimpleChan.place_ofNat, hlen]
  have hpos : 0 < numAt CallStage.reserves s.stage := numAt_pos (t := t) (by rw [ht]; rfl)
  refine ⟨?_, ?_, ?_, ?_, ?_, ?_, ?_⟩
  · rw [hsent, hrec, hq, List.map_append, hs.fifo, List.append_assoc]
    rfl
  · rw [hrec, hq, hchan]
    dsimp only
    rw [hpl]
    exact hs.holds.push (by omega)
  · rw [hchan, hsent, List.length_append, UInt32.ofNat_add]
    exact congrArg (· + 1) hs.write
  · rw [hchan, hrec]
    exact hs.read
  · rw [hst, hchan]
    exact hs.lock_keep (by rw [ht]; rfl)
  · rw [hst, hchan, hq, List.length_append, List.length_singleton]
    dsimp only
    omega
  · rw [hst, hchan, hq, List.length_append, List.length_singleton]
    dsimp only
    omega

/-- Where a thread reads there is an entry, and it gets the first one. -/
theorem Sound.taken (hs : s.Sound) (ht : s.stage t = .recvRead)
    (hst : s'.stage = Function.update s.stage t
      (.recvUnlock (s.chan.buffer (SimpleChan.place s.chan.read))))
    (hsent : s'.sent = s.sent)
    (hrec : s'.received = s.received ++ [(t, s.chan.buffer (SimpleChan.place s.chan.read))])
    (hchan : s'.chan = { s.chan with read := s.chan.read + 1 }) : s'.Sound := by
  have hplaces := hs.places
  have hentries := hs.entries
  have hpos : 0 < numAt CallStage.takes s.stage := numAt_pos (t := t) (by rw [ht]; rfl)
  obtain ⟨a, q, haq⟩ : ∃ a q, s.queue = a :: q := List.exists_cons_of_length_pos (by omega)
  have hh := hs.holds
  rw [haq] at hh
  obtain ⟨ha, hh⟩ := hh.pop
  have hres : s.chan.buffer (SimpleChan.place s.chan.read) = a := by
    rw [hs.read, SimpleChan.place_ofNat, ha]
  rw [hres] at hst hrec
  have hq : s'.queue = q := by
    rw [queue, hsent, hrec, List.length_append, ← List.drop_drop,
      show (s.sent.map Prod.snd).drop s.received.length = a :: q from haq]
    rfl
  have h₁ := numAt_update CallStage.reserves s.stage t (.recvUnlock a)
  have h₂ := numAt_update CallStage.frees s.stage t (.recvUnlock a)
  have h₃ := numAt_update CallStage.fills s.stage t (.recvUnlock a)
  have h₄ := numAt_update CallStage.takes s.stage t (.recvUnlock a)
  rw [ht] at h₁ h₂ h₃ h₄
  simp only [CallStage.reserves, CallStage.frees, CallStage.fills, CallStage.takes, Bool.toNat_true,
    Bool.toNat_false] at h₁ h₂ h₃ h₄
  rw [haq, List.length_cons] at hplaces hentries
  refine ⟨?_, ?_, ?_, ?_, ?_, ?_, ?_⟩
  · rw [hsent, hrec, hq, hs.fifo, haq, List.map_append, List.append_assoc]
    rfl
  · rw [hrec, hq, hchan, List.length_append]
    exact hh
  · rw [hchan, hsent]
    exact hs.write
  · rw [hchan, hrec, List.length_append, UInt32.ofNat_add]
    exact congrArg (· + 1) hs.read
  · rw [hst, hchan]
    exact hs.lock_keep (by rw [ht]; rfl)
  · rw [hst, hchan, hq]
    dsimp only
    omega
  · rw [hst, hchan, hq]
    dsimp only
    omega

/-- Every step of a call keeps it. -/
theorem Sound.step (hs : s.Sound) (hstep : s.step t = some s') : s'.Sound := by
  rw [Threads.step] at hstep
  cases ht : s.stage t with
  | idle =>
    rw [ht] at hstep
    cases hstep
  | sendWait data =>
    simp only [ht] at hstep
    split_ifs at hstep with h0
    obtain rfl := Option.some.inj hstep
    refine hs.moved (b := .sendLock data) rfl rfl rfl rfl rfl rfl
      (hs.lock_keep (by rw [ht]; rfl)) ?_ ?_
    · rw [ht]
      show s.chan.sSem - 1 + 1 + 0 = s.chan.sSem + 0 + 0
      omega
    · rw [ht]
      rfl
  | sendLock data =>
    simp only [ht] at hstep
    split_ifs at hstep with hl
    obtain rfl := Option.some.inj hstep
    refine hs.moved (b := .sendWrite data) rfl rfl rfl rfl rfl rfl
      (hs.lock_take (by simpa using hl) rfl) ?_ ?_
    · rw [ht]
      rfl
    · rw [ht]
      rfl
  | sendWrite data =>
    rw [ht] at hstep
    obtain rfl := Option.some.inj hstep
    exact hs.written ht rfl rfl rfl rfl
  | sendUnlock =>
    rw [ht] at hstep
    obtain rfl := Option.some.inj hstep
    refine hs.moved (b := .sendPost) rfl rfl rfl rfl rfl rfl
      (hs.lock_drop (by rw [ht]; rfl) rfl) ?_ ?_
    · rw [ht]
      rfl
    · rw [ht]
      rfl
  | sendPost =>
    rw [ht] at hstep
    obtain rfl := Option.some.inj hstep
    refine hs.moved (b := .idle) rfl rfl rfl rfl rfl rfl (hs.lock_keep (by rw [ht]; rfl)) ?_ ?_
    · rw [ht]
      rfl
    · rw [ht]
      rfl
  | recvWait =>
    simp only [ht] at hstep
    split_ifs at hstep with h0
    obtain rfl := Option.some.inj hstep
    refine hs.moved (b := .recvLock) rfl rfl rfl rfl rfl rfl (hs.lock_keep (by rw [ht]; rfl)) ?_ ?_
    · rw [ht]
      rfl
    · rw [ht]
      show s.chan.cSem - 1 + 0 + 1 = s.chan.cSem + 0 + 0
      omega
  | recvLock =>
    simp only [ht] at hstep
    split_ifs at hstep with hl
    obtain rfl := Option.some.inj hstep
    refine hs.moved (b := .recvRead) rfl rfl rfl rfl rfl rfl
      (hs.lock_take (by simpa using hl) rfl) ?_ ?_
    · rw [ht]
      rfl
    · rw [ht]
      rfl
  | recvRead =>
    rw [ht] at hstep
    obtain rfl := Option.some.inj hstep
    exact hs.taken ht rfl rfl rfl rfl
  | recvUnlock result =>
    rw [ht] at hstep
    obtain rfl := Option.some.inj hstep
    refine hs.moved (b := .recvPost result) rfl rfl rfl rfl rfl rfl
      (hs.lock_drop (by rw [ht]; rfl) rfl) ?_ ?_
    · rw [ht]
      rfl
    · rw [ht]
      rfl
  | recvPost result =>
    rw [ht] at hstep
    obtain rfl := Option.some.inj hstep
    refine hs.moved (b := .idle) rfl rfl rfl rfl rfl rfl (hs.lock_keep (by rw [ht]; rfl)) ?_ ?_
    · rw [ht]
      rfl
    · rw [ht]
      rfl

/-- What has been called for counts for nothing. -/
theorem Sound.send {data : α} (hs : s.Sound) (hsend : s.send t data = some s') : s'.Sound := by
  rw [Threads.send] at hsend
  cases ht : s.stage t with
  | idle =>
    rw [ht] at hsend
    obtain rfl := Option.some.inj hsend
    refine hs.moved (b := .sendWait data) rfl rfl rfl rfl rfl rfl (hs.lock_keep (by rw [ht]; rfl))
      ?_ ?_
    · rw [ht]
      rfl
    · rw [ht]
      rfl
  | _ =>
    rw [ht] at hsend
    cases hsend

theorem Sound.recv (hs : s.Sound) (hrecv : s.recv t = some s') : s'.Sound := by
  rw [Threads.recv] at hrecv
  cases ht : s.stage t with
  | idle =>
    rw [ht] at hrecv
    obtain rfl := Option.some.inj hrecv
    refine hs.moved (b := .recvWait) rfl rfl rfl rfl rfl rfl (hs.lock_keep (by rw [ht]; rfl)) ?_ ?_
    · rw [ht]
      rfl
    · rw [ht]
      rfl
  | _ =>
    rw [ht] at hrecv
    cases hrecv

theorem Run.sound {buffer : Fin simpleCapacity → α} (h : Run buffer s) : s.Sound := by
  induction h with
  | init => exact sound_init buffer
  | send _ hs ih => exact ih.send hs
  | recv _ hs ih => exact ih.recv hs
  | step _ hs ih => exact ih.step hs

end Counts

section Records

variable [DecidableEq θ] {s s' : Threads θ α} {t : θ}

/-- The thread's entries in a record. -/
def ofThread (t : θ) (l : List (θ × α)) : List α := (l.filter fun e => e.1 = t).map Prod.snd

@[simp] theorem ofThread_append_self (t : θ) (l : List (θ × α)) (a : α) :
    ofThread t (l ++ [(t, a)]) = ofThread t l ++ [a] := by simp [ofThread]

theorem ofThread_append_ne {t u : θ} (h : t ≠ u) (l : List (θ × α)) (a : α) :
    ofThread u (l ++ [(t, a)]) = ofThread u l := by simp [ofThread, h]

/-- What a thread has been given it has written, but for the last of it, and what it has read has
been returned to it, but for the last of it. -/
structure Recorded (s : Threads θ α) : Prop where
  given : ∀ t, s.given t = ofThread t s.sent ++ (s.stage t).unsent
  taken : ∀ t, ofThread t s.received = s.returned t ++ (s.stage t).unreturned

theorem recorded_init (buffer : Fin simpleCapacity → α) : (init (θ := θ) buffer).Recorded where
  given _ := rfl
  taken _ := rfl

/-- Only the records of the thread that takes a step change. -/
theorem Recorded.of_eq {b : CallStage α} (h : s.Recorded)
    (hst : s'.stage = Function.update s.stage t b)
    (hgiven : ∀ u, u ≠ t → s'.given u = s.given u ∧ ofThread u s'.sent = ofThread u s.sent)
    (htaken : ∀ u, u ≠ t →
      s'.returned u = s.returned u ∧ ofThread u s'.received = ofThread u s.received)
    (hg : s'.given t = ofThread t s'.sent ++ b.unsent)
    (ht : ofThread t s'.received = s'.returned t ++ b.unreturned) : s'.Recorded where
  given u := by
    rw [hst]
    by_cases hu : u = t
    · subst hu
      rw [Function.update_self, hg]
    · rw [Function.update_of_ne hu, (hgiven u hu).1, (hgiven u hu).2]
      exact h.given u
  taken u := by
    rw [hst]
    by_cases hu : u = t
    · subst hu
      rw [Function.update_self, ht]
    · rw [Function.update_of_ne hu, (htaken u hu).1, (htaken u hu).2]
      exact h.taken u

/-- A step that only gets the thread on. -/
theorem Recorded.moved {b : CallStage α} (h : s.Recorded)
    (hst : s'.stage = Function.update s.stage t b)
    (hg : s'.given = s.given) (hr : s'.returned = s.returned) (hsent : s'.sent = s.sent)
    (hrec : s'.received = s.received) (hu : b.unsent = (s.stage t).unsent)
    (hv : b.unreturned = (s.stage t).unreturned) : s'.Recorded := by
  refine h.of_eq hst (fun u _ => ⟨by rw [hg], by rw [hsent]⟩)
    (fun u _ => ⟨by rw [hr], by rw [hrec]⟩) ?_ ?_
  · rw [hg, hsent, hu]
    exact h.given t
  · rw [hrec, hr, hv]
    exact h.taken t

/-- What a step does besides what it does to the channel. -/
theorem step_cases (hstep : s.step t = some s') :
    ∃ b : CallStage α, s'.stage = Function.update s.stage t b ∧ b.left + 1 = (s.stage t).left
      ∧ s'.given = s.given
      ∧ ((s'.sent = s.sent ∧ s'.received = s.received ∧ s'.returned = s.returned
          ∧ b.unsent = (s.stage t).unsent ∧ b.unreturned = (s.stage t).unreturned)
        ∨ (∃ data, s.stage t = .sendWrite data ∧ b = .sendUnlock ∧ s'.sent = s.sent ++ [(t, data)]
          ∧ s'.received = s.received ∧ s'.returned = s.returned)
        ∨ (∃ result, s.stage t = .recvRead ∧ b = .recvUnlock result ∧ s'.sent = s.sent
          ∧ s'.received = s.received ++ [(t, result)] ∧ s'.returned = s.returned)
        ∨ (∃ result, s.stage t = .recvPost result ∧ b = .idle ∧ s'.sent = s.sent
          ∧ s'.received = s.received
          ∧ s'.returned = Function.update s.returned t (s.returned t ++ [result]))) := by
  rw [step] at hstep
  cases ht : s.stage t with
  | idle =>
    rw [ht] at hstep
    cases hstep
  | sendWait data =>
    simp only [ht] at hstep
    split_ifs at hstep
    obtain rfl := Option.some.inj hstep
    exact ⟨_, rfl, rfl, rfl, .inl ⟨rfl, rfl, rfl, rfl, rfl⟩⟩
  | sendLock data =>
    simp only [ht] at hstep
    split_ifs at hstep
    obtain rfl := Option.some.inj hstep
    exact ⟨_, rfl, rfl, rfl, .inl ⟨rfl, rfl, rfl, rfl, rfl⟩⟩
  | sendWrite data =>
    rw [ht] at hstep
    obtain rfl := Option.some.inj hstep
    exact ⟨_, rfl, rfl, rfl, .inr (.inl ⟨data, rfl, rfl, rfl, rfl, rfl⟩)⟩
  | recvWait =>
    simp only [ht] at hstep
    split_ifs at hstep
    obtain rfl := Option.some.inj hstep
    exact ⟨_, rfl, rfl, rfl, .inl ⟨rfl, rfl, rfl, rfl, rfl⟩⟩
  | recvLock =>
    simp only [ht] at hstep
    split_ifs at hstep
    obtain rfl := Option.some.inj hstep
    exact ⟨_, rfl, rfl, rfl, .inl ⟨rfl, rfl, rfl, rfl, rfl⟩⟩
  | recvRead =>
    rw [ht] at hstep
    obtain rfl := Option.some.inj hstep
    exact ⟨_, rfl, rfl, rfl, .inr (.inr (.inl ⟨_, rfl, rfl, rfl, rfl, rfl⟩))⟩
  | recvPost result =>
    rw [ht] at hstep
    obtain rfl := Option.some.inj hstep
    exact ⟨_, rfl, rfl, rfl, .inr (.inr (.inr ⟨result, rfl, rfl, rfl, rfl, rfl⟩))⟩
  | sendUnlock | sendPost | recvUnlock result =>
    rw [ht] at hstep
    obtain rfl := Option.some.inj hstep
    exact ⟨_, rfl, rfl, rfl, .inl ⟨rfl, rfl, rfl, rfl, rfl⟩⟩

theorem Recorded.step (h : s.Recorded) (hstep : s.step t = some s') : s'.Recorded := by
  have hg := h.given t
  have hr := h.taken t
  obtain ⟨b, hst, -, hgiven, ⟨hsent, hrec, hret, hu, hv⟩ | ⟨data, ht, rfl, hsent, hrec, hret⟩
    | ⟨result, ht, rfl, hsent, hrec, hret⟩ | ⟨result, ht, rfl, hsent, hrec, hret⟩⟩ :=
      step_cases hstep
  · exact h.moved hst hgiven hret hsent hrec hu hv
  · rw [ht] at hg hr
    refine h.of_eq hst (fun u hu => ⟨by rw [hgiven], ?_⟩)
      (fun u _ => ⟨by rw [hret], by rw [hrec]⟩) ?_ ?_
    · rw [hsent, ofThread_append_ne hu.symm]
    · rw [hgiven, hsent, ofThread_append_self, hg]
      exact (List.append_nil _).symm
    · rw [hrec, hret]
      exact hr
  · rw [ht] at hg hr
    refine h.of_eq hst (fun u _ => ⟨by rw [hgiven], by rw [hsent]⟩)
      (fun u hu => ⟨by rw [hret], ?_⟩) ?_ ?_
    · rw [hrec, ofThread_append_ne hu.symm]
    · rw [hgiven, hsent]
      exact hg
    · rw [hrec, hret, ofThread_append_self, hr]
      exact congrArg (· ++ [result]) (List.append_nil _)
  · rw [ht] at hg hr
    refine h.of_eq hst (fun u _ => ⟨by rw [hgiven], by rw [hsent]⟩)
      (fun u hu => ⟨?_, by rw [hrec]⟩) ?_ ?_
    · rw [hret, Function.update_of_ne hu]
    · rw [hgiven, hsent]
      exact hg
    · rw [hrec, hret, Function.update_self, hr]
      exact (List.append_nil _).symm

theorem Recorded.send {data : α} (h : s.Recorded) (hsend : s.send t data = some s') :
    s'.Recorded := by
  rw [Threads.send] at hsend
  have hg := h.given t
  have hr := h.taken t
  cases ht : s.stage t with
  | idle =>
    rw [ht] at hsend hg hr
    obtain rfl := Option.some.inj hsend
    refine h.of_eq (b := .sendWait data) rfl (fun u hu => ⟨Function.update_of_ne hu _ _, rfl⟩)
      (fun u _ => ⟨rfl, rfl⟩) ?_ hr
    show Function.update s.given t (s.given t ++ [data]) t = ofThread t s.sent ++ [data]
    rw [Function.update_self, hg]
    exact congrArg (· ++ [data]) (List.append_nil _)
  | _ =>
    rw [ht] at hsend
    cases hsend

theorem Recorded.recv (h : s.Recorded) (hrecv : s.recv t = some s') : s'.Recorded := by
  rw [Threads.recv] at hrecv
  cases ht : s.stage t with
  | idle =>
    rw [ht] at hrecv
    obtain rfl := Option.some.inj hrecv
    exact h.moved (b := .recvWait) rfl rfl rfl rfl rfl (by rw [ht]; rfl) (by rw [ht]; rfl)
  | _ =>
    rw [ht] at hrecv
    cases hrecv

theorem Run.recorded {buffer : Fin simpleCapacity → α} (h : Run buffer s) : s.Recorded := by
  induction h with
  | init => exact recorded_init buffer
  | send _ hs ih => exact ih.send hs
  | recv _ hs ih => exact ih.recv hs
  | step _ hs ih => exact ih.step hs

end Records

section Runs

variable [DecidableEq θ] {buffer : Fin simpleCapacity → α} {s s' : Threads θ α}

/-- The threads take their steps in the order of the list. -/
def stepAll : List θ → Threads θ α → Option (Threads θ α)
  | [], s => some s
  | t :: ts, s => (s.step t).bind (stepAll ts)

theorem Steps.of_stepAll {s₀ : Threads θ α} : ∀ {ts us : List θ} {s s' : Threads θ α},
    Steps us s₀ s → s.stepAll ts = some s' → Steps (ts.reverse ++ us) s₀ s'
  | [], _, _, _, h, hts => Option.some.inj hts ▸ h
  | t :: ts, us, s, s', h, hts => by
    obtain ⟨s'', hstep, hts⟩ := Option.bind_eq_some_iff.1 hts
    have := of_stepAll (.step h hstep) hts
    rwa [List.reverse_cons, List.append_assoc, List.singleton_append]

theorem Steps.run {ts : List θ} (hs : Run buffer s) (h : Steps ts s s') : Run buffer s' := by
  induction h with
  | none => exact hs
  | step _ hstep ih => exact .step (ih hs) hstep

/-- Three threads, of which two have called `simple_chan_send`, with 7 and with 8, and the third
`simple_chan_recv`. -/
def threeCalled : Option (Threads (Fin 3) ℕ) :=
  (((init fun _ => 0).send 0 7).bind (send · 1 8)).bind (recv · 2)

theorem exists_threeCalled (ts : List (Fin 3)) (Q : Threads (Fin 3) ℕ → Prop) [DecidablePred Q]
    (h : ((threeCalled.bind (stepAll ts)).any fun s => decide (Q s)) = true) :
    ∃ s s', Run (fun _ => 0) s ∧ Steps ts.reverse s s' ∧ Q s' := by
  obtain ⟨s', hs', hq⟩ := (Option.any_eq_true _ _).1 h
  obtain ⟨s, hs, hts⟩ := Option.bind_eq_some_iff.1 hs'
  obtain ⟨s₂, hs₂, hrecv⟩ := Option.bind_eq_some_iff.1 hs
  obtain ⟨s₁, hs₁, hsend⟩ := Option.bind_eq_some_iff.1 hs₂
  have hsteps := Steps.of_stepAll .none hts
  rw [List.append_nil] at hsteps
  exact ⟨s, s', .recv (.send (.send .init hs₁) hsend) hrecv, hsteps, of_decide_eq_true hq⟩

end Runs

section Results

variable [DecidableEq θ] [Fintype θ] {buffer : Fin simpleCapacity → α} {s s' : Threads θ α} {t : θ}

/-- Whatever the order of the steps, what is received is what was sent, in the order of the writes
and nothing twice; no more is in the channel than it has room for, and its size is what is in it.
Each thread has written what it was given, in order, and got what it read. -/
theorem chan_in_order (h : Run buffer s) :
    s.received.map Prod.snd <+: s.sent.map Prod.snd
      ∧ s.sent.length ≤ s.received.length + simpleCapacity
      ∧ s.chan.size = s.sent.length - s.received.length
      ∧ ∀ t, (ofThread t s.sent <+: s.given t ∧ (s.given t).length ≤ (ofThread t s.sent).length + 1)
        ∧ s.returned t <+: ofThread t s.received
        ∧ (ofThread t s.received).length ≤ (s.returned t).length + 1 := by
  have hs := h.sound
  have hr := h.recorded
  have hlen := hs.sent_length
  have hplaces := hs.places
  refine ⟨⟨_, hs.fifo.symm⟩, by omega, ?_, fun t => ⟨⟨⟨_, (hr.given t).symm⟩, ?_⟩,
    ⟨_, (hr.taken t).symm⟩, ?_⟩⟩
  · rw [SimpleChan.size_eq hs.read (hlen ▸ hs.write) (by omega), hlen]
    push_cast
    ring
  · rw [hr.given t, List.length_append]
    exact Nat.add_le_add_left (CallStage.unsent_length _) _
  · rw [hr.taken t, List.length_append]
    exact Nat.add_le_add_left (CallStage.unreturned_length _) _

/-- The second to call is the first to write, and the third thread gets its entry. -/
theorem chan_in_order_both : ∃ s : Threads (Fin 3) ℕ, s.sent = [(1, 8), (0, 7)]
    ∧ s.returned 2 = [8]
    ∧ s.received.map Prod.snd <+: s.sent.map Prod.snd
      ∧ s.sent.length ≤ s.received.length + simpleCapacity
      ∧ s.chan.size = s.sent.length - s.received.length
      ∧ ∀ t, (ofThread t s.sent <+: s.given t ∧ (s.given t).length ≤ (ofThread t s.sent).length + 1)
        ∧ s.returned t <+: ofThread t s.received
        ∧ (ofThread t s.received).length ≤ (s.returned t).length + 1 := by
  obtain ⟨s, s', hrun, hsteps, hsent, hret⟩ := exists_threeCalled
    [0, 1, 1, 1, 1, 0, 1, 2, 0, 0, 2, 2, 2, 2]
    (fun s => s.sent = [(1, 8), (0, 7)] ∧ s.returned 2 = [8]) (by decide +kernel)
  exact ⟨s', hsent, hret, chan_in_order (hsteps.run hrun)⟩

/-- A thread that cannot go on is in no call, or waits for a semaphore that is at 0. -/
theorem Sound.blocked (hs : s.Sound) (hn : ∀ t, s.step t = none) (t : θ) :
    s.stage t = .idle ∨ (∃ data, s.stage t = .sendWait data ∧ s.chan.sSem = 0)
      ∨ (s.stage t = .recvWait ∧ s.chan.cSem = 0) := by
  -- the thread with the lock could go on
  have hlock : s.chan.lock = none := by
    cases hl : s.chan.lock with
    | none => rfl
    | some u =>
      have hu := (hs.lock u).1 hl
      have hnu := hn u
      rw [Threads.step] at hnu
      cases hst : s.stage u with
      | sendWrite _ | sendUnlock | recvRead | recvUnlock _ =>
        rw [hst] at hnu
        cases hnu
      | _ =>
        rw [hst] at hu
        cases hu
  have ht := hn t
  rw [Threads.step] at ht
  cases hst : s.stage t with
  | idle => exact .inl rfl
  | sendWait data =>
    simp only [hst] at ht
    split_ifs at ht with h0
    exact .inr (.inl ⟨data, rfl, h0⟩)
  | recvWait =>
    simp only [hst] at ht
    split_ifs at ht with h0
    exact .inr (.inr ⟨rfl, h0⟩)
  | sendLock data | recvLock =>
    simp only [hst, hlock, Option.isSome_none, Bool.false_eq_true, if_false] at ht
    cases ht
  | _ =>
    rw [hst] at ht
    cases ht

/-- Where no thread can go on, none is between its wait and its post. -/
theorem Sound.full_or_empty (hs : s.Sound) (hn : ∀ t, s.step t = none) :
    s.chan.sSem + s.queue.length = simpleCapacity ∧ s.chan.cSem = s.queue.length := by
  have hplaces := hs.places
  have hentries := hs.entries
  have hzero (p : CallStage α → Bool) (hi : p .idle = false) (hw : ∀ d, p (.sendWait d) = false)
      (hr : p .recvWait = false) : numAt p s.stage = 0 := numAt_eq_zero fun t => by
    obtain ht | ⟨d, ht, -⟩ | ⟨ht, -⟩ := hs.blocked hn t <;> rw [ht]
    · exact hi
    · exact hw d
    · exact hr
  rw [hzero CallStage.reserves rfl (fun _ => rfl) rfl,
    hzero CallStage.frees rfl (fun _ => rfl) rfl] at hplaces
  rw [hzero CallStage.fills rfl (fun _ => rfl) rfl,
    hzero CallStage.takes rfl (fun _ => rfl) rfl] at hentries
  omega

/-- A step is one of those that the thread's call has left. -/
theorem Steps.sound {ts : List θ} (hs : s.Sound) (h : Steps ts s s') :
    s'.Sound ∧ ∀ t, ts.count t + (s'.stage t).left = (s.stage t).left := by
  induction h with
  | none => exact ⟨hs, fun t => Nat.zero_add _⟩
  | @step ts s s' s'' t _ hstep ih =>
    obtain ⟨hs', hn⟩ := ih hs
    obtain ⟨b, hst, hleft, -⟩ := step_cases hstep
    refine ⟨hs'.step hstep, fun u => ?_⟩
    have hu := hn u
    rw [hst]
    by_cases hut : u = t
    · subst hut
      rw [Function.update_self, List.count_cons_self]
      omega
    · rw [Function.update_of_ne hut, List.count_cons_of_ne (Ne.symm hut)]
      exact hu

theorem length_le_of_count {ts : List θ} (h : ∀ t, ts.count t ≤ 5) :
    ts.length ≤ 5 * Fintype.card θ := by
  calc ts.length = ∑ t ∈ ts.toFinset, ts.count t := (List.sum_toFinset_count_eq_length ts).symm
    _ ≤ ts.toFinset.card * 5 := Finset.sum_le_card_nsmul _ _ _ fun t _ => h t
    _ ≤ 5 * Fintype.card θ := by rw [mul_comm]; exact Nat.mul_le_mul_left _ (Finset.card_le_univ _)

/-- Whatever the order of the steps, a call in progress has five at the most, and a thread that is in
no call none; and the calls come to their end, or to a wait: all of them return, but for calls of
`simple_chan_send` on a full channel, or of `simple_chan_recv` on an empty one. -/
theorem calls_end {ts : List θ} (h : Run buffer s) (hsteps : Steps ts s s') :
    (∀ t, ts.count t ≤ 5 ∧ (s.stage t = .idle → t ∉ ts))
      ∧ ts.length ≤ 5 * Fintype.card θ ∧ ((∀ t, s'.step t = none) →
      (∀ t, s'.stage t = .idle ∨ (∃ data, s'.stage t = .sendWait data)
        ∧ s'.sent.length = s'.received.length + simpleCapacity)
      ∨ ∀ t, s'.stage t = .idle
        ∨ s'.stage t = .recvWait ∧ s'.sent.length = s'.received.length) := by
  obtain ⟨hs', hleft⟩ := hsteps.sound h.sound
  have hcount (t : θ) : ts.count t ≤ (s.stage t).left := (Nat.le_add_right _ _).trans_eq (hleft t)
  have hfive (t : θ) : ts.count t ≤ 5 := (hcount t).trans (CallStage.left_le _)
  refine ⟨fun t => ⟨hfive t, fun hi => ?_⟩, length_le_of_count hfive, fun hn => ?_⟩
  · have := hcount t
    rw [hi] at this
    exact List.count_eq_zero.1 (Nat.le_zero.1 this)
  obtain ⟨hp, he⟩ := hs'.full_or_empty hn
  have hlen := hs'.sent_length
  by_cases h0 : s'.chan.sSem = 0
  · left
    intro t
    obtain ht | ⟨data, ht, -⟩ | ⟨-, h0'⟩ := hs'.blocked hn t
    · exact .inl ht
    · exact .inr ⟨⟨data, ht⟩, by omega⟩
    · exact absurd (h0'.symm.trans he) (by unfold simpleCapacity at hp; omega)
  · right
    intro t
    obtain ht | ⟨data, -, h0'⟩ | ⟨ht, h0'⟩ := hs'.blocked hn t
    · exact .inl ht
    · exact absurd h0' h0
    · exact .inr ⟨ht, by omega⟩

/-- Two senders and a receiver, which waits for the first of them. -/
theorem calls_end_both : ∃ s s' : Threads (Fin 3) ℕ, (∀ t, s'.step t = none) ∧ s'.sent.length = 2
    ∧ ∃ ts : List (Fin 3), ts.length = 15 ∧ ((∀ t, ts.count t ≤ 5 ∧ (s.stage t = .idle → t ∉ ts))
      ∧ ts.length ≤ 5 * Fintype.card (Fin 3) ∧ ((∀ t, s'.step t = none) →
      (∀ t, s'.stage t = .idle ∨ (∃ data, s'.stage t = .sendWait data)
        ∧ s'.sent.length = s'.received.length + simpleCapacity)
      ∨ ∀ t, s'.stage t = .idle
        ∨ s'.stage t = .recvWait ∧ s'.sent.length = s'.received.length)) := by
  obtain ⟨s, s', hrun, hsteps, hn, hl⟩ := exists_threeCalled
    [0, 1, 1, 1, 1, 0, 1, 2, 0, 0, 0, 2, 2, 2, 2]
    (fun s => (∀ t, s.stage t = .idle) ∧ s.sent.length = 2) (by decide +kernel)
  refine ⟨s, s', fun t => ?_, hl, _, rfl, calls_end hrun hsteps⟩
  rw [step, hn t]

end Results

end Threads

end Epx
