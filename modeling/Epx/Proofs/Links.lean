import Epx.Connections

/-!
# What becomes of the messages for a peer

The queue of a peer that has not been connected to is zeroed and takes no message: the first one for
it ends `io_reader`, and with it all messages to other peers. A connection is dead after a write has
failed, and then a message for it connects to the peer; what is on the queue by then is gone before
the thread writes. A connection that has ended in another way is not dead. Nothing is written to it,
and once its queue is full the next message for it ends `io_reader`.
-/

namespace Epx

namespace Link

variable {M : Type*} {c c' : Link M}

section Cases

theorem post_eq {m : M} (h : c.post m = some c') : ∃ q, c.chanRead = some q
    ∧ q.length + 1 < chanCapacity ∧ c' = { c with
      chanRead := some (q ++ [m]), posted := c.posted ++ [m], asked := c.asked + 1 } := by
  unfold post at h
  split at h
  · cases h
  · split_ifs at h with hl
    exact ⟨_, ‹_›, hl, (Option.some.inj h).symm⟩

theorem initFbs_eq (h : c.initFbs = some c') : ∃ tries, c.thread = some (.starting tries)
    ∧ c' = { c with thread := some (.clearing tries) } := by
  unfold initFbs at h
  split at h
  · exact ⟨_, ‹_›, (Option.some.inj h).symm⟩
  · cases h

theorem chanInit_eq (h : c.chanInit = some c') : ∃ tries, c.thread = some (.clearing tries)
    ∧ c' = { c with
      thread := some (.connecting tries), chanRead := some [], attempts := c.attempts + 1 } := by
  unfold chanInit at h
  split at h
  · exact ⟨_, ‹_›, (Option.some.inj h).symm⟩
  · cases h

theorem runConn_eq (h : c.runConn = some c') : ∃ tries, c.thread = some (.connecting tries)
    ∧ c' = { c with thread := some .running, status := .alive } := by
  unfold runConn at h
  split at h
  · exact ⟨_, ‹_›, (Option.some.inj h).symm⟩
  · cases h

theorem refuse_eq (h : c.refuse = some c') : ∃ tries, c.thread = some (.connecting tries)
    ∧ c' = { c with thread := if tries + 1 < 3 then some (.starting (tries + 1)) else none } := by
  unfold refuse at h
  split at h
  · exact ⟨_, ‹_›, (Option.some.inj h).symm⟩
  · cases h

theorem write_eq {sent : Bool} (h : c.write sent = some c') :
    ∃ m ms, c.thread = some .running ∧ c.status = .alive ∧ c.chanRead = some (m :: ms)
      ∧ (c' = { c with chanRead := some ms, written := c.written ++ [m] }
        ∨ c' = { c with
          chanRead := some ms, status := .dead, thread := none, failures := c.failures + 1 }) := by
  unfold write at h
  split at h
  · rename_i m ms ht hm
    split_ifs at h with ha hs
    · exact ⟨m, ms, ht, not_not.1 ha, hm, .inl (Option.some.inj h).symm⟩
    · exact ⟨m, ms, ht, not_not.1 ha, hm, .inr (Option.some.inj h).symm⟩
  · cases h

theorem hangUp_eq (h : c.hangUp = some c') :
    c.thread = some .running ∧ c' = { c with thread := none } := by
  unfold hangUp at h
  split at h
  · exact ⟨‹_›, (Option.some.inj h).symm⟩
  · cases h

theorem leave_eq (h : c.leave = some c') :
    c.thread = some .running ∧ c.status ≠ .alive ∧ c' = { c with thread := none } := by
  unfold leave at h
  split at h
  · split_ifs at h with ha
    exact ⟨‹_›, ha, (Option.some.inj h).symm⟩
  · cases h

end Cases

/-- What a step is for one of the connections, where `acc` says that its peer connects and `r` and
`r'` are where `io_reader` is. -/
inductive Step (acc : Prop) (r r' : IoStage M) (c : Link M) : Link M → Prop
  | same : Step acc r r' c c
  | post {c' : Link M} {k : Fin N} {m : M} (hr : r = .sending k m) (h : c.post m = some c') :
      Step acc r r' c c'
  | full {m : M} (hr' : r' = .ended) (h : c.post m = none) :
      Step acc r r' c { c with asked := c.asked + 1 }
  | dial {created : Bool} (h : c.status = .dead) (hq : c.chanRead ≠ none) :
      Step acc r r' c (nodeConnect { c with dials := c.dials + 1 } created)
  | accept {created : Bool} (h : acc) : Step acc r r' c (c.nodeConnect created)
  | initFbs {c' : Link M} (h : c.initFbs = some c') : Step acc r r' c c'
  | chanInit {c' : Link M} (h : c.chanInit = some c') : Step acc r r' c c'
  | runConn {c' : Link M} (h : c.runConn = some c') : Step acc r r' c c'
  | refuse {c' : Link M} (h : c.refuse = some c') : Step acc r r' c c'
  | write {c' : Link M} {sent : Bool} (h : c.write sent = some c') : Step acc r r' c c'
  | hangUp {c' : Link M} (h : c.hangUp = some c') : Step acc r r' c c'
  | leave {c' : Link M} (h : c.leave = some c') : Step acc r r' c c'

variable {acc : Prop} {r r' : IoStage M}

/-- Once `io_reader` has returned, there is nothing for the peer any more. -/
theorem Step.posted (h : c.Step acc r r' c') (hr : r = .ended) : c'.posted = c.posted := by
  cases h with
  | same | full | dial | accept => rfl
  | post hr' =>
    rw [hr] at hr'
    cases hr'
  | initFbs h =>
    obtain ⟨_, -, rfl⟩ := initFbs_eq h
    rfl
  | chanInit h =>
    obtain ⟨_, -, rfl⟩ := chanInit_eq h
    rfl
  | runConn h =>
    obtain ⟨_, -, rfl⟩ := runConn_eq h
    rfl
  | refuse h =>
    obtain ⟨_, -, rfl⟩ := refuse_eq h
    rfl
  | write h =>
    obtain ⟨_, _, -, -, -, rfl | rfl⟩ := write_eq h <;> rfl
  | hangUp h =>
    obtain ⟨-, rfl⟩ := hangUp_eq h
    rfl
  | leave h =>
    obtain ⟨-, -, rfl⟩ := leave_eq h
    rfl

/-- A queue once initialised stays so. -/
theorem Step.queue (h : c.Step acc r r' c') (hq : c.chanRead ≠ none) : c'.chanRead ≠ none := by
  cases h with
  | same | full | dial | accept => exact hq
  | post _ h =>
    obtain ⟨_, -, -, rfl⟩ := post_eq h
    rintro ⟨⟩
  | initFbs h =>
    obtain ⟨_, -, rfl⟩ := initFbs_eq h
    exact hq
  | chanInit h =>
    obtain ⟨_, -, rfl⟩ := chanInit_eq h
    rintro ⟨⟩
  | runConn h =>
    obtain ⟨_, -, rfl⟩ := runConn_eq h
    exact hq
  | refuse h =>
    obtain ⟨_, -, rfl⟩ := refuse_eq h
    exact hq
  | write h =>
    obtain ⟨_, _, -, -, -, rfl | rfl⟩ := write_eq h <;> rintro ⟨⟩
  | hangUp h =>
    obtain ⟨-, rfl⟩ := hangUp_eq h
    exact hq
  | leave h =>
    obtain ⟨-, -, rfl⟩ := leave_eq h
    exact hq

/-- A queue that is still zeroed has taken nothing, and after the first message for it `io_reader`
has returned. -/
def Untouched (c : Link M) (r : IoStage M) : Prop :=
  c.chanRead = none → c.posted = [] ∧ (c.asked = 0 ∨ r = .ended)

theorem Untouched.step (hc : c.Untouched r) (he : r = .ended → r' = .ended)
    (h : c.Step acc r r' c') : c'.Untouched r' := by
  have hkeep (hq : c.chanRead = none) : c.posted = [] ∧ (c.asked = 0 ∨ r' = .ended) :=
    (hc hq).imp_right (Or.imp_right he)
  intro hq
  cases h with
  | same | dial | accept => exact hkeep hq
  | full hr' => exact ⟨(hc hq).1, .inr hr'⟩
  | post _ h =>
    obtain ⟨_, -, -, rfl⟩ := post_eq h
    cases hq
  | initFbs h =>
    obtain ⟨_, -, rfl⟩ := initFbs_eq h
    exact hkeep hq
  | chanInit h =>
    obtain ⟨_, -, rfl⟩ := chanInit_eq h
    cases hq
  | runConn h =>
    obtain ⟨_, -, rfl⟩ := runConn_eq h
    exact hkeep hq
  | refuse h =>
    obtain ⟨_, -, rfl⟩ := refuse_eq h
    exact hkeep hq
  | write h =>
    obtain ⟨_, _, -, -, -, rfl | rfl⟩ := write_eq h <;> cases hq
  | hangUp h =>
    obtain ⟨-, rfl⟩ := hangUp_eq h
    exact hkeep hq
  | leave h =>
    obtain ⟨-, -, rfl⟩ := leave_eq h
    exact hkeep hq

/-- The thread has not come to the end of `chan_init`, or there is none. -/
def Before (t : Option ConnThread) : Prop :=
  t = none ∨ ∃ tries, t = some (.starting tries) ∨ t = some (.clearing tries)

/-- Since `p₀` was on the queue and `w₀` written, the queue has not been cleared and nothing has
been written; or it has, and what has been written and is on it came later. -/
def Forgotten (w₀ p₀ : List M) (c : Link M) : Prop :=
  ∃ l, c.posted = p₀ ++ l
    ∧ ((c.written = w₀ ∧ Before c.thread)
      ∨ ∃ w, c.written = w₀ ++ w ∧ (w ++ c.chanRead.getD []).Sublist l)

theorem before_nodeConnect (created : Bool) : Before (c.nodeConnect created).thread := by
  cases created with
  | true => exact .inr ⟨0, .inl rfl⟩
  | false => exact .inl rfl

theorem Forgotten.step {w₀ p₀ : List M} (hc : c.Forgotten w₀ p₀) (h : c.Step acc r r' c') :
    c'.Forgotten w₀ p₀ := by
  obtain ⟨l, hl, hw⟩ := hc
  have hbusy {t : ConnThread} (ht : c.thread = some t)
      (hne : ∀ tries, t ≠ .starting tries ∧ t ≠ .clearing tries) :
      ∃ w, c.written = w₀ ++ w ∧ (w ++ c.chanRead.getD []).Sublist l := by
    rcases hw with ⟨-, h | ⟨tries, h | h⟩⟩ | hw
    · cases ht.symm.trans h
    · exact absurd (Option.some.inj (ht.symm.trans h)) (hne tries).1
    · exact absurd (Option.some.inj (ht.symm.trans h)) (hne tries).2
    · exact hw
  cases h with
  | same => exact ⟨l, hl, hw⟩
  | full => exact ⟨l, hl, hw⟩
  | @post _ _ m _ h =>
    obtain ⟨q, hq, -, rfl⟩ := post_eq h
    refine ⟨l ++ [m], (congrArg (· ++ [m]) hl).trans (List.append_assoc ..), hw.imp id ?_⟩
    rintro ⟨w, hw, hs⟩
    rw [hq] at hs
    refine ⟨w, hw, ?_⟩
    show (w ++ (q ++ [m])).Sublist (l ++ [m])
    rw [← List.append_assoc]
    exact hs.append_right _
  | dial => exact ⟨l, hl, hw.imp (fun h => ⟨h.1, before_nodeConnect _⟩) id⟩
  | accept => exact ⟨l, hl, hw.imp (fun h => ⟨h.1, before_nodeConnect _⟩) id⟩
  | initFbs h =>
    obtain ⟨tries, -, rfl⟩ := initFbs_eq h
    exact ⟨l, hl, hw.imp (fun h => ⟨h.1, .inr ⟨tries, .inr rfl⟩⟩) id⟩
  | chanInit h =>
    obtain ⟨tries, -, rfl⟩ := chanInit_eq h
    refine ⟨l, hl, .inr ?_⟩
    rcases hw with ⟨hw, -⟩ | ⟨w, hw, hs⟩
    · exact ⟨[], hw.trans (List.append_nil _).symm, List.nil_sublist _⟩
    · refine ⟨w, hw, ?_⟩
      show (w ++ []).Sublist l
      rw [List.append_nil]
      exact (List.sublist_append_left _ _).trans hs
  | runConn h =>
    obtain ⟨tries, ht, rfl⟩ := runConn_eq h
    exact ⟨l, hl, .inr (hbusy ht fun _ => ⟨nofun, nofun⟩)⟩
  | refuse h =>
    obtain ⟨tries, ht, rfl⟩ := refuse_eq h
    exact ⟨l, hl, .inr (hbusy ht fun _ => ⟨nofun, nofun⟩)⟩
  | write h =>
    obtain ⟨m, ms, ht, -, hm, hc'⟩ := write_eq h
    obtain ⟨w, hw, hs⟩ := hbusy ht fun _ => ⟨nofun, nofun⟩
    rw [hm] at hs
    rcases hc' with rfl | rfl
    · refine ⟨l, hl, .inr ⟨w ++ [m], ?_, ?_⟩⟩
      · rw [← List.append_assoc, ← hw]
      · rw [List.append_assoc]
        exact hs
    · exact ⟨l, hl, .inr ⟨w, hw,
        ((List.sublist_cons_self m ms).append_left w).trans hs⟩⟩
  | hangUp h =>
    obtain ⟨ht, rfl⟩ := hangUp_eq h
    exact ⟨l, hl, .inr (hbusy ht fun _ => ⟨nofun, nofun⟩)⟩
  | leave h =>
    obtain ⟨ht, -, rfl⟩ := leave_eq h
    exact ⟨l, hl, .inr (hbusy ht fun _ => ⟨nofun, nofun⟩)⟩

/-- There is no thread for the connection, and it is not dead: only its queue changes, and where
that is full `io_reader` returns. -/
structure Silent (c c₀ : Link M) (r : IoStage M) : Prop where
  thread : c.thread = none
  status : c.status = c₀.status
  written : c.written = c₀.written
  asked : ∃ q l, c.chanRead = some (q ++ l) ∧ (q ++ l).length < chanCapacity
    ∧ (c.asked ≤ c₀.asked + l.length ∨ r = .ended)

theorem Silent.step {c₀ : Link M} (hc : c.Silent c₀ r) (hd : c₀.status ≠ .dead) (hacc : ¬ acc)
    (he : r = .ended → r' = .ended) (h : c.Step acc r r' c') : c'.Silent c₀ r' := by
  have hidle {t : ConnThread} (ht : c.thread = some t) : False := by
    cases hc.thread.symm.trans ht
  obtain ⟨q, l, hl, hroom, ha⟩ := hc.asked
  cases h with
  | same => exact ⟨hc.thread, hc.status, hc.written, q, l, hl, hroom, ha.imp_right he⟩
  | @post _ _ m _ h =>
    obtain ⟨_, hq, hlt, rfl⟩ := post_eq h
    obtain rfl := Option.some.inj (hl.symm.trans hq)
    have hlen : (q ++ (l ++ [m])).length = (q ++ l).length + 1 := by
      rw [← List.append_assoc, List.length_append, List.length_singleton]
    refine ⟨hc.thread, hc.status, hc.written, q, l ++ [m], ?_, hlen ▸ hlt, ha.imp ?_ he⟩
    · exact congrArg some (List.append_assoc ..)
    · rw [List.length_append]
      exact fun h => Nat.succ_le_succ h
  | full hr' =>
    exact ⟨hc.thread, hc.status, hc.written, q, l, hl, hroom, .inr hr'⟩
  | dial h => exact absurd (hc.status.symm.trans h) hd
  | accept h => exact absurd h hacc
  | initFbs h =>
    obtain ⟨_, ht, -⟩ := initFbs_eq h
    exact (hidle ht).elim
  | chanInit h =>
    obtain ⟨_, ht, -⟩ := chanInit_eq h
    exact (hidle ht).elim
  | runConn h =>
    obtain ⟨_, ht, -⟩ := runConn_eq h
    exact (hidle ht).elim
  | refuse h =>
    obtain ⟨_, ht, -⟩ := refuse_eq h
    exact (hidle ht).elim
  | write h =>
    obtain ⟨_, _, ht, -⟩ := write_eq h
    exact (hidle ht).elim
  | hangUp h => exact (hidle (hangUp_eq h).1).elim
  | leave h => exact (hidle (leave_eq h).1).elim

/-- How many tries the thread has left. -/
def triesLeft : Option ConnThread → ℕ
  | some (.starting tries) => 3 - tries
  | some (.clearing tries) => 3 - tries
  | some (.connecting tries) => 2 - tries
  | _ => 0

/-- The round a thread is in. -/
def tryOf : ConnThread → Option ℕ
  | .starting tries => some tries
  | .clearing tries => some tries
  | .connecting tries => some tries
  | .running => none

/-- What holds of a connection in every run. -/
structure Sane (c : Link M) : Prop where
  order : (c.written ++ c.chanRead.getD []).Sublist c.posted
  room : (c.chanRead.getD []).length < chanCapacity
  status : ∀ t, c.thread = some t → c.status = if t = .running then .alive else .connecting
  queue : Before c.thread ∨ c.chanRead ≠ none
  dials : c.dials + (if c.status = .dead ∧ c.chanRead ≠ none then 1 else 0) ≤ c.failures
  tries : ∀ t ∈ c.thread, ∀ k ∈ tryOf t, k < 3
  attempts : c.attempts + triesLeft c.thread ≤ 3 * c.threads

theorem Sane.zero : (Link.zero : Link M).Sane where
  order := List.nil_sublist _
  room := show 0 < chanCapacity by decide
  status _ h := by cases h
  queue := .inl (.inl rfl)
  dials := show 0 + (if _ then 1 else 0) ≤ 0 by simp [Link.zero]
  tries _ h := by cases h
  attempts := le_rfl

theorem Sane.dials_le (hc : c.Sane) : c.dials ≤ c.failures := (Nat.le_add_right _ _).trans hc.dials

theorem Sane.nodeConnect (hc : c.Sane) (created : Bool) : (c.nodeConnect created).Sane where
  order := hc.order
  room := hc.room
  status t h := by
    cases created with
    | true =>
      obtain rfl : ConnThread.starting 0 = t := Option.some.inj h
      rfl
    | false => cases h
  queue := .inl (before_nodeConnect created)
  dials := by
    have := hc.dials_le
    simpa [Link.nodeConnect] using this
  tries t h := by
    cases created with
    | true =>
      obtain rfl : ConnThread.starting 0 = t := Option.some.inj h
      simp [tryOf]
    | false => cases h
  attempts := by
    have := hc.attempts
    cases created with
    | true =>
      show c.attempts + 3 ≤ 3 * (c.threads + 1)
      omega
    | false =>
      show c.attempts + 0 ≤ 3 * (c.threads + 0)
      omega

/-- The thread ends. -/
theorem Sane.end (hc : c.Sane) : ({ c with thread := none } : Link M).Sane where
  order := hc.order
  room := hc.room
  status _ h := by cases h
  queue := .inl (.inl rfl)
  dials := hc.dials
  tries _ h := by cases h
  attempts := (Nat.le_add_right _ _).trans hc.attempts

theorem Sane.step (hc : c.Sane) (h : c.Step acc r r' c') : c'.Sane := by
  cases h with
  | same => exact hc
  | full => exact ⟨hc.order, hc.room, hc.status, hc.queue, hc.dials, hc.tries, hc.attempts⟩
  | @post _ _ m _ h =>
    obtain ⟨q, hq, hlt, rfl⟩ := post_eq h
    have ho := hc.order
    have hd := hc.dials
    rw [hq] at ho hd
    refine ⟨?_, ?_, hc.status, .inr nofun, ?_, hc.tries, hc.attempts⟩
    · show (c.written ++ (q ++ [m])).Sublist (c.posted ++ [m])
      rw [← List.append_assoc]
      exact ho.append_right _
    · show (q ++ [m]).length < chanCapacity
      rw [List.length_append]
      exact hlt
    · simpa using hd
  | dial hd hq =>
    have hdials := hc.dials
    rw [if_pos ⟨hd, hq⟩] at hdials
    have hn := hc.nodeConnect ‹Bool›
    refine ⟨hn.order, hn.room, hn.status, hn.queue, ?_, hn.tries, hn.attempts⟩
    simpa [Link.nodeConnect] using hdials
  | accept => exact hc.nodeConnect _
  | initFbs h =>
    obtain ⟨tries, ht, rfl⟩ := initFbs_eq h
    have ha := hc.attempts
    rw [ht] at ha
    refine ⟨hc.order, hc.room, fun t he => ?_, .inl (.inr ⟨tries, .inr rfl⟩), hc.dials,
      fun t he => ?_, ha⟩
    · obtain rfl := Option.some.inj he
      exact (hc.status _ ht).trans rfl
    · obtain rfl := Option.some.inj he
      exact fun k hk => hc.tries _ ht k hk
  | chanInit h =>
    obtain ⟨tries, ht, rfl⟩ := chanInit_eq h
    have ha := hc.attempts
    have hlt : tries < 3 := hc.tries _ ht tries rfl
    have hst : c.status = .connecting := (hc.status _ ht).trans rfl
    have hdials := hc.dials_le
    rw [ht] at ha
    refine ⟨?_, show 0 < chanCapacity by decide, fun t he => ?_, .inr nofun, ?_, fun t he => ?_, ?_⟩
    · rw [Option.getD_some, List.append_nil]
      exact (List.sublist_append_left _ _).trans hc.order
    · obtain rfl := Option.some.inj he
      exact hst
    · simpa [hst] using hdials
    · obtain rfl := Option.some.inj he
      exact fun k hk => hc.tries _ ht k hk
    · show c.attempts + 1 + (2 - tries) ≤ 3 * c.threads
      simp only [triesLeft] at ha
      omega
  | runConn h =>
    obtain ⟨tries, ht, rfl⟩ := runConn_eq h
    have hdials := hc.dials_le
    have hq : c.chanRead ≠ none := hc.queue.resolve_left (by rw [ht]; simp [Before])
    refine ⟨hc.order, hc.room, fun t he => ?_, .inr hq, ?_, fun t he => ?_,
      (Nat.le_add_right _ _).trans hc.attempts⟩
    · obtain rfl := Option.some.inj he
      rfl
    · simpa using hdials
    · obtain rfl := Option.some.inj he
      simp [tryOf]
  | refuse h =>
    obtain ⟨tries, ht, rfl⟩ := refuse_eq h
    have ha := hc.attempts
    rw [ht] at ha
    split_ifs with hlt
    · refine ⟨hc.order, hc.room, fun t he => ?_, .inl (.inr ⟨_, .inl rfl⟩), hc.dials,
        fun t he => ?_, ?_⟩
      · obtain rfl := Option.some.inj he
        exact (hc.status _ ht).trans rfl
      · obtain rfl := Option.some.inj he
        simpa [tryOf] using hlt
      · show c.attempts + (3 - (tries + 1)) ≤ 3 * c.threads
        simp only [triesLeft] at ha
        omega
    · exact hc.end
  | write h =>
    obtain ⟨m, ms, ht, hs, hm, hc'⟩ := write_eq h
    have ho := hc.order
    have hroom := hc.room
    have hdials := hc.dials_le
    rw [hm] at ho hroom
    have hroom : ms.length < chanCapacity := Nat.lt_of_succ_lt hroom
    rcases hc' with rfl | rfl
    · refine ⟨?_, hroom, hc.status, .inr nofun, ?_, hc.tries, hc.attempts⟩
      · rw [List.append_assoc]
        exact ho
      · simpa [hs] using hdials
    · refine ⟨((List.sublist_cons_self m ms).append_left _).trans ho, hroom, fun _ he => ?_,
        .inr nofun, ?_, fun _ he => ?_, (Nat.le_add_right _ _).trans hc.attempts⟩
      · cases he
      · simpa using hdials
      · cases he
  | hangUp h =>
    obtain ⟨-, rfl⟩ := hangUp_eq h
    exact hc.end
  | leave h =>
    obtain ⟨-, -, rfl⟩ := leave_eq h
    exact hc.end

/-- A thread that the peer ends, or that gives up, leaves a connection that is not dead and has its
queue. -/
theorem Sane.ended (hc : c.Sane) (h : c.hangUp = some c' ∨ c.refuse = some c') :
    c'.status ≠ .dead ∧ c'.chanRead ≠ none := by
  rcases h with h | h
  · obtain ⟨ht, rfl⟩ := hangUp_eq h
    have hst : c.status = .alive := (hc.status _ ht).trans rfl
    exact ⟨by simp [hst], hc.queue.resolve_left (by rw [ht]; simp [Before])⟩
  · obtain ⟨tries, ht, rfl⟩ := refuse_eq h
    have hst : c.status = .connecting := (hc.status _ ht).trans rfl
    exact ⟨by simp [hst], hc.queue.resolve_left (by rw [ht]; simp [Before])⟩

end Link

namespace NodeIo

variable {A M : Type*} {n n' : NodeIo A M} {ev : IoEvent A M} {k : Fin N}

section Steps

/-- A step of one connection. -/
theorem step_set {acc : Prop} {r r' : IoStage M} {c : Link M} (h : (n.chanNodes k).Step acc r r' c)
    (j : Fin N) : (n.chanNodes j).Step acc r r' ((n.set k c).chanNodes j) := by
  by_cases hj : j = k
  · subst hj
    show Link.Step _ _ _ _ (Function.update n.chanNodes j c j)
    rw [Function.update_self]
    exact h
  · show Link.Step _ _ _ _ (Function.update n.chanNodes k c j)
    rw [Function.update_of_ne hj]
    exact .same

variable [DecidableEq A]

theorem addr_nodeConnect (addr : A) (created : Bool) :
    (n.nodeConnect addr created).addr = n.addr := by
  unfold nodeConnect
  cases n.getConn addr <;> rfl

/-- Where the addresses differ, `node_connect` is for the connection with the address. -/
theorem chanNodes_nodeConnect (hinj : Function.Injective n.addr) (addr : A) (created : Bool)
    (j : Fin N) : (n.nodeConnect addr created).chanNodes j
      = if n.addr j = addr then (n.chanNodes j).nodeConnect created else n.chanNodes j := by
  unfold nodeConnect
  cases hg : n.getConn addr with
  | none =>
    have hne := List.find?_eq_none.1 hg j (List.mem_finRange j)
    rw [if_neg (by simpa using hne)]
  | some k =>
    have hk : n.addr k = addr := by simpa using List.find?_some hg
    show Function.update n.chanNodes k _ j = _
    by_cases hj : j = k
    · subst hj
      rw [Function.update_self, if_pos hk]
    · rw [Function.update_of_ne hj, if_neg]
      exact fun he => hj (hinj (he.trans hk.symm))

theorem step_addr (h : n.step ev = some n') : n'.addr = n.addr := by
  cases ev with
  | send k m =>
    simp only [step] at h
    split at h
    · cases h
      rfl
    · cases h
  | put =>
    simp only [step] at h
    split at h
    · split at h <;> cases h <;> rfl
    · cases h
  | check created =>
    simp only [step] at h
    split at h
    · split_ifs at h
      · cases h
        exact addr_nodeConnect _ _
      · cases h
        rfl
    · cases h
  | accept addr created =>
    cases h
    exact addr_nodeConnect addr created
  | start | clear | connect | refuse | write | hangUp | leave =>
    obtain ⟨c, -, rfl⟩ := Option.map_eq_some_iff.1 h
    rfl

/-- Where `io_reader` looks at the status, the queue has taken its message. -/
def Checked (n : NodeIo A M) : Prop :=
  ∀ k, n.reader = .checking k → (n.chanNodes k).chanRead ≠ none

/-- The step of the node is one of each connection. -/
theorem step_link (hinj : Function.Injective n.addr) (hc : n.Checked) (h : n.step ev = some n')
    (j : Fin N) :
    (n.chanNodes j).Step (∃ created, ev = .accept (n.addr j) created) n.reader n'.reader
      (n'.chanNodes j) := by
  cases ev with
  | send k m =>
    simp only [step] at h
    split at h
    · cases h
      exact .same
    · cases h
  | put =>
    simp only [step] at h
    split at h
    · rename_i k m hr
      split at h
      · rename_i c hp
        cases h
        exact step_set (.post hr hp) j
      · rename_i hp
        cases h
        exact step_set (.full rfl hp) j
    · cases h
  | check created =>
    simp only [step] at h
    split at h
    · rename_i k hr
      split_ifs at h with hd
      · obtain rfl := Option.some.inj h
        have hn := chanNodes_nodeConnect (n := n.set k { n.chanNodes k with
          dials := (n.chanNodes k).dials + 1 }) hinj (n.addr k) created j
        show Link.Step _ _ _ _ (NodeIo.chanNodes (NodeIo.nodeConnect _ (n.addr k) _) j)
        rw [hn]
        by_cases hj : j = k
        · subst hj
          show Link.Step _ _ _ _ (if n.addr j = n.addr j then
            (Function.update n.chanNodes j _ j).nodeConnect created else _)
          rw [if_pos rfl, Function.update_self]
          exact .dial hd (hc j hr)
        · show Link.Step _ _ _ _ (if n.addr j = n.addr k then _ else
            Function.update n.chanNodes k _ j)
          rw [if_neg fun he => hj (hinj he), Function.update_of_ne hj]
          exact .same
      · cases h
        exact .same
    · cases h
  | accept addr created =>
    cases h
    rw [chanNodes_nodeConnect hinj]
    by_cases ha : n.addr j = addr
    · subst ha
      rw [if_pos rfl]
      exact .accept ⟨created, rfl⟩
    · rw [if_neg ha]
      exact .same
  | start k =>
    obtain ⟨c, hc, rfl⟩ := Option.map_eq_some_iff.1 h
    exact step_set (.initFbs hc) j
  | clear k =>
    obtain ⟨c, hc, rfl⟩ := Option.map_eq_some_iff.1 h
    exact step_set (.chanInit hc) j
  | connect k =>
    obtain ⟨c, hc, rfl⟩ := Option.map_eq_some_iff.1 h
    exact step_set (.runConn hc) j
  | refuse k =>
    obtain ⟨c, hc, rfl⟩ := Option.map_eq_some_iff.1 h
    exact step_set (.refuse hc) j
  | write k sent =>
    obtain ⟨c, hc, rfl⟩ := Option.map_eq_some_iff.1 h
    exact step_set (.write hc) j
  | hangUp k =>
    obtain ⟨c, hc, rfl⟩ := Option.map_eq_some_iff.1 h
    exact step_set (.hangUp hc) j
  | leave k =>
    obtain ⟨c, hc, rfl⟩ := Option.map_eq_some_iff.1 h
    exact step_set (.leave hc) j

theorem reader_nodeConnect (addr : A) (created : Bool) :
    (n.nodeConnect addr created).reader = n.reader := by
  unfold nodeConnect
  cases n.getConn addr <;> rfl

/-- `io_reader` does not start again. -/
theorem step_ended (he : n.reader = .ended) (h : n.step ev = some n') : n'.reader = .ended := by
  cases ev with
  | send | put | check =>
    rw [step, he] at h
    cases h
  | accept addr created =>
    cases h
    rw [reader_nodeConnect, he]
  | start | clear | connect | refuse | write | hangUp | leave =>
    obtain ⟨c, -, rfl⟩ := Option.map_eq_some_iff.1 h
    exact he

/-- `io_reader` comes to look at a status by a send that was taken. -/
theorem step_checking (h : n.step ev = some n') (hr : n'.reader = .checking k) :
    n.reader = .checking k ∨ (n'.chanNodes k).chanRead ≠ none := by
  cases ev with
  | send k m =>
    simp only [step] at h
    split at h <;> cases h
    cases hr
  | put =>
    simp only [step] at h
    split at h
    · split at h
      · rename_i hp
        cases h
        cases hr
        obtain ⟨q, -, -, rfl⟩ := Link.post_eq hp
        refine .inr ?_
        show (Function.update n.chanNodes k _ k).chanRead ≠ none
        rw [Function.update_self]
        rintro ⟨⟩
      · cases h
        cases hr
    · cases h
  | check created =>
    simp only [step] at h
    split at h
    · split_ifs at h <;> cases h <;> cases hr
    · cases h
  | accept addr created =>
    cases h
    rw [reader_nodeConnect] at hr
    exact .inl hr
  | start | clear | connect | refuse | write | hangUp | leave =>
    obtain ⟨c, -, rfl⟩ := Option.map_eq_some_iff.1 h
    exact .inl hr

theorem Checked.step (hc : n.Checked) (hinj : Function.Injective n.addr)
    (h : n.step ev = some n') : n'.Checked := fun k hr =>
  (step_checking h hr).elim (fun hr => (step_link hinj hc h k).queue (hc k hr)) id

/-- What the io thread does after the send to a connection that is dead. -/
theorem check_dial {created : Bool} (hinj : Function.Injective n.addr)
    (hr : n.reader = .checking k) (hd : (n.chanNodes k).status = .dead)
    (h : n.step (.check created) = some n') :
    n'.chanNodes k = Link.nodeConnect { n.chanNodes k with dials := (n.chanNodes k).dials + 1 }
      created := by
  rw [step, hr] at h
  dsimp only at h
  rw [if_pos hd] at h
  obtain rfl := Option.some.inj h
  refine (chanNodes_nodeConnect (n := n.set k _) hinj _ _ k).trans ?_
  rw [if_pos rfl]
  exact congrArg (Link.nodeConnect · created) (Function.update_self ..)

/-- What every step keeps for one connection is kept by all of them. -/
theorem Steps.link {P : IoEvent A M → Prop} {I : NodeIo A M → Prop} (hs : Steps P n n')
    (hinj : Function.Injective n.addr) (hc : n.Checked) (hi : I n)
    (hstep : ∀ {n₁ n₂ : NodeIo A M} {ev : IoEvent A M}, P ev → n₁.step ev = some n₂ →
      (∀ j, (n₁.chanNodes j).Step (∃ created, ev = .accept (n.addr j) created) n₁.reader n₂.reader
        (n₂.chanNodes j)) → I n₁ → I n₂) :
    n'.addr = n.addr ∧ n'.Checked ∧ I n' := by
  induction hs with
  | none => exact ⟨rfl, hc, hi⟩
  | step _ hp _ h ih =>
    obtain ⟨haddr, hc₁, hi₁⟩ := ih
    have hinj₁ := haddr ▸ hinj
    refine ⟨(step_addr h).trans haddr, hc₁.step hinj₁ h, hstep hp h (fun j => ?_) hi₁⟩
    have hl := step_link hinj₁ hc₁ h j
    rwa [haddr] at hl

/-- What holds of every connection of a node, and of one with `io_reader`. -/
structure Sane (n : NodeIo A M) (addr : Fin N → A) : Prop where
  addr : n.addr = addr
  checked : n.Checked
  link : ∀ k, (n.chanNodes k).Sane
  untouched : ∀ k, (n.chanNodes k).Untouched n.reader

theorem new_sane {addr : Fin N → A} (hinj : Function.Injective addr) (join : List (Fin N × Bool)) :
    (new (M := M) addr join).Sane addr := by
  have hfold : ∀ (js : List (Fin N × Bool)) (n : NodeIo A M), n.Sane addr → n.reader = .ready →
      (js.foldl (fun n j => n.nodeConnect (n.addr j.1) j.2) n).Sane addr := by
    intro js
    induction js with
    | nil => exact fun n hn _ => hn
    | cons j js ih =>
      intro n hn hr
      have hr' := (reader_nodeConnect (n := n) (n.addr j.1) j.2).trans hr
      refine ih _ ⟨(addr_nodeConnect _ _).trans hn.addr, fun k hk => ?_, fun k => ?_,
        fun k => ?_⟩ hr'
      · rw [hr'] at hk
        cases hk
      · rw [chanNodes_nodeConnect (hn.addr ▸ hinj)]
        split_ifs
        · exact (hn.link k).nodeConnect _
        · exact hn.link k
      · rw [chanNodes_nodeConnect (hn.addr ▸ hinj), hr', ← hr]
        split_ifs
        · exact hn.untouched k
        · exact hn.untouched k
  exact hfold join ⟨addr, fun _ => .zero, .ready⟩
    ⟨rfl, fun _ => nofun, fun _ => .zero, fun _ _ => ⟨rfl, .inl rfl⟩⟩ rfl

theorem Run.sane {addr : Fin N → A} {join : List (Fin N × Bool)} (h : Run addr join n)
    (hinj : Function.Injective addr) : n.Sane addr := by
  have h₀ := new_sane (M := M) hinj join
  obtain ⟨ha, hc, hl, hu⟩ := h.link
    (I := fun n => (∀ k, (n.chanNodes k).Sane) ∧ ∀ k, (n.chanNodes k).Untouched n.reader)
    (by rwa [h₀.addr]) h₀.checked ⟨h₀.link, h₀.untouched⟩
    fun _ hs hl hi => ⟨fun k => (hi.1 k).step (hl k),
      fun k => (hi.2 k).step (fun he => step_ended he hs) (hl k)⟩
  exact ⟨ha.trans h₀.addr, hc, hl, hu⟩

end Steps

section Results

variable [DecidableEq A] {n₁ : NodeIo A M} {addr : Fin N → A} {join : List (Fin N × Bool)}

/-- In every run, the messages written to a peer are some of those put on its queue, in their order;
the io thread connects to it once at the most for each write that has failed; there are three tries
for each time that it connects or the peer does; and a queue that no thread has initialised takes no
message, but the first one ends `io_reader`. -/
theorem links_bounded (h : Run addr join n) (hinj : Function.Injective addr) (k : Fin N) :
    (n.chanNodes k).written.Sublist (n.chanNodes k).posted
      ∧ (∀ q ∈ (n.chanNodes k).chanRead, q.length < chanCapacity)
      ∧ (n.chanNodes k).dials ≤ (n.chanNodes k).failures
      ∧ (n.chanNodes k).attempts ≤ 3 * (n.chanNodes k).threads
      ∧ ((n.chanNodes k).chanRead = none → (n.chanNodes k).posted = []
        ∧ ((n.chanNodes k).asked = 0 ∨ n.reader = .ended)) := by
  have hn := h.sane hinj
  have hs := hn.link k
  refine ⟨(List.sublist_append_left _ _).trans hs.order, fun q hq => ?_, hs.dials_le,
    (Nat.le_add_right _ _).trans hs.attempts, hn.untouched k⟩
  have hroom := hs.room
  rwa [show (n.chanNodes k).chanRead = some q from hq] at hroom

/-- The events, one after another, as far as they are `Apart`. -/
def play : List (IoEvent A M) → NodeIo A M → Option (NodeIo A M)
  | [], n => some n
  | ev :: evs, n => if n.Apart ev then (n.step ev).bind (play evs) else none

theorem Steps.of_play {P : IoEvent A M → Prop} {n₀ : NodeIo A M} : ∀ {evs : List (IoEvent A M)}
    {n n' : NodeIo A M}, Steps P n₀ n → (∀ ev ∈ evs, P ev) → n.play evs = some n' → Steps P n₀ n'
  | [], _, _, h, _, hp => Option.some.inj hp ▸ h
  | ev :: evs, n, n', h, hev, hp => by
    rw [play] at hp
    split_ifs at hp with ha
    obtain ⟨n₁, hs, hp⟩ := Option.bind_eq_some_iff.1 hp
    exact of_play (.step h (hev ev List.mem_cons_self) ha hs)
      (fun e he => hev e (List.mem_cons_of_mem _ he)) hp

/-- Replicas 1 and 2. -/
def one : Fin N := ⟨1, by decide⟩
def two : Fin N := ⟨2, by decide⟩

theorem exists_play (evs : List (IoEvent (Fin N) ℕ)) (Q : NodeIo (Fin N) ℕ → Prop)
    [DecidablePred Q] (h : (((new id [(one, true)]).play evs).any fun n => decide (Q n)) = true) :
    ∃ n, Run id [(one, true)] n ∧ Q n := by
  obtain ⟨n, hn, hq⟩ := (Option.any_eq_true _ _).1 h
  exact ⟨n, .of_play .none (fun _ _ => trivial) hn, of_decide_eq_true hq⟩

/-- The thread for replica 1 gets to work. -/
def connected : List (IoEvent (Fin N) ℕ) := [.start one, .clear one, .connect one]

/-- A message for replica 1, which is written, and one for replica 2, which has not connected. -/
theorem links_bounded_joined : ∃ n : NodeIo (Fin N) ℕ, (n.chanNodes one).written = [7]
    ∧ (n.chanNodes two).asked = 1 ∧ (n.chanNodes one).written.Sublist (n.chanNodes one).posted
    ∧ ((n.chanNodes two).chanRead = none → (n.chanNodes two).posted = []
      ∧ ((n.chanNodes two).asked = 0 ∨ n.reader = .ended)) := by
  obtain ⟨n, hrun, hw, ha⟩ := exists_play
    (connected ++ [.send one 7, .put, .check true, .write one true, .send two 8, .put])
    (fun n => (n.chanNodes one).written = [7] ∧ (n.chanNodes two).asked = 1) (by decide +kernel)
  exact ⟨n, hw, ha, (links_bounded hrun Function.injective_id one).1,
    (links_bounded hrun Function.injective_id two).2.2.2.2⟩

/-- When the io thread connects to a peer, no message on the queue by then is ever written, the one
for which it connects included: whatever happens later, what is written is put on the queue after
that. -/
theorem dial_drops {created : Bool} (h : Run addr join n) (hinj : Function.Injective addr)
    (hr : n.reader = .checking k) (hd : (n.chanNodes k).status = .dead)
    (hn : n.step (.check created) = some n₁) (hs : Steps (fun _ => True) n₁ n') :
    ∃ w l, (n'.chanNodes k).written = (n.chanNodes k).written ++ w
      ∧ (n'.chanNodes k).posted = (n.chanNodes k).posted ++ l ∧ w.Sublist l := by
  have hsane := h.sane hinj
  have hinj' : Function.Injective n.addr := hsane.addr ▸ hinj
  have h₁ : (n₁.chanNodes k).Forgotten (n.chanNodes k).written (n.chanNodes k).posted := by
    rw [check_dial hinj' hr hd hn]
    exact ⟨[], (List.append_nil _).symm, .inl ⟨rfl, Link.before_nodeConnect _⟩⟩
  obtain ⟨-, -, l, hl, hw⟩ := hs.link
    (I := fun n' => (n'.chanNodes k).Forgotten (n.chanNodes k).written (n.chanNodes k).posted)
    (step_addr hn ▸ hinj') (hsane.checked.step hinj' hn) h₁ fun _ _ hl hi => hi.step (hl k)
  rcases hw with ⟨hw, -⟩ | ⟨w, hw, hs⟩
  · exact ⟨[], l, hw.trans (List.append_nil _).symm, hl, List.nil_sublist l⟩
  · exact ⟨w, l, hw, hl, (List.sublist_append_left _ _).trans hs⟩

/-- A write has failed; of the two messages that come then, the one for which the io thread connects
is lost. -/
theorem dial_drops_failed : ∃ n' : NodeIo (Fin N) ℕ, (n'.chanNodes one).written = [9]
    ∧ ∃ w l, (n'.chanNodes one).written = [] ++ w ∧ (n'.chanNodes one).posted = [7, 8] ++ l
      ∧ w.Sublist l := by
  obtain ⟨n, hrun, hr, hd, hp, hw, h⟩ := exists_play
    (connected ++ [.send one 7, .put, .check true, .write one false, .send one 8, .put])
    (fun n => n.reader = .checking one ∧ (n.chanNodes one).status = .dead
      ∧ (n.chanNodes one).posted = [7, 8] ∧ (n.chanNodes one).written = []
      ∧ ((n.step (.check true)).any fun n₁ =>
        (n₁.play (connected ++ [.send one 9, .put, .write one true])).any
          fun n' => decide ((n'.chanNodes one).written = [9])) = true) (by decide +kernel)
  obtain ⟨n₁, hn₁, h⟩ := (Option.any_eq_true _ _).1 h
  obtain ⟨n', hn', h⟩ := (Option.any_eq_true _ _).1 h
  have := dial_drops hrun Function.injective_id hr hd hn₁ (.of_play .none (fun _ _ => trivial) hn')
  rw [hp, hw] at this
  exact ⟨n', of_decide_eq_true h, this⟩

/-- Nothing is put on a queue once `io_reader` has returned. -/
theorem Steps.posted_eq {P : IoEvent A M → Prop} (hs : Steps P n n')
    (hinj : Function.Injective n.addr) (hc : n.Checked) (he : n.reader = .ended) (j : Fin N) :
    (n'.chanNodes j).posted = (n.chanNodes j).posted :=
  (hs.link
    (I := fun n' => n'.reader = .ended ∧ (n'.chanNodes j).posted = (n.chanNodes j).posted) hinj hc
    ⟨he, rfl⟩ fun _ h hl hi =>
      ⟨step_ended hi.1 h, ((hl j).posted hi.1).trans hi.2⟩).2.2.2

/-- The thread of a connection ends because the peer hangs up or the last try fails. -/
def Ends (n : NodeIo A M) (k : Fin N) (n' : NodeIo A M) : Prop :=
  (n.step (.hangUp k) = some n' ∨ n.step (.refuse k) = some n') ∧ (n'.chanNodes k).thread = none

theorem Ends.link (h : n.Ends k n₁) : ∃ c, ((n.chanNodes k).hangUp = some c
    ∨ (n.chanNodes k).refuse = some c) ∧ n₁ = n.set k c := by
  rcases h.1 with h | h
  · obtain ⟨c, hc, rfl⟩ := Option.map_eq_some_iff.1 h
    exact ⟨c, .inl hc, rfl⟩
  · obtain ⟨c, hc, rfl⟩ := Option.map_eq_some_iff.1 h
    exact ⟨c, .inr hc, rfl⟩

/-- A connection whose thread is ended by the peer or gives up is not dead. It stays without a thread
until its peer connects, and nothing is written to it. Once there have been as many messages for the
peer as a channel has slots, `io_reader` has returned, and no message gets on the queue of any peer
after that. -/
theorem silent_peer (h : Run addr join n) (hinj : Function.Injective addr) (he : n.Ends k n₁)
    (hs : Steps (fun ev => ∀ created, ev ≠ .accept (addr k) created) n₁ n') :
    (n₁.chanNodes k).status ≠ .dead
      ∧ (n'.chanNodes k).thread = none ∧ (n'.chanNodes k).status = (n₁.chanNodes k).status
      ∧ (n'.chanNodes k).written = (n₁.chanNodes k).written
      ∧ ((n₁.chanNodes k).asked + chanCapacity ≤ (n'.chanNodes k).asked → n'.reader = .ended
        ∧ ∀ n'', Steps (fun _ => True) n' n'' →
          ∀ j, (n''.chanNodes j).posted = (n'.chanNodes j).posted) := by
  have hend : ∃ ev, n.step ev = some n₁ := he.1.elim (fun h => ⟨_, h⟩) fun h => ⟨_, h⟩
  obtain ⟨ev, hn⟩ := hend
  have hsane := h.sane hinj
  have hinj₁ : Function.Injective n.addr := hsane.addr ▸ hinj
  have haddr₁ : n₁.addr = addr := (step_addr hn).trans hsane.addr
  have hc₁ : n₁.Checked := hsane.checked.step hinj₁ hn
  have hroom := ((hsane.link k).step (step_link hinj₁ hsane.checked hn k)).room
  obtain ⟨hd, hq⟩ : (n₁.chanNodes k).status ≠ .dead ∧ (n₁.chanNodes k).chanRead ≠ none := by
    obtain ⟨c, hc, rfl⟩ := he.link
    rw [show (n.set k c).chanNodes k = c from Function.update_self ..]
    exact (hsane.link k).ended hc
  obtain ⟨q, hq⟩ := Option.ne_none_iff_exists'.1 hq
  rw [hq] at hroom
  obtain ⟨haddr', hc', hsil⟩ := hs.link
    (I := fun n' => (n'.chanNodes k).Silent (n₁.chanNodes k) n'.reader) (haddr₁ ▸ hinj) hc₁
    ⟨he.2, rfl, rfl, q, [], by rw [List.append_nil, hq], by simpa using hroom, .inl le_rfl⟩
    fun hp h hl hi => hi.step hd (fun hacc => by
      obtain ⟨created, hev⟩ := hacc
      exact hp created (haddr₁ ▸ hev)) (fun he => step_ended he h) (hl k)
  refine ⟨hd, hsil.thread, hsil.status, hsil.written, fun hle => ?_⟩
  obtain ⟨q, l, -, hroom, ha⟩ := hsil.asked
  rw [List.length_append] at hroom
  have he' : n'.reader = .ended := ha.resolve_left (by omega)
  exact ⟨he', fun n'' hs'' j => hs''.posted_eq (haddr' ▸ haddr₁ ▸ hinj) hc' he' j⟩

/-- The peer hangs up after it has been connected to. -/
theorem silent_peer_hungUp : ∃ n₁ n' : NodeIo (Fin N) ℕ, (n'.chanNodes one).posted = [7, 8]
    ∧ (n₁.chanNodes one).status ≠ .dead
    ∧ (n'.chanNodes one).thread = none ∧ (n'.chanNodes one).status = (n₁.chanNodes one).status
    ∧ (n'.chanNodes one).written = (n₁.chanNodes one).written
    ∧ ((n₁.chanNodes one).asked + chanCapacity ≤ (n'.chanNodes one).asked → n'.reader = .ended
      ∧ ∀ n'', Steps (fun _ => True) n' n'' →
        ∀ j, (n''.chanNodes j).posted = (n'.chanNodes j).posted) := by
  obtain ⟨n, hrun, h⟩ := exists_play (connected ++ [.send one 7, .put, .check true, .write one true])
    (fun n => ((n.step (.hangUp one)).any fun n₁ => decide ((n₁.chanNodes one).thread = none)
      && (n₁.play [.send one 8, .put]).any
        fun n' => decide ((n'.chanNodes one).posted = [7, 8])) = true) (by decide +kernel)
  obtain ⟨n₁, hn₁, h⟩ := (Option.any_eq_true _ _).1 h
  rw [Bool.and_eq_true, decide_eq_true_eq] at h
  obtain ⟨n', hn', hp⟩ := (Option.any_eq_true _ _).1 h.2
  refine ⟨n₁, n', of_decide_eq_true hp, silent_peer hrun Function.injective_id ⟨.inl hn₁, h.1⟩
    (.of_play .none (fun ev hev created he => ?_) hn')⟩
  subst he
  simp at hev

end Results

end NodeIo

end Epx
