import Epx.Proofs.Schedules

/-!
# The ids of new instances

Every id in an index or a message was assigned by its own replica, to one of its proposals or
checkpoints, and `max_local` is the largest the replica has assigned. So the next one is new, as long
as the 64-bit counter does not wrap.
-/

namespace Epx

open Log

/-- How many ids replica `k` has assigned. -/
def World.assigned (w : World) (k : ℕ) : ℕ := w.log.countP fun t => t.who = k ∧ t.event.Assigns

/-- The id is not 0 and above every id replica `k` has assigned, and no replica and no message knows
it. -/
structure World.Unused (w : World) (k : ℕ) (id : InstanceId) : Prop where
  pos : id.instanceId ≠ 0
  larger : ∀ t ∈ w.log, t.who = k → t.event.Assigns → t.after.key.instanceId < id.instanceId
  unregistered : ∀ j, (w.replica j).find id = none
  unsent : ∀ m ∈ w.sent, m.id ≠ id

section Log

variable {T : RangeTree} {log older : List Record} {t : Record}

/-- An instance that is not made for a message has a record already, or is the replica's next one. -/
theorem Happens.known (h : Happens T older t) (hg : Grown (Happens T) older) :
    t.event.Assigns ∨ ∃ p ∈ older, p.after.key = t.after.key := by
  have hl := h.located
  have last : ∀ id, t.pre.find id = some t.before → ∃ p ∈ older, p.after.key = t.after.key := by
    intro id hf
    obtain ⟨p, hp, -, -, hpa⟩ := (h.found id _ hf).exists_mem
    exact ⟨p, hp, by rw [hpa, h.key]⟩
  cases hev : t.event with
  | propose m | checkpoint m =>
    left
    simp [Event.Assigns]
  | timeout id m | execute id =>
    rw [hev] at hl
    exact .inr (last id hl)
  | step m =>
    obtain ⟨⟨p, hp, hm⟩, -⟩ := h.source m hev
    obtain ⟨_, _, -, -, hph⟩ := hg.of_mem hp
    exact .inr ⟨p, hp, by rw [hph.key, ← hph.sent_id hm, h.key, (h.step_key hev).1]⟩

/-- The instance of a record was proposed by the replica its id names. -/
theorem exists_assigns (h : Grown (Happens T) log) {p : Record} (hp : p ∈ log) :
    ∃ o ∈ log, o.event.Assigns ∧ o.after.key = p.after.key ∧ o.who = p.after.key.replicaId := by
  induction h generalizing p with
  | nil => simp at hp
  | @cons t older hg ht ih =>
    have lift : (∃ o ∈ older, o.event.Assigns ∧ o.after.key = p.after.key
          ∧ o.who = p.after.key.replicaId) →
        ∃ o ∈ t :: older, o.event.Assigns ∧ o.after.key = p.after.key
          ∧ o.who = p.after.key.replicaId :=
      fun ⟨o, ho, h⟩ => ⟨o, List.mem_cons_of_mem t ho, h⟩
    rcases List.mem_cons.1 hp with rfl | hp
    · rcases ht.known hg with ho | ⟨q, hq, hqk⟩
      · refine ⟨p, List.mem_cons_self, ho, rfl, ?_⟩
        rw [ht.key]
        exact (ht.assigns_before ho).2.symm
      · rw [← hqk] at lift ⊢
        exact lift (ih hq)
    · exact lift (ih hp)

/-- A replica assigns `max_local + 1`. -/
theorem Happens.assigned (h : Happens T older t) (ho : t.event.Assigns) :
    t.after.key.instanceId = u64 (t.pre.maxLocal + 1) := by
  rw [h.key, (h.assigns_before ho).1]
  rfl

/-- `max_local` is no larger than any bound on the ids the replica has assigned. -/
theorem maxLocal_le {r : Replica} {n : ℕ} (hg : Grown (Happens T) log)
    (hfound : ∀ id i, r.find id = some i → Last log r.id id i)
    (hn : ∀ o ∈ log, o.who = r.id → o.event.Assigns → o.after.key.instanceId ≤ n) :
    r.maxLocal ≤ n := by
  rcases r.exists_maxLocal with h₀ | ⟨i, hi⟩
  · omega
  · obtain ⟨p, hp, -, hpk, -⟩ := (hfound _ i hi).exists_mem
    obtain ⟨o, ho, hop, hok, how⟩ := exists_assigns hg hp
    rw [hpk] at hok how
    have := hn o ho how hop
    rwa [hok] at this

/-- No id a replica has assigned is larger than their number. -/
theorem assigned_le (h : Grown (Happens T) log) (k : ℕ) : ∀ o ∈ log, o.who = k → o.event.Assigns →
    o.after.key.instanceId ≤ log.countP fun t => t.who = k ∧ t.event.Assigns := by
  induction h with
  | nil => simp
  | @cons t older hg ht ih =>
    rw [List.countP_cons]
    intro o ho hw hop
    rcases List.mem_cons.1 ho with rfl | ho
    · have hmax : o.pre.maxLocal ≤ older.countP fun t => t.who = k ∧ t.event.Assigns :=
        maxLocal_le hg (ht.who_eq ▸ ht.found) fun p hp hpw => ih p hp (by rw [hpw, ht.who_eq, hw])
      have hle : u64 (o.pre.maxLocal + 1) ≤ o.pre.maxLocal + 1 := Nat.mod_le _ _
      rw [ht.assigned hop, if_pos (by simp [hw, hop])]
      omega
    · have := ih o ho hw hop
      omega

end Log

variable {T : RangeTree} {w : World} {k : ℕ}

theorem Run.maxLocal_le (h : Run T w) (k : ℕ) : (w.replica k).maxLocal ≤ w.assigned k := by
  obtain ⟨hg, hw⟩ := h.grown
  refine Epx.maxLocal_le hg ((hw.id k).symm ▸ hw.last k) ?_
  rw [hw.id k]
  exact assigned_le hg k

/-- While a replica has assigned fewer than `2 ^ 64 - 1` ids, the one it assigns next is new. -/
theorem ids_fresh (h : Run T w) (hn : w.assigned k < 2 ^ 64 - 1) {ev : Event} (hev : ev.Assigns) :
    w.Unused k (w.replica k).nextId ∧ (w.replica k).handle T ev ≠ .rejected
      ∧ ∀ i e, (w.replica k).handle T ev = .handled i e → e.inst.key = (w.replica k).nextId := by
  obtain ⟨hg, hw⟩ := h.grown
  set r := w.replica k with hr
  have hid : r.id = k := hw.id k
  have hmax : r.maxLocal ≤ w.assigned k := h.maxLocal_le k
  have hnext : r.nextId.instanceId = r.maxLocal + 1 := Nat.mod_eq_of_lt (by omega)
  have hnk : r.nextId.replicaId = k := hid
  -- every id of the replica's own is at most `max_local`
  have hle : ∀ p ∈ w.log, p.after.key.replicaId = k → p.after.key.instanceId ≤ r.maxLocal := by
    intro p hp hpk
    obtain ⟨o, ho, -, hok, how⟩ := exists_assigns hg hp
    rw [← hok] at hpk how ⊢
    exact hw.max k o ho (how.trans hpk) hpk
  have hne : ∀ p ∈ w.log, p.after.key ≠ r.nextId := by
    intro p hp he
    have := hle p hp (by rw [he, hnk])
    rw [he, hnext] at this
    omega
  have hnone : ∀ j, (w.replica j).find r.nextId = none := by
    intro j
    rw [Option.eq_none_iff_forall_ne_some]
    intro i hi
    obtain ⟨p, hp, -, hpk, -⟩ := (hw.last j _ i hi).exists_mem
    exact hne p hp hpk
  refine ⟨⟨by omega, fun t ht htw hto => ?_, hnone, fun m hm he => ?_⟩, ?_, fun i e he => ?_⟩
  · obtain ⟨_, _, -, -, hth⟩ := hg.of_mem ht
    have := hle t ht (by rw [hth.key, (hth.assigns_before hto).2, htw])
    omega
  · obtain ⟨p, hp, hpm⟩ := mem_sent.1 hm
    obtain ⟨_, _, -, -, hph⟩ := hg.of_mem hp
    exact hne p hp (by rw [hph.key, ← hph.sent_id hpm, he])
  · have hf : r.find r.ownInstance.key = none := hnone k
    cases ev with
    | propose m =>
      simp only [Replica.handle, hf, Option.isSome_none, Bool.false_eq_true, if_false]
      cases restart T (r.put r.ownInstance) r.ownInstance m <;> rintro ⟨⟩
    | checkpoint m =>
      simp only [Replica.handle, hf, Option.isSome_none, Bool.false_eq_true, if_false]
      cases r.checkpointEffect r.ownInstance m <;> rintro ⟨⟩
    | _ => exact hev.elim
  · have ht : ∀ m, ev = .step m → m.type ≠ .phase1 := by
      rintro m rfl
      exact hev.elim
    obtain ⟨hl, ha⟩ := handle_act ht he
    rw [ha.key]
    cases ev with
    | propose m | checkpoint m => exact congrArg Instance.key hl.2
    | _ => exact hev.elim

theorem ids_fresh_second : ∃ w, Run listTree w ∧ w.assigned 0 = 1
    ∧ w.Unused 0 ⟨0, 2⟩ ∧ ∃ m, (w.replica 0).handle listTree (.propose m) ≠ .rejected := by
  obtain ⟨w, hr, ha, hid⟩ := @exists_run fastCommit
    (fun w => w.assigned 0 = 1 ∧ (w.replica 0).nextId = ⟨0, 2⟩) _ (by decide +kernel)
  obtain ⟨hu, hrej, -⟩ := @ids_fresh listTree w 0 hr (by omega)
    (.propose (request (writeOf [49, 48] [50, 48]))) trivial
  exact ⟨w, hr, ha, hid ▸ hu, _, hrej⟩

end Epx
