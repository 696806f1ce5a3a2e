import Epx.Wire

/-!
# What the wire format keeps

A message comes back as it was up to its dependencies, its command and its conflict. Entries of
replica 0 are not pushed and no more than `N` are read, so a dependency array survives if the
slots read hold entries of other replicas and the memory written to agrees on the rest. All spans
that are not empty are pushed, whatever `tx_size` is, and the schema's `id` is a byte. The
conflict is not in the schema, and a `PRE_ACCEPT_OK` is sent without its data.
-/

namespace Epx

section Numbers

theorem toUInt64_toUInt16 {x : UInt64} (h : x < 65536) : x.toUInt16.toUInt64 = x := by
  have hx : x.toNat < 65536 := UInt64.lt_iff_toNat_lt.1 h
  rw [← UInt64.toNat_inj, UInt16.toNat_toUInt64, UInt64.toNat_toUInt16]
  omega

theorem toUInt32_toUInt8_iff {x : UInt32} : x.toUInt8.toUInt32 = x ↔ x < 256 := by
  rw [← UInt32.toNat_inj, UInt8.toNat_toUInt32, UInt32.toNat_toUInt8, UInt32.lt_iff_toNat_lt]
  have h : (256 : UInt32).toNat = 256 := rfl
  omega

end Numbers

section Lists

variable {α : Type*} {l : List α} {p : α → Bool} {n : ℕ}

/-- A filter starts as its list does if it keeps what the list starts with. -/
theorem take_filter_iff (h : n ≤ (l.filter p).length) :
    (l.filter p).take n = l.take n ↔ ∀ x ∈ l.take n, p x := by
  constructor
  · intro heq x hx
    rw [← heq] at hx
    exact List.of_mem_filter (List.mem_of_mem_take hx)
  · intro hp
    have hn : n ≤ l.length := h.trans (List.length_filter_le _ _)
    have hf : l.filter p = l.take n ++ (l.drop n).filter p := by
      conv_lhs => rw [← List.take_append_drop n l]
      rw [List.filter_append, List.filter_eq_self.2 hp]
    rw [hf]
    exact List.take_left' (by simp [hn])

/-- A filter is the first `n` elements if it keeps these and no other. -/
theorem filter_eq_take_iff (hn : n ≤ l.length) :
    l.filter p = l.take n ↔ ∀ (i : ℕ) (hi : i < l.length), p l[i] = true ↔ i < n := by
  have hl : l.filter p = (l.take n).filter p ++ (l.drop n).filter p := by
    rw [← List.filter_append, List.take_append_drop]
  constructor
  · intro heq
    have hp : ∀ x ∈ l.take n, p x := by
      intro x hx
      rw [← heq] at hx
      exact List.of_mem_filter hx
    have hd : (l.drop n).filter p = [] := by
      rw [heq, List.filter_eq_self.2 hp] at hl
      exact List.append_cancel_left (hl.symm.trans (List.append_nil _).symm)
    intro i hi
    constructor
    · intro hpi
      by_contra hni
      have hm : l[i] ∈ l.drop n :=
        List.mem_drop_iff_getElem.2
          ⟨i - n, by omega, by simp only [Nat.add_sub_cancel' (not_lt.1 hni)]⟩
      exact (List.filter_eq_nil_iff.1 hd _ hm) hpi
    · intro hlt
      exact hp _ (List.mem_take_iff_getElem.2 ⟨i, by omega, rfl⟩)
  · intro h
    have ht : (l.take n).filter p = l.take n := by
      refine List.filter_eq_self.2 fun x hx => ?_
      obtain ⟨i, hi, rfl⟩ := List.mem_take_iff_getElem.1 hx
      exact (h i (by omega)).2 (by omega)
    have hd : (l.drop n).filter p = [] := by
      refine List.filter_eq_nil_iff.2 fun x hx => ?_
      obtain ⟨i, hi, rfl⟩ := List.mem_drop_iff_getElem.1 hx
      exact fun hp => absurd ((h (n + i) (by omega)).1 hp) (by omega)
    rw [hl, ht, hd, List.append_nil]

end Lists

section Parts

variable {old deps : Fin maxDeps → RawDependency} (buf : RawCommand) {c : RawCommand}

/-- The slots read into hold entries of replicas above 0, and the others hold in the memory written
to what they hold in the message. -/
def DepsKept (old deps : Fin maxDeps → RawDependency) : Prop :=
  ∀ i : Fin maxDeps,
    if i < min N ((List.ofFn deps).countP fun d => decide (0 < d.id.replicaId)) then
      0 < (deps i).id.replicaId
    else old i = deps i

instance (old deps : Fin maxDeps → RawDependency) : Decidable (DepsKept old deps) :=
  inferInstanceAs (Decidable (∀ _ : Fin maxDeps, ite _ _ _))

/-- The command's id is a byte, and its spans in use are those not empty. -/
def CommandKept (c : RawCommand) : Prop :=
  c.id.toUInt32 < 256 ∧ ∀ i : Fin txSize, emptyRange (c.spans i) = false ↔ i < c.used

theorem dependencyFromBuffer_dependencyToBuffer {d : RawDependency} (h : d.id.replicaId < 65536) :
    dependencyFromBuffer (dependencyToBuffer d) = d := by
  unfold dependencyFromBuffer dependencyToBuffer
  rw [toUInt64_toUInt16 h]

/-- The entries read are those pushed, as they were. -/
theorem read_depsToBuffer (h : ∀ i, (deps i).id.replicaId < 65536) :
    ((depsToBuffer deps).take N).map dependencyFromBuffer
      = ((List.ofFn deps).filter fun d => decide (0 < d.id.replicaId)).take N := by
  have hid : ((List.ofFn deps).filter fun d => decide (0 < d.id.replicaId)).map
      (dependencyFromBuffer ∘ dependencyToBuffer)
        = (List.ofFn deps).filter fun d => decide (0 < d.id.replicaId) := by
    rw [List.map_congr_left (g := id), List.map_id]
    intro d hd
    obtain ⟨i, rfl⟩ := List.mem_ofFn.1 (List.mem_of_mem_filter hd)
    exact dependencyFromBuffer_dependencyToBuffer (h i)
  unfold depsToBuffer
  rw [List.map_take, List.map_map, hid]

/-- A dependency array comes back as it was if it is kept. -/
theorem depsFromBuffer_depsToBuffer_iff (h : ∀ i, (deps i).id.replicaId < 65536) :
    depsFromBuffer old (depsToBuffer deps) = deps ↔ DepsKept old deps := by
  set p : RawDependency → Bool := fun d => decide (0 < d.id.replicaId) with hp
  set n := min N (((List.ofFn deps).filter p).length) with hn
  have hlen : n ≤ ((List.ofFn deps).filter p).length := min_le_right _ _
  have hget : ∀ i : Fin maxDeps, depsFromBuffer old (depsToBuffer deps) i
      = if (i : ℕ) < n then (((List.ofFn deps).filter p).take n)[(i : ℕ)]?.getD (old i)
        else old i := by
    intro i
    unfold depsFromBuffer
    rw [read_depsToBuffer h, List.getD_eq_getElem?_getD]
    split_ifs with hi
    · rw [List.getElem?_take_of_lt hi, List.getElem?_take_of_lt (hi.trans_le (min_le_left _ _))]
    · rw [List.getElem?_eq_none, Option.getD_none]
      rw [List.length_take]
      exact not_lt.1 hi
  have hl : ∀ i : Fin maxDeps, (i : ℕ) < n → ((List.ofFn deps).take n)[(i : ℕ)]? = some (deps i) := by
    intro i hi
    rw [List.getElem?_take_of_lt hi, List.getElem?_ofFn, dif_pos i.2]
  have hkept : DepsKept old deps ↔
      ∀ i : Fin maxDeps, if (i : ℕ) < n then p (deps i) = true else old i = deps i := by
    unfold DepsKept
    rw [List.countP_eq_length_filter]
    simp only [hp, decide_eq_true_eq, hn]
  rw [hkept, funext_iff]
  constructor
  · intro heq
    have ht : ((List.ofFn deps).filter p).take n = (List.ofFn deps).take n := by
      refine List.ext_getElem? fun i => ?_
      by_cases hi : i < n
      · have hm : i < maxDeps := by
          have := hlen.trans (List.length_filter_le _ _)
          rw [List.length_ofFn] at this
          omega
        have := heq ⟨i, hm⟩
        rw [hget, if_pos hi] at this
        rw [hl ⟨i, hm⟩ hi, ← this]
        rw [List.getElem?_eq_getElem (by rw [List.length_take]; omega)]
        rfl
      · rw [List.getElem?_eq_none, List.getElem?_eq_none] <;> rw [List.length_take] <;> omega
    intro i
    split_ifs with hi
    · exact (take_filter_iff hlen).1 ht _ (List.mem_of_getElem? (hl i hi))
    · rw [← heq i, hget, if_neg hi]
  · intro hk i
    have hall : ∀ x ∈ (List.ofFn deps).take n, p x = true := by
      intro x hx
      obtain ⟨j, hj, rfl⟩ := List.mem_take_iff_getElem.1 hx
      have hjd : j < maxDeps := by
        rw [List.length_ofFn] at hj
        omega
      have := hk ⟨j, hjd⟩
      rw [if_pos (show j < n by omega)] at this
      simpa only [List.getElem_ofFn] using this
    have := hk i
    rw [hget]
    split_ifs at this ⊢ with hi
    · rw [(take_filter_iff hlen).2 hall, hl i hi]
      rfl
    · exact this

/-- The spans in use come back as they were if they are those pushed. -/
theorem spans_iff (hu : c.used ≤ txSize) :
    (((List.ofFn c.spans).filter fun s => !emptyRange s).length = c.used ∧
      ∀ i : Fin txSize, i < c.used →
        ((List.ofFn c.spans).filter fun s => !emptyRange s).getD i (buf.spans i) = c.spans i)
      ↔ ∀ i : Fin txSize, emptyRange (c.spans i) = false ↔ i < c.used := by
  have hlen : (List.ofFn c.spans).length = txSize := List.length_ofFn
  have hiff := filter_eq_take_iff (p := fun s => !emptyRange s) (hlen.ge.trans' hu)
  have hslots : (∀ (i : ℕ) (hi : i < (List.ofFn c.spans).length),
      (!emptyRange (List.ofFn c.spans)[i]) = true ↔ i < c.used)
        ↔ ∀ i : Fin txSize, emptyRange (c.spans i) = false ↔ i < c.used := by
    constructor
    · intro h i
      simpa using h i (hlen.ge.trans_lt' i.2)
    · intro h i hi
      simpa using h ⟨i, hlen ▸ hi⟩
  rw [← hslots, ← hiff]
  constructor
  · rintro ⟨hl, hs⟩
    refine List.ext_getElem (by rw [hl, List.length_take]; omega) fun i hi _ => ?_
    rw [hl] at hi
    have := hs ⟨i, hi.trans_le hu⟩ hi
    rw [List.getD_eq_getElem _ _ (hl.symm ▸ hi)] at this
    rw [this, List.getElem_take, List.getElem_ofFn]
  · intro heq
    rw [heq]
    refine ⟨by rw [List.length_take]; omega, fun i hi => ?_⟩
    rw [List.getD_eq_getElem?_getD, List.getElem?_take_of_lt hi, List.getElem?_ofFn, dif_pos i.2]
    rfl

/-- A command comes back as it was if it is kept. -/
theorem commandFromBuffer_commandToBuffer (hu : c.used ≤ txSize) :
    ∃ d, commandFromBuffer buf (commandToBuffer c) = some d ∧ (c.Same d ↔ CommandKept c) := by
  have hlen : (commandToBuffer c).spans.length ≤ txSize :=
    (List.length_filter_le _ _).trans_eq List.length_ofFn
  refine ⟨_, if_pos hlen, ?_⟩
  have hid : (⟨c.id.toUInt32.toUInt8.toUInt32⟩ : Int32) = c.id ↔ c.id.toUInt32 < 256 :=
    ⟨fun h => toUInt32_toUInt8_iff.1 (congrArg Int32.toUInt32 h),
      fun h => congrArg Int32.ofUInt32 (toUInt32_toUInt8_iff.2 h)⟩
  constructor
  · intro h
    exact ⟨hid.1 h.id, (spans_iff buf hu).1 ⟨h.used, h.spans⟩⟩
  · rintro ⟨hb, hs⟩
    obtain ⟨hl, hs⟩ := (spans_iff buf hu).2 hs
    exact ⟨hid.2 hb, hl, rfl, hs⟩

end Parts

section Messages

variable {m prev : RawMessage} {buf : RawCommand}

/-- What `io_reader` is given to send: the id within the schema's range, the sender and the
dependencies those of replicas, the command's spans in its array. -/
structure Sendable (m : RawMessage) : Prop where
  id : m.id.replicaId < 65536
  sender : m.sender.toNat < N
  deps : ∀ i, (m.deps i).id.replicaId.toNat < N
  command : ∀ c, m.command = some c → c.used ≤ txSize

/-- The field comes back from memory `prev` as it was. A `PRE_ACCEPT_OK` has no data on the wire. -/
def Field.Kept (prev m : RawMessage) : Field → Prop
  | seq => m.type = .preAcceptOk → seq.Same m prev
  | deps => if m.type = .preAcceptOk then deps.Same m prev else DepsKept prev.deps m.deps
  | command =>
    if m.type = .preAcceptOk then command.Same m prev else ∀ c, m.command = some c → CommandKept c
  | conflict => conflict.Same m prev
  | _ => True

theorem lt_of_toNat_lt_N {x : UInt64} (h : x.toNat < N) : x < 65536 :=
  UInt64.lt_iff_toNat_lt.2 (h.trans (by decide))

theorem commandOfData_iff (buf : RawCommand) {c : Option RawCommand}
    (hu : ∀ d, c = some d → d.used ≤ txSize) :
    ∃ d, commandOfData (some buf) (c.map commandToBuffer) = some d
      ∧ (Option.Rel RawCommand.Same c d ↔ ∀ e, c = some e → CommandKept e) := by
  cases c with
  | none => exact ⟨none, rfl, by simp, fun _ => .none⟩
  | some c =>
    obtain ⟨d, hd, hiff⟩ := commandFromBuffer_commandToBuffer buf (hu c rfl)
    refine ⟨some d, congrArg (Option.map some) hd, ?_⟩
    rw [Option.rel_some_some, hiff]
    simp

/-- What a message is once it has come back. -/
theorem messageFromBuffer_messageToBuffer (h : Sendable m) (hp : prev.command = some buf) :
    ∃ d, messageFromBuffer prev (messageToBuffer m) = some d ∧ d.type = m.type ∧ d.id = m.id
      ∧ ∀ f : Field, f.Same m d ↔ f.Kept prev m := by
  have hid : (⟨m.id.replicaId.toUInt16.toUInt64, m.id.instanceId⟩ : RawId) = m.id := by
    rw [toUInt64_toUInt16 h.id]
  have hs : m.sender.toUInt16.toUInt64 = m.sender := toUInt64_toUInt16 (lt_of_toNat_lt_N h.sender)
  by_cases ht : m.type = .preAcceptOk
  · refine ⟨_, if_pos ht, rfl, hid, fun f => ?_⟩
    cases f with
    | ballot | nack | instanceStatus => exact iff_of_true rfl trivial
    | sender => exact iff_of_true hs trivial
    | conflict => exact Iff.rfl
    | seq => exact ⟨fun h _ => h, fun h => h ht⟩
    | deps => exact (iff_of_eq (if_pos ht)).symm
    | command => exact (iff_of_eq (if_pos ht)).symm
  · obtain ⟨c, hc, hiff⟩ := commandOfData_iff buf h.command
    have hdata : (messageToBuffer m).data = some (instanceDataToBuffer m) := if_neg ht
    unfold messageFromBuffer
    rw [hdata]
    simp only [messageToBuffer, if_neg ht, instanceDataFromBuffer, instanceDataToBuffer, hp, hc]
    refine ⟨_, rfl, rfl, hid, fun f => ?_⟩
    cases f with
    | ballot | nack | instanceStatus => exact iff_of_true rfl trivial
    | seq => exact iff_of_true rfl fun h => absurd h ht
    | command => exact hiff.trans (iff_of_eq (if_neg ht)).symm
    | deps =>
      have hk : depsFromBuffer prev.deps (depsToBuffer m.deps) = m.deps ↔ DepsKept prev.deps m.deps :=
        depsFromBuffer_depsToBuffer_iff fun i => lt_of_toNat_lt_N (h.deps i)
      exact hk.trans (iff_of_eq (if_neg ht)).symm
    | sender => exact iff_of_true hs trivial
    | conflict => exact Iff.rfl

/-- A message comes back with all its handler reads exactly if each of these fields is kept. -/
theorem roundTrip_iff (h : Sendable m) (hp : prev.command = some buf) :
    (∃ d, messageFromBuffer prev (messageToBuffer m) = some d ∧ m.Agrees d)
      ↔ ∀ f ∈ m.reads, f.Kept prev m := by
  obtain ⟨d, hd, ht, hid, hf⟩ := messageFromBuffer_messageToBuffer h hp
  constructor
  · rintro ⟨d', hd', ha⟩ f hm
    cases hd.symm.trans hd'
    exact (hf f).1 (ha.read f hm)
  · intro hk
    exact ⟨d, hd, ht, hid, fun f hm => (hf f).2 (hk f hm)⟩

end Messages

section Samples

/-- The memory `new_message` allocates, zeroed. -/
def freshRaw : RawMessage where
  type := .phase1
  dest := 0
  ballot := 0
  nack := 0
  id := ⟨0, 0⟩
  command := some ⟨fun _ => ⟨[], []⟩, 0, 0, .read⟩
  seq := 0
  deps := fun _ => ⟨⟨0, 0⟩, 0⟩
  sender := 0
  instanceStatus := .none
  conflict := ⟨⟨0, 0⟩, .none⟩
  start := 0
  stop := 0

/-- A `COMMIT` of instance (1, 3), which depends on the fifth instance of replica `k`. -/
def commitAfter (k : UInt64) : RawMessage :=
  { freshRaw with
    type := .commit, id := ⟨1, 3⟩, seq := 7, sender := 1, command := none
    deps := fun i => if i.val = 0 then ⟨⟨k, 5⟩, 1⟩ else ⟨⟨0, 0⟩, 0⟩ }

theorem commitAfter_sendable {k : UInt64} (h : k.toNat < N) : Sendable (commitAfter k) where
  id := show (1 : UInt64) < 65536 by decide
  sender := show (1 : UInt64).toNat < N by decide
  deps i := by
    unfold commitAfter
    dsimp only
    split_ifs
    · exact h
    · decide
  command _ hc := by cases hc

theorem roundTrip_iff_commit :
    ∃ d, messageFromBuffer freshRaw (messageToBuffer (commitAfter 2)) = some d
      ∧ (commitAfter 2).Agrees d :=
  (roundTrip_iff (commitAfter_sendable (by decide)) rfl).2 fun f hf => by
    have hf : f = .seq ∨ f = .deps := List.mem_pair.1 hf
    rcases hf with rfl | rfl
    · rintro ⟨⟩
    · exact show DepsKept _ _ by decide

/-- A dependency on an instance of replica 0 does not come back. -/
theorem roundTrip_loses_dependency : ¬ ∀ m prev buf, Sendable m → prev.command = some buf →
    ∃ d, messageFromBuffer prev (messageToBuffer m) = some d ∧ m.Agrees d := by
  intro hall
  have hs : Sendable (commitAfter 0) := commitAfter_sendable (by decide)
  obtain ⟨d, hd, ha⟩ := hall (commitAfter 0) freshRaw _ hs rfl
  obtain ⟨d', hd', -, -, hf⟩ := messageFromBuffer_messageToBuffer hs
    (show freshRaw.command = some _ from rfl)
  cases hd.symm.trans hd'
  have hk : DepsKept freshRaw.deps (commitAfter 0).deps :=
    (hf .deps).1 (ha.read .deps (by decide))
  exact absurd hk (by decide)

end Samples

end Epx
