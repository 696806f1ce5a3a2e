import Epx.Decode

/-!
# When decoding stays within the command

The loop over the spans goes on for as many spans as the buffer has, and `strcpy` for as many bytes
as a key has, so both arrays are kept to exactly where the buffer keeps to them. Without data the
message keeps the command of its memory, whatever is there. On what the encoder writes, the decoder
of any buffer is that of the wire format.
-/

namespace Epx

namespace Flat

/-- The string is there and its bytes fit in a key with the terminator. -/
def KeyFits (src : Option (List UInt8)) : Prop := ∃ s, src = some s ∧ (cString s).length < keySize

/-- The spans have room in a command, and their keys in its keys. -/
def Command.Fits (w : Command) : Prop :=
  (w.spans.getD []).length ≤ txSize ∧ ∀ sp ∈ w.spans.getD [], KeyFits sp.startKey ∧ KeyFits sp.endKey

/-- The message is rejected: no root, no instance id or no type. -/
def Rejected : Option Message → Prop
  | none => True
  | some bm => bm.instanceId = none ∨ bm.type = none

/-- The data that `message_from_buffer` decodes. -/
def Message.decoded (bm : Message) : Option Data :=
  if bm.type = some preAcceptOkByte then none else bm.data

/-- A command in the data fits. -/
def Data.Fits (data : Data) : Prop := ∀ w, data.command = some w → w.Fits

/-- The decoder returns, with an error or with no more spans in use than a command has. -/
def StaysWithin (r : Option (ℤ × Received)) : Prop :=
  ∃ rc m, r = some (rc, m) ∧ (rc ≠ 0 ∨ ∀ c, m.command = some c → c.used ≤ txSize)

section Loops

theorem strcpy_isSome_iff {src : Option (List UInt8)} :
    (∃ k, strcpy src = some k) ↔ KeyFits src := by
  unfold strcpy KeyFits
  constructor
  · rintro ⟨k, hk⟩
    obtain ⟨s, hs, hk⟩ := Option.bind_eq_some_iff.1 hk
    split_ifs at hk with hlt
    exact ⟨s, hs, hlt⟩
  · rintro ⟨s, rfl, hlt⟩
    exact ⟨cString s, if_pos hlt⟩

/-- The loop over the spans returns exactly where each has its slot and fits in it. -/
theorem spansLoop_iff : ∀ {sps : List Span} {i : ℕ} {spans : Fin txSize → Epx.Span},
    (∃ r, spansLoop sps i spans = some r) ↔ (sps ≠ [] → i + sps.length ≤ txSize)
      ∧ ∀ sp ∈ sps, KeyFits sp.startKey ∧ KeyFits sp.endKey
  | [], i, spans => iff_of_true ⟨spans, rfl⟩
      ⟨fun h => absurd rfl h, fun _ h => absurd h List.not_mem_nil⟩
  | sp :: sps, i, spans => by
    rw [spansLoop, List.forall_mem_cons, List.length_cons]
    constructor
    · rintro ⟨r, hr⟩
      split_ifs at hr with hi
      obtain ⟨a, ha, hr⟩ := Option.bind_eq_some_iff.1 hr
      obtain ⟨b, hb, hr⟩ := Option.bind_eq_some_iff.1 hr
      obtain ⟨hlen, hfit⟩ := spansLoop_iff.1 ⟨r, hr⟩
      refine ⟨fun _ => ?_, ⟨strcpy_isSome_iff.1 ⟨a, ha⟩, strcpy_isSome_iff.1 ⟨b, hb⟩⟩, hfit⟩
      by_cases hn : sps = []
      · rw [hn, List.length_nil]
        omega
      · have := hlen hn
        omega
    · rintro ⟨hlen, ⟨ha, hb⟩, hfit⟩
      have hle := hlen (List.cons_ne_nil _ _)
      obtain ⟨a, ha⟩ := strcpy_isSome_iff.2 ha
      obtain ⟨b, hb⟩ := strcpy_isSome_iff.2 hb
      rw [dif_pos (by omega : i < txSize), ha, Option.bind_some, hb, Option.bind_some]
      exact spansLoop_iff.2 ⟨fun _ => by omega, hfit⟩

/-- The loop over the dependencies keeps to the array. -/
theorem depsLoop_isSome : ∀ {ds : List WireDependency} {i : ℕ} {deps : Fin maxDeps → RawDependency},
    i + ds.length ≤ maxDeps → ∃ r, depsLoop ds i deps = some r
  | [], _, deps, _ => ⟨deps, rfl⟩
  | d :: ds, i, deps, h => by
    rw [List.length_cons] at h
    rw [depsLoop, dif_pos (by omega)]
    exact depsLoop_isSome (by omega)

end Loops

section Decode

variable {m : Received} {mem : RawCommand} {w : Command} {data : Data} {bm : Message}

theorem commandFromBuffer_iff : (∃ c, commandFromBuffer mem w = some c) ↔ w.Fits := by
  unfold commandFromBuffer Command.Fits
  constructor
  · rintro ⟨c, hc⟩
    obtain ⟨spans, hs, -⟩ := Option.map_eq_some_iff.1 hc
    obtain ⟨hlen, hfit⟩ := spansLoop_iff.1 ⟨spans, hs⟩
    refine ⟨?_, hfit⟩
    by_cases hn : w.spans.getD [] = []
    · rw [hn]
      exact Nat.zero_le _
    · simpa using hlen hn
  · rintro ⟨hlen, hfit⟩
    have hlen' : 0 + (w.spans.getD []).length ≤ txSize := by omega
    obtain ⟨spans, hs⟩ := (@spansLoop_iff _ 0 mem.spans).2 ⟨fun _ => hlen', hfit⟩
    rw [hs]
    exact ⟨_, rfl⟩

theorem commandFromBuffer_used {c : RawCommand} (h : commandFromBuffer mem w = some c) :
    c.used = (w.spans.getD []).length := by
  obtain ⟨_, -, rfl⟩ := Option.map_eq_some_iff.1 h
  rfl

theorem instanceDataFromBuffer_iff (hm : m.command = some mem) :
    (∃ r, instanceDataFromBuffer m data = some r) ↔ data.Fits := by
  have hdeps : ∃ deps, depsLoop ((data.deps.getD []).take N) 0 m.deps = some deps :=
    depsLoop_isSome (by
      rw [List.length_take]
      exact (Nat.zero_add _).trans_le ((min_le_left _ _).trans (by decide)))
  obtain ⟨deps, hdeps⟩ := hdeps
  unfold instanceDataFromBuffer Data.Fits
  rw [hdeps, hm]
  rcases hw : data.command with _ | w
  · exact iff_of_true ⟨_, rfl⟩ fun w h => by cases h
  · rw [commandOfData, Option.bind_some]
    constructor
    · rintro ⟨r, hr⟩ w' hw'
      obtain ⟨c, hc, -⟩ := Option.bind_eq_some_iff.1 hr
      obtain ⟨c, hc, -⟩ := Option.map_eq_some_iff.1 hc
      cases hw'
      exact commandFromBuffer_iff.1 ⟨c, hc⟩
    · intro h
      obtain ⟨c, hc⟩ := (@commandFromBuffer_iff mem w).2 (h w rfl)
      rw [hc]
      exact ⟨_, rfl⟩

/-- A command decoded has as many spans in use as the buffer's. -/
theorem instanceDataFromBuffer_used {r : Received} {c : RawCommand}
    (h : instanceDataFromBuffer m data = some r) (hc : r.command = some c) :
    ∃ w, data.command = some w ∧ c.used = (w.spans.getD []).length := by
  obtain ⟨command, hcmd, h⟩ := Option.bind_eq_some_iff.1 h
  obtain ⟨deps, -, rfl⟩ := Option.map_eq_some_iff.1 h
  obtain rfl : command = some c := hc
  unfold commandOfData at hcmd
  split at hcmd
  · cases hcmd
  · rename_i w hw
    obtain ⟨c', hc', hcc⟩ := Option.map_eq_some_iff.1 hcmd
    cases hcc
    obtain ⟨mem, -, hfrom⟩ := Option.bind_eq_some_iff.1 hc'
    exact ⟨w, hw, commandFromBuffer_used hfrom⟩

/-- A command is decoded where the data have one. -/
theorem instanceDataFromBuffer_command {r : Received}
    (h : instanceDataFromBuffer m data = some r) : r.command = none ↔ data.command = none := by
  obtain ⟨command, hcmd, h⟩ := Option.bind_eq_some_iff.1 h
  obtain ⟨deps, -, rfl⟩ := Option.map_eq_some_iff.1 h
  unfold commandOfData at hcmd
  split at hcmd
  · rename_i hw
    exact iff_of_true (Option.some.inj hcmd).symm hw
  · rename_i w hw
    obtain ⟨c, -, hc⟩ := Option.map_eq_some_iff.1 hcmd
    subst hc
    refine iff_of_false (by rintro ⟨⟩) fun h => ?_
    rw [hw] at h
    cases h

/-- What becomes of a message: it is rejected, has no data to decode, or is what the data make of
it. -/
theorem messageFromBuffer_cases (m : Received) (b : Option Message) :
    (Rejected b ∧ ∃ m', messageFromBuffer m b = some (1, m'))
    ∨ ∃ bm m', b = some bm ∧ ¬ Rejected b ∧ m'.command = m.command
      ∧ (bm.decoded = none ∧ messageFromBuffer m b = some (0, m')
        ∨ ∃ data, bm.decoded = some data
          ∧ messageFromBuffer m b = (instanceDataFromBuffer m' data).map fun m => (0, m)) := by
  rcases b with _ | bm
  · exact .inl ⟨trivial, _, rfl⟩
  rcases hid : bm.instanceId with _ | id
  · exact .inl ⟨.inl hid, _, by rw [messageFromBuffer, hid]⟩
  rcases hty : bm.type with _ | type
  · exact .inl ⟨.inr hty, _, by rw [messageFromBuffer, hid, hty]⟩
  have hrej : ¬ Rejected (some bm) := by
    rintro (h | h)
    · rw [hid] at h
      cases h
    · rw [hty] at h
      cases h
  obtain ⟨m', hcmd, hm'⟩ : ∃ m' : Received, m'.command = m.command
      ∧ messageFromBuffer m (some bm) = if type = preAcceptOkByte then some ((0 : ℤ), m')
        else bm.data.elim (some (0, m')) fun data =>
          (instanceDataFromBuffer m' data).map fun m => (0, m) := by
    refine ⟨{ m with
      dest := bm.dest.toUInt64, sender := bm.sender.toUInt64, nack := bm.nack, ballot := bm.ballot
      instanceStatus := bm.instanceStatus, id := ⟨id.replicaId.toUInt64, id.instanceId⟩
      type, stop := bm.stp.getD m.stop, start := bm.srt.getD m.start }, rfl, ?_⟩
    rw [messageFromBuffer, hid, hty]
    rcases bm.data with _ | data <;> rfl
  refine .inr ⟨bm, m', rfl, hrej, hcmd, ?_⟩
  rw [hm']
  unfold Message.decoded
  by_cases hok : type = preAcceptOkByte
  · rw [if_pos hok, hty, hok, if_pos rfl]
    exact .inl ⟨rfl, rfl⟩
  · rw [if_neg hok, hty, if_neg fun h => hok (Option.some.inj h)]
    rcases bm.data with _ | data
    · exact .inl ⟨rfl, rfl⟩
    · exact .inr ⟨data, rfl, rfl⟩

end Decode

/-- Decoding into a message with the command `mem` stays within it exactly where the message is
rejected, or the data's command fits and, without data, `mem` has no more spans in use than room. -/
theorem decode_staysWithin_iff (m : Received) (mem : RawCommand) (b : Option Message) :
    StaysWithin (messageFromBuffer { m with command := some mem } b) ↔
      Rejected b ∨ ∃ bm, b = some bm ∧ (bm.decoded = none → mem.used ≤ txSize)
        ∧ ∀ data, bm.decoded = some data → data.Fits := by
  rcases messageFromBuffer_cases { m with command := some mem } b with
    ⟨hrej, m', hm'⟩ | ⟨bm, m', rfl, hrej, hcmd, ⟨hdec, hm'⟩ | ⟨data, hdec, hm'⟩⟩ <;> rw [hm']
  · exact iff_of_true ⟨1, m', rfl, .inl one_ne_zero⟩ (.inl hrej)
  · rw [or_iff_right hrej]
    constructor
    · rintro ⟨rc, m₁, h, hok⟩
      cases h
      refine ⟨bm, rfl, fun _ => ?_, fun data hd => ?_⟩
      · exact hok.resolve_left (fun h => h rfl) mem hcmd
      · rw [hdec] at hd
        cases hd
    · rintro ⟨_, ⟨⟩, hmem, -⟩
      refine ⟨0, m', rfl, .inr fun c hc => ?_⟩
      rw [hcmd] at hc
      exact Option.some.inj hc ▸ hmem hdec
  · rw [or_iff_right hrej]
    constructor
    · rintro ⟨rc, m₁, h, -⟩
      obtain ⟨r, hr, -⟩ := Option.map_eq_some_iff.1 h
      refine ⟨bm, rfl, fun h => ?_, fun data' hd => ?_⟩
      · rw [hdec] at h
        cases h
      · cases hdec.symm.trans hd
        exact (instanceDataFromBuffer_iff hcmd).1 ⟨r, hr⟩
    · rintro ⟨_, ⟨⟩, -, hfit⟩
      obtain ⟨r, hr⟩ := (instanceDataFromBuffer_iff hcmd).2 (hfit data hdec)
      refine ⟨0, r, by rw [hr]; rfl, .inr fun c hc => ?_⟩
      obtain ⟨w, hw, hu⟩ := instanceDataFromBuffer_used hr hc
      rw [hu]
      exact (hfit data hdec w hw).1

/-- A command's memory with as many spans in use. -/
def memory (used : ℕ) : RawCommand := ⟨fun _ => ⟨[], []⟩, used, 0, .read⟩

/-- A message with nothing in it but a command. -/
def blank (mem : RawCommand) : Received where
  type := 0
  dest := 0
  ballot := 0
  nack := 0
  id := ⟨0, 0⟩
  command := some mem
  seq := 0
  deps := fun _ => ⟨⟨0, 0⟩, 0⟩
  sender := 0
  instanceStatus := 0
  start := 0
  stop := 0

/-- A write of one span, whose start key is as given, for instance 0.1. -/
def proposal (startKey : List UInt8) : Message where
  sender := 0
  dest := 0
  nack := 0
  ballot := 0
  instanceId := some ⟨0, 1⟩
  type := some 1
  data := some ⟨some ⟨0, some [⟨some startKey, some [98]⟩], .write⟩, 0, none⟩
  instanceStatus := 1
  srt := none
  stp := none

/-- A key of `KEY_SIZE` bytes runs over with its terminator, and without data the command in use is
whatever the memory holds. -/
theorem decode_overruns :
    ¬ StaysWithin (messageFromBuffer (blank (memory 0)) (some (proposal [97, 98, 99])))
      ∧ ¬ StaysWithin (messageFromBuffer (blank (memory 4096))
        (some { proposal [97] with data := none })) := by
  constructor
  · rintro ⟨rc, m, h, -⟩
    cases h
  · rintro ⟨rc, m, h, hok⟩
    cases h
    have hused : 4096 ≤ txSize := hok.resolve_left (fun h => h rfl) _ rfl
    exact absurd hused (by decide)

end Flat

section Tables

variable {α : Type*} {n : ℕ}

/-- A key as it lies in memory. -/
def KeyStored (k : Key) : Prop := 0 ∉ k ∧ k.length < keySize

/-- The keys of the spans are as they lie in memory. -/
def SpansStored (ss : List Span) : Prop := ∀ s ∈ ss, KeyStored s.startKey ∧ KeyStored s.endKey

/-- The slots from `i` on take the elements of the list, as far as it goes. -/
def storeFrom (xs : List α) (i : ℕ) (f : Fin n → α) : Fin n → α :=
  fun j => if j.val < i then f j else xs.getD (j.val - i) (f j)

theorem storeFrom_nil {i : ℕ} {f : Fin n → α} : storeFrom [] i f = f := by
  funext j
  unfold storeFrom
  rw [List.getD_nil, ite_self]

theorem storeFrom_cons {x : α} {xs : List α} {i : ℕ} {f : Fin n → α} (h : i < n) :
    storeFrom (x :: xs) i f = storeFrom xs (i + 1) (Function.update f ⟨i, h⟩ x) := by
  funext j
  unfold storeFrom
  rcases lt_trichotomy j.val i with hlt | heq | hgt
  · have hne : j ≠ ⟨i, h⟩ := fun he => absurd (congrArg Fin.val he) hlt.ne
    rw [if_pos hlt, if_pos (hlt.trans (Nat.lt_succ_self i)), Function.update_of_ne hne]
  · have he : j = ⟨i, h⟩ := Fin.ext heq
    rw [if_neg heq.not_lt, if_pos (Nat.lt_succ_of_le heq.le), he, Function.update_self,
      Nat.sub_self, List.getD_cons_zero]
  · have hne : j ≠ ⟨i, h⟩ := fun he => absurd (congrArg Fin.val he) hgt.ne'
    obtain ⟨d, hd⟩ : ∃ d, j.val = i + (d + 1) := ⟨j.val - i - 1, by omega⟩
    rw [if_neg hgt.not_gt, if_neg (by omega), Function.update_of_ne hne, hd,
      Nat.add_sub_cancel_left, List.getD_cons_succ]
    congr 1
    omega

theorem strcpy_stored {k : Key} (h : KeyStored k) : Flat.strcpy (some k) = some k := by
  have hk : Flat.cString k = k := List.takeWhile_eq_self_iff.2 fun b hb => by
    simpa using fun he : b = 0 => h.1 (he ▸ hb)
  rw [Flat.strcpy, Option.bind_some, hk, if_pos h.2]

/-- The loop over the spans stores them one behind the other. -/
theorem spansLoop_stored : ∀ {ss : List Span} {i : ℕ} {spans : Fin txSize → Span},
    SpansStored ss → i + ss.length ≤ txSize →
    Flat.spansLoop (ss.map fun s => ⟨some s.startKey, some s.endKey⟩) i spans
      = some (storeFrom ss i spans)
  | [], i, spans, _, _ => congrArg some storeFrom_nil.symm
  | s :: ss, i, spans, hk, hlen => by
    rw [List.length_cons] at hlen
    obtain ⟨hs, he⟩ := hk s List.mem_cons_self
    have hi : i < txSize := by omega
    rw [List.map_cons, Flat.spansLoop, dif_pos hi, strcpy_stored hs, strcpy_stored he,
      Option.bind_some, Option.bind_some, storeFrom_cons hi]
    exact spansLoop_stored (fun t ht => hk t (List.mem_cons_of_mem _ ht)) (by omega)

/-- The loop over the dependencies stores them one behind the other. -/
theorem depsLoop_eq : ∀ {ds : List WireDependency} {i : ℕ} {deps : Fin maxDeps → RawDependency},
    i + ds.length ≤ maxDeps →
    Flat.depsLoop ds i deps = some (storeFrom (ds.map dependencyFromBuffer) i deps)
  | [], i, deps, _ => congrArg some storeFrom_nil.symm
  | d :: ds, i, deps, hlen => by
    rw [List.length_cons] at hlen
    have hi : i < maxDeps := by omega
    rw [List.map_cons, Flat.depsLoop, dif_pos hi, storeFrom_cons hi]
    exact depsLoop_eq (by omega)

/-- The decoders of a command agree where its keys are as they lie in memory. -/
theorem commandFromBuffer_table {w : WireCommand} {c : RawCommand} (h : SpansStored w.spans) :
    Flat.commandFromBuffer c w.table = commandFromBuffer c w := by
  unfold Flat.commandFromBuffer commandFromBuffer WireCommand.table
  rw [Option.getD_some, List.length_map]
  split_ifs with hlen
  · rw [spansLoop_stored h ((Nat.zero_add _).trans_le hlen)]
    rfl
  · have hnone : Flat.spansLoop (w.spans.map fun s => ⟨some s.startKey, some s.endKey⟩) 0 c.spans
        = none := by
      by_contra hn
      obtain ⟨r, hr⟩ := Option.ne_none_iff_exists'.1 hn
      have hroom := (Flat.spansLoop_iff.1 ⟨r, hr⟩).1 fun he => by
        rw [List.map_eq_nil_iff.1 he] at hlen
        exact hlen (Nat.zero_le _)
      rw [List.length_map, Nat.zero_add] at hroom
      exact hlen hroom
    rw [hnone]
    rfl

/-- The decoders of the data agree. -/
theorem instanceDataFromBuffer_table {m : RawMessage} {w : WireData}
    (h : ∀ c ∈ w.command, SpansStored c.spans) :
    Flat.instanceDataFromBuffer m.received w.table
      = (instanceDataFromBuffer m w).map RawMessage.received := by
  have hcmd : Flat.commandOfData m.command w.table.command = commandOfData m.command w.command := by
    unfold WireData.table
    cases hw : w.command with
    | none => rfl
    | some c =>
      show (m.command.bind (Flat.commandFromBuffer · c.table)).map some = _
      simp only [commandFromBuffer_table (h c hw)]
      rfl
  have hdeps : Flat.depsLoop ((w.table.deps.getD []).take N) 0 m.deps
      = some (depsFromBuffer m.deps w.deps) := by
    show Flat.depsLoop (w.deps.take N) 0 m.deps = _
    have hlen : 0 + (w.deps.take N).length ≤ maxDeps := by
      rw [Nat.zero_add, List.length_take]
      exact (min_le_left _ _).trans (by decide)
    rw [depsLoop_eq hlen, List.map_take]
    unfold depsFromBuffer
    rw [List.map_take]
    rfl
  unfold Flat.instanceDataFromBuffer instanceDataFromBuffer
  show (Flat.commandOfData m.command w.table.command).bind _ = _
  rw [hcmd]
  cases commandOfData m.command w.command with
  | none => rfl
  | some c =>
    rw [Option.bind_some]
    show (Flat.depsLoop _ 0 m.deps).map _ = _
    rw [hdeps]
    rfl

theorem byte_eq_iff {type : MessageType} : type.byte = preAcceptOkByte ↔ type = .preAcceptOk := by
  cases type <;> decide

/-- On the table of a message that is not rejected, with its keys as they lie in memory, the decoder
of any buffer is the decoder of the wire format. -/
theorem messageFromBuffer_table {m : RawMessage} {w : WireMessage}
    (h : ∀ data ∈ w.data, ∀ c ∈ data.command, SpansStored c.spans)
    (ha : ¬ Flat.Rejected (some w.table)) :
    Flat.messageFromBuffer m.received (some w.table)
      = (messageFromBuffer m w).map fun d => (0, d.received) := by
  obtain ⟨id, hid⟩ : ∃ id, w.instanceId = some id :=
    Option.ne_none_iff_exists'.1 fun hid => ha (.inl hid)
  obtain ⟨type, ht⟩ : ∃ type, w.type = some type :=
    Option.ne_none_iff_exists'.1 fun ht => ha (.inr (congrArg (Option.map MessageType.byte) ht))
  unfold Flat.messageFromBuffer messageFromBuffer WireMessage.table
  simp only [hid, ht, Option.map_some, byte_eq_iff]
  by_cases hok : type = .preAcceptOk
  · rw [if_pos hok, if_pos hok]
    rfl
  · rw [if_neg hok, if_neg hok]
    cases hd : w.data with
    | none => rfl
    | some data =>
      have hdata := instanceDataFromBuffer_table (h data hd) (m := { m with
        type, id := ⟨id.replicaId.toUInt64, id.instanceId⟩
        dest := w.dest.toUInt64, sender := w.sender.toUInt64, nack := w.nack, ballot := w.ballot
        instanceStatus := w.instanceStatus
        stop := w.stp.getD m.stop, start := w.srt.getD m.start })
      exact (congrArg (Option.map ((0 : ℤ), ·)) hdata).trans (Option.map_map ..)

/-- What a replica has written is decoded as the wire format says. -/
theorem messageFromBuffer_encoded {m prev : RawMessage}
    (h : ∀ c ∈ m.command, ∀ i, KeyStored (c.spans i).startKey ∧ KeyStored (c.spans i).endKey) :
    Flat.messageFromBuffer prev.received (some (messageToBuffer m).table)
      = (messageFromBuffer prev (messageToBuffer m)).map fun d => (0, d.received) := by
  refine messageFromBuffer_table (fun data hd c hc s hs => ?_) (by rintro (h | h) <;> cases h)
  have hdata : instanceDataToBuffer m = data := by
    unfold messageToBuffer at hd
    dsimp only at hd
    split_ifs at hd
    · cases hd
    · exact Option.some.inj hd
  subst hdata
  obtain ⟨raw, hraw, rfl⟩ := Option.map_eq_some_iff.1 hc
  obtain ⟨i, rfl⟩ := List.mem_ofFn.1 (List.mem_of_mem_filter hs)
  exact h raw hraw i

end Tables

end Epx
