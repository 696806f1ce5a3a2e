import Epx.Lib.Framing
import Epx.Proofs.Headers
import Epx.Stream

/-!
# What comes through a connection

The bytes sent are a stream of frames with sized headers. Whatever is cut off, the receiving end
reads the messages that were written first, in their order, as the frames decode and with the id of
the replica at the other end. Where nothing has failed and nothing is on its way it has read all of
them.
-/

namespace Epx

open Framing

section Frames

variable {h : ℕ} {be : Bool}

theorem slotOut_slotOut (i : Fin h) : slotOut be (slotOut be i) = i := by
  unfold slotOut
  cases be with
  | true => exact Fin.rev_rev i
  | false => rfl

/-- Every byte of the header is written. -/
theorem sendHeader_eq (sz : UInt64) (szbuf szbuf' : Fin h → UInt8) :
    sendHeader be sz szbuf = sendHeader be sz szbuf' := by
  funext i
  have hb (b : Fin h → UInt8) : (sendHeader be sz b i).toNat = byteAt sz (slotOut be i) := by
    have := @sendRounds_snd h be sz b h le_rfl (slotOut be i) (slotOut be i).isLt
    rwa [slotOut_slotOut] at this
  exact UInt8.toNat_inj.1 ((hb szbuf).trans (hb szbuf').symm)

/-- The size in the bytes of a header. -/
def headerSize (h : ℕ) (be : Bool) (hdr : List UInt8) : ℕ :=
  (recvHeader be fun i : Fin h => hdr.getD i 0).toNat

variable (finalize : WireMessage → List UInt8)

/-- The buffer that a message is encoded in. -/
def bufferOf (m : RawMessage) : List UInt8 := finalize (messageToBuffer m)

/-- The frame of a message. -/
def frameOf (h : ℕ) (be : Bool) (m : RawMessage) : Packet UInt8 :=
  (List.ofFn (sendHeader be (UInt64.ofNat (bufferOf finalize m).length) fun _ : Fin h => 0),
    bufferOf finalize m)

theorem sized_frameOf (h8 : 8 ≤ h) (m : RawMessage) (hm : (bufferOf finalize m).length < 2 ^ 63) :
    Sized h (headerSize h be) (frameOf finalize h be m) where
  length := List.length_ofFn
  size := by
    set sz := UInt64.ofNat (bufferOf finalize m).length with hsz
    have hn : sz.toNat = (bufferOf finalize m).length := by
      rw [hsz, UInt64.toNat_ofNat']
      exact Nat.mod_eq_of_lt (by omega)
    have hget : (fun i : Fin h => (frameOf finalize h be m).1.getD i 0)
        = sendHeader be sz fun _ => 0 := by
      funext i
      simp [frameOf, hsz, List.getD_eq_getElem?_getD]
    have hs := @recvRounds_eq h be sz (sendHeader be sz fun _ : Fin h => 0)
      (fun i => sendRounds_snd le_rfl i i.isLt) h le_rfl
    rw [Nat.sub_self, pow_zero, Nat.div_one, Nat.mod_eq_of_lt] at hs
    · rw [headerSize, hget]
      exact hs.trans hn
    · calc sz.toNat < 256 ^ 8 := sz.toNat_lt
        _ ≤ 256 ^ h := Nat.pow_le_pow_right (by decide) h8

end Frames

/-- The message is read from the buffer of the one written, and comes from replica `peer`. -/
def Delivers (finalize : WireMessage → List UInt8) (asRoot : List UInt8 → Option Flat.Message)
    (peer : UInt64) (m : RawMessage) (rcv : Flat.Received) : Prop :=
  ∃ mem rc r, Flat.messageFromBuffer mem (asRoot (bufferOf finalize m)) = some (rc, r)
    ∧ rcv = { r with sender := peer }

namespace Pipe

section Invariant

variable (finalize : WireMessage → List UInt8) (asRoot : List UInt8 → Option Flat.Message) (h : ℕ)
  (replicaId : UInt64)

/-- What is on its way, `x` being what was cut off it. -/
def Pending (p : Pipe) (x : List UInt8) : Prop :=
  match p.phase with
  | .attaching => p.read = [] ∧ p.wire ++ x
      = replicaId.toUInt8 :: stream (p.written.map (frameOf finalize h true))
  | .header => p.wire ++ x
      = stream ((p.written.drop p.read.length).map (frameOf finalize h true))
  | .content szbuf => ∃ m ms, p.written.drop p.read.length = m :: ms
      ∧ (recvHeader p.inn.bigendian szbuf).toNat = (bufferOf finalize m).length
      ∧ p.wire ++ x = bufferOf finalize m ++ stream (ms.map (frameOf finalize h true))
  | .ended => True

/-- The replica that the messages come from, once it has said who it is. -/
def Knows (p : Pipe) (old : UInt64) : Prop :=
  match p.phase with
  | .attaching => p.xreplicaId = old
  | .header | .content _ => p.xreplicaId = setLowByte old replicaId.toUInt8
  | .ended => True

structure Sound (old : UInt64) (p : Pipe) : Prop where
  out_hdrlen : p.out.hdrlen = h
  inn_hdrlen : p.inn.hdrlen = h
  out_bigendian : p.out.bigendian = true
  inn_bigendian : p.inn.bigendian = true
  senddone : p.out.senddone = false
  knows : p.Knows replicaId old
  pending : ∃ x, p.Pending finalize h replicaId x ∧ (p.out.senderr = false → x = [])
  reads : List.Forall₂ (Delivers finalize asRoot (setLowByte old replicaId.toUInt8))
    (p.written.take p.read.length) p.read
  put : p.put.Sublist p.read

end Invariant

section Steps

variable {finalize : WireMessage → List UInt8} {asRoot : List UInt8 → Option Flat.Message} {h : ℕ}
  {replicaId old : UInt64} {p p' : Pipe} {x : List UInt8}

theorem sound_attach :
    (attach h replicaId old).Sound finalize asRoot h replicaId old where
  out_hdrlen := rfl
  inn_hdrlen := rfl
  out_bigendian := rfl
  inn_bigendian := rfl
  senddone := rfl
  knows := rfl
  pending := ⟨[], ⟨rfl, rfl⟩, fun _ => rfl⟩
  reads := .nil
  put := List.nil_sublist _

/-- What goes out of a frame, and what does not. -/
theorem msendl_bytes (finalize : WireMessage → List UInt8) (self : SendSock)
    (szbuf : ℕ → UInt8) (m : RawMessage) (cut : Option ℕ)
    (hd : self.senddone = false) (hb : self.bigendian = true) :
    ∃ x, (msendl self szbuf (bufferOf finalize m) cut).2.2 ++ x
        = (frameOf finalize self.hdrlen true m).1 ++ bufferOf finalize m
      ∧ (self.senderr = true → (msendl self szbuf (bufferOf finalize m) cut).2.2 = [])
      ∧ ((msendl self szbuf (bufferOf finalize m) cut).2.1.senderr = false →
        self.senderr = false ∧ x = []) := by
  have hhdr : List.ofFn (sendHeader self.bigendian (UInt64.ofNat (bufferOf finalize m).length)
      fun i : Fin self.hdrlen => szbuf i) = (frameOf finalize self.hdrlen true m).1 := by
    rw [frameOf, hb]
    exact congrArg List.ofFn (sendHeader_eq _ _ _)
  unfold msendl
  rw [hd, Bool.or_false]
  cases he : self.senderr with
  | true => exact ⟨_, rfl, fun _ => rfl, fun hf => absurd (he.symm.trans hf) (by decide)⟩
  | false =>
    simp only [Bool.false_eq_true, if_false, hhdr]
    cases cut with
    | none =>
      exact ⟨[], List.append_nil _, by rintro ⟨⟩, fun _ => ⟨trivial, rfl⟩⟩
    | some n =>
      exact ⟨_, List.take_append_drop n _, by rintro ⟨⟩, by rintro ⟨⟩⟩

theorem read_length_le (hp : p.Sound finalize asRoot h replicaId old) :
    p.read.length ≤ p.written.length := by
  have := hp.reads.length_eq
  rw [List.length_take] at this
  omega

theorem out_write (finalize : WireMessage → List UInt8) (m : RawMessage) (szbuf : ℕ → UInt8)
    (cut : Option ℕ) :
    (p.write finalize m szbuf cut).out = p.out
      ∨ (p.write finalize m szbuf cut).out = { p.out with senderr := true } := by
  show (msendl p.out szbuf (bufferOf finalize m) cut).2.1 = p.out
    ∨ (msendl p.out szbuf (bufferOf finalize m) cut).2.1 = { p.out with senderr := true }
  unfold msendl
  split_ifs with h₁
  · exact .inl rfl
  · dsimp only
    split_ifs
    · exact .inr rfl
    · exact .inl rfl

/-- One more frame has been written, and `z` of what was is cut off now. -/
theorem pending_write {m : RawMessage} {szbuf : ℕ → UInt8} {cut : Option ℕ} {z : List UInt8}
    (hx : p.Pending finalize h replicaId x) (hle : p.read.length ≤ p.written.length)
    (hz : (p.write finalize m szbuf cut).wire ++ z
      = (p.wire ++ x) ++ stream [frameOf finalize h true m]) :
    (p.write finalize m szbuf cut).Pending finalize h replicaId z := by
  have hstream (ms : List RawMessage) : stream ((ms ++ [m]).map (frameOf finalize h true))
      = stream (ms.map (frameOf finalize h true)) ++ stream [frameOf finalize h true m] := by
    rw [List.map_append, stream_append]
    rfl
  obtain ⟨out, inn, phase, xr, wire, written, read, put⟩ := p
  have hdrop : (written ++ [m]).drop read.length = written.drop read.length ++ [m] :=
    List.drop_append_of_le_length hle
  cases phase with
  | attaching =>
    refine ⟨hx.1, hz.trans ?_⟩
    rw [hx.2]
    exact congrArg (replicaId.toUInt8 :: ·) (hstream written).symm
  | header =>
    refine hz.trans ?_
    rw [show wire ++ x = _ from hx, ← hstream, ← hdrop]
    rfl
  | content szbuf =>
    obtain ⟨m', ms, hms, hn, hw⟩ := hx
    refine ⟨m', ms ++ [m], ?_, hn, hz.trans ?_⟩
    · exact hdrop.trans (by rw [show written.drop read.length = _ from hms, List.cons_append])
    · rw [show wire ++ x = _ from hw, List.append_assoc, ← hstream]
  | ended => trivial

theorem Sound.write (hp : p.Sound finalize asRoot h replicaId old) (m : RawMessage)
    (szbuf : ℕ → UInt8) (cut : Option ℕ) :
    (p.write finalize m szbuf cut).Sound finalize asRoot h replicaId old := by
  obtain ⟨x, hx, hx₀⟩ := hp.pending
  obtain ⟨y, hy, hnone, herr⟩ := msendl_bytes finalize p.out szbuf m cut hp.senddone
    hp.out_bigendian
  rw [hp.out_hdrlen] at hy
  set sent := (msendl p.out szbuf (bufferOf finalize m) cut).2.2 with hsent
  have hframe : sent ++ y = stream [frameOf finalize h true m] := by
    rw [hy, stream_cons, stream_nil, List.append_nil]
    rfl
  -- after an error all of the frame is cut off, and before it only what this call leaves
  obtain ⟨z, hz, hz₀⟩ : ∃ z, (p.wire ++ sent) ++ z
      = (p.wire ++ x) ++ stream [frameOf finalize h true m]
      ∧ ((p.write finalize m szbuf cut).out.senderr = false → z = []) := by
    cases he : p.out.senderr with
    | true =>
      refine ⟨x ++ stream [frameOf finalize h true m], ?_, fun hf => ?_⟩
      · rw [hnone he, List.append_nil, List.append_assoc]
      · exact absurd (he.symm.trans (herr hf).1) (by decide)
    | false =>
      refine ⟨y, ?_, fun hf => (herr hf).2⟩
      rw [hx₀ he, List.append_nil, List.append_assoc, hframe]
  have hout : (p.write finalize m szbuf cut).out.hdrlen = h
      ∧ (p.write finalize m szbuf cut).out.bigendian = true
      ∧ (p.write finalize m szbuf cut).out.senddone = false := by
    rcases out_write finalize (p := p) m szbuf cut with ho | ho <;> rw [ho]
    · exact ⟨hp.out_hdrlen, hp.out_bigendian, hp.senddone⟩
    · exact ⟨hp.out_hdrlen, hp.out_bigendian, hp.senddone⟩
  refine ⟨hout.1, hp.inn_hdrlen, hout.2.1, hp.inn_bigendian, hout.2.2, ?_,
    ⟨z, pending_write hx (read_length_le hp) hz, hz₀⟩, ?_, hp.put⟩
  · have hk := hp.knows
    obtain ⟨out, inn, phase, xr, wire, written, read, put⟩ := p
    cases phase <;> exact hk
  · show List.Forall₂ _ ((p.written ++ [m]).take p.read.length) p.read
    rw [List.take_append_of_le_length (read_length_le hp)]
    exact hp.reads

/-- `writer` has returned. -/
theorem Sound.ended (hp : p.Sound finalize asRoot h replicaId old) (hi : p'.inn.hdrlen = h)
    (hb : p'.inn.bigendian = true) (hph : p'.phase = .ended) (ho : p'.out = p.out)
    (hw : p'.written = p.written) (hr : p'.read = p.read) (hput : p'.put = p.put) :
    p'.Sound finalize asRoot h replicaId old := by
  have hpend : ∀ x, p'.Pending finalize h replicaId x := fun x => by
    unfold Pending
    rw [hph]
    trivial
  have hkn : p'.Knows replicaId old := by
    unfold Knows
    rw [hph]
    trivial
  refine ⟨ho ▸ hp.out_hdrlen, hi, ho ▸ hp.out_bigendian, hb, ho ▸ hp.senddone, hkn,
    ⟨[], hpend [], fun _ => rfl⟩, ?_, ?_⟩
  · rw [hw, hr]
    exact hp.reads
  · rw [hput, hr]
    exact hp.put

theorem brecv_cases {n : ℕ} {wire : List UInt8} {cut : Option ℕ} {q : ℤ × List UInt8 × List UInt8}
    (hq : brecv n wire cut = some q) :
    q.1 < 0 ∨ (n ≤ wire.length ∧ q = (0, wire.take n, wire.drop n)) := by
  cases cut with
  | none =>
    rw [brecv] at hq
    split_ifs at hq with hn
    exact .inr ⟨hn, (Option.some.inj hq).symm⟩
  | some k =>
    cases hq
    exact .inl (by norm_num)

theorem Sound.attached {cut : Option ℕ} {mem : Flat.Received} {room : Bool}
    (hp : p.Sound finalize asRoot h replicaId old) (hph : p.phase = .attaching)
    (hr : p.recv asRoot cut mem room = some p') : p'.Sound finalize asRoot h replicaId old := by
  obtain ⟨out, inn, phase, xr, wire, written, read, put⟩ := p
  obtain rfl : phase = .attaching := hph
  obtain ⟨q, hq, rfl⟩ := Option.map_eq_some_iff.1 hr
  rcases brecv_cases hq with hneg | ⟨hn, rfl⟩
  · rw [if_pos hneg]
    exact hp.ended hp.inn_hdrlen hp.inn_bigendian rfl rfl rfl rfl rfl
  obtain ⟨x, ⟨hread, hw⟩, hx₀⟩ := hp.pending
  obtain rfl : read = [] := hread
  have hw : wire ++ x = [replicaId.toUInt8] ++ stream (written.map (frameOf finalize h true)) := hw
  obtain ⟨ht, hd⟩ := take_of_append hw hn
  have ht : wire.take 1 = [replicaId.toUInt8] := ht
  have hk : xr = old := hp.knows
  rw [if_neg (lt_irrefl _)]
  refine ⟨hp.out_hdrlen, hp.inn_hdrlen, hp.out_bigendian, hp.inn_bigendian, hp.senddone, ?_,
    ⟨x, hd, hx₀⟩, hp.reads, hp.put⟩
  show setLowByte xr ((wire.take 1).headD 0) = _
  rw [ht, hk]
  rfl

theorem Sound.headed {cut : Option ℕ} {mem : Flat.Received} {room : Bool} (h8 : 8 ≤ h)
    (hfin : ∀ m, (bufferOf finalize m).length < 2 ^ 63)
    (hp : p.Sound finalize asRoot h replicaId old) (hph : p.phase = .header)
    (hr : p.recv asRoot cut mem room = some p') : p'.Sound finalize asRoot h replicaId old := by
  obtain ⟨out, inn, phase, xr, wire, written, read, put⟩ := p
  obtain rfl : phase = .header := hph
  have hh : inn.hdrlen = h := hp.inn_hdrlen
  subst hh
  simp only [recv] at hr
  split_ifs at hr with he
  · cases hr
    exact hp.ended rfl hp.inn_bigendian rfl rfl rfl rfl rfl
  obtain ⟨q, hq, rfl⟩ := Option.map_eq_some_iff.1 hr
  rcases brecv_cases hq with hneg | ⟨hn, rfl⟩
  · rw [if_pos hneg]
    exact hp.ended rfl hp.inn_bigendian rfl rfl rfl rfl rfl
  obtain ⟨x, hw, hx₀⟩ := hp.pending
  have hw : wire ++ x
      = stream ((written.drop read.length).map (frameOf finalize inn.hdrlen true)) := hw
  have hsized : ∀ f ∈ (written.drop read.length).map (frameOf finalize inn.hdrlen true),
      Sized inn.hdrlen (headerSize inn.hdrlen true) f := fun f hf => by
    obtain ⟨m, -, rfl⟩ := List.mem_map.1 hf
    exact sized_frameOf finalize h8 m (hfin m)
  obtain ⟨f, gs, hfs, -, hsize, hd⟩ := take_header (by omega) hsized hw hn
  obtain ⟨m, ms, hms, rfl, rfl⟩ := List.map_eq_cons_iff.1 hfs
  rw [if_neg (lt_irrefl _)]
  refine ⟨hp.out_hdrlen, rfl, hp.out_bigendian, hp.inn_bigendian, hp.senddone, hp.knows,
    ⟨x, ⟨m, ms, hms, ?_, hd⟩, hx₀⟩, hp.reads, hp.put⟩
  have hb : inn.bigendian = true := hp.inn_bigendian
  show (recvHeader inn.bigendian fun i => (wire.take inn.hdrlen).getD i 0).toNat = _
  rw [hb]
  exact hsize

/-- What a round does with the content. -/
theorem deliver_cases {frame : Frame p.inn} {mem : Flat.Received} {room : Bool}
    (hr : p.deliver asRoot frame mem room = some p') :
    p' = { p with phase := .ended }
      ∨ ∃ rc r q, Flat.messageFromBuffer mem (asRoot frame.vla) = some (rc, r)
        ∧ (q = p.put ∨ q = p.put ++ [{ r with sender := p.xreplicaId }])
        ∧ p' = { p with phase := .header, read := p.read ++ [{ r with sender := p.xreplicaId }],
                        put := q } := by
  obtain ⟨r, hrm, rfl⟩ := Option.map_eq_some_iff.1 hr
  by_cases hz : readMessage r.1 ≤ 0
  · exact .inl (if_pos hz)
  rw [if_neg hz]
  unfold mrecvl at hrm
  rw [if_neg (by rw [frame.receives]; exact Bool.false_ne_true)] at hrm
  obtain ⟨y, hy, rfl⟩ := Option.map_eq_some_iff.1 hrm
  cases room with
  | true => exact .inr ⟨y.1, y.2, _, hy, .inr rfl, rfl⟩
  | false => exact .inr ⟨y.1, y.2, _, hy, .inl rfl, rfl⟩

theorem Sound.delivered {cut : Option ℕ} {mem : Flat.Received} {room : Bool}
    (hp : p.Sound finalize asRoot h replicaId old) (hph : ∃ szbuf, p.phase = .content szbuf)
    (hr : p.recv asRoot cut mem room = some p') : p'.Sound finalize asRoot h replicaId old := by
  obtain ⟨out, inn, phase, xr, wire, written, read, put⟩ := p
  obtain ⟨szbuf, rfl⟩ : ∃ szbuf, phase = .content szbuf := hph
  obtain ⟨q, hq, hr⟩ := Option.bind_eq_some_iff.1 hr
  rcases brecv_cases hq with hneg | ⟨hn, rfl⟩
  · rw [if_pos hneg] at hr
    cases hr
    exact hp.ended hp.inn_hdrlen hp.inn_bigendian rfl rfl rfl rfl rfl
  rw [if_neg (lt_irrefl _)] at hr
  split_ifs at hr with hd
  obtain ⟨x, ⟨m, ms, hms, hsize, hw⟩, hx₀⟩ := hp.pending
  have hms : written.drop read.length = m :: ms := hms
  have hsize : (recvHeader inn.bigendian szbuf).toNat = (bufferOf finalize m).length := hsize
  have hn : (recvHeader inn.bigendian szbuf).toNat ≤ wire.length := hn
  have hw : wire ++ x = bufferOf finalize m ++ stream (ms.map (frameOf finalize h true)) := hw
  obtain ⟨ht, hrest⟩ := take_of_append hw (hsize ▸ hn)
  rw [← hsize] at ht hrest
  rcases deliver_cases hr with rfl | ⟨rc, r, l, hdec, hl, rfl⟩
  · exact hp.ended hp.inn_hdrlen hp.inn_bigendian rfl rfl rfl rfl rfl
  have hk : xr = setLowByte old replicaId.toUInt8 := hp.knows
  have hdec : Flat.messageFromBuffer mem (asRoot (wire.take (recvHeader inn.bigendian szbuf).toNat))
      = some (rc, r) := hdec
  have hm : Delivers finalize asRoot (setLowByte old replicaId.toUInt8) m { r with sender := xr } :=
    ⟨mem, rc, r, ht ▸ hdec, by rw [hk]⟩
  -- the message is the next one written
  have hnext : written.take (read.length + 1) = written.take read.length ++ [m] := by
    rw [List.take_add, hms]
    rfl
  have hdrop : written.drop (read.length + 1) = ms := by
    rw [← List.drop_drop, hms]
    rfl
  refine ⟨hp.out_hdrlen, hp.inn_hdrlen, hp.out_bigendian, hp.inn_bigendian, hp.senddone, hp.knows,
    ⟨x, ?_, hx₀⟩, ?_, ?_⟩
  · show wire.drop _ ++ x = stream ((written.drop (read ++ [_]).length).map _)
    rw [List.length_append, List.length_singleton, hdrop]
    exact hrest
  · show List.Forall₂ _ (written.take (read ++ [_]).length) (read ++ [_])
    rw [List.length_append, List.length_singleton, hnext]
    exact List.rel_append hp.reads (.cons hm .nil)
  · have hput : put.Sublist read := hp.put
    rcases hl with rfl | rfl
    · exact hput.trans (List.sublist_append_left _ _)
    · exact hput.append_right _

/-- Every step of the receiving end keeps it. -/
theorem Sound.recv {cut : Option ℕ} {mem : Flat.Received} {room : Bool} (h8 : 8 ≤ h)
    (hfin : ∀ m, (bufferOf finalize m).length < 2 ^ 63)
    (hp : p.Sound finalize asRoot h replicaId old)
    (hr : p.recv asRoot cut mem room = some p') : p'.Sound finalize asRoot h replicaId old := by
  rcases hph : p.phase with _ | _ | szbuf | _
  · exact hp.attached hph hr
  · exact hp.headed h8 hfin hph hr
  · exact hp.delivered ⟨szbuf, hph⟩ hr
  · rw [Pipe.recv, hph] at hr
    cases hr

/-- Every pipe of a run is sound. -/
theorem Run.sound (h8 : 8 ≤ h) (hfin : ∀ m, (bufferOf finalize m).length < 2 ^ 63)
    (hrun : Run finalize asRoot (attach h replicaId old) p) :
    p.Sound finalize asRoot h replicaId old := by
  induction hrun with
  | start => exact sound_attach
  | write _ ih => exact ih.write _ _ _
  | recv _ hr ih => exact ih.recv h8 hfin hr
  | stop _ ih => exact ih.ended ih.inn_hdrlen ih.inn_bigendian rfl rfl rfl rfl rfl

end Steps

end Pipe

section Results

variable {finalize : WireMessage → List UInt8} {asRoot : List UInt8 → Option Flat.Message} {h : ℕ}
  {replicaId old : UInt64} {p : Pipe}

/-- The id of a replica, received into memory with nothing above the lowest byte, is that id. -/
theorem setLowByte_of_lt (hold : old.toNat < 256) (hid : replicaId.toNat < 256) :
    setLowByte old replicaId.toUInt8 = replicaId := by
  rw [← UInt64.toNat_inj, setLowByte, UInt64.toNat_ofNat', UInt64.toNat_toUInt8,
    Nat.div_eq_of_lt hold, Nat.mod_eq_of_lt hid, Nat.zero_mul, Nat.zero_add]
  exact Nat.mod_eq_of_lt (hid.trans (by norm_num))

/-- Wherever the bytes stop, and whichever messages were cut off, what has been read is what was
written first, in its order; no message is read twice, in part or put together from two of them. -/
theorem read_in_order (h8 : 8 ≤ h) (hfin : ∀ m, (bufferOf finalize m).length < 2 ^ 63)
    (hold : old.toNat < 256) (hid : replicaId.toNat < 256)
    (hrun : Pipe.Run finalize asRoot (.attach h replicaId old) p) :
    (∃ ms, ms <+: p.written ∧ List.Forall₂ (Delivers finalize asRoot replicaId) ms p.read)
      ∧ p.put.Sublist p.read := by
  have hs := hrun.sound h8 hfin
  have hreads := hs.reads
  rw [setLowByte_of_lt hold hid] at hreads
  exact ⟨⟨_, List.take_prefix _ _, hreads⟩, hs.put⟩

/-- A buffer with a `PRE_ACCEPT_OK` of replica 1 for its second instance, and the root in it. -/
def okBuffer : List UInt8 :=
  [24, 0, 0, 0, 16, 0, 28, 0, 24, 0, 0, 0, 0, 0, 0, 0, 8, 0, 26, 0, 0, 0, 0, 0,
    20, 0, 0, 0, 0, 0, 0, 0, 1, 0, 0, 0, 0, 0, 0, 0, 2, 0, 0, 0, 0, 0, 0, 0, 1, 0, 3, 0]

def okRoot (buffer : List UInt8) : Option Flat.Message :=
  if buffer = okBuffer then
    some ⟨1, 0, 0, 0, some ⟨1, 2⟩, some preAcceptOkByte, none, 0, none, none⟩
  else none

def okMessage : RawMessage where
  type := .preAcceptOk
  dest := 0
  ballot := 0
  nack := 0
  id := ⟨1, 2⟩
  command := none
  seq := 0
  deps := fun _ => ⟨⟨0, 0⟩, 0⟩
  sender := 1
  instanceStatus := .none
  conflict := ⟨⟨0, 0⟩, .none⟩
  start := 0
  stop := 0

def newMessage : Flat.Received where
  type := 0
  dest := 0
  ballot := 0
  nack := 0
  id := ⟨0, 0⟩
  command := none
  seq := 0
  deps := fun _ => ⟨⟨0, 0⟩, 0⟩
  sender := 0
  instanceStatus := 0
  start := 0
  stop := 0

theorem okBuffer_length : okBuffer.length < 2 ^ 63 := by decide

/-- Replica 1 has said who it is and sends the message. -/
def firstPipe : Pipe := (Pipe.attach 16 1 0).write (fun _ => okBuffer) okMessage (fun _ => 0) none

/-- It sends the message again, and the socket fails after 20 bytes. -/
def cutPipe : Pipe := firstPipe.write (fun _ => okBuffer) okMessage (fun _ => 0) (some 20)

/-- `n` steps of the receiving end with the socket in order and room on the channel. -/
def Pipe.recvs (asRoot : List UInt8 → Option Flat.Message) (mem : Flat.Received) :
    ℕ → Pipe → Option Pipe
  | 0, p => some p
  | n + 1, p => (p.recv asRoot none mem true).bind (recvs asRoot mem n)

theorem Pipe.exists_recvs {p₀ : Pipe} {mem : Flat.Received} {Q : Pipe → Prop} [DecidablePred Q] :
    ∀ (n : ℕ) {p : Pipe}, Pipe.Run finalize asRoot p₀ p →
      ((p.recvs asRoot mem n).any fun p' => decide (Q p')) = true →
      ∃ p', Pipe.Run finalize asRoot p₀ p' ∧ Q p'
  | 0, p, hrun, hq => ⟨p, hrun, of_decide_eq_true hq⟩
  | n + 1, p, hrun, hq => by
    cases hr : p.recv asRoot none mem true with
    | none =>
      rw [recvs, hr] at hq
      exact absurd hq Bool.false_ne_true
    | some p' =>
      rw [recvs, hr] at hq
      exact exists_recvs n (.recv hrun hr) hq

theorem firstPipe_run : Pipe.Run (fun _ => okBuffer) okRoot (.attach 16 1 0) firstPipe :=
  .write .start

theorem cutPipe_run : Pipe.Run (fun _ => okBuffer) okRoot (.attach 16 1 0) cutPipe :=
  .write firstPipe_run

/-- Of two messages of which the second is cut off, the first is read. -/
theorem read_in_order_cut : ∃ p : Pipe, p.written.length = 2 ∧ p.read.length = 1
    ∧ p.wire.length = 4
    ∧ (∃ ms, ms <+: p.written
      ∧ List.Forall₂ (Delivers (fun _ => okBuffer) okRoot 1) ms p.read) ∧ p.put.Sublist p.read := by
  obtain ⟨p, hrun, hw, hr, hl⟩ := @Pipe.exists_recvs _ okRoot _ newMessage
    (fun p : Pipe => p.written.length = 2 ∧ p.read.length = 1 ∧ p.wire.length = 4) _ 4 _ cutPipe_run
    (by decide +kernel)
  exact ⟨p, hw, hr, hl,
    read_in_order (by decide) (fun _ => okBuffer_length) (by decide) (by decide) hrun⟩

/-- Where no send has failed, the receiving end waits for a header and nothing is on its way, it has
read everything that was written. -/
theorem read_all (h8 : 8 ≤ h) (hfin : ∀ m, (bufferOf finalize m).length < 2 ^ 63)
    (hold : old.toNat < 256) (hid : replicaId.toNat < 256)
    (hrun : Pipe.Run finalize asRoot (.attach h replicaId old) p) (herr : p.out.senderr = false)
    (hph : p.phase = .header) (hw : p.wire = []) :
    List.Forall₂ (Delivers finalize asRoot replicaId) p.written p.read := by
  have hs := hrun.sound h8 hfin
  obtain ⟨x, hx, hx₀⟩ := hs.pending
  have hreads := hs.reads
  unfold Pipe.Pending at hx
  rw [hph, hx₀ herr, hw] at hx
  have hnil := (stream_eq_nil (h := h) (by omega) fun f hf => by
    obtain ⟨m, -, rfl⟩ := List.mem_map.1 hf
    exact @sized_frameOf h true finalize h8 m (hfin m)).1 hx.symm
  have hdrop : p.written.drop p.read.length = [] := List.map_eq_nil_iff.1 hnil
  rw [setLowByte_of_lt hold hid, List.take_of_length_le (List.drop_eq_nil_iff.1 hdrop)] at hreads
  exact hreads

/-- The first of the two, while the other is not there yet. -/
theorem read_all_first : ∃ p : Pipe, p.read.length = 1
    ∧ List.Forall₂ (Delivers (fun _ => okBuffer) okRoot 1) p.written p.read := by
  obtain ⟨p, hrun, hr, herr, hph, hw⟩ := @Pipe.exists_recvs _ okRoot _ newMessage
    (fun p : Pipe => p.read.length = 1 ∧ p.out.senderr = false ∧ p.phase = .header ∧ p.wire = [])
    _ 3 _ firstPipe_run (by decide +kernel)
  exact ⟨p, hr, read_all (by decide) (fun _ => okBuffer_length) (by decide) (by decide) hrun herr
    hph hw⟩

end Results

end Epx
