import Epx.Proofs.Decodes
import Epx.Sock

/-!
# What becomes of a frame

`message_from_buffer` reports an error as 1 and `fbs_sock_mrecvl` takes only what is negative for
one, so `read_message` sees the size of the frame whatever is in it.
-/

namespace Epx

/-- A rejected frame is an error all the way and nothing is put on the channel; one that is accepted
is put there once. -/
def Reported (r : Option Round) (b : Option Flat.Message) : Prop :=
  ∃ rd, r = some rd ∧ (Flat.Rejected b → rd.received = -1 ∧ rd.read = -1 ∧ rd.put = [])
    ∧ (¬ Flat.Rejected b → rd.put.length = 1)

/-- The spans in use, or those up to an empty one, are within the command. -/
def InRange (c : RawCommand) : Prop :=
  c.used ≤ txSize ∨ ∃ i : Fin txSize, emptyRange (c.spans i) = true

/-- The spans of a client's message can be gone through: those of the data's command, or, without
data, those of the memory. -/
def Watchable (mem : RawCommand) (bm : Flat.Message) : Prop :=
  match bm.decoded with
  | none => InRange mem
  | some data => data.command ≠ none

/-- A frame that `writer` puts on the channel. -/
structure Delivered (isClient : Bool) (chan : List Flat.Received) (mem : RawCommand)
    (vla : List UInt8) (b : Option Flat.Message) : Prop where
  accepted : ¬ Flat.Rejected b
  nonempty : vla ≠ []
  fits : ∀ bm data, b = some bm → bm.decoded = some data → data.Fits
  room : chan.length + 1 < chanCapacity
  watched : isClient = true → ∀ bm, b = some bm → Watchable mem bm

section Loop

/-- The loop over the spans to watch ends at an empty one or keeps to the command. -/
theorem watchLoop_iff {c : RawCommand} : ∀ {n i : ℕ}, (∃ ws, watchLoop c n i = some ws) ↔
    n = 0 ∨ i + n ≤ txSize ∨ ∃ j : Fin txSize, i ≤ j.val ∧ emptyRange (c.spans j) = true
  | 0, i => iff_of_true ⟨[], rfl⟩ (.inl rfl)
  | n + 1, i => by
    rw [watchLoop, or_iff_right (Nat.succ_ne_zero n)]
    split_ifs with hi he
    · exact iff_of_true ⟨[], rfl⟩ (.inr ⟨⟨i, hi⟩, le_rfl, he⟩)
    · have hmap : (∃ ws, (watchLoop c n (i + 1)).map (c.spans ⟨i, hi⟩ :: ·) = some ws)
          ↔ ∃ ws, watchLoop c n (i + 1) = some ws := by
        simp only [Option.map_eq_some_iff]
        exact ⟨fun h => ⟨_, h.choose_spec.choose_spec.1⟩, fun h => ⟨_, _, h.choose_spec, rfl⟩⟩
      rw [hmap, watchLoop_iff]
      constructor
      · rintro (h | h | ⟨j, hj, he'⟩)
        · exact .inl (by omega)
        · exact .inl (by omega)
        · exact .inr ⟨j, by omega, he'⟩
      · rintro (h | ⟨j, hj, he'⟩)
        · exact .inr (.inl (by omega))
        · refine .inr (.inr ⟨j, ?_, he'⟩)
          have hne : j.val ≠ i := by
            rintro rfl
            exact he he'
          omega
    · refine iff_of_false (by rintro ⟨ws, ⟨⟩⟩) ?_
      rintro (h | ⟨j, hj, -⟩)
      · omega
      · have := j.isLt
        omega

theorem watchLoop_inRange {c : RawCommand} :
    (∃ ws, watchLoop c c.used 0 = some ws) ↔ InRange c := by
  rw [watchLoop_iff]
  unfold InRange
  constructor
  · rintro (h | h | ⟨j, -, he⟩)
    · exact .inl (by omega)
    · exact .inl (by omega)
    · exact .inr ⟨j, he⟩
  · rintro (h | ⟨j, he⟩)
    · exact .inr (.inl (by omega))
    · exact .inr (.inr ⟨j, Nat.zero_le _, he⟩)

end Loop

section Round

variable {asRoot : List UInt8 → Option Flat.Message} {self : FbsSock} {frame : Frame self}

/-- The size of a frame as `fbs_sock_mrecvl` returns it. -/
theorem Frame.toInt_size (frame : Frame self) :
    (recvHeader self.bigendian frame.szbuf).toBitVec.toInt = frame.vla.length := by
  have hs := frame.size
  have hb := frame.bound
  rw [BitVec.toInt_eq_toNat_of_lt, ← hs]
  · rfl
  · show 2 * (recvHeader self.bigendian frame.szbuf).toNat < 2 ^ 64
    omega

/-- Whatever the decoder says, `fbs_sock_mrecvl` returns the size. -/
theorem mrecvl_eq {m m' : Flat.Received} {rc : ℤ} (hrc : rc = 0 ∨ rc = 1)
    (h : Flat.messageFromBuffer m (asRoot frame.vla) = some (rc, m')) :
    mrecvl asRoot self frame m = some ((frame.vla.length : ℤ), m') := by
  have hneg : ¬ rc < 0 := by omega
  unfold mrecvl
  rw [if_neg (by rw [frame.receives]; exact Bool.false_ne_true), h, Option.map_some]
  dsimp only
  rw [if_neg hneg, frame.toInt_size]

variable {isClient : Bool} {xreplicaId : UInt64} {chan : List Flat.Received} {mem : RawCommand}
  {m m' : Flat.Received} {rc : ℤ} {rd : Round}

theorem writerRound_received (hrc : rc = 0 ∨ rc = 1)
    (h : Flat.messageFromBuffer m (asRoot frame.vla) = some (rc, m'))
    (hr : writerRound asRoot self frame isClient xreplicaId chan m = some rd) :
    rd.received = frame.vla.length := by
  unfold writerRound at hr
  rw [mrecvl_eq hrc h, Option.bind_some] at hr
  split at hr
  · cases hr
    rfl
  · obtain ⟨ws, -, rfl⟩ := Option.map_eq_some_iff.1 hr
    rfl

/-- A round that gets a message puts it on the channel where there is room, and a client's spans can
be gone through. -/
theorem writerRound_puts (hrc : rc = 0 ∨ rc = 1)
    (h : Flat.messageFromBuffer m (asRoot frame.vla) = some (rc, m')) :
    (∃ rd, writerRound asRoot self frame isClient xreplicaId chan m = some rd ∧ rd.put.length = 1)
      ↔ frame.vla ≠ [] ∧ chan.length + 1 < chanCapacity
        ∧ (isClient = true → ∃ c, m'.command = some c ∧ InRange c) := by
  have hloop : (∃ ws, m'.command.bind (fun c => watchLoop c c.used 0) = some ws)
      ↔ ∃ c, m'.command = some c ∧ InRange c := by
    simp only [Option.bind_eq_some_iff, ← watchLoop_inRange]
    exact exists_comm.trans (exists_congr fun _ => exists_and_left)
  unfold writerRound
  rw [mrecvl_eq hrc h, Option.bind_some]
  by_cases hz : frame.vla = []
  · have hread : readMessage (frame.vla.length : ℤ) ≤ 0 := by
      rw [hz]
      decide
    rw [if_pos hread]
    refine iff_of_false ?_ fun hn => hn.1 hz
    rintro ⟨rd, hr, hp⟩
    cases hr
    cases hp
  have hpos := List.length_pos_of_ne_nil hz
  have hread : ¬ readMessage (frame.vla.length : ℤ) ≤ 0 := by
    unfold readMessage
    split_ifs <;> omega
  rw [if_neg hread, and_iff_right hz]
  dsimp only
  by_cases hroom : chan.length + 1 < chanCapacity
  · rw [and_iff_right hroom, ← hloop]
    simp only [if_pos hroom, Option.map_eq_some_iff]
    cases isClient with
    | false => exact iff_of_true ⟨_, ⟨[], rfl, rfl⟩, rfl⟩ (by rintro ⟨⟩)
    | true =>
      refine ⟨?_, fun hw => ?_⟩
      · rintro ⟨rd, ⟨ws, hws, -⟩, -⟩ -
        exact ⟨ws, hws⟩
      · obtain ⟨ws, hws⟩ := hw rfl
        exact ⟨_, ⟨ws, hws, rfl⟩, rfl⟩
  · refine iff_of_false ?_ fun hn => hroom hn.1
    rintro ⟨rd, hr, hp⟩
    obtain ⟨ws, -, rfl⟩ := Option.map_eq_some_iff.1 hr
    rw [if_neg hroom] at hp
    cases hp

theorem reported_of_accepted {r : Option Round} {b : Option Flat.Message}
    (hb : ¬ Flat.Rejected b) : Reported r b ↔ ∃ rd, r = some rd ∧ rd.put.length = 1 :=
  exists_congr fun _ => and_congr_right fun _ =>
    ⟨fun h => h.2 hb, fun h => ⟨fun hr => absurd hr hb, fun _ => h⟩⟩

/-- A round reports what becomes of a frame, into a message with the command `mem`, exactly where it
delivers it. -/
theorem reported_iff (asRoot : List UInt8 → Option Flat.Message) (self : FbsSock)
    (frame : Frame self) (isClient : Bool) (xreplicaId : UInt64) (chan : List Flat.Received)
    (m : Flat.Received) (mem : RawCommand) :
    Reported (writerRound asRoot self frame isClient xreplicaId chan { m with command := some mem })
        (asRoot frame.vla)
      ↔ Delivered isClient chan mem frame.vla (asRoot frame.vla) := by
  rcases Flat.messageFromBuffer_cases { m with command := some mem } (asRoot frame.vla) with
    ⟨hrej, m', hm'⟩ | ⟨bm, m', hb, hrej, hcmd, ⟨hdec, hm'⟩ | ⟨data, hdec, hm'⟩⟩
  · refine iff_of_false ?_ fun hd => hd.accepted hrej
    rintro ⟨rd, hr, hrep, -⟩
    have hlen := writerRound_received (.inr rfl) hm' hr
    have := (hrep hrej).1
    omega
  · rw [reported_of_accepted hrej, writerRound_puts (.inl rfl) hm']
    constructor
    · rintro ⟨hne, hroom, hw⟩
      refine ⟨hrej, hne, fun bm' data hb' hd => ?_, hroom, fun hc bm' hb' => ?_⟩
      · cases hb.symm.trans hb'
        cases hdec.symm.trans hd
      · cases hb.symm.trans hb'
        obtain ⟨c, hcm, hin⟩ := hw hc
        cases hcm.symm.trans hcmd
        unfold Watchable
        rw [hdec]
        exact hin
    · rintro ⟨-, hne, -, hroom, hw⟩
      refine ⟨hne, hroom, fun hc => ⟨mem, hcmd, ?_⟩⟩
      have hin := hw hc bm hb
      unfold Watchable at hin
      rwa [hdec] at hin
  · rw [reported_of_accepted hrej]
    by_cases hfit : data.Fits
    · obtain ⟨r, hr⟩ := (Flat.instanceDataFromBuffer_iff hcmd).2 hfit
      rw [hr] at hm'
      have hwatch : (∃ c, r.command = some c ∧ InRange c) ↔ data.command ≠ none := by
        refine Iff.trans ?_ (not_congr (Flat.instanceDataFromBuffer_command hr))
        refine ⟨fun h => Option.ne_none_iff_exists'.2 ⟨_, h.choose_spec.1⟩, fun hn => ?_⟩
        obtain ⟨c, hc⟩ := Option.ne_none_iff_exists'.1 hn
        obtain ⟨w, hw, hu⟩ := Flat.instanceDataFromBuffer_used hr hc
        exact ⟨c, hc, .inl (hu.trans_le (hfit w hw).1)⟩
      rw [writerRound_puts (.inl rfl) hm', hwatch]
      constructor
      · rintro ⟨hne, hroom, hw⟩
        refine ⟨hrej, hne, fun bm' data' hb' hd => ?_, hroom, fun hc bm' hb' => ?_⟩
        · cases hb.symm.trans hb'
          cases hdec.symm.trans hd
          exact hfit
        · cases hb.symm.trans hb'
          unfold Watchable
          rw [hdec]
          exact hw hc
      · rintro ⟨-, hne, -, hroom, hw⟩
        refine ⟨hne, hroom, fun hc => ?_⟩
        have hin := hw hc bm hb
        unfold Watchable at hin
        rwa [hdec] at hin
    · refine iff_of_false ?_ fun hd => hfit (hd.fits bm data hb hdec)
      rintro ⟨rd, hr, -⟩
      have hnone : Flat.instanceDataFromBuffer m' data = none := by
        by_contra hn
        exact hfit ((Flat.instanceDataFromBuffer_iff hcmd).1 (Option.ne_none_iff_exists'.1 hn))
      rw [hnone] at hm'
      unfold writerRound mrecvl at hr
      rw [if_neg (by rw [frame.receives]; exact Bool.false_ne_true), hm'] at hr
      cases hr

end Round

/-- A connection's socket as `init_fbs` and `fbs_sock_attach` set it up. -/
def newSock : FbsSock := ⟨16, true, false, false⟩

/-- A frame whose content is a root table without fields: its place, its field table, and where that
is. -/
def emptyFrame : Frame newSock where
  receives := rfl
  szbuf i := if i.val = 15 then 12 else 0
  vla := [8, 0, 0, 0, 4, 0, 4, 0, 4, 0, 0, 0]
  size := by decide
  bound := by decide

/-- A root without fields: no instance id and no type, the others at their defaults. -/
def emptyRoot : Flat.Message := ⟨0, 0, 0, 0, none, none, none, 1, none, none⟩

/-- A message without instance id and type is put on the channel all the same. -/
theorem rejected_put :
    ((writerRound (fun _ => some emptyRoot) newSock emptyFrame false 1 []
        (Flat.blank (Flat.memory 0))).map
        fun rd => (rd.received, rd.read, rd.put.length)) = some (12, 12, 1)
      ∧ ¬ Reported (writerRound (fun _ => some emptyRoot) newSock emptyFrame false 1 []
        (Flat.blank (Flat.memory 0))) (some emptyRoot) := by
  have hr : ((writerRound (fun _ => some emptyRoot) newSock emptyFrame false 1 []
      (Flat.blank (Flat.memory 0))).map fun rd => (rd.received, rd.read, rd.put.length))
        = some (12, 12, 1) := by decide
  refine ⟨hr, ?_⟩
  rintro ⟨rd, h, hrej, -⟩
  rw [h] at hr
  have hsize : rd.received = 12 := congrArg Prod.fst (Option.some.inj hr)
  have hneg : rd.received = -1 := (hrej (.inl rfl)).1
  omega

end Epx
