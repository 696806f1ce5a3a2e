import Epx.Wire

/-!
# Decoding any buffer

`message_from_buffer` on every table the schema admits: a string may be of any length and hold any
bytes, and whatever the schema does not require may be absent. A write outside an array, and a read
through an absent string, have no value. The enumerations of a message are the bytes cast to them. A
message of the wire format is such a table.
-/

namespace Epx

/-- `KEY_SIZE`, the terminator included. -/
def keySize : ℕ := 3

/-- The byte of `PRE_ACCEPT_OK`. -/
def preAcceptOkByte : UInt8 := 3

namespace Flat

/-- The schema's `span`. -/
structure Span where
  startKey : Option (List UInt8)
  endKey : Option (List UInt8)
  deriving DecidableEq, Repr

/-- The schema's `command`. -/
structure Command where
  id : UInt8
  spans : Option (List Span)
  writing : IoT
  deriving DecidableEq, Repr

/-- The schema's `instance_data`. -/
structure Data where
  command : Option Command
  seq : UInt64
  deps : Option (List WireDependency)
  deriving DecidableEq, Repr

/-- The schema's `message`. -/
structure Message where
  sender : UInt16
  dest : UInt16
  nack : UInt8
  ballot : UInt8
  instanceId : Option WireId
  type : Option UInt8
  data : Option Data
  instanceStatus : UInt8
  srt : Option UInt64
  stp : Option UInt64
  deriving DecidableEq, Repr

/-- What `message_from_buffer` fills of `struct message`; `dest` and `sender` are its fields `to` and
`from`. -/
structure Received where
  type : UInt8
  dest : UInt64
  ballot : UInt8
  nack : UInt8
  id : RawId
  command : Option RawCommand
  seq : UInt64
  deps : Fin maxDeps → RawDependency
  sender : UInt64
  instanceStatus : UInt8
  start : UInt64
  stop : UInt64

/-- The bytes of a string that `strcpy` copies, but for the terminator. -/
def cString (s : List UInt8) : Key := s.takeWhile (· ≠ 0)

/-- `strcpy` to a key of a span. -/
def strcpy (src : Option (List UInt8)) : Option Key :=
  src.bind fun s => if (cString s).length < keySize then some (cString s) else none

/-- The loop of `command_from_buffer` over the spans, from slot `i`. -/
def spansLoop : List Span → ℕ → (Fin txSize → Epx.Span) → Option (Fin txSize → Epx.Span)
  | [], _, spans => some spans
  | sp :: sps, i, spans =>
    if h : i < txSize then
      (strcpy sp.startKey).bind fun startKey => (strcpy sp.endKey).bind fun endKey =>
        spansLoop sps (i + 1) (Function.update spans ⟨i, h⟩ ⟨startKey, endKey⟩)
    else none

/-- `command_from_buffer` with the command present. -/
def commandFromBuffer (c : RawCommand) (w : Command) : Option RawCommand :=
  (spansLoop (w.spans.getD []) 0 c.spans).map fun spans =>
    { spans, used := (w.spans.getD []).length, id := ⟨w.id.toUInt32⟩, writing := w.writing }

/-- The loop of `instance_data_from_buffer` over the dependencies, from slot `i`. -/
def depsLoop : List WireDependency → ℕ → (Fin maxDeps → RawDependency) →
    Option (Fin maxDeps → RawDependency)
  | [], _, deps => some deps
  | d :: ds, i, deps =>
    if h : i < maxDeps then
      depsLoop ds (i + 1) (Function.update deps ⟨i, h⟩ (dependencyFromBuffer d))
    else none

/-- The command of `instance_data_from_buffer`: absent if it is absent in the buffer, and without
memory for it there is nothing to write to. -/
def commandOfData (c : Option RawCommand) : Option Command → Option (Option RawCommand)
  | none => some none
  | some w => (c.bind (commandFromBuffer · w)).map some

/-- `instance_data_from_buffer`. -/
def instanceDataFromBuffer (m : Received) (w : Data) : Option Received :=
  (commandOfData m.command w.command).bind fun command =>
    (depsLoop ((w.deps.getD []).take N) 0 m.deps).map fun deps =>
      { m with command, seq := w.seq, deps }

/-- `message_from_buffer` on the root of a buffer: what it returns, and the message. -/
def messageFromBuffer (m : Received) : Option Message → Option (ℤ × Received)
  | none => some (1, m)
  | some bm =>
    let m := { m with
      dest := bm.dest.toUInt64
      sender := bm.sender.toUInt64
      nack := bm.nack
      ballot := bm.ballot
      instanceStatus := bm.instanceStatus }
    match bm.instanceId with
    | none => some (1, m)
    | some id =>
      let m := { m with id := ⟨id.replicaId.toUInt64, id.instanceId⟩ }
      match bm.type with
      | none => some (1, m)
      | some type =>
        let m := { m with type, stop := bm.stp.getD m.stop, start := bm.srt.getD m.start }
        if type = preAcceptOkByte then some (0, m)
        else
          match bm.data with
          | none => some (0, m)
          | some data => (instanceDataFromBuffer m data).map fun m => (0, m)

end Flat

/-- The enumerator's value. -/
def MessageType.byte : MessageType → UInt8
  | .phase1 => 1
  | .preAccept => 2
  | .preAcceptOk => 3
  | .preAcceptReply => 4
  | .accept => 5
  | .acceptReply => 6
  | .commit => 7
  | .prepare => 8
  | .prepareReply => 9
  | .tryPreAccept => 10
  | .tryPreAcceptReply => 11
  | .execute => 12

/-- A command of the schema as a table. -/
def WireCommand.table (w : WireCommand) : Flat.Command :=
  ⟨w.id, some (w.spans.map fun s => ⟨some s.startKey, some s.endKey⟩), w.writing⟩

/-- The data of a message as a table. -/
def WireData.table (w : WireData) : Flat.Data :=
  ⟨w.command.map WireCommand.table, w.seq, some w.deps⟩

/-- A message of the schema as a table. -/
def WireMessage.table (w : WireMessage) : Flat.Message where
  sender := w.sender
  dest := w.dest
  nack := w.nack
  ballot := w.ballot
  instanceId := w.instanceId
  type := w.type.map MessageType.byte
  data := w.data.map WireData.table
  instanceStatus := w.instanceStatus.bits.toUInt8
  srt := w.srt
  stp := w.stp

/-- What of a message in memory `message_from_buffer` fills, with the values of the enumerators. -/
def RawMessage.received (m : RawMessage) : Flat.Received :=
  { m with type := m.type.byte, instanceStatus := m.instanceStatus.bits.toUInt8 }

end Epx
