import Epx.Instance

/-!
# The wire format

`message.c` and `command.c`: a message as it lies in memory, the table the schema has for it, and
the two conversions. An array is a function on its slots. A key is what stands before its
terminator, in memory and on the wire; a field of the schema is at its schema type.
-/

namespace Epx

/-- `struct instance_id` in memory. -/
structure RawId where
  replicaId : UInt64
  instanceId : UInt64
  deriving DecidableEq, Repr

/-- `struct dependency` in memory. -/
structure RawDependency where
  id : RawId
  committed : UInt8
  deriving DecidableEq, Repr

/-- `struct command` in memory: `used` is its `tx_size`. -/
structure RawCommand where
  spans : Fin txSize → Span
  used : ℕ
  id : Int32
  writing : IoT

/-- The conflict of a message in memory. -/
structure RawConflict where
  id : RawId
  status : State
  deriving DecidableEq, Repr

/-- `struct message` in memory; `dest` and `sender` are its fields `to` and `from`. -/
structure RawMessage where
  type : MessageType
  dest : UInt64
  ballot : UInt8
  nack : UInt8
  id : RawId
  command : Option RawCommand
  seq : UInt64
  deps : Fin maxDeps → RawDependency
  sender : UInt64
  instanceStatus : State
  conflict : RawConflict
  start : UInt64
  stop : UInt64

/-- The schema's `instance_id`. -/
structure WireId where
  replicaId : UInt16
  instanceId : UInt64
  deriving DecidableEq, Repr

/-- The schema's `dependency`. -/
structure WireDependency where
  replicaId : UInt16
  instanceId : UInt64
  committed : UInt8
  deriving DecidableEq, Repr

/-- The schema's `command`. -/
structure WireCommand where
  id : UInt8
  spans : List Span
  writing : IoT
  deriving DecidableEq, Repr

/-- The schema's `instance_data`. -/
structure WireData where
  command : Option WireCommand
  seq : UInt64
  deps : List WireDependency
  deriving DecidableEq, Repr

/-- The schema's `message`. -/
structure WireMessage where
  sender : UInt16
  dest : UInt16
  nack : UInt8
  ballot : UInt8
  instanceId : Option WireId
  type : Option MessageType
  data : Option WireData
  instanceStatus : State
  srt : Option UInt64
  stp : Option UInt64
  deriving DecidableEq, Repr

section Encode

/-- `command_to_buffer`. -/
def commandToBuffer (c : RawCommand) : WireCommand where
  id := c.id.toUInt32.toUInt8
  spans := (List.ofFn c.spans).filter fun s => !emptyRange s
  writing := c.writing

/-- An entry as `instance_data_to_buffer` pushes it. -/
def dependencyToBuffer (d : RawDependency) : WireDependency :=
  ⟨d.id.replicaId.toUInt16, d.id.instanceId, d.committed⟩

/-- The entries `instance_data_to_buffer` pushes, those with a replica id above 0. -/
def depsToBuffer (deps : Fin maxDeps → RawDependency) : List WireDependency :=
  ((List.ofFn deps).filter fun d => decide (0 < d.id.replicaId)).map dependencyToBuffer

/-- `instance_data_to_buffer`. -/
def instanceDataToBuffer (m : RawMessage) : WireData where
  command := m.command.map commandToBuffer
  seq := m.seq
  deps := depsToBuffer m.deps

/-- `message_to_buffer`. -/
def messageToBuffer (m : RawMessage) : WireMessage where
  sender := m.sender.toUInt16
  dest := m.dest.toUInt16
  nack := m.nack
  ballot := m.ballot
  instanceId := some ⟨m.id.replicaId.toUInt16, m.id.instanceId⟩
  type := some m.type
  data := if m.type = .preAcceptOk then none else some (instanceDataToBuffer m)
  instanceStatus := m.instanceStatus
  srt := if m.start = 0 then none else some m.start
  stp := if m.stop = 0 then none else some m.stop

end Encode

section Decode

/-- `command_from_buffer` with the command present, `none` where it writes past the spans. -/
def commandFromBuffer (c : RawCommand) (w : WireCommand) : Option RawCommand :=
  if w.spans.length ≤ txSize then
    some {
      spans := fun i => w.spans.getD i (c.spans i)
      used := w.spans.length
      id := ⟨w.id.toUInt32⟩
      writing := w.writing }
  else none

/-- An entry as `instance_data_from_buffer` stores it. -/
def dependencyFromBuffer (w : WireDependency) : RawDependency :=
  ⟨⟨w.replicaId.toUInt64, w.instanceId⟩, w.committed⟩

/-- The loop of `instance_data_from_buffer`: at most `N` slots are written. -/
def depsFromBuffer (deps : Fin maxDeps → RawDependency) (w : List WireDependency) :
    Fin maxDeps → RawDependency :=
  fun i => ((w.take N).map dependencyFromBuffer).getD i (deps i)

/-- The command of `instance_data_from_buffer`: absent if it is absent on the wire, `none` where
the message has no memory for it. -/
def commandOfData (c : Option RawCommand) : Option WireCommand → Option (Option RawCommand)
  | none => some none
  | some w => (c.bind (commandFromBuffer · w)).map some

/-- `instance_data_from_buffer`. -/
def instanceDataFromBuffer (m : RawMessage) (w : WireData) : Option RawMessage :=
  (commandOfData m.command w.command).map fun command =>
    { m with command, seq := w.seq, deps := depsFromBuffer m.deps w.deps }

/-- `message_from_buffer`, into the message `m`; `none` is its error as well. -/
def messageFromBuffer (m : RawMessage) (w : WireMessage) : Option RawMessage :=
  match w.instanceId, w.type with
  | some id, some type =>
    let m := { m with
      dest := w.dest.toUInt64
      sender := w.sender.toUInt64
      nack := w.nack
      ballot := w.ballot
      instanceStatus := w.instanceStatus
      id := ⟨id.replicaId.toUInt64, id.instanceId⟩
      type
      stop := w.stp.getD m.stop
      start := w.srt.getD m.start }
    if type = .preAcceptOk then some m
    else
      match w.data with
      | none => some m
      | some data => instanceDataFromBuffer m data
  | _, _ => none

end Decode

/-- The fields of a message, the id and the type apart. -/
inductive Field
  | ballot
  | nack
  | command
  | seq
  | deps
  | sender
  | instanceStatus
  | conflict
  deriving DecidableEq, Repr

/-- The fields that decide what the handler of a type leaves behind: those it reads before it writes
them, and those it leaves in a message it sends on, where the handler of that one reads them. `nacked`
says that `nack` is set. -/
def reads (type : MessageType) (nacked : Bool) : List Field :=
  match type with
  | .phase1 => [.ballot, .nack, .command]
  | .preAccept => [.ballot, .nack, .command, .seq, .sender]
  | .preAcceptOk => [.ballot, .nack, .command, .seq, .deps]
  | .preAcceptReply => if nacked then [.ballot, .nack] else [.ballot, .nack, .command, .seq, .deps]
  | .accept => [.ballot, .nack, .command, .seq, .deps, .sender]
  | .acceptReply => if nacked then [.ballot, .nack] else [.ballot, .nack, .command, .seq, .deps]
  | .commit => [.seq, .deps]
  | .prepare => [.ballot, .nack, .sender]
  | .prepareReply =>
    if nacked then [.nack]
    else [.ballot, .nack, .command, .seq, .deps, .sender, .instanceStatus]
  | .tryPreAccept => [.ballot, .nack, .command, .seq, .deps, .sender]
  | .tryPreAcceptReply =>
    if nacked then [.ballot, .nack, .command, .seq, .deps, .sender, .conflict]
    else [.ballot, .nack]
  | .execute => []

/-- The same id, `tx_size` and `writing`, and the same spans in use. -/
structure RawCommand.Same (c d : RawCommand) : Prop where
  id : d.id = c.id
  used : d.used = c.used
  writing : d.writing = c.writing
  spans : ∀ i : Fin txSize, i < c.used → d.spans i = c.spans i

/-- `d` has the field as `m` has it. -/
def Field.Same (m d : RawMessage) : Field → Prop
  | ballot => d.ballot = m.ballot
  | nack => d.nack = m.nack
  | command => Option.Rel RawCommand.Same m.command d.command
  | seq => d.seq = m.seq
  | deps => d.deps = m.deps
  | sender => d.sender = m.sender
  | instanceStatus => d.instanceStatus = m.instanceStatus
  | conflict => d.conflict = m.conflict

/-- The fields of the message that its handler reads. -/
def RawMessage.reads (m : RawMessage) : List Field := Epx.reads m.type (decide (m.nack ≠ 0))

/-- `d` has all that the handler of `m`'s type reads as `m` has it. -/
structure RawMessage.Agrees (m d : RawMessage) : Prop where
  type : d.type = m.type
  id : d.id = m.id
  read : ∀ f ∈ m.reads, f.Same m d

end Epx
