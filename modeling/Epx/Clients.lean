import Epx.Command

/-!
# The clients' watches

`register_client` and `merge_clients` of `io.c`: the index of the spans that clients watch, each
with the slots for the clients notified of it. A slot is free where `expires` is 0. The memory of
the span on the stack is an argument: only its keys and its first slot are written before use.
-/

namespace Epx

/-- The clients a registered span has room for. -/
def maxClients : ℕ := 10

/-- `struct client`: the sending end of its channel and when it expires. -/
structure Client where
  chan : ℕ
  expires : ℤ
  deriving DecidableEq, Repr

/-- The slots of a registered span. -/
abbrev Slots := Fin maxClients → Client

/-- `struct registered_span`. -/
structure RegisteredSpan where
  span : Span
  clients : Slots
  deriving DecidableEq

/-- The slot `register_client` writes. -/
def firstSlot : Fin maxClients := ⟨0, by decide⟩

/-- The inner loop of `merge_clients`: each free slot takes the client. -/
def fillFree (toMerge : Slots) (cl : Client) : Slots :=
  fun tcl => if (toMerge tcl).expires = 0 then cl else toMerge tcl

/-- The loop of `merge_clients` over the slots of a span merged. -/
def mergeSlots (toMerge c : Slots) : Slots :=
  (List.ofFn c).foldl (fun s cl => if cl.expires ≠ 0 then fillFree s cl else s) toMerge

/-- The span index of `llrb-interval`, with what is stored in it. -/
structure ClientIndex where
  Tree : Type
  init : Tree
  stored : Tree → List RegisteredSpan
  insert : Tree → RegisteredSpan → Tree
  delete : Tree → RegisteredSpan → Tree
  group : Tree → Span → Option (List RegisteredSpan)

section Register

variable (L : ClientIndex)

/-- `merge_clients` on the stored spans the new one meets: they leave the index. -/
def mergeClients (ci : L.Tree) (toMerge : RegisteredSpan) (sll : List RegisteredSpan) :
    L.Tree × RegisteredSpan :=
  sll.foldl (fun p c =>
    if overlaps p.2.span c.span then
      (L.delete p.1 c,
        { span :=
            { startKey := if strcmp p.2.span.startKey c.span.startKey = .gt then c.span.startKey
                else p.2.span.startKey
              endKey := if strcmp p.2.span.endKey c.span.endKey = .lt then c.span.endKey
                else p.2.span.endKey }
          clients := mergeSlots p.2.clients c.clients })
    else p) (ci, toMerge)

/-- `register_client`, the slots on the stack being `mem`. -/
def registerClient (ci : L.Tree) (mem : Slots) (sp : Span) (client : Client) : L.Tree :=
  match L.group ci sp with
  | none => ci
  | some cg =>
    let (ci, crsp) := mergeClients L ci ⟨sp, Function.update mem firstSlot client⟩ cg
    L.insert ci { crsp with clients := Function.update crsp.clients firstSlot client }

end Register

/-- A call of `register_client`; `writer` makes it for clients that have a deadline. -/
structure Registration where
  mem : Slots
  span : Span
  client : Client
  expires_ne : client.expires ≠ 0

/-- The index after the calls, the last one first. -/
def registerAll (L : ClientIndex) : List Registration → L.Tree
  | [] => L.init
  | c :: cs => registerClient L (registerAll L cs) c.mem c.span c.client

end Epx
