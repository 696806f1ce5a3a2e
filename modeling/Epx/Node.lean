import Epx.Execute
import Epx.System

/-!
# Nodes

`struct node_io`: a replica and an executor, two threads over the same instances. An event of the
replica is one step, except that `commit` hands the instance over before it writes seq and deps. A
step of `run_execute` is a receive with `add_node`, one slot of a dependency array in the loops of
`strong_connect` or `execute_scc`, all `visit`s, `sort_scc`, or one write of `EXECUTED`.
-/

namespace Epx

/-- `CAPACITY`, of which a ring leaves one entry unused. -/
def chanCapacity : ℕ := 2048

/-- `send_exec`, the oldest entry first; a full channel drops what is sent. -/
def sendExec (chan : List InstanceId) (id : InstanceId) : List InstanceId :=
  if chan.length + 1 < chanCapacity then chan ++ [id] else chan

/-- A slot of a dependency array. -/
abbrev Slot := InstanceId × ℕ

/-- The slots of the instances, in the order of the loops. -/
def slotsOf (ids : List InstanceId) : List Slot :=
  ids.flatMap fun id => (List.range maxDeps).map fun k => (id, k)

/-- Where the executor's thread is: at the channel, in the first loop of `strong_connect` with what
it has read, in the first loop of `execute_scc`, or in the second, with the components to come. -/
inductive Task
  | waiting
  | linking (todo : List Slot) (deps : InstanceId → List Dependency)
  | checking (comp : List InstanceId) (todo : List Slot) (comps : List (List InstanceId))
  | marking (todo : List InstanceId) (comps : List (List InstanceId))

/-- The loop of `execute` at the next component. -/
def Task.next : List (List InstanceId) → Task
  | [] => .waiting
  | comp :: comps => .checking comp (slotsOf comp) comps

/-- The slot of a registered instance. -/
def Replica.slot (r : Replica) (s : Slot) : Option Dependency :=
  (r.find s.1).bind fun i => i.deps.slots[s.2]?

/-- The instance that `commit` has handed over, with the seq and the deps that are still to be
written over. -/
structure Unwritten where
  id : InstanceId
  seq : Option ℕ
  deps : Deps

/-- The threads of a node. -/
structure Node where
  unwritten : Option Unwritten
  chan : List InstanceId
  vertices : Vertices
  task : Task

namespace Node

/-- What the executor's thread finds in the instances of `r`. -/
def view (n : Node) (r : Replica) : Replica :=
  match n.unwritten with
  | none => r
  | some u =>
    ((r.find u.id).map fun i => r.put { i with seq := u.seq.getD i.seq, deps := u.deps }).getD r

/-- The next statement of `commit`. -/
def write (n : Node) : Node :=
  { n with
    unwritten := n.unwritten.bind fun u => if u.seq.isSome then some { u with seq := none } else none }

/-- `run_execute` on an instance received, with the map in the order of `vs`. -/
def receive (n : Node) (chan : List InstanceId) (id : InstanceId) (vs : Vertices) : Node :=
  { n with
    chan
    vertices := vs
    task := if (n.vertices.addNode id).2 then .linking (slotsOf vs.ids) fun _ => [] else .waiting }

/-- The executor's next step on what it finds, and the instance it writes `EXECUTED` to. -/
def advance (n : Node) (r : Replica) : Option (Node × Option InstanceId) :=
  match n.task with
  | .waiting => none
  | .linking [] deps =>
    (strongConnect n.vertices deps).map fun s => ({ n with task := .next s.sccs }, none)
  | .linking (s :: todo) deps =>
    (r.slot s).map fun d =>
      ({ n with task := .linking todo (Function.update deps s.1 (deps s.1 ++ [d])) }, none)
  | .checking comp [] comps => some ({ n with task := .marking (sortScc r.seqOf comp) comps }, none)
  | .checking comp (s :: todo) comps =>
    (r.slot s).bind fun d => (depReady r n.vertices comp d).map fun ready =>
      ({ n with task := if ready then .checking comp todo comps else .next comps }, none)
  | .marking [] comps => some ({ n with task := .next comps }, none)
  | .marking (id :: todo) comps =>
    some ({ n with vertices := n.vertices.del id, task := .marking todo comps }, some id)

/-- The node after an event of the replica on the instance `i`. -/
def handOver (n : Node) (ev : Event) (i : Instance) (e : Effect) : Node :=
  if e.exec then
    { n with
      chan := sendExec n.chan e.inst.key
      unwritten :=
        match ev with
        | .step m => if m.type = .commit then some ⟨i.key, some i.seq, i.deps⟩ else none
        | _ => none }
  else n

end Node

/-- The executor's write of `EXECUTED`. -/
def Event.isExecute : Event → Bool
  | .execute _ => true
  | _ => false

/-- What a node can do next: an event of the replica, a last statement of `commit`, a receive
after which the map is in the order of `vs`, or another step of the executor. -/
inductive Action
  | replica (ev : Event)
  | write
  | receive (vs : Vertices)
  | advance

structure Cluster where
  world : World
  node : ℕ → Node

namespace Cluster

def init : Cluster := ⟨.init, fun _ => ⟨none, [], .empty, .waiting⟩⟩

/-- What the executor of node `k` finds in the instances. -/
def view (c : Cluster) (k : ℕ) : Replica := (c.node k).view (c.world.replica k)

variable (T : RangeTree)

/-- The cluster after node `k` has acted. -/
def next (c : Cluster) (k : ℕ) : Action → Option Cluster
  | .replica ev =>
    if (c.node k).unwritten.isSome || ev.isExecute then none
    else
      match (c.world.replica k).handle T ev with
      | .handled i e =>
        (c.world.next T k ev).map fun w =>
          ⟨w, Function.update c.node k ((c.node k).handOver ev i e)⟩
      | _ => none
  | .write =>
    if (c.node k).unwritten.isSome then
      some { c with node := Function.update c.node k (c.node k).write }
    else none
  | .receive vs =>
    match (c.node k).task, (c.node k).chan with
    | .waiting, id :: chan =>
      if ((c.world.replica k).find id).isSome ∧ vs.ids.Perm ((c.node k).vertices.addNode id).1.ids
      then some { c with node := Function.update c.node k ((c.node k).receive chan id vs) }
      else none
    | _, _ => none
  | .advance =>
    ((c.node k).advance (c.view k)).bind fun p =>
      match p.2 with
      | none => some { c with node := Function.update c.node k p.1 }
      | some id =>
        (c.world.next T k (.execute id)).map fun w => ⟨w, Function.update c.node k p.1⟩

end Cluster

/-- The clusters of the runs whose actions are all `ok`. -/
inductive ClusterRun (ok : Cluster → ℕ → Action → Prop) (T : RangeTree) : Cluster → Prop
  | init : ClusterRun ok T .init
  | next {c c' : Cluster} {k : ℕ} {a : Action} (h : ClusterRun ok T c) (hok : ok c k a)
      (hn : c.next T k a = some c') : ClusterRun ok T c'

end Epx
