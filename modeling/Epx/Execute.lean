import Epx.Lib.Tarjan
import Epx.Replica

/-!
# The executor

`execute.c`. The `vertices` map is the list of its instances in the order `kh_foreach_value` meets
them; `visit` is `Tarjan.visit` on their nodes. `executed` is the order in which a pass has written
`EXECUTED`. A component is a list as long as it has to be. `none` is a read through a vertex whose
instance is not registered, or of an index that the replica does not have.
-/

namespace Epx

/-- `khash_t(vertices)`: the instances of its nodes, one for a `dh_key`. -/
structure Vertices where
  ids : List InstanceId
  distinct : (ids.map dhKey).Nodup

namespace Vertices

/-- `kh_init`. -/
def empty : Vertices := ⟨[], .nil⟩

/-- `kh_get` with the `dh_key` of `id`. -/
def get (vs : Vertices) (id : InstanceId) : Option InstanceId :=
  vs.ids.find? fun v => dhKey v = dhKey id

/-- `kh_del` with the `dh_key` of `id`. -/
def del (vs : Vertices) (id : InstanceId) : Vertices where
  ids := vs.ids.filter fun v => dhKey v ≠ dhKey id
  distinct := vs.distinct.sublist (List.filter_sublist.map dhKey)

theorem map_dhKey_replace (xs : List InstanceId) (id : InstanceId) :
    (xs.map fun v => if dhKey v = dhKey id then id else v).map dhKey = xs.map dhKey := by
  rw [List.map_map]
  refine List.map_congr_left fun v _ => ?_
  simp only [Function.comp_apply]
  split_ifs with h
  · exact h.symm
  · rfl

/-- `add_node`: the map, and whether the key is new to it. -/
def addNode (vs : Vertices) (id : InstanceId) : Vertices × Bool :=
  if h : dhKey id ∈ vs.ids.map dhKey then
    (⟨vs.ids.map fun v => if dhKey v = dhKey id then id else v, by
      rw [map_dhKey_replace]; exact vs.distinct⟩, false)
  else (⟨id :: vs.ids, List.nodup_cons.2 ⟨h, vs.distinct⟩⟩, true)

/-- The `deps` of a node whose instance has the array. -/
def edges (vs : Vertices) (deps : List Dependency) : List InstanceId :=
  deps.filterMap fun d => if d.Empty then none else vs.get d.id

end Vertices

/-- `strong_connect`, on instances with the arrays `deps`. -/
def strongConnect (vs : Vertices) (deps : InstanceId → List Dependency) :
    Option (Tarjan.Search InstanceId) :=
  Tarjan.strongConnect (fun v => vs.edges (deps v)) vs.ids

namespace Replica

/-- The dependency array of a registered instance. -/
def depsOf (r : Replica) (id : InstanceId) : List Dependency :=
  ((r.find id).map fun i => i.deps.slots).getD []

/-- The seq of a registered instance. -/
def seqOf (r : Replica) (id : InstanceId) : ℕ := ((r.find id).map Instance.seq).getD 0

/-- The instance is registered and `EXECUTED`. -/
def hasExecuted (r : Replica) (id : InstanceId) : Bool :=
  (r.find id).any fun i => isState i.status [.executed]

/-- `executed->status = EXECUTED`. -/
def setExecuted (r : Replica) (id : InstanceId) : Replica :=
  ((r.find id).map fun i => r.put { i with status := .executed }).getD r

end Replica

/-- Whether a dependency lets the component go: it is empty, or in the component, or executed. -/
def depReady (r : Replica) (vs : Vertices) (comp : List InstanceId) (d : Dependency) :
    Option Bool :=
  if d.Empty then some true
  else if (vs.get d.id).any fun v => decide (v ∈ comp) then some true
  else if N ≤ d.id.replicaId then none
  else some (r.hasExecuted d.id)

/-- The loop that returns at the first `false`. -/
def allReady {α : Type} (ready : α → Option Bool) : List α → Option Bool
  | [] => some true
  | x :: xs => (ready x).bind fun b => if b then allReady ready xs else some false

/-- The loops of `execute_scc` over the component and the dependencies of its instances. -/
def sccReady (r : Replica) (vs : Vertices) (comp : List InstanceId) : Option Bool :=
  allReady (fun v => allReady (depReady r vs comp) (r.depsOf v)) comp

/-- `d` before the nodes with a larger seq, in a list with the last node first. -/
def insertNode (seq : InstanceId → ℕ) (d : InstanceId) : List InstanceId → List InstanceId
  | [] => [d]
  | x :: xs => if seq d < seq x then x :: insertNode seq d xs else d :: x :: xs

/-- `sort_scc`, with the nodes sorted so far last node first. -/
def sortLoop (seq : InstanceId → ℕ) : List InstanceId → List InstanceId → List InstanceId
  | sorted, [] => sorted
  | sorted, d :: ds => sortLoop seq (insertNode seq d sorted) ds

/-- `sort_scc`. -/
def sortScc (seq : InstanceId → ℕ) (s : List InstanceId) : List InstanceId :=
  (sortLoop seq [] s).reverse

/-- What a pass of the executor works on. -/
structure Pass where
  replica : Replica
  vertices : Vertices
  executed : List InstanceId

namespace Pass

/-- The instance leaves the map and is executed. -/
def run (p : Pass) (id : InstanceId) : Pass :=
  ⟨p.replica.setExecuted id, p.vertices.del id, p.executed ++ [id]⟩

/-- `execute_scc`. -/
def executeScc (p : Pass) (comp : List InstanceId) : Option Pass :=
  (sccReady p.replica p.vertices comp).map fun ready =>
    if ready then (sortScc p.replica.seqOf comp).foldl run p else p

/-- `execute_scc` on each component in turn. -/
def executeAll (p : Pass) : List (List InstanceId) → Option Pass
  | [] => some p
  | comp :: comps => (p.executeScc comp).bind fun p => p.executeAll comps

end Pass

/-- `execute`. -/
def execute (r : Replica) (vs : Vertices) : Option Pass :=
  if ∀ v ∈ vs.ids, (r.find v).isSome then
    (strongConnect vs r.depsOf).bind fun s => Pass.executeAll ⟨r, vs, []⟩ s.sccs
  else none

/-- What `strong_connect` finds has room in `sccs`. -/
def Fits (r : Replica) (vs : Vertices) : Prop :=
  ∀ s ∈ strongConnect vs r.depsOf,
    s.sccs.length ≤ maxDeps ∧ ∀ comp ∈ s.sccs, comp.length ≤ maxDeps

instance (r : Replica) (vs : Vertices) : Decidable (Fits r vs) := by
  unfold Fits; infer_instance

/-- `run_execute` on an instance taken from `chan_exec`, with the map in the order of `vs`. -/
def Pass.receive (p : Pass) (id : InstanceId) (vs : Vertices) : Option Pass :=
  if (p.vertices.addNode id).2 then
    (execute p.replica vs).map fun q => { q with executed := p.executed ++ q.executed }
  else some { p with vertices := vs }

/-- The executor has received the instances of the list, the last one first, and every pass was
over a map that is `ok`. A pass can meet the map in any order. -/
inductive Fed (ok : Replica → Vertices → Prop) (r : Replica) : List InstanceId → Pass → Prop
  | start : Fed ok r [] ⟨r, .empty, []⟩
  | receive {ids : List InstanceId} {p p' : Pass} {id : InstanceId} {vs : Vertices}
      (h : Fed ok r ids p) (hvs : vs.ids.Perm (p.vertices.addNode id).1.ids)
      (hok : (p.vertices.addNode id).2 = true → ok p.replica vs)
      (hp : p.receive id vs = some p') : Fed ok r (id :: ids) p'

end Epx
