import Epx.Index

/-!
# The replica

`replica.c`. A replica holds one index for each of the `N` replicas, the `deferred` map by
`dh_key`, and, for the executor, the ids of the instances it has put on `chan_exec`. An access
through a replica id of `N` or more is out of the index array.
-/

namespace Epx

/-- `struct replica`. -/
structure Replica where
  id : ℕ
  index : ℕ → InstanceIndex
  dh : ℕ → Option ℕ
  handed : List InstanceId

/-- `new_replica`. -/
def newReplica (id : ℕ) : Replica := ⟨id, fun _ => .empty, fun _ => none, []⟩

/-- `dh_key`. -/
def dhKey (id : InstanceId) : ℕ := u64 (id.instanceId <<< 16) ||| id.replicaId

namespace Replica

/-- `find_instance`. -/
def find (r : Replica) (id : InstanceId) : Option Instance :=
  (r.index id.replicaId).find id.instanceId

/-- The replica with `i` registered, or its entry rewritten. -/
def put (r : Replica) (i : Instance) : Replica :=
  { r with index := Function.update r.index i.key.replicaId ((r.index i.key.replicaId).set i) }

/-- The indexes as `pre_accept_conflict` reads them. -/
def rows (r : Replica) (k : ℕ) : List Entry := (r.index k).entries.map Instance.entry

/-- `clear`. -/
def clear (r : Replica) : Replica := { r with index := fun k => (r.index k).clear }

/-- `max_local`. -/
def maxLocal (r : Replica) : ℕ :=
  ((r.index r.id).entries.head?.map fun i => i.key.instanceId).getD 0

/-- The id `propose` and `checkpoint` give their instance. -/
def nextId (r : Replica) : InstanceId := ⟨r.id, u64 (r.maxLocal + 1)⟩

@[simp] theorem put_id (r : Replica) (i : Instance) : (r.put i).id = r.id := rfl

@[simp] theorem put_dh (r : Replica) (i : Instance) : (r.put i).dh = r.dh := rfl

@[simp] theorem put_handed (r : Replica) (i : Instance) : (r.put i).handed = r.handed := rfl

theorem find_put (r : Replica) (i : Instance) (id : InstanceId) :
    (r.put i).find id = if id = i.key then some i else r.find id := by
  obtain ⟨k, n⟩ := id
  unfold find put
  by_cases hk : k = i.key.replicaId
  · subst hk
    simp only [Function.update_self, InstanceIndex.find_set]
    by_cases hn : n = i.key.instanceId
    · subst hn; simp
    · rw [if_neg hn, if_neg]
      rintro h
      exact hn (congrArg InstanceId.instanceId h)
  · simp only [Function.update_of_ne hk]
    rw [if_neg]
    rintro h
    exact hk (congrArg InstanceId.replicaId h)

theorem mem_put {r : Replica} {i x : Instance} {k : ℕ}
    (h : x ∈ ((r.put i).index k).entries) : x = i ∨ x ∈ (r.index k).entries := by
  by_cases hk : k = i.key.replicaId
  · subst hk
    simp only [put, Function.update_self] at h
    exact InstanceIndex.mem_setEntry h
  · simp only [put, Function.update_of_ne hk] at h
    exact .inr h

/-- What `clear` leaves was there before. -/
theorem find_clear {r : Replica} {id : InstanceId} {i : Instance} (h : r.clear.find id = some i) :
    r.find id = some i := InstanceIndex.find_clear h

theorem find_clear_of_ne {r : Replica} {id : InstanceId} {i : Instance}
    (hi : i.status ≠ .executed) (h : r.find id = some i) : r.clear.find id = some i :=
  InstanceIndex.find_clear_of_ne hi h

end Replica

/-- The index with the command of `i` as `c`, where the two are one. -/
def sharing (i : Instance) (own : Bool) (c : Option Command) (index : List Entry) : List Entry :=
  if own then index.map fun e => if e.key = i.key then { e with command := c } else e else index

section Scan

variable (T : RangeTree)

/-- `sd_for_command`, over the first `n` indexes. -/
def sdLoop (r : Replica) (ignore : Option InstanceId) :
    ℕ → Option Command → Probe → Option (ℕ × Option Command × Probe)
  | 0, cmd, p => some (0, cmd, p)
  | n + 1, cmd, p =>
    match sdLoop r ignore n cmd p with
    | none => none
    | some (mseq, cmd, p) =>
      (seqDepsForCommand T (r.index n) cmd ignore p).map fun q => (max mseq q.1, q.2)

/-- `sd_for_command`: the largest seq met, the command as the scan leaves it, the probe. -/
def sdForCommand (r : Replica) (cmd : Option Command) (ignore : Option InstanceId) (p : Probe) :
    Option (ℕ × Option Command × Probe) := sdLoop T r ignore N cmd p

/-- `pac_conflict`, over the indexes listed. Where the command is the one of `i`, by the same pointer,
an index is scanned with the command of `i` as the indexes before it left it. -/
def pacLoop (rows : ℕ → List Entry) (i : Instance) (own : Bool) (seq : ℕ)
    (deps : List Dependency) :
    List ℕ → Option Command → Option (Option Entry × Option Command)
  | [], c => some (none, c)
  | rc :: rcs, c =>
    match preAcceptConflict T (sharing i own c (rows rc)) i c seq deps with
    | none => none
    | some (some t, c) => some (some t, c)
    | some (none, c) => pacLoop rows i own seq deps rcs c

/-- `pac_conflict`: the conflict, and the command as the scan leaves it. `own` says that the command
is the one of `i`, by the same pointer. -/
def pacConflict (rows : ℕ → List Entry) (i : Instance) (own : Bool) (c : Option Command) (seq : ℕ)
    (deps : List Dependency) : Option (Option Entry × Option Command) :=
  pacLoop T rows i own seq deps (List.range N) c

/-- `find_conflict`. -/
def findConflict (r : Replica) (i : Instance) (c : Option Command) (seq : ℕ) (deps : Deps) :
    Option (Option Entry × Option Command) :=
  if i.command.isSome && State.accepted.bits ≤ i.status.bits then some (some i.entry, c)
  else if i.command.isSome && (i.seq = seq && i.deps.equalDeps deps) then some (none, c)
  else pacConflict T r.rows i false c seq deps.slots

end Scan

/-- `noop`. -/
def noop (r : Replica) (id : InstanceId) : Deps := noopDep (r.index id.replicaId) id

/-- `barrier`, over the indexes listed. -/
def barrierLoop (r : Replica) : List ℕ → Deps → Option Deps
  | [], deps => some deps
  | k :: ks, deps => (barrierDep (r.index k) deps).bind (barrierLoop r ks)

/-- `barrier`. -/
def barrier (r : Replica) : Option Deps := barrierLoop r (List.range N) .zero

end Epx
