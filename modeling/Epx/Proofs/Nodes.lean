import Epx.Node
import Epx.Proofs.Executor
import Epx.Proofs.Schedules

/-!
# The steps of a node

`Node.Steps` has a constructor for every step of the executor, and `Cluster.Step` one for everything
a node can do; every invariant of a cluster is a case analysis of them. The replicas of a cluster run
as those of `Run` do. `Cluster.play` gives each node its turns, as `play` gives the replicas their
moves.
-/

namespace Epx

/-- A step of the executor, on what it finds in `r`. -/
inductive Node.Steps (n : Node) (r : Replica) : Node → Option InstanceId → Prop
  | link {s : Slot} {todo : List Slot} {deps : InstanceId → List Dependency} {d : Dependency}
      (ht : n.task = .linking (s :: todo) deps) (hd : r.slot s = some d) :
      Steps n r
        { n with task := .linking todo (Function.update deps s.1 (deps s.1 ++ [d])) } none
  | connect {deps : InstanceId → List Dependency} {s : Tarjan.Search InstanceId}
      (ht : n.task = .linking [] deps) (hs : strongConnect n.vertices deps = some s) :
      Steps n r { n with task := .next s.sccs } none
  | check {comp : List InstanceId} {s : Slot} {todo : List Slot}
      {comps : List (List InstanceId)} {d : Dependency} {ready : Bool}
      (ht : n.task = .checking comp (s :: todo) comps) (hd : r.slot s = some d)
      (hr : depReady r n.vertices comp d = some ready) :
      Steps n r { n with task := if ready then .checking comp todo comps else .next comps } none
  | sort {comp : List InstanceId} {comps : List (List InstanceId)}
      (ht : n.task = .checking comp [] comps) :
      Steps n r { n with task := .marking (sortScc r.seqOf comp) comps } none
  | mark {id : InstanceId} {todo : List InstanceId} {comps : List (List InstanceId)}
      (ht : n.task = .marking (id :: todo) comps) :
      Steps n r { n with vertices := n.vertices.del id, task := .marking todo comps } (some id)
  | finish {comps : List (List InstanceId)} (ht : n.task = .marking [] comps) :
      Steps n r { n with task := .next comps } none

theorem Node.advance_steps {n n' : Node} {r : Replica} {x : Option InstanceId}
    (h : n.advance r = some (n', x)) : n.Steps r n' x := by
  unfold Node.advance at h
  split at h
  · cases h
  · rename_i deps ht
    obtain ⟨s, hs, he⟩ := Option.map_eq_some_iff.1 h
    cases he
    exact .connect ht hs
  · rename_i s todo deps ht
    obtain ⟨d, hd, he⟩ := Option.map_eq_some_iff.1 h
    cases he
    exact .link ht hd
  · rename_i comp comps ht
    cases h
    exact .sort ht
  · rename_i comp s todo comps ht
    obtain ⟨d, hd, h⟩ := Option.bind_eq_some_iff.1 h
    obtain ⟨ready, hr, he⟩ := Option.map_eq_some_iff.1 h
    cases he
    exact .check ht hd hr
  · rename_i comps ht
    cases h
    exact .finish ht
  · rename_i id todo comps ht
    cases h
    exact .mark ht

inductive Cluster.Step (T : RangeTree) (c : Cluster) (k : ℕ) : Action → Cluster → Prop
  | replica {ev : Event} {w : World} {i : Instance} {e : Effect} (hev : ev.isExecute = false)
      (hu : (c.node k).unwritten = none) (hh : (c.world.replica k).handle T ev = .handled i e)
      (hw : c.world.next T k ev = some w) :
      Step T c k (.replica ev) ⟨w, Function.update c.node k ((c.node k).handOver ev i e)⟩
  | write (hu : (c.node k).unwritten.isSome) :
      Step T c k .write { c with node := Function.update c.node k (c.node k).write }
  | receive {vs : Vertices} {id : InstanceId} {chan : List InstanceId}
      (ht : (c.node k).task = .waiting) (hc : (c.node k).chan = id :: chan)
      (hf : ((c.world.replica k).find id).isSome)
      (hvs : vs.ids.Perm ((c.node k).vertices.addNode id).1.ids) :
      Step T c k (.receive vs)
        { c with node := Function.update c.node k ((c.node k).receive chan id vs) }
  | advance {n : Node} (ha : (c.node k).advance (c.view k) = some (n, none)) :
      Step T c k .advance { c with node := Function.update c.node k n }
  | mark {n : Node} {id : InstanceId} {w : World}
      (ha : (c.node k).advance (c.view k) = some (n, some id))
      (hw : c.world.next T k (.execute id) = some w) :
      Step T c k .advance ⟨w, Function.update c.node k n⟩

section Step

variable {T : RangeTree} {c c' : Cluster} {k : ℕ} {a : Action}
  {ok : Cluster → ℕ → Action → Prop}

theorem Cluster.next_step (h : c.next T k a = some c') : c.Step T k a c' := by
  cases a with
  | replica ev =>
    simp only [Cluster.next] at h
    split_ifs at h with hc
    simp only [Bool.or_eq_true, not_or, Bool.not_eq_true, Option.isSome_eq_false_iff,
      Option.isNone_iff_eq_none] at hc
    split at h
    · rename_i i e hh
      obtain ⟨w, hw, rfl⟩ := Option.map_eq_some_iff.1 h
      exact .replica hc.2 hc.1 hh hw
    · cases h
  | write =>
    simp only [Cluster.next] at h
    split_ifs at h with hu
    cases h
    exact .write hu
  | receive vs =>
    simp only [Cluster.next] at h
    split at h
    · rename_i id chan ht hc
      split_ifs at h with hf
      cases h
      exact .receive ht hc hf.1 hf.2
    · cases h
  | advance =>
    obtain ⟨⟨n, m⟩, ha, h⟩ := Option.bind_eq_some_iff.1 h
    cases m with
    | none =>
      cases h
      exact .advance ha
    | some id =>
      obtain ⟨w, hw, rfl⟩ := Option.map_eq_some_iff.1 h
      exact .mark ha hw

/-- The replicas of a cluster take the events of a run. -/
theorem ClusterRun.run (h : ClusterRun ok T c) : Run T c.world := by
  induction h with
  | init => exact .init
  | next _ _ hn ih =>
    cases Cluster.next_step hn with
    | replica _ _ _ hw | mark _ hw => exact .next ih hw
    | write | receive | advance => exact ih

end Step

/-- A node and what it does next. -/
abbrev Turn := ℕ × (Cluster → Action)

/-- A move of the replica. -/
def Move.turn (m : Move) : Turn := (m.1, fun c => .replica (m.2 c.world))

/-- Executor `k` receives, and the map grows at its front. -/
def receiveAt (k : ℕ) : Turn :=
  (k, fun c => .receive
    (((c.node k).chan.head?.map fun id => ((c.node k).vertices.addNode id).1).getD .empty))

/-- Executor `k` takes `n` steps. -/
def advanceAt (k n : ℕ) : List Turn := List.replicate n (k, fun _ => .advance)

section Play

variable {ok : Cluster → ℕ → Action → Prop} [∀ c k a, Decidable (ok c k a)]

variable (ok) in
/-- The cluster after the turns, where they are all `ok`. -/
def Cluster.play : List Turn → Cluster → Option Cluster
  | [], c => some c
  | (k, f) :: ts, c =>
    if ok c k (f c) then (c.next listTree k (f c)).bind (Cluster.play ts) else none

theorem clusterRun_play : ∀ {ts : List Turn} {c c' : Cluster}, ClusterRun ok listTree c →
    c.play ok ts = some c' → ClusterRun ok listTree c'
  | [], c, c', h, hp => by
    cases hp
    exact h
  | (k, f) :: ts, c, c', h, hp => by
    simp only [Cluster.play] at hp
    split_ifs at hp with hok
    obtain ⟨c₁, hn, hp⟩ := Option.bind_eq_some_iff.1 hp
    exact clusterRun_play (.next h hok hn) hp

variable (ok) in
/-- Turns after which the cluster has a property, as a run. -/
theorem exists_clusterRun (ts : List Turn) {p : Cluster → Prop} [DecidablePred p]
    (h : (Cluster.init.play ok ts).any (fun c => p c) = true) :
    ∃ c, ClusterRun ok listTree c ∧ p c := by
  obtain ⟨c, hc, hp⟩ := (Option.any_eq_true _ _).1 h
  exact ⟨c, clusterRun_play .init hc, by simpa using hp⟩

end Play

end Epx
