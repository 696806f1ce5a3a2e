import Mathlib

/-!
# Constants, enumerations and ballots

The compile-time constants of `epx.h`, the enumerations of `message.h`, instance ids, and the
ballots of `instance.c`: a round in the high four bits of a byte, a replica in the low four.
-/

namespace Epx

/-- The number of replicas. -/
def N : ℕ := 3

/-- The slots of a dependency array. -/
def maxDeps : ℕ := 8

/-- The spans a command has room for. -/
def txSize : ℕ := 100

theorem half_N : N / 2 = 1 := rfl

/-- `uint8_t` arithmetic. -/
def u8 (n : ℕ) : ℕ := n % 256

/-- `uint64_t` arithmetic. -/
def u64 (n : ℕ) : ℕ := n % 2 ^ 64

/-- `enum state`, of an instance, of a recovery and of a reply. -/
inductive State
  | none
  | preAccepted
  | preAcceptedEq
  | accepted
  | preparing
  | tryPreAccepting
  | committed
  | executed
  deriving DecidableEq, Repr

/-- The enumerator's bit. -/
def State.bits : State → ℕ
  | .none => 0x01
  | .preAccepted => 0x02
  | .preAcceptedEq => 0x04
  | .accepted => 0x08
  | .preparing => 0x10
  | .tryPreAccepting => 0x20
  | .committed => 0x40
  | .executed => 0x80

/-- `is_state(a, b)`, `b` a disjunction of enumerators. -/
def isState (a : State) (b : List State) : Bool := decide (a ∈ b)

theorem isState_eq_bits (a : State) (b : List State) :
    isState a b = decide (0 < a.bits &&& (b.map State.bits).foldr (· ||| ·) 0) := by
  induction b with
  | nil => cases a <;> rfl
  | cons c b ih =>
    have hand : ∀ x y z : ℕ, (0 < x &&& (y ||| z)) ↔ (0 < x &&& y ∨ 0 < x &&& z) := by
      intro x y z
      rw [Nat.and_or_distrib_left]
      simp only [Nat.pos_iff_ne_zero, ne_eq, Nat.or_eq_zero_iff]
      tauto
    have hc : (0 < a.bits &&& c.bits) ↔ a = c := by cases a <;> cases c <;> decide
    simp only [isState, decide_eq_decide] at ih
    simp only [isState, List.mem_cons, List.map_cons, List.foldr_cons, hand, hc, ih]

/-- `enum message_type`. -/
inductive MessageType
  | phase1
  | preAccept
  | preAcceptOk
  | preAcceptReply
  | accept
  | acceptReply
  | commit
  | prepare
  | prepareReply
  | tryPreAccept
  | tryPreAcceptReply
  | execute
  deriving DecidableEq, Repr

/-- `struct instance_id`. -/
structure InstanceId where
  replicaId : ℕ
  instanceId : ℕ
  deriving DecidableEq, Repr

/-- `unique_ballot`: the round in the high four bits, the replica in the low four. -/
def uniqueBallot (ballot replicaId : ℕ) : ℕ := u8 ((ballot <<< 4) ||| replicaId)

/-- `larger_ballot`. -/
def largerBallot (ballot replicaId : ℕ) : ℕ := uniqueBallot ((ballot >>> 4) + 1) replicaId

/-- `is_initial_ballot`. -/
def isInitialBallot (ballot : ℕ) : Bool := ballot >>> 4 = 0

/-- `replica_from_ballot`. -/
def replicaFromBallot (ballot : ℕ) : ℕ := ballot &&& 15

theorem uniqueBallot_eq (ballot : ℕ) {k : ℕ} (hk : k < 16) :
    uniqueBallot ballot k = (ballot * 16 + k) % 256 := by
  unfold uniqueBallot u8
  rw [← Nat.shiftLeft_add_eq_or_of_lt (show k < 2 ^ 4 from hk), Nat.shiftLeft_eq]

theorem largerBallot_eq (ballot : ℕ) {k : ℕ} (hk : k < 16) :
    largerBallot ballot k = ((ballot / 16 + 1) * 16 + k) % 256 := by
  unfold largerBallot
  rw [uniqueBallot_eq _ hk, Nat.shiftRight_eq_div_pow]

theorem isInitialBallot_iff {ballot : ℕ} : isInitialBallot ballot = true ↔ ballot < 16 := by
  unfold isInitialBallot
  rw [Nat.shiftRight_eq_div_pow, decide_eq_true_eq]
  omega

theorem replicaFromBallot_eq (ballot : ℕ) : replicaFromBallot ballot = ballot % 16 :=
  Nat.and_two_pow_sub_one_eq_mod ballot 4

theorem replicaFromBallot_largerBallot {k : ℕ} (hk : k < N) (ballot : ℕ) :
    replicaFromBallot (largerBallot ballot k) = k := by
  have hk : k < 16 := by unfold N at hk; omega
  rw [replicaFromBallot_eq, largerBallot_eq _ hk]
  omega

theorem lt_largerBallot {b k : ℕ} (hk : k < N) (hb : b < 240) : b < largerBallot b k := by
  have hk : k < 16 := by unfold N at hk; omega
  rw [largerBallot_eq _ hk]
  omega

end Epx
