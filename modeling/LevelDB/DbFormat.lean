import LevelDB.Lib.Layered
import Mathlib.Data.List.Basic

/-!
# Entries, batches and lookups

An entry is an internal key with its value. A batch is the list of its operations; the entries that
it stands for get consecutive sequence numbers.

* `batchEntries_bounds` — the sequence numbers of a batch;
* `IsAnswer` — the answer that a lookup owes for a set of entries, and how the answers of two
  layers combine (`IsAnswer.of_newer`, `IsAnswer.of_older`).
-/

set_option autoImplicit false

namespace LevelDB

inductive ValueType
  | deletion
  | value
  deriving DecidableEq

structure InternalKey (U : Type) where
  userKey : U
  sequence : Nat
  type : ValueType
  deriving DecidableEq

structure Entry (U V : Type) where
  key : InternalKey U
  value : V
  deriving DecidableEq

/-- One operation of a `WriteBatch`; a deletion carries an empty value. -/
structure BatchOp (U V : Type) where
  type : ValueType
  key : U
  value : V
  deriving DecidableEq

structure LookupKey (U : Type) where
  userKey : U
  sequence : Nat
  deriving DecidableEq

variable {U V : Type}

/-- What an entry says about its key: a value, or that there is none. -/
def Entry.outcome (e : Entry U V) : Option V :=
  match e.key.type with
  | .deletion => none
  | .value => some e.value

/-- `SetSequence` and `InsertInto`: the operations in order, with consecutive sequence numbers. -/
def batchEntries : Nat → List (BatchOp U V) → List (Entry U V)
  | _, [] => []
  | sequence, op :: ops =>
    { key := { userKey := op.key, sequence, type := op.type }, value := op.value } ::
      batchEntries (sequence + 1) ops

theorem batchEntries_bounds : ∀ {ops : List (BatchOp U V)} {sequence : Nat} {e : Entry U V},
    e ∈ batchEntries sequence ops →
      sequence ≤ e.key.sequence ∧ e.key.sequence < sequence + ops.length
  | op :: ops, sequence, e, h => by
    rw [List.length_cons]
    rcases List.mem_cons.mp h with rfl | h
    · show sequence ≤ sequence ∧ sequence < sequence + (ops.length + 1)
      omega
    · have hbounds := batchEntries_bounds h
      omega

/-! ## Lookups -/

abbrev Entry.number (e : Entry U V) : Nat := e.key.sequence

/-- A lookup sees the entries of its key up to its sequence number. -/
def Entry.Visible (k : LookupKey U) (e : Entry U V) : Prop :=
  e.key.userKey = k.userKey ∧ e.key.sequence ≤ k.sequence

/-- What a lookup owes: what the newest visible entry says, nothing if there is none. -/
def IsAnswer (s : Set (Entry U V)) (k : LookupKey U) (r : Option V) : Prop :=
  (∃ e, Layered.Newest Entry.number (Entry.Visible k) s e ∧ r = e.outcome) ∨
    (∀ e ∈ s, ¬ e.Visible k) ∧ r = none

variable {s t : Set (Entry U V)} {k : LookupKey U} {r : Option V} {e : Entry U V}

/-- What the newest visible entry of a newer layer says, the layers below do not change. -/
theorem IsAnswer.of_newer (h : Layered.Newest Entry.number (Entry.Visible k) t e)
    (hbelow : Layered.Below Entry.number s t) : IsAnswer (t ∪ s) k e.outcome :=
  Or.inl ⟨e, h.of_newer hbelow, rfl⟩

/-- A layer without visible entries can be skipped. -/
theorem IsAnswer.of_older (h : IsAnswer s k r) (hnone : ∀ e ∈ t, ¬ e.Visible k) :
    IsAnswer (t ∪ s) k r := by
  rcases h with ⟨e, he, rfl⟩ | ⟨hs, rfl⟩
  · exact Or.inl ⟨e, he.of_older hnone, rfl⟩
  · exact Or.inr ⟨Layered.not_visible_union hs hnone, rfl⟩

/-- Only the visible entries matter. -/
theorem newest_congr (h : ∀ e : Entry U V, e.Visible k → (e ∈ s ↔ e ∈ t))
    (hs : Layered.Newest Entry.number (Entry.Visible k) s e) :
    Layered.Newest Entry.number (Entry.Visible k) t e :=
  ⟨(h e hs.2.1).mp hs.1, hs.2.1, fun a ha hvisible => hs.2.2 a ((h a hvisible).mpr ha) hvisible⟩

theorem not_visible_congr (h : ∀ e : Entry U V, e.Visible k → (e ∈ s ↔ e ∈ t))
    (hs : ∀ e ∈ s, ¬ e.Visible k) : ∀ e ∈ t, ¬ e.Visible k :=
  fun e he hvisible => hs e ((h e hvisible).mpr he) hvisible

end LevelDB
