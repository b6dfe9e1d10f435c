import LevelDB.SkipList.Insert

/-!
# `SkipList::Iterator` and backward iteration

The iterator is its `node_` pointer.  A pass over the list is a walk along `Next` or `Prev`.

* `forward_walk` — `SeekToFirst` followed by `Next` visits the towers in key order.
* `Rep.prev_fails` — `FindLessThan` moves right while the next key is **not above** the key it
  looks for, so from a node of the list it steps onto that very node, where the assertion at
  the head of its loop fails.
* `mirrorsForward_iff` — `Prev` mirrors `Next` exactly in the empty list.
-/

set_option autoImplicit false

namespace LevelDB

open Linked

variable {Key : Type}

namespace SkipList

/-- `Iterator::Next`. -/
def iterNext (s : SkipList Key) : Ptr → Except Fault Ptr
  | none => .error .assertion
  | some n => match s.link? 0 n with
    | none => .error .link
    | some p => .ok p

/-- `if (node_ == list_->head_) node_ = nullptr`. -/
def unlessHead (s : SkipList Key) (x : Nat) : Ptr := if x = s.head then none else some x

/-- `Iterator::SeekToFirst`. -/
def seekToFirst (s : SkipList Key) : Except Fault Ptr :=
  match s.link? 0 s.head with
  | none => .error .link
  | some p => .ok p

/-- `Iterator::SeekToLast`. -/
def seekToLast (s : SkipList Key) : Except Fault Ptr :=
  match s.findLast with
  | .error e => .error e
  | .ok x => .ok (s.unlessHead x)

variable [LinearOrder Key]

/-- `Iterator::Prev`. -/
def iterPrev (s : SkipList Key) : Ptr → Except Fault Ptr
  | none => .error .assertion
  | some n => match s.arena[n]? with
    | none => .error .link
    | some nd => match s.findLessThan nd.key with
      | .error e => .error e
      | .ok x => .ok (s.unlessHead x)

/-- `Iterator::Seek`. -/
def seek (s : SkipList Key) (target : Key) : Except Fault Ptr :=
  match s.findGreaterOrEqual target none with
  | .error e => .error e
  | .ok (x, _) => .ok x

end SkipList

/-- Moving an iterator with `step` from `p` until it is invalid visits exactly `l`. -/
def Visits (step : Ptr → Except Fault Ptr) (p : Ptr) (l : List Nat) : Prop :=
  Walk (fun n => (step (some n)).toOption) p l

variable [LinearOrder Key]

/-- Backward iteration mirrors forward iteration in `s`. -/
structure MirrorsForward (s : SkipList Key) : Prop where
  /-- `Prev` goes to the predecessor on level 0, or makes the iterator invalid -/
  prev : ∀ pre n suf, s.Chain 0 (pre ++ n :: suf) → s.iterPrev (some n) = .ok pre.getLast?
  noAssertion : ∀ l, s.Chain 0 l → ∀ n ∈ l, s.iterPrev (some n) ≠ .error .assertion
  /-- a backward pass ends, and visits the reverse of what a forward pass visits -/
  backward : ∀ first l, s.seekToFirst = .ok first → Visits s.iterNext first l →
    ∃ last, s.seekToLast = .ok last ∧ Visits s.iterPrev last l.reverse

section

variable {s : SkipList Key} {T : List (Tower Key)}

/-- A forward pass visits every tower, in key order. -/
theorem forward_walk (h : Rep s T) :
    ∃ first, s.seekToFirst = .ok first ∧ Visits s.iterNext first (T.map Tower.node) := by
  obtain ⟨-, q, hq, hw⟩ := h.chain 0 (by decide)
  rw [h.levelNodes_zero] at hw
  refine ⟨q, by unfold SkipList.seekToFirst; rw [hq], hw.congr fun n hn => ?_⟩
  obtain ⟨p, hp⟩ := hw.readable hn
  simp [SkipList.iterNext, hp, Except.toOption]

/-- **`Prev` fails its assertion at every node of the list.** -/
theorem Rep.prev_fails (h : Rep s T) {t : Tower Key} (ht : t ∈ T) :
    s.iterPrev (some t.node) = .error .assertion := by
  obtain ⟨nd, hnd, hk, _⟩ := h.node t ht
  unfold SkipList.iterPrev
  simp only [hnd, hk]
  obtain ⟨lo, hi, rfl, hlo, hhi⟩ := split_le h.sorted t.key
  have htlo : t ∈ lo := by
    rcases List.mem_append.1 ht with ht | ht
    · exact ht
    · exact absurd (hhi t ht) (lt_irrefl _)
  -- the last tower that is not above `t.key` is `t` itself
  obtain ⟨lo', u, rfl⟩ : ∃ lo' u, lo = lo' ++ [u] := by
    rcases lo.eq_nil_or_concat with rfl | ⟨lo', u, rfl⟩
    · cases htlo
    · exact ⟨lo', u, List.concat_eq_append⟩
  have hu : u ∈ lo' ++ [u] ++ hi := by simp
  have hle : ¬ u.key < t.key := by
    rcases List.mem_append.1 htlo with hm | hm
    · have hs := (List.pairwise_append.1 (List.pairwise_append.1 h.sorted).1).2.2 t hm u (by simp)
      exact absurd hs (hlo u (by simp))
    · rw [List.mem_singleton.1 hm]
      exact lt_irrefl _
  rcases h.findLessThan_eq hlo hhi with he | ⟨-, hcheck⟩
  · rw [he]
  · exfalso
    obtain ⟨ndu, hndu, hku, _⟩ := h.node u hu
    have hne := h.node_ne_head hu
    rw [lastNode_concat] at hcheck
    simp only [SkipList.lessThanCheck, hndu, hku, Bool.or_eq_true, beq_iff_eq, hne,
      decide_eq_true_eq, false_or] at hcheck
    exact hle hcheck

/-- Backward iteration is right in the empty list. -/
theorem Rep.mirrorsForward_nil (h : Rep s []) : MirrorsForward s := by
  have hempty : ∀ l, s.Chain 0 l → l = [] := fun l hl => by
    have hc := h.chain 0 (by decide)
    rw [levelNodes_nil] at hc
    exact (List.cons.inj (hl.unique hc)).2
  constructor
  case prev =>
    intro pre n suf hl
    exact absurd (hempty _ hl) (by simp)
  case noAssertion =>
    intro l hl n hn
    rw [hempty l hl] at hn
    cases hn
  case backward =>
    intro first l hfirst hl
    obtain ⟨first', hfirst', hl'⟩ := forward_walk h
    rw [hfirst] at hfirst'
    cases hfirst'
    refine ⟨none, ?_, ?_⟩
    · unfold SkipList.seekToLast
      rw [h.findLast_eq]
      simp [SkipList.unlessHead]
    · rw [hl.unique hl']
      exact Walk.nil_iff.2 rfl

/-- **Backward iteration mirrors forward iteration exactly when no key was inserted.** -/
theorem mirrorsForward_iff (anyKey : Key) (ops : List (Key × Height))
    (hne : (ops.map Prod.fst).Nodup) :
    ∃ s, (SkipList.new anyKey).insertAll ops = .ok s ∧ (MirrorsForward s ↔ ops = []) := by
  obtain ⟨s, T, hrun, h, hperm⟩ := Rep.of_insertAll anyKey hne
  refine ⟨s, hrun, ?_, ?_⟩
  · intro hm
    rcases T with _ | ⟨t, T⟩
    · have := hperm.length_eq
      simpa using this.symm
    · exfalso
      have hc := h.chain 0 (by decide)
      rw [h.levelNodes_zero] at hc
      exact hm.noAssertion _ hc t.node (by simp) (h.prev_fails List.mem_cons_self)
  · rintro rfl
    cases hrun
    exact (Rep.new anyKey).mirrorsForward_nil

/-- The empty list and a list with two keys. -/
theorem mirrorsForward_iff_two :
    (([] : List Nat).Nodup ∧ ∃ s, (SkipList.new 0).insertAll [] = .ok s ∧
      (MirrorsForward s ↔ ([] : List (Nat × Height)) = [])) ∧
    ([1, 2] : List Nat).Nodup ∧
    ∃ s, (SkipList.new 0).insertAll [(1, ⟨1, by decide⟩), (2, ⟨2, by decide⟩)] = .ok s ∧
      (MirrorsForward s ↔
        ([(1, ⟨1, by decide⟩), (2, ⟨2, by decide⟩)] : List (Nat × Height)) = []) :=
  ⟨⟨by decide, mirrorsForward_iff 0 [] (by decide)⟩, by decide,
    mirrorsForward_iff 0 [(1, ⟨1, by decide⟩), (2, ⟨2, by decide⟩)] (by decide)⟩

/-- After one insert `SeekToLast` stands on the key, and `Prev` from there fails the assertion
of `FindLessThan` instead of making the iterator invalid. -/
theorem prev_single_key_fails :
    ∃ s : SkipList Nat, (SkipList.new 0).insertAll [(5, ⟨1, by decide⟩)] = .ok s ∧
      s.Chain 0 [1] ∧ s.seekToLast = .ok (some 1) ∧ s.iterPrev (some 1) = .error .assertion ∧
      ¬ MirrorsForward s := by
  obtain ⟨s, hs⟩ : ∃ s, s = (⟨[⟨0, some (some 1) :: List.replicate 11 (some none)⟩,
    ⟨5, [some none]⟩], 0, 1⟩ : SkipList Nat) := ⟨_, rfl⟩
  have hchain : s.Chain 0 [1] := by
    subst hs
    exact ⟨rfl, some 1, rfl, rfl, none, rfl, rfl⟩
  have hprev : s.iterPrev (some 1) = .error .assertion := by
    subst hs
    decide
  refine ⟨s, by subst hs; decide, hchain, by subst hs; decide, hprev, ?_⟩
  exact fun hm => hm.noAssertion _ hchain 1 (by simp) hprev

end

end LevelDB
