import Mathlib.Data.List.Chain

/-!
# Ranges that follow one another

Elements take ranges of numbers, from `first a` to `last a`, out of a counter: the range of the next
element starts after the last number given out. A range may be empty.

* `Consecutive.mem` — the ranges lie between the start and the end of the counter;
* `Consecutive.increasing`, `Consecutive.adjacent` — they are disjoint, in order and without gaps.
-/

set_option autoImplicit false

namespace Counter

variable {A : Type} {first last : A → Nat} {n m : Nat} {as : List A} {a : A}

/-- The elements have taken the numbers after `n` up to `m`, one after the other. -/
inductive Consecutive (first last : A → Nat) (n : Nat) : List A → Nat → Prop
  | nil : Consecutive first last n [] n
  | snoc {as : List A} {m : Nat} {a : A} (before : Consecutive first last n as m)
      (hfirst : first a = m + 1) (hlast : m ≤ last a) :
      Consecutive first last n (as ++ [a]) (last a)

theorem Consecutive.le (h : Consecutive first last n as m) : n ≤ m := by
  induction h with
  | nil => exact le_refl n
  | snoc _ _ hlast ih => exact le_trans ih hlast

theorem Consecutive.mem (h : Consecutive first last n as m) (ha : a ∈ as) :
    n < first a ∧ last a ≤ m := by
  induction h with
  | nil => exact absurd ha List.not_mem_nil
  | @snoc as m b before hfirst hlast ih =>
    rcases List.mem_append.mp ha with ha | ha
    · obtain ⟨hlow, hhigh⟩ := ih ha
      exact ⟨hlow, le_trans hhigh hlast⟩
    · have hle := before.le
      rw [List.mem_singleton.mp ha]
      exact ⟨by omega, le_refl _⟩

/-- Every range ends before the later ones begin. -/
theorem Consecutive.increasing (h : Consecutive first last n as m) :
    as.Pairwise fun a b => last a < first b := by
  induction h with
  | nil => exact List.Pairwise.nil
  | snoc before hfirst _ ih =>
    refine List.pairwise_append.mpr ⟨ih, List.pairwise_singleton _ _, fun a ha b hb => ?_⟩
    have hhigh := (before.mem ha).2
    rw [List.mem_singleton.mp hb]
    omega

theorem Consecutive.last_eq (h : Consecutive first last n as m) (ha : a ∈ as.getLast?) :
    last a = m := by
  cases h with
  | nil => cases ha
  | snoc =>
    rw [List.getLast?_concat] at ha
    rw [← Option.some.inj ha]

/-- Every range begins where the one before it ends. -/
theorem Consecutive.adjacent (h : Consecutive first last n as m) :
    as.IsChain fun a b => first b = last a + 1 := by
  induction h with
  | nil => exact List.IsChain.nil
  | snoc before hfirst _ ih =>
    refine ih.append (List.isChain_singleton _) fun a ha b hb => ?_
    rw [before.last_eq ha, ← Option.some.inj hb]
    exact hfirst

/-- The first range begins at the start. -/
theorem Consecutive.head (h : Consecutive first last n as m) (ha : a ∈ as.head?) :
    first a = n + 1 := by
  induction h with
  | nil => cases ha
  | @snoc as m b before hfirst _ ih =>
    cases before with
    | nil =>
      rw [← Option.some.inj ha]
      exact hfirst
    | snoc =>
      refine ih ?_
      rw [List.head?_append_of_ne_nil _ (List.append_ne_nil_of_right_ne_nil _ (by simp))] at ha
      exact ha

end Counter
