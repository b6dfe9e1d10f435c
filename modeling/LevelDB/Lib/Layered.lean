import Mathlib.Data.Set.Basic
import Mathlib.Order.Defs.PartialOrder

/-!
# Layers of versioned entries

Entries carry a version number; some of them are visible. A store that keeps its entries in layers,
each wholly newer than the next, finds the newest visible entry in the first layer that has one.

* `Newest.of_newer`, `Newest.of_older` — what the search of two layers finds;
* `Below` — the order of layers, kept by taking smaller layers.
-/

set_option autoImplicit false

namespace Layered

variable {E A : Type} [Preorder A] (number : E → A) (visible : E → Prop)

/-- Every entry of `s` is older than every entry of `t`. -/
def Below (s t : Set E) : Prop := ∀ a ∈ s, ∀ b ∈ t, number a < number b

/-- `e` is the newest visible entry of `s`. -/
def Newest (s : Set E) (e : E) : Prop :=
  e ∈ s ∧ visible e ∧ ∀ a ∈ s, visible a → number a ≤ number e

variable {number visible} {s s' t t' : Set E} {e : E}

theorem Below.mono (h : Below number s t) (hs : s' ⊆ s) (ht : t' ⊆ t) : Below number s' t' :=
  fun a ha b hb => h a (hs ha) b (ht hb)

theorem Below.union_left (h : Below number s t) (h' : Below number s' t) :
    Below number (s ∪ s') t := by
  rintro a (ha | ha) b hb
  · exact h a ha b hb
  · exact h' a ha b hb

/-- An entry found in the newer layer is the newest of both. -/
theorem Newest.of_newer (h : Newest number visible t e) (hbelow : Below number s t) :
    Newest number visible (t ∪ s) e := by
  refine ⟨Or.inl h.1, h.2.1, ?_⟩
  rintro a (ha | ha) hvisible
  · exact h.2.2 a ha hvisible
  · exact le_of_lt (hbelow a ha e h.1)

/-- A layer without visible entries can be skipped. -/
theorem Newest.of_older (h : Newest number visible s e) (hnone : ∀ a ∈ t, ¬ visible a) :
    Newest number visible (t ∪ s) e := by
  refine ⟨Or.inr h.1, h.2.1, ?_⟩
  rintro a (ha | ha) hvisible
  · exact absurd hvisible (hnone a ha)
  · exact h.2.2 a ha hvisible

theorem not_visible_union (hs : ∀ a ∈ s, ¬ visible a) (ht : ∀ a ∈ t, ¬ visible a) :
    ∀ a ∈ t ∪ s, ¬ visible a := by
  rintro a (ha | ha)
  · exact ht a ha
  · exact hs a ha

end Layered
