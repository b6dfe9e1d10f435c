import Mathlib.Data.List.MinMax

/-!
# A running maximum

A loop keeps the best score so far, and a label of the element that has it. It starts from a score
that no element falls back to, and it replaces what it keeps by a strictly greater score only.

* `foldl_keepBest` — the loop ends at Mathlib's `List.argmax`;
* `firstMax_of_argmax` — on an increasing list this is the least of the best elements;
* `foldl_firstMax` — so the loop ends at the least element with the greatest score.
-/

set_option autoImplicit false

namespace RunningMax

variable {α β γ : Type} [LinearOrder β]

section Loop

variable {score : α → β} {label : α → γ} {init : γ × β} {l : List α}

/-- One pass of the loop. -/
def keepBest (score : α → β) (label : α → γ) (best : γ × β) (a : α) : γ × β :=
  if best.2 < score a then (label a, score a) else best

theorem foldl_keepBest (hinit : ∀ a ∈ l, init.2 < score a) :
    l.foldl (keepBest score label) init =
      match l.argmax score with
      | none => init
      | some m => (label m, score m) := by
  induction l using List.reverseRecOn with
  | nil => rfl
  | append_singleton l a ih =>
    have hlast := hinit a (List.mem_append_right _ (List.mem_singleton.mpr rfl))
    rw [List.foldl_append, ih fun b hb => hinit b (List.mem_append_left _ hb), List.argmax_concat]
    cases l.argmax score with
    | none => exact if_pos hlast
    | some m =>
      by_cases hbetter : score m < score a
      · simp [keepBest, hbetter]
      · simp [keepBest, hbetter]

end Loop

variable [Preorder α] {score : α → β} {label : α → γ} {init : γ × β} {l : List α} {m : α} {c : β}

/-- `m` is the least element with the greatest score. -/
structure FirstMax (score : α → β) (l : List α) (m : α) : Prop where
  mem : m ∈ l
  max : ∀ a ∈ l, score a ≤ score m
  first : ∀ a ∈ l, a < m → score a < score m

theorem firstMax_of_argmax (hsorted : l.Pairwise (· < ·)) (hm : m ∈ l.argmax score) :
    FirstMax score l m := by
  refine ⟨List.argmax_mem hm, fun a ha => List.le_of_mem_argmax ha hm, ?_⟩
  induction l using List.reverseRecOn generalizing m with
  | nil => nofun
  | append_singleton l b ih =>
    obtain ⟨hsorted, -, hlast⟩ := List.pairwise_append.mp hsorted
    have hlast : ∀ a ∈ l, a < b := fun a ha => hlast a ha b (List.mem_singleton.mpr rfl)
    rw [List.argmax_concat] at hm
    cases hbefore : l.argmax score with
    | none =>
      rw [hbefore] at hm
      obtain rfl := Option.some.inj hm
      obtain rfl := List.argmax_eq_none.mp hbefore
      intro a ha hlt
      rw [List.mem_singleton.mp ha] at hlt
      exact absurd hlt (lt_irrefl _)
    | some k =>
      have hk : k ∈ l.argmax score := hbefore
      rw [hbefore] at hm
      dsimp only at hm
      intro a ha hlt
      split at hm
      · -- the last element is better than all before it
        rename_i hbetter
        obtain rfl := Option.some.inj hm
        rcases List.mem_append.mp ha with ha | ha
        · exact (List.le_of_mem_argmax ha hk).trans_lt hbetter
        · rw [List.mem_singleton.mp ha] at hlt
          exact absurd hlt (lt_irrefl _)
      · obtain rfl := Option.some.inj hm
        rcases List.mem_append.mp ha with ha | ha
        · exact ih hsorted hk a ha hlt
        · rw [List.mem_singleton.mp ha] at hlt
          exact absurd (hlt.trans (hlast k (List.argmax_mem hk))) (lt_irrefl _)

/-- A threshold is reached by some score exactly if the greatest reaches it. -/
theorem FirstMax.le_iff (h : FirstMax score l m) : c ≤ score m ↔ ∃ a ∈ l, c ≤ score a := by
  constructor
  · exact fun hc => ⟨m, h.mem, hc⟩
  · rintro ⟨a, ha, hc⟩
    exact hc.trans (h.max a ha)

/-- **The loop** over an increasing list ends at the least element with the greatest score. -/
theorem foldl_firstMax (hne : l ≠ []) (hsorted : l.Pairwise (· < ·))
    (hinit : ∀ a ∈ l, init.2 < score a) :
    ∃ m, FirstMax score l m ∧ l.foldl (keepBest score label) init = (label m, score m) := by
  obtain ⟨m, hm⟩ : ∃ m, l.argmax score = some m :=
    Option.ne_none_iff_exists'.mp fun hnone => hne (List.argmax_eq_none.mp hnone)
  refine ⟨m, firstMax_of_argmax hsorted hm, ?_⟩
  rw [foldl_keepBest hinit, hm]

end RunningMax
