import Mathlib.Data.List.Basic

/-!
# Walks along a successor pointer

`Walk next p l` says that the pointer `p`, followed through the partial successor map `next`,
visits exactly the nodes `l` in order and then meets the null pointer.  `next x = none` means
that `x` has no readable successor slot, `next x = some none` that the slot holds null.

* `Walk.unique` — a pointer determines the nodes it visits.
* `Walk.drop` — the successor slot of a visited node starts the rest of the walk.
* `Walk.congr` — only the slots of visited nodes matter.
* `Walk.insert` — splicing a node in behind a visited node.
-/

set_option autoImplicit false

namespace Linked

variable {α : Type}

/-- Following `next` from `p` visits exactly `l` and then ends. -/
def Walk (next : α → Option (Option α)) : Option α → List α → Prop
  | p, [] => p = none
  | p, x :: l => p = some x ∧ ∃ q, next x = some q ∧ Walk next q l

variable {next next' : α → Option (Option α)} {p : Option α} {x y : α} {l l₁ l₂ : List α}

@[simp] theorem Walk.nil_iff : Walk next p [] ↔ p = none := Iff.rfl

@[simp] theorem Walk.cons_iff :
    Walk next p (x :: l) ↔ p = some x ∧ ∃ q, next x = some q ∧ Walk next q l := Iff.rfl

theorem Walk.head (h : Walk next p l) : p = l.head? := by
  cases l with
  | nil => exact h
  | cons x l => exact h.1

theorem Walk.unique : ∀ {l₁ l₂ : List α} {p : Option α}, Walk next p l₁ → Walk next p l₂ → l₁ = l₂
  | [], [], _, _, _ => rfl
  | [], _ :: _, _, h₁, h₂ => by simp only [Walk] at h₁ h₂; rw [h₁] at h₂; cases h₂.1
  | _ :: _, [], _, h₁, h₂ => by simp only [Walk] at h₁ h₂; rw [h₂] at h₁; cases h₁.1
  | x :: l₁, y :: l₂, p, ⟨hp, q, hq, h₁⟩, ⟨hp', q', hq', h₂⟩ => by
    rw [hp] at hp'
    cases hp'
    rw [hq] at hq'
    cases hq'
    rw [Walk.unique h₁ h₂]

/-- The successor slot of a visited node starts the rest of the walk. -/
theorem Walk.drop : ∀ {l₁ : List α} {p : Option α}, Walk next p (l₁ ++ x :: l₂) →
    ∃ q, next x = some q ∧ Walk next q l₂
  | [], _, h => h.2
  | _ :: _, _, ⟨_, _, _, h⟩ => Walk.drop h

/-- A walk can be begun in its middle. -/
theorem Walk.suffix (h : Walk next p (l₁ ++ l₂)) : Walk next l₂.head? l₂ := by
  cases l₂ with
  | nil => rfl
  | cons x l₂ => exact ⟨rfl, h.drop⟩

theorem Walk.succ (h : Walk next p (l₁ ++ x :: l₂)) : next x = some l₂.head? := by
  obtain ⟨q, hq, hw⟩ := h.drop
  rw [hq, hw.head]

theorem Walk.readable (h : Walk next p l) (hx : x ∈ l) : ∃ q, next x = some q := by
  obtain ⟨l₁, l₂, rfl⟩ := List.append_of_mem hx
  exact ⟨_, h.succ⟩

theorem Walk.congr : ∀ {l : List α} {p : Option α}, Walk next p l →
    (∀ z ∈ l, next' z = next z) → Walk next' p l
  | [], _, h, _ => h
  | x :: l, p, ⟨hp, q, hq, h⟩, hz =>
    ⟨hp, q, by rw [hz x List.mem_cons_self, hq],
      Walk.congr h fun z hm => hz z (List.mem_cons_of_mem _ hm)⟩

/-- **Splicing** `y` in behind the visited node `x` only rewrites the slots of `x` and `y`. -/
theorem Walk.insert : ∀ {l₁ : List α} {p : Option α}, Walk next p (l₁ ++ x :: l₂) →
    next' x = some (some y) → next' y = next x → (∀ z ∈ l₁ ++ l₂, next' z = next z) →
    Walk next' p (l₁ ++ x :: y :: l₂)
  | [], p, ⟨hp, q, hq, h⟩, hx, hy, hz =>
    ⟨hp, some y, hx, rfl, q, by rw [hy, hq], h.congr fun z hm => hz z (by simpa using hm)⟩
  | w :: l₁, p, ⟨hp, q, hq, h⟩, hx, hy, hz =>
    ⟨hp, q, by rw [hz w (by simp), hq],
      Walk.insert h hx hy fun z hm => hz z (by
        rcases List.mem_append.1 hm with hm | hm <;> simp [hm])⟩

end Linked
