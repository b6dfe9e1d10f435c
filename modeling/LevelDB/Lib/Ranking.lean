import LevelDB.Lib.Transition

/-!
# Runs with a rank

Some steps are a thread's own, the others happen around it. If its own steps lower a rank and the
others do not raise it, then the rank bounds the number of its own steps in every run.

* `countOwn` — a history that counts them;
* `Run.count_le` — the bound.
-/

set_option autoImplicit false

namespace Transition

variable {S L : Type} {step : S → L → Option S} {P : S → L → Prop} {own : L → Bool} {rank : S → Nat}
  {s t : S} {n : Nat}

def countOwn (own : L → Bool) (n : Nat) (_ : S) (l : L) (_ : S) : Nat :=
  if own l then n + 1 else n

/-- What one step does to the rank. -/
def Lowers (own : L → Bool) (rank : S → Nat) (t : S) (l : L) (u : S) : Prop :=
  if own l then rank u < rank t else rank u ≤ rank t

theorem Lowers.count {t u : S} {l : L} (h : Lowers own rank t l u) (n : Nat) :
    countOwn own n t l u + rank u ≤ n + rank t := by
  unfold Lowers at h
  unfold countOwn
  split at h
  · rename_i hown
    rw [if_pos hown]
    omega
  · rename_i hown
    rw [if_neg hown]
    omega

/-- **The rank bounds the number of own steps.** -/
theorem Run.count_le {I : S → Prop}
    (keeps : ∀ {t u : S} {l : L}, I t → P t l → step t l = some u → I u)
    (lowers : ∀ {t u : S} {l : L}, I t → P t l → step t l = some u → Lowers own rank t l u)
    (start : I s)
    (run : Run (Transition.tracked step (countOwn own)) (fun x l => P x.1 l) (s, 0) (t, n)) :
    I t ∧ n + rank t ≤ rank s := by
  refine run.invariant (I := fun x => I x.1 ∧ x.2 + rank x.1 ≤ rank s)
    (fun {x y l} ⟨hI, hle⟩ hmeets htook => ?_) ⟨start, by simp⟩
  obtain ⟨hstep, hcount⟩ := tracked_eq_some.mp htook
  have hless := (lowers hI hmeets hstep).count x.2
  rw [← hcount] at hless
  exact ⟨keeps hI hmeets hstep, by omega⟩

end Transition
