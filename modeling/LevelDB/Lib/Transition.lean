import Mathlib.Init

/-!
# Runs of a labelled transition function

`step s l = some t` says that the label `l` takes the state `s` to `t`; `none` that it is not
enabled. A run may be restricted by a condition on each state and the label taken in it.

* `Run.invariant` — what every step keeps, a run keeps;
* `Run.of_exec`, `Run.of_checked`, `Run.of_labels` — executing a list of labels is a run;
* `tracked` — the same function with a history; `Run.untracked` forgets it.
-/

set_option autoImplicit false

namespace Transition

variable {S L : Type} {step : S → L → Option S} {P : S → L → Prop} {s t u : S}

/-- The states that a run from `s` reaches whose steps all meet `P`. -/
inductive Run (step : S → L → Option S) (P : S → L → Prop) (s : S) : S → Prop
  | refl : Run step P s s
  | tail {t u : S} {l : L} (run : Run step P s t) (meets : P t l) (took : step t l = some u) :
      Run step P s u

/-- Runs with no condition on the steps. -/
abbrev Reaches (step : S → L → Option S) (s t : S) : Prop := Run step (fun _ _ => True) s t

theorem Run.invariant {I : S → Prop} (run : Run step P s t)
    (keeps : ∀ {t u : S} {l : L}, I t → P t l → step t l = some u → I u) (start : I s) : I t := by
  induction run with
  | refl => exact start
  | tail _ meets took ih => exact keeps ih meets took

theorem Run.trans (first : Run step P s t) (second : Run step P t u) : Run step P s u := by
  induction second with
  | refl => exact first
  | tail _ meets took ih => exact .tail ih meets took

/-- Take the labels of a list in order. -/
def exec (step : S → L → Option S) : List L → S → Option S
  | [], s => some s
  | l :: ls, s => (step s l).bind (exec step ls)

theorem Run.of_exec : ∀ {ls : List L} {s : S}, exec step ls s = some t → Reaches step s t
  | [], s, h => by
    cases h
    exact .refl
  | l :: ls, s, h => by
    obtain ⟨s', hstep, h⟩ := Option.bind_eq_some_iff.mp h
    have first : Reaches step s s' := .tail .refl trivial hstep
    exact first.trans (Run.of_exec h)

/-- The same, with a check before each step. -/
theorem Run.of_checked {check : S → L → Bool} (meets : ∀ s l, check s l = true → P s l) :
    ∀ {ls : List L} {s : S},
      exec (fun s l => if check s l then step s l else none) ls s = some t → Run step P s t
  | [], s, h => by
    cases h
    exact .refl
  | l :: ls, s, h => by
    obtain ⟨s', hstep, h⟩ := Option.bind_eq_some_iff.mp h
    dsimp only at hstep
    split at hstep
    · rename_i hcheck
      have first : Run step P s s' := .tail .refl (meets s l hcheck) hstep
      exact first.trans (Run.of_checked meets h)
    · cases hstep

/-- The same, where every label meets the condition in every state. -/
theorem Run.of_labels : ∀ {ls : List L} {s : S}, (∀ l ∈ ls, ∀ s, P s l) →
    exec step ls s = some t → Run step P s t
  | [], s, _, h => by
    cases h
    exact .refl
  | l :: ls, s, meets, h => by
    obtain ⟨s', hstep, h⟩ := Option.bind_eq_some_iff.mp h
    have first : Run step P s s' := .tail .refl (meets l List.mem_cons_self s) hstep
    exact first.trans (Run.of_labels (fun l hl => meets l (List.mem_cons_of_mem _ hl)) h)

/-! ## History -/

variable {H : Type} {record : H → S → L → S → H}

/-- The same steps, where each one adds to a history what it did. -/
def tracked (step : S → L → Option S) (record : H → S → L → S → H) (x : S × H) (l : L) :
    Option (S × H) :=
  (step x.1 l).map fun t => (t, record x.2 x.1 l t)

theorem tracked_eq_some {x y : S × H} {l : L} :
    tracked step record x l = some y ↔
      step x.1 l = some y.1 ∧ y.2 = record x.2 x.1 l y.1 := by
  unfold tracked
  rw [Option.map_eq_some_iff]
  constructor
  · rintro ⟨t, hstep, rfl⟩
    exact ⟨hstep, rfl⟩
  · intro ⟨hstep, hrecord⟩
    exact ⟨y.1, hstep, Prod.ext rfl hrecord.symm⟩

/-- A run without its history. -/
theorem Run.untracked {x y : S × H}
    (run : Run (Transition.tracked step record) (fun x l => P x.1 l) x y) :
    Run step P x.1 y.1 := by
  induction run with
  | refl => exact .refl
  | tail _ meets took ih => exact .tail ih meets (tracked_eq_some.mp took).1

end Transition
