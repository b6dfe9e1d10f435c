import LevelDB.Lib.Layered
import Mathlib.Logic.Function.Basic

/-!
# Maps with versions

A set of entries, each with a key and a version number, stands for a map at every version: a key has
what its newest entry up to that version says.

* `Holds.congr` — only the entries up to the version matter;
* `Holds.later` — a later version without entries of its own is the same map;
* `Holds.put`, `Holds.puts` — later entries overwrite, one after the other.
-/

set_option autoImplicit false

namespace Versioned

variable {E K V A : Type} [LinearOrder A] {number : E → A} {key : E → K} {outcome : E → Option V}

/-- What a lookup of `k` at the version `n` can see. -/
def Visible (number : E → A) (key : E → K) (k : K) (n : A) (e : E) : Prop :=
  key e = k ∧ number e ≤ n

/-- What the newest visible entry says, `none` if there is none. -/
def Answer (number : E → A) (key : E → K) (outcome : E → Option V) (s : Set E) (k : K) (n : A)
    (r : Option V) : Prop :=
  (∃ e, Layered.Newest number (Visible number key k n) s e ∧ r = outcome e) ∨
    (∀ e ∈ s, ¬ Visible number key k n e) ∧ r = none

/-- At the version `n` the entries stand for the map `m`. -/
def Holds (number : E → A) (key : E → K) (outcome : E → Option V) (s : Set E) (n : A)
    (m : K → Option V) : Prop :=
  ∀ k r, Answer number key outcome s k n r ↔ r = m k

variable {s t : Set E} {n n' : A} {m : K → Option V} {k : K} {r : Option V} {e : E}

/-! ## The map -/

/-- Only the entries up to the version matter. -/
theorem Answer.congr (hagree : ∀ a, number a ≤ n → (a ∈ s ↔ a ∈ t))
    (h : Answer number key outcome s k n r) : Answer number key outcome t k n r := by
  rcases h with ⟨e, ⟨he, hvisible, hnewest⟩, rfl⟩ | ⟨hnone, rfl⟩
  · refine Or.inl ⟨e, ⟨(hagree e hvisible.2).mp he, hvisible, fun a ha hva => ?_⟩, rfl⟩
    exact hnewest a ((hagree a hva.2).mpr ha) hva
  · exact Or.inr ⟨fun a ha hva => hnone a ((hagree a hva.2).mpr ha) hva, rfl⟩

theorem Holds.congr (h : Holds number key outcome s n m)
    (hagree : ∀ a, number a ≤ n → (a ∈ s ↔ a ∈ t)) : Holds number key outcome t n m := by
  intro k r
  rw [← h k r]
  exact ⟨Answer.congr fun a ha => (hagree a ha).symm, Answer.congr hagree⟩

/-- Without entries in between, a later version is the same map. -/
theorem Holds.later (h : Holds number key outcome s n m) (hle : n ≤ n')
    (hnone : ∀ a ∈ s, number a ≤ n' → number a ≤ n) : Holds number key outcome s n' m := by
  have hvisible : ∀ k, ∀ a ∈ s, Visible number key k n' a ↔ Visible number key k n a :=
    fun k a ha => and_congr_right fun _ => ⟨hnone a ha, fun hn => le_trans hn hle⟩
  intro k r
  rw [← h k r]
  refine or_congr (exists_congr fun e => and_congr_left fun _ => ?_)
    (and_congr_left fun _ => forall₂_congr fun a ha => not_congr (hvisible k a ha))
  refine and_congr_right fun he => and_congr (hvisible k e he) ?_
  exact forall₂_congr fun a ha => imp_congr (hvisible k a ha) Iff.rfl

/-! ## Later entries -/

variable [DecidableEq K]

/-- What a list of entries makes of a map. -/
def overwrite (key : E → K) (outcome : E → Option V) (m : K → Option V) (es : List E) :
    K → Option V :=
  es.foldl (fun m e => Function.update m (key e) (outcome e)) m

/-- **A newer entry overwrites its key** and leaves the other keys. -/
theorem Holds.put (h : Holds number key outcome s n m) (hnew : n < number e)
    (hagree : ∀ a, number a ≤ number e → (a ∈ t ↔ (a ∈ s ∧ number a ≤ n) ∨ a = e)) :
    Holds number key outcome t (number e) (Function.update m (key e) (outcome e)) := by
  have hin : e ∈ t := (hagree e (le_refl _)).mpr (Or.inr rfl)
  have hold : ∀ a, a ∈ t → number a ≤ number e → a ≠ e → a ∈ s ∧ number a ≤ n :=
    fun a ha hle hne => ((hagree a hle).mp ha).resolve_right hne
  intro k r
  by_cases hk : key e = k
  · -- the new entry is the newest one of its key
    subst hk
    rw [Function.update_self]
    have hnewest : ∀ a ∈ t, Visible number key (key e) (number e) a → number a ≤ number e :=
      fun a _ hva => hva.2
    constructor
    · rintro (⟨a, ⟨ha, hva, hmax⟩, rfl⟩ | ⟨hnone, -⟩)
      · by_cases hae : a = e
        · rw [hae]
        · have hle := hmax e hin ⟨rfl, le_refl _⟩
          exact absurd (lt_of_lt_of_le hnew (le_trans hle (hold a ha hva.2 hae).2)) (lt_irrefl n)
      · exact absurd ⟨rfl, le_refl _⟩ (hnone e hin)
    · rintro rfl
      exact Or.inl ⟨e, ⟨hin, ⟨rfl, le_refl _⟩, hnewest⟩, rfl⟩
  · -- the visible entries of another key are the old ones
    rw [Function.update_of_ne (Ne.symm hk), ← h k r]
    have hsame : ∀ a, a ∈ t ∧ Visible number key k (number e) a ↔
        a ∈ s ∧ Visible number key k n a := by
      intro a
      constructor
      · rintro ⟨ha, hva⟩
        have hne : a ≠ e := fun heq => hk (heq ▸ hva.1)
        have hin := hold a ha hva.2 hne
        exact ⟨hin.1, hva.1, hin.2⟩
      · rintro ⟨ha, hva⟩
        have hle : number a ≤ number e := le_trans hva.2 (le_of_lt hnew)
        exact ⟨(hagree a hle).mpr (Or.inl ⟨ha, hva.2⟩), hva.1, hle⟩
    refine or_congr (exists_congr fun a => and_congr_left fun _ => ?_)
      (and_congr_left fun _ => ⟨fun hnone a ha hva => ?_, fun hnone a ha hva => ?_⟩)
    · constructor
      · rintro ⟨ha, hva, hmax⟩
        obtain ⟨ha', hva'⟩ := (hsame a).mp ⟨ha, hva⟩
        refine ⟨ha', hva', fun b hb hvb => ?_⟩
        obtain ⟨hb', hvb'⟩ := (hsame b).mpr ⟨hb, hvb⟩
        exact hmax b hb' hvb'
      · rintro ⟨ha, hva, hmax⟩
        obtain ⟨ha', hva'⟩ := (hsame a).mpr ⟨ha, hva⟩
        refine ⟨ha', hva', fun b hb hvb => ?_⟩
        obtain ⟨hb', hvb'⟩ := (hsame b).mp ⟨hb, hvb⟩
        exact hmax b hb' hvb'
    · obtain ⟨ha', hva'⟩ := (hsame a).mpr ⟨ha, hva⟩
      exact hnone a ha' hva'
    · obtain ⟨ha', hva'⟩ := (hsame a).mp ⟨ha, hva⟩
      exact hnone a ha' hva'

/-- **Newer entries overwrite in the order of their numbers.** -/
theorem Holds.puts {es : List E} (h : Holds number key outcome s n m)
    (hsorted : (es.map number).Pairwise (· < ·)) (hbounds : ∀ e ∈ es, n < number e ∧ number e ≤ n')
    (hle : n ≤ n') (hagree : ∀ a, number a ≤ n' → (a ∈ t ↔ (a ∈ s ∧ number a ≤ n) ∨ a ∈ es)) :
    Holds number key outcome t n' (overwrite key outcome m es) := by
  induction es generalizing s n m with
  | nil =>
    have hin : ∀ a, number a ≤ n' → (a ∈ t ↔ a ∈ s ∧ number a ≤ n) := fun a ha => by
      rw [hagree a ha]
      exact or_iff_left List.not_mem_nil
    have hat : Holds number key outcome t n m := h.congr fun a ha => by
      rw [hin a (le_trans ha hle)]
      exact ⟨fun hs => ⟨hs, ha⟩, And.left⟩
    exact hat.later hle fun a ha hn => ((hin a hn).mp ha).2
  | cons e es ih =>
    obtain ⟨hfirst, hsorted⟩ := List.pairwise_cons.mp hsorted
    obtain ⟨hnew, hlast⟩ := hbounds e List.mem_cons_self
    have hput : Holds number key outcome {a | (a ∈ s ∧ number a ≤ n) ∨ a = e} (number e)
        (Function.update m (key e) (outcome e)) := h.put hnew fun _ _ => Iff.rfl
    refine ih hput hsorted (fun a ha => ⟨hfirst _ (List.mem_map_of_mem ha),
      (hbounds a (List.mem_cons_of_mem _ ha)).2⟩) hlast fun a ha => ?_
    rw [hagree a ha, List.mem_cons, ← or_assoc]
    refine or_congr_left ⟨fun hin => ⟨hin, ?_⟩, And.left⟩
    rcases hin with ⟨-, hle⟩ | rfl
    · exact le_trans hle (le_of_lt hnew)
    · exact le_refl _

end Versioned
