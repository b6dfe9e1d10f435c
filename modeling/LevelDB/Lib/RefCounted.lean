import Mathlib.Data.List.Count
import Mathlib.Data.List.Perm.Basic
import Mathlib.Logic.Function.Basic

/-!
# Reference-counted objects

A heap of objects that count their holders. Taking or giving up a reference to an object that has
been deleted, and giving up one more than there are, is `none`; the last holder deletes.

`Exact h holders` says that every count is the number of times the object occurs among `holders`.

* `Exact.ref`, `Exact.unref`, `Exact.alloc`, `Exact.modify` — the operations keep the counts exact
  and do not fail for a holder;
* `content_ref`, `content_unref`, `content_modify_self` — what they do to the contents;
* `Ledger` — every object that was made is deleted once or lives.
-/

set_option autoImplicit false

namespace RefCounted

structure Cell (A : Type) where
  content : A
  refs : Nat

abbrev Heap (A : Type) : Type := Nat → Option (Cell A)

namespace Heap

variable {A : Type} (h : Heap A) {h' : Heap A} {a b : Nat} {holders holders' : List Nat}

def content (a : Nat) : Option A := (h a).map Cell.content

def ref (a : Nat) : Option (Heap A) :=
  (h a).map fun c => Function.update h a (some { c with refs := c.refs + 1 })

def unref (a : Nat) : Option (Heap A) :=
  (h a).bind fun c =>
    if c.refs = 0 then none
    else some (Function.update h a
      (if c.refs - 1 = 0 then none else some { c with refs := c.refs - 1 }))

/-- References through pointers that may be null. -/
def refOpt (h : Heap A) : Option Nat → Option (Heap A)
  | none => some h
  | some a => h.ref a

def unrefOpt (h : Heap A) : Option Nat → Option (Heap A)
  | none => some h
  | some a => h.unref a

/-- A new object with one reference. -/
def alloc (a : Nat) (x : A) : Heap A := Function.update h a (some { content := x, refs := 1 })

def modify (f : A → A) (a : Nat) : Option (Heap A) :=
  (h a).map fun c => Function.update h a (some { c with content := f c.content })

/-- Every count is the number of holders, and only what is held lives. -/
def Exact (holders : List Nat) : Prop :=
  ∀ a, (h a).map Cell.refs = if holders.count a = 0 then none else some (holders.count a)

variable {h}

theorem Exact.perm (hexact : h.Exact holders) (hperm : holders.Perm holders') :
    h.Exact holders' := by
  intro a
  rw [hexact a, hperm.count_eq a]

theorem Exact.cell (hexact : h.Exact holders) (ha : a ∈ holders) :
    ∃ c, h a = some c ∧ c.refs = holders.count a ∧ 0 < c.refs := by
  have hpos : 0 < holders.count a := List.count_pos_iff.mpr ha
  have hmap := hexact a
  rw [if_neg (by omega)] at hmap
  obtain ⟨c, hc, hrefs⟩ := Option.map_eq_some_iff.mp hmap
  exact ⟨c, hc, hrefs, by omega⟩

theorem Exact.content_isSome (hexact : h.Exact holders) (ha : a ∈ holders) :
    ∃ x, h.content a = some x := by
  obtain ⟨c, hc, -⟩ := hexact.cell ha
  exact ⟨c.content, by unfold content; rw [hc]; rfl⟩

/-- An address that nobody holds is free. -/
theorem Exact.free (hexact : h.Exact holders) (ha : a ∉ holders) : h a = none := by
  have hmap := hexact a
  rw [if_pos (List.count_eq_zero.mpr ha)] at hmap
  exact Option.map_eq_none_iff.mp hmap

/-- Only what is held lives. -/
theorem Exact.isSome_iff (hexact : h.Exact holders) : (h a).isSome = true ↔ a ∈ holders := by
  constructor
  · intro hlive
    by_contra ha
    rw [hexact.free ha] at hlive
    cases hlive
  · intro ha
    obtain ⟨c, hc, -⟩ := hexact.cell ha
    rw [hc]
    rfl

/-- **Taking a reference.** -/
theorem Exact.ref (hexact : h.Exact holders) (ha : a ∈ holders) :
    ∃ h', h.ref a = some h' ∧ Exact h' (a :: holders) := by
  obtain ⟨c, hc, hrefs, -⟩ := hexact.cell ha
  refine ⟨Function.update h a (some { c with refs := c.refs + 1 }), ?_, ?_⟩
  · unfold Heap.ref
    rw [hc]
    rfl
  intro b
  by_cases hb : b = a
  · subst hb
    rw [Function.update_self, List.count_cons_self, if_neg (by omega), ← hrefs]
    rfl
  · rw [Function.update_of_ne hb, hexact b, List.count_cons_of_ne (Ne.symm hb)]

/-- **Giving up a reference.** -/
theorem Exact.unref (hexact : h.Exact (a :: holders)) :
    ∃ h', h.unref a = some h' ∧ Exact h' holders := by
  obtain ⟨c, hc, hrefs, hpos⟩ := hexact.cell List.mem_cons_self
  rw [List.count_cons_self] at hrefs
  refine ⟨_, by unfold Heap.unref; rw [hc]; exact if_neg (by omega), ?_⟩
  intro b
  by_cases hb : b = a
  · subst hb
    have hlast : c.refs - 1 = holders.count b := by omega
    rw [Function.update_self, hlast]
    by_cases hzero : holders.count b = 0
    · rw [if_pos hzero, if_pos hzero]
      rfl
    · rw [if_neg hzero, if_neg hzero]
      rfl
  · rw [Function.update_of_ne hb, hexact b, List.count_cons_of_ne (Ne.symm hb)]

theorem Exact.refOpt {p : Option Nat} (hexact : h.Exact holders) (hp : ∀ a ∈ p, a ∈ holders) :
    ∃ h', h.refOpt p = some h' ∧ Exact h' (p.toList ++ holders) := by
  cases p with
  | none => exact ⟨h, rfl, hexact⟩
  | some a => exact hexact.ref (hp a rfl)

theorem Exact.unrefOpt {p : Option Nat} (hexact : h.Exact (p.toList ++ holders)) :
    ∃ h', h.unrefOpt p = some h' ∧ Exact h' holders := by
  cases p with
  | none => exact ⟨h, rfl, hexact⟩
  | some a => exact hexact.unref

theorem Exact.alloc (hexact : h.Exact holders) (ha : a ∉ holders) (x : A) :
    Exact (h.alloc a x) (a :: holders) := by
  intro b
  by_cases hb : b = a
  · subst hb
    unfold Heap.alloc
    rw [Function.update_self, List.count_cons_self, List.count_eq_zero.mpr ha, if_neg (by omega)]
    rfl
  · unfold Heap.alloc
    rw [Function.update_of_ne hb, hexact b, List.count_cons_of_ne (Ne.symm hb)]

theorem Exact.modify (hexact : h.Exact holders) {f : A → A} (hmod : h.modify f a = some h') :
    h'.Exact holders := by
  obtain ⟨c, hc, rfl⟩ := Option.map_eq_some_iff.mp hmod
  intro b
  rw [← hexact b]
  by_cases hb : b = a
  · subst hb
    rw [Function.update_self, hc]
    rfl
  · rw [Function.update_of_ne hb]

/-! ## Holders that are threads -/

theorem flatMap_set_perm {B C : Type} (f : B → List C) {x y : B} :
    ∀ {l : List B} {i : Nat}, l[i]? = some x →
      (f y ++ l.flatMap f).Perm (f x ++ (l.set i y).flatMap f)
  | b :: l, 0, h => by
    obtain rfl := Option.some.inj h
    rw [List.set_cons_zero, List.flatMap_cons, List.flatMap_cons, ← List.append_assoc,
      ← List.append_assoc]
    exact List.perm_append_comm.append_right _
  | b :: l, i + 1, h => by
    have ih := flatMap_set_perm f (y := y) (l := l) (i := i) h
    rw [List.set_cons_succ, List.flatMap_cons, List.flatMap_cons]
    calc (f y ++ (f b ++ l.flatMap f)).Perm (f b ++ (f y ++ l.flatMap f)) := by
          rw [← List.append_assoc, ← List.append_assoc]
          exact List.perm_append_comm.append_right _
      List.Perm _ (f b ++ (f x ++ (l.set i y).flatMap f)) := ih.append_left _
      List.Perm _ (f x ++ (f b ++ (l.set i y).flatMap f)) := by
          rw [← List.append_assoc, ← List.append_assoc]
          exact List.perm_append_comm.append_right _

theorem count_pair {x a : Nat} {p : Option Nat} (hp : p ≠ some x) :
    (x :: p.toList).count a = if x = a ∨ p = some a then 1 else 0 := by
  cases p with
  | none => by_cases hx : x = a <;> simp [hx]
  | some y =>
    have hne : y ≠ x := fun heq => hp (congrArg some heq)
    by_cases hx : x = a
    · subst hx
      simp [List.count_cons_of_ne hne]
    · by_cases hy : y = a <;> simp [hx, hy]

/-! ## Contents -/

theorem content_ref (href : h.ref a = some h') (b : Nat) : h'.content b = h.content b := by
  obtain ⟨c, hc, rfl⟩ := Option.map_eq_some_iff.mp href
  unfold content
  by_cases hb : b = a
  · subst hb
    rw [Function.update_self, hc]
    rfl
  · rw [Function.update_of_ne hb]

theorem content_unref (hunref : h.unref a = some h') (b : Nat) :
    h'.content b = h.content b ∨ h'.content b = none := by
  obtain ⟨c, hc, hunref⟩ := Option.bind_eq_some_iff.mp hunref
  split at hunref
  · cases hunref
  · cases hunref
    unfold content
    by_cases hb : b = a
    · subst hb
      rw [Function.update_self, hc]
      split
      · exact Or.inr rfl
      · exact Or.inl rfl
    · rw [Function.update_of_ne hb]
      exact Or.inl rfl

theorem content_refOpt {p : Option Nat} (href : h.refOpt p = some h') (b : Nat) :
    h'.content b = h.content b := by
  cases p with
  | none =>
    cases href
    rfl
  | some a => exact content_ref href b

theorem content_unrefOpt {p : Option Nat} (hunref : h.unrefOpt p = some h') (b : Nat) :
    h'.content b = h.content b ∨ h'.content b = none := by
  cases p with
  | none =>
    cases hunref
    exact Or.inl rfl
  | some a => exact content_unref hunref b

theorem content_alloc_self (x : A) : (h.alloc a x).content a = some x := by
  unfold content alloc
  rw [Function.update_self]
  rfl

theorem content_alloc_ne (x : A) (hb : b ≠ a) : (h.alloc a x).content b = h.content b := by
  unfold content alloc
  rw [Function.update_of_ne hb]

theorem content_modify_self {f : A → A} (hmod : h.modify f a = some h') :
    h'.content a = (h.content a).map f := by
  obtain ⟨c, hc, rfl⟩ := Option.map_eq_some_iff.mp hmod
  unfold content
  rw [Function.update_self, hc]
  rfl

theorem content_modify_ne {f : A → A} (hmod : h.modify f a = some h') (hb : b ≠ a) :
    h'.content b = h.content b := by
  obtain ⟨c, -, rfl⟩ := Option.map_eq_some_iff.mp hmod
  unfold content
  rw [Function.update_of_ne hb]

theorem isSome_of_content (heq : h'.content a = h.content a ∨ h'.content a = none)
    (hlive : (h' a).isSome) : (h a).isSome := by
  unfold content at heq
  rcases heq with heq | hnone
  · rw [← Option.isSome_map, ← heq, Option.isSome_map]
    exact hlive
  · rw [Option.map_eq_none_iff.mp hnone] at hlive
    cases hlive

/-! ## Deletions -/

/-- How often an object has been deleted: in a step from `h` to `h'` it is when it has gone. -/
def countDeleted (deleted : Nat → Nat) (h h' : Heap A) (a : Nat) : Nat :=
  deleted a + if (h a).isSome ∧ ¬ (h' a).isSome then 1 else 0

/-- The objects that were made live, or have been deleted once; no others do. -/
structure Ledger (made : Nat → Prop) (h : Heap A) (deleted : Nat → Nat) : Prop where
  once : ∀ a, made a → deleted a = if (h a).isSome then 0 else 1
  never : ∀ a, ¬ made a → (h a).isSome = false ∧ deleted a = 0

/-- **No object is made or deleted again.** -/
theorem Ledger.step {made made' : Nat → Prop} {deleted : Nat → Nat}
    (hledger : Ledger made h deleted) (hmade : ∀ a, made a → made' a)
    (hnew : ∀ a, made' a → ¬ made a → (h' a).isSome)
    (hlives : ∀ a, (h' a).isSome → (h a).isSome ∨ ¬ made a ∧ made' a) :
    Ledger made' h' (countDeleted deleted h h') where
  once a ha := by
    unfold countDeleted
    by_cases hold : made a
    · rw [hledger.once a hold]
      by_cases hlive : (h a).isSome
      · by_cases hlive' : (h' a).isSome
        · simp [hlive, hlive']
        · simp [hlive, hlive']
      · have hgone : ¬ (h' a).isSome := fun hlive' => by
          rcases hlives a hlive' with hlive'' | ⟨hnot, -⟩
          · exact hlive hlive''
          · exact hnot hold
        simp [hlive, hgone]
    · rw [(hledger.never a hold).2]
      simp [hnew a ha hold]
  never a ha := by
    obtain ⟨hnone, hzero⟩ := hledger.never a fun hold => ha (hmade a hold)
    refine ⟨?_, ?_⟩
    · rw [← Bool.not_eq_true]
      intro hlive
      rcases hlives a hlive with hlive' | ⟨-, hmade'⟩
      · rw [hnone] at hlive'
        cases hlive'
      · exact ha hmade'
    · unfold countDeleted
      rw [hzero]
      simp [hnone]

end Heap

end RefCounted
