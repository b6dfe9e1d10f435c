import LevelDB.VersionSet.Builder

/-!
# Reusing a version edit

`Clear` is to give back a fresh edit, but it leaves `compact_pointers_`. A reused edit is therefore
the fresh one with the compaction pointers of its history in front, and it differs from the fresh
one at the levels that only the history points at.

* `performAll_pointers` — the calls append to the compaction pointers and never look at them;
* `performAll_clear` — what a reused edit is;
* `clear_sameEffect_iff` — when it does what a fresh one does.
-/

set_option autoImplicit false

namespace LevelDB

variable {K : Type} {N : Nat}

/-- The calls that fill an edit. -/
inductive EditCall (K : Type) (N : Nat) where
  | setComparatorName (name : String)
  | setLogNumber (num : Nat)
  | setPrevLogNumber (num : Nat)
  | setNextFile (num : Nat)
  | setLastSequence (seq : Nat)
  | setCompactPointer (level : Fin N) (key : K)
  | addFile (level : Fin N) (file fileSize : Nat) (smallest largest : K)
  | removeFile (level : Fin N) (file : Nat)

namespace VersionEdit

def perform (edit : VersionEdit K N) : EditCall K N → VersionEdit K N
  | .setComparatorName name => edit.setComparatorName name
  | .setLogNumber num => edit.setLogNumber num
  | .setPrevLogNumber num => edit.setPrevLogNumber num
  | .setNextFile num => edit.setNextFile num
  | .setLastSequence seq => edit.setLastSequence seq
  | .setCompactPointer level key => edit.setCompactPointer level key
  | .addFile level file fileSize smallest largest =>
    edit.addFile level file fileSize smallest largest
  | .removeFile level file => edit.removeFile level file

def performAll (edit : VersionEdit K N) (calls : List (EditCall K N)) : VersionEdit K N :=
  calls.foldl perform edit

def withPointers (edit : VersionEdit K N) (ps : List (Fin N × K)) : VersionEdit K N :=
  { edit with compactPointers := ps }

/-- The edit without its containers: the comparator, the numbers and their flags. -/
def fields (edit : VersionEdit K N) : VersionEdit K N :=
  { edit with compactPointers := [], deletedFiles := .empty, newFiles := [] }

end VersionEdit

/-- The compaction pointers among the calls, in order. -/
def pointersOf (calls : List (EditCall K N)) : List (Fin N × K) :=
  calls.filterMap fun
    | .setCompactPointer level key => some (level, key)
    | _ => none

/-- The last of the pointers given to a level. -/
def pointerAt (pointers : List (Fin N × K)) (level : Fin N) : Option K :=
  ((pointers.filter (fun p => p.1 == level)).map Prod.snd).getLast?

theorem pointerAt_append (l l' : List (Fin N × K)) (level : Fin N) :
    pointerAt (l ++ l') level = (pointerAt l' level).or (pointerAt l level) := by
  unfold pointerAt
  rw [List.filter_append, List.map_append, List.getLast?_append]

theorem pointerAt_isSome {l : List (Fin N × K)} {level : Fin N} :
    (pointerAt l level).isSome = true ↔ level ∈ l.map Prod.fst := by
  unfold pointerAt
  rw [List.getLast?_isSome, ne_eq, List.map_eq_nil_iff, List.filter_eq_nil_iff]
  simp

namespace VersionEdit

theorem perform_withPointers (edit : VersionEdit K N) (ps : List (Fin N × K))
    (c : EditCall K N) :
    (edit.withPointers ps).perform c = (edit.perform c).withPointers (ps ++ pointersOf [c]) := by
  cases c with
  | setCompactPointer level key => rfl
  | _ =>
    -- the other calls give no pointer
    refine Eq.trans ?_ (congrArg (withPointers _) (List.append_nil ps).symm)
    rfl

/-- **The calls append to the compaction pointers** and do the same whatever is there. -/
theorem performAll_withPointers (calls : List (EditCall K N)) (edit : VersionEdit K N)
    (ps : List (Fin N × K)) :
    (edit.withPointers ps).performAll calls =
      (edit.performAll calls).withPointers (ps ++ pointersOf calls) := by
  induction calls generalizing edit ps with
  | nil => exact congrArg edit.withPointers (List.append_nil ps).symm
  | cons c calls ih =>
    have hcalls : pointersOf (c :: calls) = pointersOf [c] ++ pointersOf calls :=
      List.filterMap_append (l := [c])
    have hfirst : edit.performAll (c :: calls) = (edit.perform c).performAll calls := rfl
    rw [hcalls, ← List.append_assoc, hfirst, ← ih, ← perform_withPointers]
    rfl

theorem compactPointers_performAll (calls : List (EditCall K N)) :
    (({} : VersionEdit K N).performAll calls).compactPointers = pointersOf calls :=
  congrArg compactPointers (performAll_withPointers calls {} [])

/-- A reused edit is a fresh one that has the pointers of its history in front. -/
theorem performAll_clear (history further : List (EditCall K N)) :
    (performAll {} history).clear.performAll further =
      (performAll {} further).withPointers (pointersOf history ++ pointersOf further) := by
  have hclear : (performAll {} history).clear =
      ({} : VersionEdit K N).withPointers (pointersOf history) := by
    rw [← compactPointers_performAll history]
    rfl
  rw [hclear, performAll_withPointers]

end VersionEdit

/-! ## The effect of an edit -/

section Effect

variable {icmp : K → K → Ordering} [Std.TransCmp icmp]

variable (icmp) in
/-- On this version set and base both edits give the same files and the same compaction pointers,
and they record the same fields. -/
structure SameEffect (cp : Fin N → Option K) (base : Version K N) (e e' : VersionEdit K N) :
    Prop where
  files : ((Builder.new icmp cp base).apply e).saveTo = ((Builder.new icmp cp base).apply e').saveTo
  pointers : ∀ level, ((Builder.new icmp cp base).apply e).compactPointer level =
    ((Builder.new icmp cp base).apply e').compactPointer level
  fields : e.fields = e'.fields

/-- The pointer that `Apply` leaves at a level. -/
theorem Builder.apply_pointerAt (b : Builder icmp N) (e : VersionEdit K N) (level : Fin N) :
    (b.apply e).compactPointer level =
      (pointerAt e.compactPointers level).or (b.compactPointer level) := by
  rw [apply_compactPointer, foldl_update_some]
  rfl

/-- What is saved does not depend on the compaction pointers. -/
theorem Builder.saveTo_withPointers (b : Builder icmp N) (e : VersionEdit K N)
    (ps : List (Fin N × K)) : (b.apply (e.withPointers ps)).saveTo = (b.apply e).saveTo := by
  have hlevels : (b.apply (e.withPointers ps)).levels = (b.apply e).levels := by
    funext level
    rw [apply_levels, apply_levels]
    rfl
  unfold saveTo
  rw [hlevels, apply_base, apply_base]

/-- **When `Clear` gives back a fresh edit.** The reused edit does what a new one does exactly when
at each level that its history gave a compaction pointer the further calls give one as well, or the
version set has the last one of the history already. -/
theorem clear_sameEffect_iff (cp : Fin N → Option K) (base : Version K N)
    (history further : List (EditCall K N)) :
    SameEffect icmp cp base ((VersionEdit.performAll {} history).clear.performAll further)
        (VersionEdit.performAll {} further) ↔
      ∀ level k, pointerAt (pointersOf history) level = some k →
        level ∈ (pointersOf further).map Prod.fst ∨ cp level = some k := by
  rw [VersionEdit.performAll_clear]
  have hpointer : ∀ level,
      ((Builder.new icmp cp base).apply ((VersionEdit.performAll {} further).withPointers
          (pointersOf history ++ pointersOf further))).compactPointer level =
        ((pointerAt (pointersOf further) level).or (pointerAt (pointersOf history) level)).or
          (cp level) := by
    intro level
    rw [Builder.apply_pointerAt, ← pointerAt_append]
    rfl
  have hfresh : ∀ level,
      ((Builder.new icmp cp base).apply (VersionEdit.performAll {} further)).compactPointer level =
        (pointerAt (pointersOf further) level).or (cp level) := by
    intro level
    rw [Builder.apply_pointerAt, VersionEdit.compactPointers_performAll]
    rfl
  constructor
  · intro h level k hk
    have hlevel := h.pointers level
    rw [hpointer, hfresh, hk] at hlevel
    cases hfurther : pointerAt (pointersOf further) level with
    | some k' => exact Or.inl (pointerAt_isSome.mp (by rw [hfurther]; rfl))
    | none =>
      rw [hfurther] at hlevel
      exact Or.inr hlevel.symm
  · intro h
    refine ⟨Builder.saveTo_withPointers _ _ _, fun level => ?_, rfl⟩
    rw [hpointer, hfresh]
    cases hfurther : pointerAt (pointersOf further) level with
    | some k' => rfl
    | none =>
      cases hhistory : pointerAt (pointersOf history) level with
      | none => rfl
      | some k =>
        refine ((h level k hhistory).resolve_left fun hmem => ?_).symm
        have hsome := pointerAt_isSome.mpr hmem
        rw [hfurther] at hsome
        cases hsome

/-- The pointer of the history is given again by the further calls. -/
theorem clear_sameEffect_iff_again :
    SameEffect compare (fun _ => none) ({} : Version Nat 2)
      ((VersionEdit.performAll {} [.setCompactPointer 1 7, .addFile 0 4 9 1 2]).clear.performAll
        [.setCompactPointer 1 8, .setLogNumber 3])
      (VersionEdit.performAll {} [.setCompactPointer 1 8, .setLogNumber 3]) := by
  refine (clear_sameEffect_iff (fun _ => none) {} _ _).mpr fun level k hk => Or.inl ?_
  have hlevel : level ∈ (pointersOf (N := 2)
      [EditCall.setCompactPointer 1 (7 : Nat), .addFile 0 4 9 1 2]).map Prod.fst :=
    pointerAt_isSome.mp (by rw [hk]; rfl)
  exact hlevel

/-- **`Clear` leaves the compaction pointers**: an edit that had been given one moves the pointer of
a version set although nothing was set since. -/
theorem clear_keeps_compactPointers :
    ¬ SameEffect compare (fun _ => none) ({} : Version Nat 1)
      ((VersionEdit.performAll {} [.setCompactPointer 0 5]).clear.performAll [])
      (VersionEdit.performAll {} []) := by
  intro h
  cases h.pointers 0

end Effect

end LevelDB
