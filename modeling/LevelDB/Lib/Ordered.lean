import Mathlib.Data.List.Sort
import Mathlib.Data.List.TakeWhile
import Mathlib.Order.Defs.Unbundled

/-!
# Sets kept as sorted lists, and the merge driven by an upper bound

An ordered set under a strict order `lt` is a strictly increasing list. Inserting an element
that is equivalent to one already there changes nothing, and an upper bound is the first element
that the probe is below, as the C++ containers and algorithms document it.

* `SortedSet` — the list together with the proof that it is strictly increasing;
* `upperMerge` — before each element of one range, the elements of the other up to its upper
  bound; it is a permutation of both (`upperMerge_perm`) and, when no two elements of the two
  ranges are equivalent, strictly increasing (`upperMerge_pairwise`);
* `upperMerge_ordered`, `upperMerge_filter` — ranges with equivalent elements: the merge keeps the
  order, and dropping elements before the merge is dropping them after it.
-/

set_option autoImplicit false

namespace Ordered

variable {α : Type} (lt : α → α → Prop) [DecidableRel lt]

/-- Insert `a` before the first larger element, unless an equivalent one is there. -/
def insert (a : α) : List α → List α
  | [] => [a]
  | b :: l => if lt a b then a :: b :: l else if lt b a then b :: insert a l else b :: l

/-- The elements of `base` up to the upper bound of the next `added`, then that element; the rest
of `base` last. -/
def upperMerge : List α → List α → List α
  | [], base => base
  | a :: added, base =>
    base.takeWhile (fun b => !decide (lt a b)) ++
      a :: upperMerge added (base.dropWhile (fun b => !decide (lt a b)))

/-- Neither element is below the other. -/
def Equivalent (a b : α) : Prop := ¬ lt a b ∧ ¬ lt b a

variable {lt}

theorem mem_of_mem_insert {a x : α} : ∀ {l : List α}, x ∈ insert lt a l → x = a ∨ x ∈ l
  | [], h => Or.inl (List.mem_singleton.mp h)
  | b :: l, h => by
    unfold insert at h
    split at h
    · exact List.mem_cons.mp h
    · split at h
      · rcases List.mem_cons.mp h with rfl | h
        · exact Or.inr List.mem_cons_self
        · rcases mem_of_mem_insert h with rfl | h
          · exact Or.inl rfl
          · exact Or.inr (List.mem_cons_of_mem b h)
      · exact Or.inr h

theorem mem_insert_of_mem {a x : α} : ∀ {l : List α}, x ∈ l → x ∈ insert lt a l
  | b :: l, h => by
    unfold insert
    split
    · exact List.mem_cons_of_mem a h
    · split
      · rcases List.mem_cons.mp h with rfl | h
        · exact List.mem_cons_self
        · exact List.mem_cons_of_mem b (mem_insert_of_mem h)
      · exact h

/-- An element without an equivalent one is really inserted. -/
theorem mem_insert_self {a : α} :
    ∀ {l : List α}, (∀ b ∈ l, ¬ Equivalent lt a b) → a ∈ insert lt a l
  | [], _ => List.mem_singleton.mpr rfl
  | b :: l, h => by
    unfold insert
    split
    · exact List.mem_cons_self
    · rename_i hab
      split
      · exact List.mem_cons_of_mem b (mem_insert_self fun c hc => h c (List.mem_cons_of_mem b hc))
      · rename_i hba
        exact absurd ⟨hab, hba⟩ (h b List.mem_cons_self)

theorem mem_insert {a x : α} {l : List α} (h : ∀ b ∈ l, ¬ Equivalent lt a b) :
    x ∈ insert lt a l ↔ x = a ∨ x ∈ l := by
  constructor
  · exact mem_of_mem_insert
  · rintro (rfl | hx)
    · exact mem_insert_self h
    · exact mem_insert_of_mem hx

theorem insert_perm {a : α} :
    ∀ {l : List α}, (∀ b ∈ l, ¬ Equivalent lt a b) → (insert lt a l).Perm (a :: l)
  | [], _ => List.Perm.refl _
  | b :: l, h => by
    unfold insert
    split
    · exact List.Perm.refl _
    · rename_i hab
      split
      · have ih := insert_perm fun c hc => h c (List.mem_cons_of_mem b hc)
        exact (ih.cons b).trans (List.Perm.swap a b l)
      · rename_i hba
        exact absurd ⟨hab, hba⟩ (h b List.mem_cons_self)

theorem upperMerge_perm : ∀ added base : List α, (upperMerge lt added base).Perm (added ++ base)
  | [], base => List.Perm.refl base
  | a :: added, base => by
    have hrest := upperMerge_perm added (base.dropWhile (fun b => !decide (lt a b)))
    have hbase : base.takeWhile (fun b => !decide (lt a b)) ++
        base.dropWhile (fun b => !decide (lt a b)) = base := List.takeWhile_append_dropWhile
    unfold upperMerge
    refine List.perm_middle.trans (List.Perm.cons a ?_)
    refine (hrest.append_left _).trans ?_
    refine (List.perm_append_comm_assoc _ _ _).trans ?_
    rw [hbase]
    exact List.Perm.refl _

theorem mem_upperMerge {added base : List α} {x : α} :
    x ∈ upperMerge lt added base ↔ x ∈ added ∨ x ∈ base := by
  rw [(upperMerge_perm added base).mem_iff, List.mem_append]

theorem not_lt_of_mem_takeWhile {a x : α} {l : List α}
    (h : x ∈ l.takeWhile (fun b => !decide (lt a b))) : ¬ lt a x := by
  simpa using List.mem_takeWhile_imp h

section Map

variable {β : Type} {r : β → β → Prop} [DecidableRel r]

/-- Elements compared through a function are inserted where their images are. -/
theorem map_insert (f : β → α) (h : ∀ a b, r a b ↔ lt (f a) (f b)) (a : β) :
    ∀ l : List β, (insert r a l).map f = insert lt (f a) (l.map f)
  | [] => rfl
  | b :: l => by
    have hab := h a b
    have hba := h b a
    rw [List.map_cons]
    unfold insert
    rw [← map_insert f h a l]
    by_cases hr : r a b
    · rw [if_pos hr, if_pos (hab.mp hr), List.map_cons, List.map_cons]
    · rw [if_neg hr, if_neg (fun hlt => hr (hab.mpr hlt))]
      by_cases hr' : r b a
      · rw [if_pos hr', if_pos (hba.mp hr'), List.map_cons]
      · rw [if_neg hr', if_neg (fun hlt => hr' (hba.mpr hlt)), List.map_cons]

theorem map_upperMerge (f : β → α) (h : ∀ a b, r a b ↔ lt (f a) (f b)) :
    ∀ added base : List β,
      (upperMerge r added base).map f = upperMerge lt (added.map f) (base.map f)
  | [], _ => rfl
  | a :: added, base => by
    have htest : (fun b => !decide (lt (f a) b)) ∘ f = fun b => !decide (r a b) :=
      funext fun b => by simp [h a b]
    rw [List.map_cons]
    unfold upperMerge
    rw [List.map_append, List.map_cons, map_upperMerge f h, List.takeWhile_map,
      List.dropWhile_map, htest]

end Map

section StrictOrder

variable [IsStrictOrder α lt]

theorem insert_pairwise {a : α} :
    ∀ {l : List α}, l.Pairwise lt → (insert lt a l).Pairwise lt
  | [], _ => List.pairwise_singleton lt a
  | b :: l, h => by
    obtain ⟨hb, hl⟩ := List.pairwise_cons.mp h
    unfold insert
    split
    · rename_i hab
      refine List.pairwise_cons.mpr ⟨?_, h⟩
      intro c hc
      rcases List.mem_cons.mp hc with rfl | hc
      · exact hab
      · exact IsTrans.trans a b c hab (hb c hc)
    · split
      · rename_i hba
        refine List.pairwise_cons.mpr ⟨?_, insert_pairwise hl⟩
        intro c hc
        rcases mem_of_mem_insert hc with rfl | hc
        · exact hba
        · exact hb c hc
      · exact h

/-- In a strictly increasing list everything from the upper bound of `a` on is above `a`. -/
theorem lt_of_mem_dropWhile {a y : α} :
    ∀ {l : List α}, l.Pairwise lt → y ∈ l.dropWhile (fun b => !decide (lt a b)) → lt a y
  | b :: l, h, hy => by
    obtain ⟨hb, hl⟩ := List.pairwise_cons.mp h
    rw [List.dropWhile_cons] at hy
    split at hy
    · exact lt_of_mem_dropWhile hl hy
    · rename_i hab
      have hab : lt a b := by simpa using hab
      rcases List.mem_cons.mp hy with rfl | hy
      · exact hab
      · exact IsTrans.trans a b y hab (hb y hy)

/-- **The merge is strictly increasing** when its ranges are and share no equivalent elements. -/
theorem upperMerge_pairwise :
    ∀ {added base : List α}, added.Pairwise lt → base.Pairwise lt →
      (∀ a ∈ added, ∀ b ∈ base, ¬ Equivalent lt a b) → (upperMerge lt added base).Pairwise lt
  | [], base, _, hbase, _ => hbase
  | a :: added, base, hadded, hbase, hne => by
    obtain ⟨ha, hadded⟩ := List.pairwise_cons.mp hadded
    have hrest :
        (upperMerge lt added (base.dropWhile (fun b => !decide (lt a b)))).Pairwise lt := by
      refine upperMerge_pairwise hadded (hbase.sublist (List.dropWhile_sublist _)) ?_
      intro c hc b hb
      exact hne c (List.mem_cons_of_mem a hc) b ((List.dropWhile_sublist _).subset hb)
    have hbelow : ∀ x ∈ base.takeWhile (fun b => !decide (lt a b)), lt x a := by
      intro x hx
      by_contra hxa
      exact hne a List.mem_cons_self x ((List.takeWhile_sublist _).subset hx)
        ⟨not_lt_of_mem_takeWhile hx, hxa⟩
    have habove : ∀ y ∈ upperMerge lt added (base.dropWhile (fun b => !decide (lt a b))),
        lt a y := by
      intro y hy
      rcases mem_upperMerge.mp hy with hy | hy
      · exact ha y hy
      · exact lt_of_mem_dropWhile hbase hy
    unfold upperMerge
    refine List.pairwise_append.mpr ⟨hbase.sublist (List.takeWhile_sublist _),
      List.pairwise_cons.mpr ⟨habove, hrest⟩, ?_⟩
    intro x hx y hy
    rcases List.mem_cons.mp hy with rfl | hy
    · exact hbelow x hx
    · exact IsTrans.trans x a y (hbelow x hx) (habove y hy)

/-! ### Equivalent elements -/

/-- In an ordered list nothing from the upper bound of `a` on is below `a`. -/
theorem not_lt_of_mem_dropWhile {a y : α} :
    ∀ {l : List α}, l.Pairwise (fun x y => ¬ lt y x) →
      y ∈ l.dropWhile (fun b => !decide (lt a b)) → ¬ lt y a
  | b :: l, h, hy => by
    obtain ⟨hb, hl⟩ := List.pairwise_cons.mp h
    rw [List.dropWhile_cons] at hy
    split at hy
    · exact not_lt_of_mem_dropWhile hl hy
    · rename_i hab
      have hab : lt a b := by simpa using hab
      intro hya
      have hyb := IsTrans.trans y a b hya hab
      rcases List.mem_cons.mp hy with rfl | hy
      · exact irrefl y hyb
      · exact hb y hy hyb

/-- **The merge keeps the order**, whether or not its ranges share equivalent elements. -/
theorem upperMerge_ordered :
    ∀ {added base : List α}, added.Pairwise lt → base.Pairwise (fun x y => ¬ lt y x) →
      (upperMerge lt added base).Pairwise (fun x y => ¬ lt y x)
  | [], base, _, hbase => hbase
  | a :: added, base, hadded, hbase => by
    obtain ⟨ha, hadded⟩ := List.pairwise_cons.mp hadded
    have hrest := upperMerge_ordered hadded
      (hbase.sublist (List.dropWhile_sublist (fun b => !decide (lt a b))))
    have hsplit : (base.takeWhile (fun b => !decide (lt a b)) ++
        base.dropWhile (fun b => !decide (lt a b))).Pairwise (fun x y => ¬ lt y x) := by
      rw [List.takeWhile_append_dropWhile]
      exact hbase
    obtain ⟨hsmaller, -, hcross⟩ := List.pairwise_append.mp hsplit
    unfold upperMerge
    refine List.pairwise_append.mpr ⟨hsmaller, List.pairwise_cons.mpr ⟨fun y hy => ?_, hrest⟩, ?_⟩
    · rcases mem_upperMerge.mp hy with hy | hy
      · exact fun hya => irrefl y (IsTrans.trans y a y hya (ha y hy))
      · exact not_lt_of_mem_dropWhile hbase hy
    · intro x hx y hy
      have hax := not_lt_of_mem_takeWhile hx
      rcases List.mem_cons.mp hy with rfl | hy
      · exact hax
      rcases mem_upperMerge.mp hy with hy | hy
      · exact fun hyx => hax (IsTrans.trans a y x (ha y hy) hyx)
      · exact hcross x hx y hy

end StrictOrder

/-- Elements that no element of `added` is below come first in the merge. -/
theorem upperMerge_append {smaller base : List α} :
    ∀ {added : List α}, (∀ x ∈ smaller, ∀ a ∈ added, ¬ lt a x) →
      upperMerge lt added (smaller ++ base) = smaller ++ upperMerge lt added base
  | [], _ => rfl
  | a :: added, h => by
    have hall : ∀ x ∈ smaller, (!decide (lt a x)) = true := fun x hx => by
      simpa using h x hx a List.mem_cons_self
    unfold upperMerge
    rw [List.takeWhile_append_of_pos hall, List.dropWhile_append_of_pos hall, List.append_assoc]

/-- Along a list on which `q` does not come back, `takeWhile` and `filter` commute. -/
theorem takeWhile_filter_comm (p q : α → Bool) :
    ∀ {l : List α}, l.Pairwise (fun x y => q y = true → q x = true) →
      (l.filter p).takeWhile q = (l.takeWhile q).filter p
  | [], _ => rfl
  | b :: l, h => by
    obtain ⟨hb, hl⟩ := List.pairwise_cons.mp h
    have ih := takeWhile_filter_comm p q hl
    by_cases hq : q b = true
    · by_cases hp : p b = true
      · simp [hp, hq, ih]
      · simp [hp, hq, ih]
    · have hnone : (l.filter p).takeWhile q = [] := by
        rw [List.takeWhile_eq_nil_iff]
        intro hlen hfirst
        exact hq (hb _ (List.mem_of_mem_filter (List.getElem_mem hlen)) hfirst)
      by_cases hp : p b = true
      · simp [hp, hq]
      · simp [hp, hq, hnone]

theorem dropWhile_filter_comm (p q : α → Bool) {l : List α}
    (h : l.Pairwise (fun x y => q y = true → q x = true)) :
    (l.filter p).dropWhile q = (l.dropWhile q).filter p := by
  have hsplit : (l.filter p).takeWhile q ++ (l.filter p).dropWhile q =
      (l.takeWhile q).filter p ++ (l.dropWhile q).filter p := by
    rw [List.takeWhile_append_dropWhile, ← List.filter_append, List.takeWhile_append_dropWhile]
  rw [takeWhile_filter_comm p q h] at hsplit
  exact List.append_cancel_left hsplit

section StrictWeakOrder

variable [IsStrictWeakOrder α lt]

theorem lt_of_lt_of_not_lt {a x y : α} (hax : lt a x) (hyx : ¬ lt y x) : lt a y := by
  by_contra hay
  have hya : ¬ lt y a := fun hya => hyx (IsTrans.trans y a x hya hax)
  have hxy : ¬ lt x y := fun hxy => hay (IsTrans.trans a x y hax hxy)
  exact (IsStrictWeakOrder.incomp_trans a y x ⟨hay, hya⟩ ⟨hyx, hxy⟩).1 hax

/-- **Dropping elements before the merge is dropping them after it.** -/
theorem upperMerge_filter (p : α → Bool) :
    ∀ {added base : List α}, added.Pairwise lt → base.Pairwise (fun x y => ¬ lt y x) →
      upperMerge lt (added.filter p) (base.filter p) = (upperMerge lt added base).filter p
  | [], _, _, _ => rfl
  | a :: added, base, hadded, hbase => by
    obtain ⟨ha, hadded⟩ := List.pairwise_cons.mp hadded
    have hclosed : base.Pairwise (fun x y => (!decide (lt a y)) = true →
        (!decide (lt a x)) = true) := by
      refine hbase.imp fun {x y} hyx hay => ?_
      have hay : ¬ lt a y := by simpa using hay
      simpa using fun hax => hay (lt_of_lt_of_not_lt hax hyx)
    have ih := upperMerge_filter p hadded
      (hbase.sublist (List.dropWhile_sublist (fun b => !decide (lt a b))))
    have hmerge : upperMerge lt (a :: added) base = base.takeWhile (fun b => !decide (lt a b)) ++
        a :: upperMerge lt added (base.dropWhile (fun b => !decide (lt a b))) := rfl
    rw [hmerge, List.filter_append]
    by_cases hp : p a = true
    · rw [List.filter_cons_of_pos hp, List.filter_cons_of_pos hp, ← ih,
        ← takeWhile_filter_comm p _ hclosed, ← dropWhile_filter_comm p _ hclosed]
      rfl
    · -- without `a` the base elements up to its upper bound still come first
      rw [List.filter_cons_of_neg hp, List.filter_cons_of_neg hp, ← ih]
      have hbase' : base.filter p = (base.takeWhile (fun b => !decide (lt a b))).filter p ++
          (base.dropWhile (fun b => !decide (lt a b))).filter p := by
        rw [← List.filter_append, List.takeWhile_append_dropWhile]
      rw [hbase']
      refine upperMerge_append fun x hx b hb hbx => ?_
      have hax := not_lt_of_mem_takeWhile (List.mem_of_mem_filter hx)
      exact hax (IsTrans.trans a b x (ha b (List.mem_of_mem_filter hb)) hbx)

end StrictWeakOrder

/-! ## Ordered sets -/

variable (lt) in
/-- An ordered set: a list and the proof that it is strictly increasing. -/
structure SortedSet where
  toList : List α
  sorted : toList.Pairwise lt

namespace SortedSet

omit [DecidableRel lt] in
theorem ext : ∀ {s t : SortedSet lt}, s.toList = t.toList → s = t
  | ⟨_, _⟩, ⟨_, _⟩, rfl => rfl

def empty : SortedSet lt := ⟨[], List.Pairwise.nil⟩

def insert [IsStrictOrder α lt] (s : SortedSet lt) (a : α) : SortedSet lt :=
  ⟨Ordered.insert lt a s.toList, insert_pairwise s.sorted⟩

end SortedSet

end Ordered
