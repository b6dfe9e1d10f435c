import Mathlib.Data.List.Chain
import Mathlib.Data.List.Nodup
import Mathlib.Logic.Function.Basic

/-!
# Circular doubly linked lists

`Ring next prev h l` says that from the head `h` the forward links visit exactly `l` and come back
to `h`, and that the backward links go the same way in reverse.

* `Ring.inverse`, `Ring.prev_head` — the two links are inverse, and the head points back to the last
  element;
* `Ring.congr` — only the links of the members matter;
* `Ring.append`, `Ring.unlink` — linking an element in before the head, and taking one out.
-/

set_option autoImplicit false

namespace Linked

variable {α : Type} {next prev next' prev' : α → α} {h x y z : α} {l l₁ l₂ : List α}

/-- `b` follows `a`, by both links. -/
def Neighbours (next prev : α → α) (a b : α) : Prop := next a = b ∧ prev b = a

structure Ring (next prev : α → α) (h : α) (l : List α) : Prop where
  nodup : (h :: l).Nodup
  links : (h :: (l ++ [h])).IsChain (Neighbours next prev)

/-- The forward link of the last element and the backward link of the first do not matter. -/
theorem neighbours_congr : ∀ {l : List α}, l.IsChain (Neighbours next prev) →
    (∀ a ∈ l.dropLast, next' a = next a) → (∀ b ∈ l.tail, prev' b = prev b) →
    l.IsChain (Neighbours next' prev')
  | [], _, _, _ => .nil
  | [_], _, _, _ => .singleton _
  | a :: b :: l, hchain, hnext, hprev => by
    obtain ⟨⟨hab, hba⟩, hrest⟩ := List.isChain_cons_cons.mp hchain
    refine List.isChain_cons_cons.mpr ⟨⟨?_, ?_⟩, neighbours_congr hrest (fun c hc => ?_)
      fun c hc => ?_⟩
    · exact (hnext a List.mem_cons_self).trans hab
    · exact (hprev b List.mem_cons_self).trans hba
    · exact hnext c (List.mem_cons_of_mem a hc)
    · exact hprev c (List.mem_cons_of_mem b hc)

theorem neighbours_mem : ∀ {l : List α}, l.IsChain (Neighbours next prev) →
    (∀ a ∈ l.dropLast, next a ∈ l.tail) ∧ ∀ b ∈ l.tail, prev b ∈ l.dropLast
  | [], _ => ⟨nofun, nofun⟩
  | [_], _ => ⟨nofun, nofun⟩
  | a :: b :: l, hchain => by
    obtain ⟨⟨hab, hba⟩, hrest⟩ := List.isChain_cons_cons.mp hchain
    obtain ⟨hforth, hback⟩ := neighbours_mem hrest
    constructor
    · intro c hc
      rcases List.mem_cons.mp hc with rfl | hc
      · rw [hab]
        exact List.mem_cons_self
      · exact List.mem_cons_of_mem b (hforth c hc)
    · intro c hc
      rcases List.mem_cons.mp hc with rfl | hc
      · rw [hba]
        exact List.mem_cons_self
      · exact List.mem_cons_of_mem a (hback c hc)

theorem neighbours_inverse : ∀ {l : List α}, l.IsChain (Neighbours next prev) →
    (∀ a ∈ l.dropLast, prev (next a) = a) ∧ ∀ b ∈ l.tail, next (prev b) = b
  | [], _ => ⟨nofun, nofun⟩
  | [_], _ => ⟨nofun, nofun⟩
  | a :: b :: l, hchain => by
    obtain ⟨⟨hab, hba⟩, hrest⟩ := List.isChain_cons_cons.mp hchain
    obtain ⟨hback, hforth⟩ := neighbours_inverse hrest
    constructor
    · intro c hc
      rcases List.mem_cons.mp hc with rfl | hc
      · rw [hab, hba]
      · exact hback c hc
    · intro c hc
      rcases List.mem_cons.mp hc with rfl | hc
      · rw [hba, hab]
      · exact hforth c hc

namespace Ring

/-- An element that is linked to itself. -/
theorem nil (hnext : next h = h) (hprev : prev h = h) : Ring next prev h [] :=
  ⟨List.nodup_singleton h, List.isChain_pair.mpr ⟨hnext, hprev⟩⟩

theorem mem_dropLast {a : α} : a ∈ (h :: (l ++ [h])).dropLast ↔ a ∈ h :: l := by
  rw [← List.cons_append, List.dropLast_concat]

theorem mem_tail {a : α} : a ∈ (h :: (l ++ [h])).tail ↔ a ∈ h :: l := by
  rw [List.tail_cons, List.mem_append, List.mem_singleton, List.mem_cons, or_comm]

/-- The links of a ring are inverse to each other. -/
theorem inverse (ring : Ring next prev h l) {a : α} (ha : a ∈ h :: l) :
    prev (next a) = a ∧ next (prev a) = a := by
  obtain ⟨hback, hforth⟩ := neighbours_inverse ring.links
  exact ⟨hback a (mem_dropLast.mpr ha), hforth a (mem_tail.mpr ha)⟩

/-- The links of a member lead to members. -/
theorem mem (ring : Ring next prev h l) {a : α} (ha : a ∈ h :: l) :
    next a ∈ h :: l ∧ prev a ∈ h :: l := by
  obtain ⟨hforth, hback⟩ := neighbours_mem ring.links
  exact ⟨mem_tail.mp (hforth a (mem_dropLast.mpr ha)), mem_dropLast.mp (hback a (mem_tail.mpr ha))⟩

/-- The head points back to the last element. -/
theorem prev_head (ring : Ring next prev h l) : prev h = l.getLast?.getD h := by
  have hlinks := ring.links
  rcases l.eq_nil_or_concat with rfl | ⟨front, z, rfl⟩
  · exact (List.isChain_pair.mp hlinks).2
  · rw [List.concat_eq_append] at hlinks ⊢
    rw [List.append_assoc, ← List.cons_append] at hlinks
    obtain ⟨-, hlast, -⟩ := List.isChain_append_cons_cons.mp hlinks
    rw [List.getLast?_concat]
    exact hlast.2

/-- Only the links of the members matter. -/
theorem congr (ring : Ring next prev h l)
    (hsame : ∀ a ∈ h :: l, next' a = next a ∧ prev' a = prev a) : Ring next' prev' h l := by
  refine ⟨ring.nodup, neighbours_congr ring.links (fun a ha => ?_) fun b hb => ?_⟩
  · exact (hsame a (mem_dropLast.mp ha)).1
  · exact (hsame b (mem_tail.mp hb)).2

variable [DecidableEq α]

/-- **Linking in** before the head. -/
theorem append (ring : Ring next prev h l) (hx : x ∉ h :: l) :
    Ring (Function.update (Function.update next x h) (prev h) x)
      (Function.update (Function.update prev x (prev h)) h x) h (l ++ [x]) := by
  obtain ⟨front, z, hz⟩ : ∃ front z, h :: l = front ++ [z] :=
    ⟨_, _, (List.dropLast_append_getLast (List.cons_ne_nil h l)).symm⟩
  have hlinks := ring.links
  rw [← List.cons_append, hz, List.append_assoc] at hlinks
  obtain ⟨hfront, ⟨-, hlast⟩, -⟩ := List.isChain_append_cons_cons.mp hlinks
  have hnodup := ring.nodup
  have hxh : x ≠ h := fun heq => hx (heq ▸ List.mem_cons_self)
  have hxz : x ≠ z := by
    rintro rfl
    exact hx (hz ▸ List.mem_append_right _ List.mem_cons_self)
  rw [hlast]
  constructor
  · rw [← List.cons_append]
    exact List.nodup_append.mpr ⟨hnodup, List.nodup_singleton x, fun a ha b hb heq =>
      hx (List.mem_singleton.mp hb ▸ heq ▸ ha)⟩
  have hring : h :: (l ++ [x] ++ [h]) = front ++ z :: x :: [h] := by
    rw [List.append_assoc, ← List.cons_append, hz, List.append_assoc]
    rfl
  rw [hring]
  refine List.isChain_append_cons_cons.mpr ⟨neighbours_congr hfront (fun a ha => ?_) fun b hb => ?_,
    ⟨Function.update_self _ _ _, ?_⟩, List.isChain_pair.mpr ⟨?_, Function.update_self _ _ _⟩⟩
  · rw [List.dropLast_concat] at ha
    have haz : a ≠ z := fun heq => by
      rw [hz] at hnodup
      exact (List.nodup_append.mp hnodup).2.2 a ha z List.mem_cons_self heq
    have hax : a ≠ x := fun heq => hx (heq ▸ hz ▸ List.mem_append_left _ ha)
    rw [Function.update_of_ne haz, Function.update_of_ne hax]
  · rw [← hz, List.tail_cons] at hb
    have hbh : b ≠ h := fun heq => (List.nodup_cons.mp hnodup).1 (heq ▸ hb)
    have hbx : b ≠ x := fun heq => hx (heq ▸ List.mem_cons_of_mem h hb)
    rw [Function.update_of_ne hbh, Function.update_of_ne hbx]
  · rw [Function.update_of_ne hxh, Function.update_self]
  · rw [Function.update_of_ne hxz, Function.update_self]

/-- **Taking out** an element. -/
theorem unlink (ring : Ring next prev h (l₁ ++ y :: l₂)) :
    Ring (Function.update next (prev y) (next y)) (Function.update prev (next y) (prev y)) h
      (l₁ ++ l₂) := by
  -- `x` and `z` are the neighbours of `y`; one of them may be the head, or both
  obtain ⟨front, x, hx⟩ : ∃ front x, h :: l₁ = front ++ [x] :=
    ⟨_, _, (List.dropLast_append_getLast (List.cons_ne_nil h l₁)).symm⟩
  obtain ⟨z, post, hz⟩ : ∃ z post, l₂ ++ [h] = z :: post :=
    List.exists_cons_of_ne_nil (List.append_ne_nil_of_right_ne_nil _ (List.cons_ne_nil _ _))
  have hlinks := ring.links
  have hsplit : h :: (l₁ ++ y :: l₂ ++ [h]) = front ++ x :: y :: z :: post := by
    rw [List.append_assoc, ← List.cons_append, hx, List.cons_append, hz, List.append_assoc]
    rfl
  rw [hsplit] at hlinks
  obtain ⟨hfront, ⟨-, hxy⟩, hrest⟩ := List.isChain_append_cons_cons.mp hlinks
  obtain ⟨⟨hyz, -⟩, hpost⟩ := List.isChain_cons_cons.mp hrest
  have hnodup : (h :: l₁ ++ l₂).Nodup :=
    ring.nodup.sublist (List.Sublist.cons_cons h ((List.sublist_cons_self y l₂).append_left l₁))
  rw [hyz, hxy]
  refine ⟨hnodup, ?_⟩
  obtain ⟨hbefore, hafter, hapart⟩ := List.nodup_append.mp hnodup
  have hring : h :: (l₁ ++ l₂ ++ [h]) = front ++ x :: z :: post := by
    rw [List.append_assoc, ← List.cons_append, hx, hz, List.append_assoc]
    rfl
  rw [hring]
  refine List.isChain_append_cons_cons.mpr ⟨neighbours_congr hfront (fun a ha => ?_) fun b hb => ?_,
    ⟨Function.update_self _ _ _, Function.update_self _ _ _⟩,
    neighbours_congr hpost (fun a ha => ?_) fun b hb => ?_⟩
  · rw [List.dropLast_concat] at ha
    rw [hx] at hbefore
    exact Function.update_of_ne
      (fun heq => (List.nodup_append.mp hbefore).2.2 a ha x List.mem_cons_self heq) _ _
  · rw [← hx, List.tail_cons] at hb
    refine Function.update_of_ne (fun heq => ?_) _ _
    have hbz : b ∈ l₂ ++ [h] := by
      rw [hz, heq]
      exact List.mem_cons_self
    rcases List.mem_append.mp hbz with hmem | hmem
    · exact hapart b (List.mem_cons_of_mem h hb) b hmem rfl
    · exact (List.nodup_cons.mp hbefore).1 (List.mem_singleton.mp hmem ▸ hb)
  · rw [← hz, List.dropLast_concat] at ha
    refine Function.update_of_ne (fun heq => ?_) _ _
    exact hapart x (hx ▸ List.mem_append_right _ List.mem_cons_self) a ha heq.symm
  · rw [List.tail_cons] at hb
    refine Function.update_of_ne (fun heq => ?_) _ _
    have hclosed : (l₂ ++ [h]).Nodup := by
      refine List.nodup_append.mpr ⟨hafter, List.nodup_singleton h, fun a ha c hc => ?_⟩
      rw [List.mem_singleton.mp hc]
      exact (hapart h List.mem_cons_self a ha).symm
    rw [hz] at hclosed
    exact (List.nodup_cons.mp hclosed).1 (heq ▸ hb)

end Ring

end Linked
