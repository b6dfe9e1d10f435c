import LevelDB.SkipList.Iterator
import Mathlib.Order.Bounds.Basic

/-!
# Seek and SeekToLast against a linear scan

What a search of the skip list finds is what a scan of its chains from left to right finds: at level
0 the first node at or after the target, at every level the last node before it. Without a target
the search goes to the last node of level 0.

* `Rep.find?_atLeast`, `Rep.lastBelow_eq` — the two scans, when the towers are split at the target;
* `Rep.visits_suffix` — a pass that begins in the middle of the list;
* `seek_scans` — `FindGreaterOrEqual` with and without `prev`, and `Seek` with `Next`;
* `findLast_maximum` — `FindLast` and `SeekToLast` find the greatest key.
-/

set_option autoImplicit false

namespace LevelDB

open Linked

variable {Key : Type}

namespace SkipList

/-- `x->key`. -/
def key? (s : SkipList Key) (x : Nat) : Option Key := (s.arena[x]?).map Node.key

variable [LinearOrder Key]

/-- The key of the node is at or after the target. -/
def atLeast (s : SkipList Key) (target : Key) (x : Nat) : Bool :=
  match s.key? x with
  | some k => decide (target ≤ k)
  | none => false

/-- The key of the node is before the target. -/
def below (s : SkipList Key) (target : Key) (x : Nat) : Bool :=
  match s.key? x with
  | some k => decide (k < target)
  | none => false

/-- The last node of a chain that is before the target, or `head_`. -/
def lastBelow (s : SkipList Key) (target : Key) (chain : List Nat) : Nat :=
  (chain.filter (s.below target)).getLast?.getD s.head

end SkipList

variable [LinearOrder Key] {s : SkipList Key} {T lo hi : List (Tower Key)} {target : Key}

/-! ## The scans -/

theorem Rep.key?_node (h : Rep s T) {t : Tower Key} (ht : t ∈ T) : s.key? t.node = some t.key := by
  obtain ⟨nd, hnd, hkey, -⟩ := h.node t ht
  unfold SkipList.key?
  rw [hnd, Option.map_some, hkey]

theorem Rep.atLeast_node (h : Rep s T) {t : Tower Key} (ht : t ∈ T) :
    s.atLeast target t.node = decide (target ≤ t.key) := by
  unfold SkipList.atLeast
  rw [h.key?_node ht]

theorem Rep.below_node (h : Rep s T) {t : Tower Key} (ht : t ∈ T) :
    s.below target t.node = decide (t.key < target) := by
  unfold SkipList.below
  rw [h.key?_node ht]

/-- **The scan of level 0** stops at the first of the towers behind the target. -/
theorem Rep.find?_atLeast (h : Rep s (lo ++ hi)) (hlo : ∀ t ∈ lo, t.key < target)
    (hhi : ∀ t ∈ hi, ¬ t.key < target) :
    (levelNodes 0 (lo ++ hi)).find? (s.atLeast target) = (hi.map Tower.node).head? := by
  have hpassed : (lo.map Tower.node).find? (s.atLeast target) = none := by
    rw [List.find?_eq_none]
    intro n hn
    obtain ⟨t, ht, rfl⟩ := List.mem_map.mp hn
    rw [h.atLeast_node (List.mem_append_left _ ht)]
    simpa using hlo t ht
  rw [h.levelNodes_zero, List.map_append, List.find?_append, hpassed, Option.none_or]
  cases hi with
  | nil => rfl
  | cons t hi =>
    refine List.find?_cons_of_pos ?_
    rw [h.atLeast_node (List.mem_append_right _ List.mem_cons_self)]
    simpa using hhi t List.mem_cons_self

/-- **The scan of any level** ends behind the towers before the target. -/
theorem Rep.lastBelow_eq (h : Rep s (lo ++ hi)) (hlo : ∀ t ∈ lo, t.key < target)
    (hhi : ∀ t ∈ hi, ¬ t.key < target) (i : Nat) :
    s.lastBelow target (levelNodes i (lo ++ hi)) = lastAt s.head i lo := by
  have hkept : (levelNodes i lo).filter (s.below target) = levelNodes i lo := by
    refine List.filter_eq_self.mpr fun n hn => ?_
    obtain ⟨t, ht, rfl, -⟩ := levelNodes_subset hn
    rw [h.below_node (List.mem_append_left _ ht)]
    exact decide_eq_true (hlo t ht)
  have hlost : (levelNodes i hi).filter (s.below target) = [] := by
    refine List.filter_eq_nil_iff.mpr fun n hn => ?_
    obtain ⟨t, ht, rfl, -⟩ := levelNodes_subset hn
    rw [h.below_node (List.mem_append_right _ ht)]
    simpa using hhi t ht
  unfold SkipList.lastBelow lastAt lastNode
  rw [levelNodes_append, List.filter_append, hkept, hlost, List.append_nil]
  unfold levelNodes
  rw [List.getLast?_map]

/-! ## A pass from the middle -/

/-- `Next` from the first of the towers `hi` visits all of them. -/
theorem Rep.visits_suffix (h : Rep s (lo ++ hi)) :
    Visits s.iterNext (hi.map Tower.node).head? (hi.map Tower.node) := by
  obtain ⟨first, -, hwalk⟩ := forward_walk h
  rw [List.map_append] at hwalk
  exact hwalk.suffix

/-- What the skip list and its iterator do for a target, against scans of its chains: `chain i` are
the nodes of level `i`, and `keys` were inserted. -/
structure Scans (s : SkipList Key) (chain : Nat → List Nat) (keys : List Key) (target : Key) :
    Prop where
  first : ∀ prev, ∃ filled,
    s.findGreaterOrEqual target prev = .ok ((chain 0).find? (s.atLeast target), filled)
  prev : ∀ prev, ∃ x filled, s.findGreaterOrEqual target (some prev) = .ok (x, some filled) ∧
    (∀ i < s.maxHeight, filled i = some (s.lastBelow target (chain i))) ∧
      ∀ i, s.maxHeight ≤ i → filled i = prev i
  visits : ∃ start nodes, ∃ ks : List Key,
    s.seek target = .ok start ∧ Visits s.iterNext start nodes ∧ nodes.map s.key? = ks.map some ∧
      ks.Pairwise (· < ·) ∧ ∀ k, k ∈ ks ↔ k ∈ keys ∧ target ≤ k

theorem Rep.scans (h : Rep s T) (target : Key) :
    Scans s (fun i => levelNodes i T) (T.map Tower.key) target := by
  obtain ⟨lo, hi, rfl, hlo, hhi⟩ := split_lt h.sorted target
  have hfind := fun prev => h.findGreaterOrEqual_eq hlo hhi prev
  refine ⟨fun prev => ⟨fillPrev s.head lo (s.maxHeight - 1) prev, ?_⟩,
    fun prev => ⟨_, _, hfind (some prev), fun i hi' => ?_, fun i hi' => ?_⟩, ?_⟩
  · rw [hfind, h.find?_atLeast hlo hhi]
  · rw [h.lastBelow_eq hlo hhi]
    exact if_pos (Nat.le_sub_one_of_lt hi')
  · have hmax := h.maxHeight
    exact if_neg (by omega)
  · refine ⟨_, _, hi.map Tower.key, ?_, h.visits_suffix, ?_, ?_, fun k => ?_⟩
    · unfold SkipList.seek
      rw [hfind]
    · rw [List.map_map, List.map_map]
      exact List.map_congr_left fun t ht => h.key?_node (List.mem_append_right _ ht)
    · exact List.pairwise_map.mpr (List.pairwise_append.mp h.sorted).2.1
    · rw [List.map_append, List.mem_append]
      constructor
      · intro hk
        obtain ⟨t, ht, rfl⟩ := List.mem_map.mp hk
        exact ⟨Or.inr hk, not_lt.mp (hhi t ht)⟩
      · rintro ⟨hk | hk, hle⟩
        · obtain ⟨t, ht, rfl⟩ := List.mem_map.mp hk
          exact absurd (hlo t ht) (not_lt.mpr hle)
        · exact hk

/-- **Seek agrees with a linear scan.** After every sequence of inserts of distinct keys with any
heights, for every target: the search ends at the first node of level 0 at or after the target and
fills `prev` with the last node before it on every level in use, and `Seek` followed by `Next`
visits the inserted keys from the target on, in increasing order. -/
theorem seek_scans (anyKey : Key) (ops : List (Key × Height)) (hne : (ops.map Prod.fst).Nodup) :
    ∃ s chain, (SkipList.new anyKey).insertAll ops = .ok s ∧
      (∀ i < kMaxHeight, s.Chain i (chain i)) ∧
      ∀ target, Scans s chain (ops.map Prod.fst) target := by
  obtain ⟨s, T, hrun, h, hperm⟩ := Rep.of_insertAll anyKey hne
  refine ⟨s, fun i => levelNodes i T, hrun, h.chain, fun target => ?_⟩
  obtain ⟨hfirst, hprev, start, nodes, ks, hseek, hvisits, hks, hsorted, hmem⟩ := h.scans target
  refine ⟨hfirst, hprev, start, nodes, ks, hseek, hvisits, hks, hsorted, fun k => ?_⟩
  rw [hmem, (keys_perm hperm).mem_iff]

/-- Three keys, and a target between two of them. -/
theorem seek_scans_between :
    ∃ (s : SkipList Nat) (chain : Nat → List Nat),
      (SkipList.new 0).insertAll [(30, ⟨2, by decide⟩), (10, ⟨1, by decide⟩),
        (20, ⟨12, by decide⟩)] = .ok s ∧ Scans s chain [30, 10, 20] 15 := by
  obtain ⟨s, chain, hrun, -, hscans⟩ := seek_scans 0 [(30, ⟨2, by decide⟩), (10, ⟨1, by decide⟩),
    (20, ⟨12, by decide⟩)] (by decide)
  exact ⟨s, chain, hrun, hscans 15⟩

/-! ## The last node -/

/-- What `FindLast` and `SeekToLast` do in a list whose level 0 has the nodes `chain`, and into
which `keys` were inserted. -/
structure EndsAtLast (s : SkipList Key) (chain : List Nat) (keys : List Key) : Prop where
  findLast : s.findLast = .ok (chain.getLast?.getD s.head)
  head : s.findLast = .ok s.head ↔ chain = []
  seekToLast : s.seekToLast = .ok chain.getLast?
  valid : chain.getLast?.isSome ↔ keys ≠ []
  greatest : ∀ x, chain.getLast? = some x →
    ∃ k, s.key? x = some k ∧ IsGreatest {k | k ∈ keys} k

/-- The last of the towers has the greatest key. -/
theorem Rep.greatest_last (h : Rep s T) {t : Tower Key} (ht : T.getLast? = some t) :
    IsGreatest {k | k ∈ T.map Tower.key} t.key := by
  obtain ⟨front, rfl⟩ := List.getLast?_eq_some_iff.mp ht
  refine ⟨List.mem_map_of_mem (List.mem_of_getLast? ht), fun k hk => ?_⟩
  obtain ⟨u, hu, rfl⟩ := List.mem_map.mp hk
  rcases List.mem_append.mp hu with hu | hu
  · exact ((List.pairwise_append.mp h.sorted).2.2 u hu t (List.mem_singleton.mpr rfl)).le
  · rw [List.mem_singleton.mp hu]

/-- **`FindLast`** is the last node of level 0, or `head_`, which is no node of a key. -/
theorem Rep.endsAtLast (h : Rep s T) :
    EndsAtLast s (levelNodes 0 T) (T.map Tower.key) := by
  have hfind : s.findLast = .ok ((levelNodes 0 T).getLast?.getD s.head) := by
    rw [h.findLast_eq, h.levelNodes_zero, List.getLast?_map]
    rfl
  cases hlast : T.getLast? with
  | none =>
    obtain rfl := List.getLast?_eq_none_iff.mp hlast
    refine ⟨hfind, iff_of_true hfind rfl, ?_, by simp, nofun⟩
    unfold SkipList.seekToLast
    rw [hfind]
    exact congrArg Except.ok (if_pos rfl)
  | some t =>
    have ht : t ∈ T := List.mem_of_getLast? hlast
    have hchain : (levelNodes 0 T).getLast? = some t.node := by
      rw [h.levelNodes_zero, List.getLast?_map, hlast, Option.map_some]
    have hnode : s.findLast = .ok t.node := by
      rw [hfind, hchain, Option.getD_some]
    have hne : levelNodes 0 T ≠ [] := List.ne_nil_of_mem (List.mem_of_getLast? hchain)
    refine ⟨hfind, iff_of_false ?_ hne, ?_, ?_, fun x hx => ?_⟩
    · rw [hnode]
      exact fun heq => h.node_ne_head ht (Except.ok.inj heq)
    · unfold SkipList.seekToLast
      rw [hnode, hchain]
      exact congrArg Except.ok (if_neg (h.node_ne_head ht))
    · rw [hchain]
      exact iff_of_true rfl (List.ne_nil_of_mem (List.mem_map_of_mem ht))
    · rw [hchain] at hx
      obtain rfl := Option.some.inj hx
      exact ⟨t.key, h.key?_node ht, h.greatest_last hlast⟩

/-- **`FindLast` finds the maximum.** After every sequence of inserts of distinct keys with any
heights, `FindLast` ends at the last node of level 0, which is `head_` exactly when there is none,
and `SeekToLast` is valid exactly when a key was inserted and stands on the greatest one then. -/
theorem findLast_maximum (anyKey : Key) (ops : List (Key × Height))
    (hne : (ops.map Prod.fst).Nodup) :
    ∃ s chain, (SkipList.new anyKey).insertAll ops = .ok s ∧ s.Chain 0 chain ∧
      EndsAtLast s chain (ops.map Prod.fst) := by
  obtain ⟨s, T, hrun, h, hperm⟩ := Rep.of_insertAll anyKey hne
  obtain ⟨hfind, hhead, hseek, hvalid, hgreatest⟩ := h.endsAtLast
  have hkeys := keys_perm hperm
  refine ⟨s, levelNodes 0 T, hrun, h.chain 0 (by decide), hfind, hhead, hseek, ?_, fun x hx => ?_⟩
  · rw [hvalid, not_iff_not, ← List.length_eq_zero_iff, hkeys.length_eq, List.length_eq_zero_iff]
  · obtain ⟨k, hk, hmax⟩ := hgreatest x hx
    simp only [hkeys.mem_iff] at hmax
    exact ⟨k, hk, hmax⟩

/-- The greatest of three keys is the first one inserted, in a tower lower than the others. -/
theorem findLast_maximum_three :
    ∃ (s : SkipList Nat) (chain : List Nat),
      (SkipList.new 0).insertAll [(30, ⟨1, by decide⟩), (10, ⟨12, by decide⟩),
        (20, ⟨3, by decide⟩)] = .ok s ∧ EndsAtLast s chain [30, 10, 20] := by
  obtain ⟨s, chain, hrun, -, hends⟩ := findLast_maximum 0 [(30, ⟨1, by decide⟩),
    (10, ⟨12, by decide⟩), (20, ⟨3, by decide⟩)] (by decide)
  exact ⟨s, chain, hrun, hends⟩

end LevelDB
