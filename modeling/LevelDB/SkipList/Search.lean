import LevelDB.SkipList.Model
import Mathlib.Data.List.Perm.Subperm

/-!
# What the skip list represents, and what its searches find

`Rep s T` says that the heap `s` is a skip list for the towers `T` (node, key and height of
every inserted key, in key order): the chain of level `i` from `head_` visits exactly the
towers higher than `i`.

* `PartRep.link?_eq` — the slot a search loads at a level below the height of its node, also while
  a tower is linked on some of its levels only;
* `PartRep.look_step` — one look of a search, for any test `goRight` that holds on a prefix of the
  towers and fails on the rest;
* `Rep.descend_eq` — the search loop, for any test `goRight` that holds on a prefix `lo` of the
  towers and fails on the rest: it ends, follows no unset link, and stops between `lo` and the
  rest with `prev` filled level by level.
* `Rep.findGreaterOrEqual_eq`, `Rep.findLast_eq`, `Rep.contains_eq` — the searches built on it.
-/

set_option autoImplicit false

namespace LevelDB

open Linked

variable {Key : Type}

/-- An inserted key with its node and height. -/
structure Tower (Key : Type) where
  node : Nat
  key : Key
  height : Nat

/-- The nodes of `l` that are linked at level `i`. -/
def levelNodes (i : Nat) (l : List (Tower Key)) : List Nat :=
  (l.filter fun t => decide (i < t.height)).map Tower.node

@[simp] theorem levelNodes_append (i : Nat) (l₁ l₂ : List (Tower Key)) :
    levelNodes i (l₁ ++ l₂) = levelNodes i l₁ ++ levelNodes i l₂ := by
  simp [levelNodes]

@[simp] theorem levelNodes_nil (i : Nat) : levelNodes i ([] : List (Tower Key)) = [] := rfl

theorem levelNodes_cons (i : Nat) (t : Tower Key) (l : List (Tower Key)) :
    levelNodes i (t :: l) = if i < t.height then t.node :: levelNodes i l else levelNodes i l := by
  simp only [levelNodes, List.filter_cons, decide_eq_true_eq]
  split <;> rfl

theorem levelNodes_subset {i : Nat} {l : List (Tower Key)} {n : Nat}
    (h : n ∈ levelNodes i l) : ∃ t ∈ l, t.node = n ∧ i < t.height := by
  simp only [levelNodes, List.mem_map, List.mem_filter, decide_eq_true_eq] at h
  obtain ⟨t, ⟨ht, hi⟩, rfl⟩ := h
  exact ⟨t, ht, rfl, hi⟩

theorem levelNodes_eq_nil {i : Nat} {l : List (Tower Key)} (h : ∀ t ∈ l, t.height ≤ i) :
    levelNodes i l = [] := by
  simp only [levelNodes, List.map_eq_nil_iff, List.filter_eq_nil_iff, decide_eq_true_eq]
  exact fun t ht => Nat.not_lt.2 (h t ht)

theorem levelNodes_zero_of {l : List (Tower Key)} (h : ∀ t ∈ l, 0 < t.height) :
    levelNodes 0 l = l.map Tower.node := by
  unfold levelNodes
  rw [List.filter_eq_self.2]
  intro t ht
  simpa using h t ht

/-- The first tower of `l` that is linked at level `i`. -/
theorem levelNodes_split {i : Nat} : ∀ {l : List (Tower Key)}, levelNodes i l ≠ [] →
    ∃ mid t rest, l = mid ++ t :: rest ∧ levelNodes i mid = [] ∧ i < t.height
  | [], h => absurd rfl h
  | t :: l, h => by
    by_cases ht : i < t.height
    · exact ⟨[], t, l, rfl, rfl, ht⟩
    · rw [levelNodes_cons, if_neg ht] at h
      obtain ⟨mid, u, rest, rfl, hm, hu⟩ := levelNodes_split h
      exact ⟨t :: mid, u, rest, rfl, by rw [levelNodes_cons, if_neg ht, hm], hu⟩

/-- The last node of `l`, or `head_`. -/
def lastNode (h : Nat) (l : List (Tower Key)) : Nat := (l.getLast?.map Tower.node).getD h

@[simp] theorem lastNode_nil (h : Nat) : lastNode h ([] : List (Tower Key)) = h := rfl

@[simp] theorem lastNode_concat (h : Nat) (l : List (Tower Key)) (t : Tower Key) :
    lastNode h (l ++ [t]) = t.node := by
  simp [lastNode]

/-- The last node of the level `i` chain among `l`, or `head_`. -/
def lastAt (h : Nat) (i : Nat) (l : List (Tower Key)) : Nat :=
  lastNode h (l.filter fun t => decide (i < t.height))

theorem lastAt_append_short {h : Nat} {i : Nat} {l r : List (Tower Key)}
    (hr : levelNodes i r = []) : lastAt h i (l ++ r) = lastAt h i l := by
  simp only [levelNodes, List.map_eq_nil_iff] at hr
  simp [lastAt, hr]

theorem lastAt_of_tall {h : Nat} {i : Nat} {l : List (Tower Key)}
    (hl : ∀ t, l.getLast? = some t → i < t.height) : lastAt h i l = lastNode h l := by
  rcases l.eq_nil_or_concat with rfl | ⟨l', t, rfl⟩
  · rfl
  · rw [List.concat_eq_append] at *
    have ht : i < t.height := hl t (by simp)
    simp [lastAt, ht]

/-- The level `i` chain splits behind its last node. -/
theorem lastAt_split (h : Nat) (i : Nat) (l : List (Tower Key)) :
    ∃ front, h :: levelNodes i l = front ++ [lastAt h i l] := by
  unfold lastAt levelNodes
  generalize l.filter (fun t => decide (i < t.height)) = m
  rcases m.eq_nil_or_concat with rfl | ⟨m', t, rfl⟩
  · exact ⟨[], rfl⟩
  · rw [List.concat_eq_append]
    exact ⟨h :: m'.map Tower.node, by simp⟩

theorem lastAt_mem (h : Nat) (i : Nat) (l : List (Tower Key)) :
    lastAt h i l ∈ h :: levelNodes i l := by
  obtain ⟨front, hfront⟩ := lastAt_split h i l
  rw [hfront]
  simp

section Split

variable [LinearOrder Key]

/-- A test that holds below every key it holds at splits the towers in two. -/
theorem exists_split {T : List (Tower Key)} (hs : T.Pairwise fun t u => t.key < u.key)
    {goRight : Key → Bool}
    (hmono : ∀ a b, a < b → goRight b = true → goRight a = true) :
    ∃ lo hi, T = lo ++ hi ∧ (∀ t ∈ lo, goRight t.key = true) ∧ ∀ t ∈ hi, goRight t.key = false := by
  induction T with
  | nil => exact ⟨[], [], rfl, by simp, by simp⟩
  | cons t T ih =>
    rw [List.pairwise_cons] at hs
    by_cases ht : goRight t.key = true
    · obtain ⟨lo, hi, rfl, hlo, hhi⟩ := ih hs.2
      exact ⟨t :: lo, hi, rfl, by simpa [ht] using hlo, hhi⟩
    · refine ⟨[], t :: T, rfl, by simp, ?_⟩
      intro u hu
      rcases List.mem_cons.1 hu with rfl | hu
      · simpa using ht
      · cases hg : goRight u.key with
        | false => rfl
        | true => exact absurd (hmono _ _ (hs.1 u hu) hg) ht

/-- The towers below `key` and the others, in order. -/
theorem split_lt {T : List (Tower Key)} (hs : T.Pairwise fun t u => t.key < u.key) (key : Key) :
    ∃ lo hi, T = lo ++ hi ∧ (∀ t ∈ lo, t.key < key) ∧ ∀ t ∈ hi, ¬ t.key < key := by
  have hmono : ∀ a b, a < b → decide (b < key) = true → decide (a < key) = true :=
    fun a b hab hb => by simpa using lt_trans hab (by simpa using hb)
  obtain ⟨lo, hi, hT, hlo, hhi⟩ := exists_split hs hmono
  exact ⟨lo, hi, hT, by simpa using hlo, by simpa using hhi⟩

/-- The towers up to `key` and the later ones, in order. -/
theorem split_le {T : List (Tower Key)} (hs : T.Pairwise fun t u => t.key < u.key) (key : Key) :
    ∃ lo hi, T = lo ++ hi ∧ (∀ t ∈ lo, ¬ key < t.key) ∧ ∀ t ∈ hi, key < t.key := by
  have hmono : ∀ a b, a < b → (!decide (key < b)) = true → (!decide (key < a)) = true :=
    fun a b hab hb => by simpa using hab.le.trans (by simpa using hb)
  obtain ⟨lo, hi, hT, hlo, hhi⟩ := exists_split hs hmono
  exact ⟨lo, hi, hT, by simpa using hlo, by simpa using hhi⟩

end Split

/-- **The representation invariant.** -/
structure Rep [LinearOrder Key] (s : SkipList Key) (T : List (Tower Key)) : Prop where
  /-- the node of a tower holds its key and has one slot for each of its levels -/
  node : ∀ t ∈ T, ∃ nd, s.arena[t.node]? = some nd ∧ nd.key = t.key ∧ nd.next.length = t.height
  headNode : ∃ nd, s.arena[s.head]? = some nd ∧ nd.next.length = kMaxHeight
  nodup : (s.head :: T.map Tower.node).Nodup
  sorted : T.Pairwise fun t u => t.key < u.key
  height : ∀ t ∈ T, 0 < t.height ∧ t.height ≤ s.maxHeight
  maxHeight : 0 < s.maxHeight ∧ s.maxHeight ≤ kMaxHeight
  chain : ∀ i < kMaxHeight, Walk (s.link? i) (some s.head) (s.head :: levelNodes i T)

/-- The same for a list in the middle of an `Insert`: a tower may have slots above the levels on
which it is linked, and its height counts these levels only. -/
structure PartRep [LinearOrder Key] (s : SkipList Key) (T : List (Tower Key)) : Prop where
  node : ∀ t ∈ T, ∃ nd, s.arena[t.node]? = some nd ∧ nd.key = t.key ∧ t.height ≤ nd.next.length
  headNode : ∃ nd, s.arena[s.head]? = some nd ∧ nd.next.length = kMaxHeight
  nodup : (s.head :: T.map Tower.node).Nodup
  sorted : T.Pairwise fun t u => t.key < u.key
  height : ∀ t ∈ T, 0 < t.height ∧ t.height ≤ s.maxHeight
  maxHeight : 0 < s.maxHeight ∧ s.maxHeight ≤ kMaxHeight
  chain : ∀ i < kMaxHeight, Walk (s.link? i) (some s.head) (s.head :: levelNodes i T)

theorem Rep.partRep [LinearOrder Key] {s : SkipList Key} {T : List (Tower Key)} (h : Rep s T) :
    PartRep s T where
  node := fun t ht => by
    obtain ⟨nd, hnd, hkey, hlen⟩ := h.node t ht
    exact ⟨nd, hnd, hkey, hlen.ge⟩
  headNode := h.headNode
  nodup := h.nodup
  sorted := h.sorted
  height := h.height
  maxHeight := h.maxHeight
  chain := h.chain

namespace PartRep

variable [LinearOrder Key] {s : SkipList Key} {T lo hi : List (Tower Key)}

/-- The arena has a slot for `head_` and every tower. -/
theorem length_lt (h : PartRep s T) : T.length < s.arena.length := by
  have hsub : (s.head :: T.map Tower.node) ⊆ List.range s.arena.length := by
    intro n hn
    rw [List.mem_range]
    rcases List.mem_cons.1 hn with rfl | hn
    · obtain ⟨nd, hnd, _⟩ := h.headNode
      exact (List.getElem?_eq_some_iff.1 hnd).1
    · obtain ⟨t, ht, rfl⟩ := List.mem_map.1 hn
      obtain ⟨nd, hnd, _⟩ := h.node t ht
      exact (List.getElem?_eq_some_iff.1 hnd).1
  have := (List.subperm_of_subset h.nodup hsub).length_le
  simp only [List.length_cons, List.length_map, List.length_range] at this
  omega

/-- **The slot a search loads**: at the last node of a prefix `pre`, on a level that node has,
`next` is the first tower of the rest that is linked there. -/
theorem link?_eq {pre suf : List (Tower Key)} (h : PartRep s (pre ++ suf)) {i : Nat}
    (hi : i < kMaxHeight) (hl : ∀ t, pre.getLast? = some t → i < t.height) :
    s.link? i (lastNode s.head pre) = some (levelNodes i suf).head? := by
  have hc := h.chain i hi
  rcases pre.eq_nil_or_concat with rfl | ⟨pre', t, rfl⟩
  · have hwalk : Walk (s.link? i) (some s.head) ([] ++ s.head :: levelNodes i suf) := hc
    exact hwalk.succ
  · rw [List.concat_eq_append] at *
    have ht : i < t.height := hl t (by simp)
    have hsplit : s.head :: levelNodes i (pre' ++ [t] ++ suf) =
        (s.head :: levelNodes i pre') ++ t.node :: levelNodes i suf := by
      simp [levelNodes_cons, ht]
    rw [hsplit] at hc
    rw [lastNode_concat]
    exact hc.succ

/-- One look: the search moves right exactly when a tower of `rest` is linked at its level. -/
theorem look_eq {pre rest : List (Tower Key)} (h : PartRep s (pre ++ rest ++ hi)) {i : Nat}
    (hi' : i < kMaxHeight) (hl : ∀ t, pre.getLast? = some t → i < t.height)
    {goRight : Key → Bool} (hrest : ∀ t ∈ rest, goRight t.key = true)
    (hhi : ∀ t ∈ hi, goRight t.key = false) :
    s.look goRight (lastNode s.head pre) i =
      match (levelNodes i rest).head? with
      | some n => .ok (.right n)
      | none => .ok (.leave (levelNodes i hi).head?) := by
  have hrep : PartRep s (pre ++ (rest ++ hi)) := by simpa using h
  have hlink := hrep.link?_eq hi' hl
  have hkey : ∀ t ∈ rest ++ hi, ∃ nd, s.arena[t.node]? = some nd ∧ nd.key = t.key := fun t ht => by
    obtain ⟨nd, hnd, hk, _⟩ := h.node t (by
      rw [List.append_assoc]; exact List.mem_append_right _ ht)
    exact ⟨nd, hnd, hk⟩
  unfold SkipList.look
  rw [hlink, levelNodes_append]
  cases hr : levelNodes i rest with
  | cons n ns =>
    obtain ⟨t, ht, rfl, _⟩ := levelNodes_subset (l := rest) (n := n) (by rw [hr]; simp)
    obtain ⟨nd, hnd, hk⟩ := hkey t (List.mem_append_left _ ht)
    simp [hnd, hk, hrest t ht]
  | nil =>
    cases hh : levelNodes i hi with
    | nil => simp
    | cons n ns =>
      obtain ⟨t, ht, rfl, _⟩ := levelNodes_subset (l := hi) (n := n) (by rw [hh]; simp)
      obtain ⟨nd, hnd, hk⟩ := hkey t (List.mem_append_right _ ht)
      simp [hnd, hk, hhi t ht]

/-- **One look of a search** that stands behind the towers `pre`, where the towers `rest` still lie
before the point at which `goRight` turns false: it goes on to one of these, or it leaves the level
behind the last of `lo`. -/
theorem look_step {pre rest : List (Tower Key)} (h : PartRep s (lo ++ hi))
    (hsplit : lo = pre ++ rest) {level : Nat} (hlevel : level < kMaxHeight)
    (htall : ∀ t, pre.getLast? = some t → level < t.height) (goRight : Key → Bool)
    (hlo : ∀ t ∈ lo, goRight t.key = true) (hhi : ∀ t ∈ hi, goRight t.key = false) :
    (∃ mid t rest', rest = mid ++ t :: rest' ∧ level < t.height ∧
        s.look goRight (lastNode s.head pre) level = .ok (.right t.node)) ∨
      s.look goRight (lastNode s.head pre) level = .ok (.leave (levelNodes level hi).head?) ∧
        lastAt s.head level lo = lastNode s.head pre := by
  have hlook := look_eq (by rw [← hsplit]; exact h) hlevel htall
    (fun t ht => hlo t (by rw [hsplit]; exact List.mem_append_right _ ht)) hhi
  rw [hlook]
  by_cases hrest : levelNodes level rest = []
  · rw [hrest, hsplit, lastAt_append_short hrest, lastAt_of_tall htall]
    exact Or.inr ⟨rfl, rfl⟩
  · obtain ⟨mid, t, rest', hr, hmid, ht⟩ := levelNodes_split hrest
    have hhead : (levelNodes level rest).head? = some t.node := by
      rw [hr, levelNodes_append, hmid, List.nil_append, levelNodes_cons, if_pos ht]
      rfl
    rw [hhead]
    exact Or.inl ⟨mid, t, rest', hr, ht, rfl⟩

/-- On level 0 a search leaves behind all of `lo`, at the first tower of `hi`. -/
theorem leave_zero (h : PartRep s (lo ++ hi)) :
    lastAt s.head 0 lo = lastNode s.head lo ∧
      (levelNodes 0 hi).head? = (hi.map Tower.node).head? := by
  refine ⟨lastAt_of_tall fun t ht => ?_, ?_⟩
  · exact (h.height t (List.mem_append_left _ (List.mem_of_getLast? ht))).1
  · rw [levelNodes_zero_of fun t ht => (h.height t (List.mem_append_right _ ht)).1]

/-- A chain of a represented list, cut behind the last node of `lo`. -/
theorem chain_split (h : PartRep s (lo ++ hi)) {i : Nat} (hi' : i < kMaxHeight) :
    ∃ front, s.head :: levelNodes i lo = front ++ [lastAt s.head i lo] ∧
      Walk (s.link? i) (some s.head) (front ++ lastAt s.head i lo :: levelNodes i hi) := by
  obtain ⟨front, hfront⟩ := lastAt_split s.head i lo
  refine ⟨front, hfront, ?_⟩
  have := h.chain i hi'
  rw [levelNodes_append, ← List.cons_append, hfront] at this
  simpa using this

end PartRep

namespace Rep

variable [LinearOrder Key] {s : SkipList Key} {T lo hi : List (Tower Key)}

theorem new (anyKey : Key) : Rep (SkipList.new anyKey) [] where
  node := by simp
  headNode := ⟨_, rfl, rfl⟩
  nodup := by simp
  sorted := List.Pairwise.nil
  height := by simp
  maxHeight := by simp [SkipList.new, kMaxHeight]
  chain := by
    intro i hi
    refine ⟨rfl, none, ?_, rfl⟩
    simp [SkipList.link?, SkipList.new, hi]

theorem levelNodes_zero (h : Rep s T) : levelNodes 0 T = T.map Tower.node :=
  levelNodes_zero_of fun t ht => (h.height t ht).1

theorem node_ne_head (h : Rep s T) {t : Tower Key} (ht : t ∈ T) : t.node ≠ s.head := by
  intro heq
  refine (List.nodup_cons.mp h.nodup).1 ?_
  rw [← heq]
  exact List.mem_map_of_mem ht

/-- `prev` after a search that left every level up to `level` behind the towers `lo`. -/
def fillPrev (h : Nat) (lo : List (Tower Key)) (level : Nat) (prev : Option PrevArray) :
    Option PrevArray :=
  prev.map fun p i => if i ≤ level then some (lastAt h i lo) else p i

omit [LinearOrder Key] in
theorem fillPrev_zero (h : Nat) (lo : List (Tower Key)) (prev : Option PrevArray) :
    fillPrev h lo 0 prev = SkipList.record prev 0 (lastAt h 0 lo) := by
  unfold fillPrev SkipList.record
  congr 1
  funext p i
  by_cases hi : i = 0
  · subst hi; simp
  · simp [hi]

omit [LinearOrder Key] in
theorem fillPrev_succ (h : Nat) (lo : List (Tower Key)) (l : Nat) (prev : Option PrevArray) :
    fillPrev h lo (l + 1) prev =
      fillPrev h lo l (SkipList.record prev (l + 1) (lastAt h (l + 1) lo)) := by
  cases prev with
  | none => rfl
  | some p =>
    simp only [fillPrev, SkipList.record, Option.map_some, Option.some.injEq]
    funext i
    by_cases h1 : i ≤ l
    · simp [h1, Nat.le_succ_of_le h1]
    · by_cases h2 : i = l + 1
      · subst h2; simp
      · simp [h1, h2, show ¬ i ≤ l + 1 by omega]

/-- **The search loop.**  By induction on the fuel: the search stands behind the towers `pre`,
the towers `rest` still lie before the point where `goRight` turns false, and level plus
`rest` bounds what is left to do. -/
theorem descend_eq (h : Rep s (lo ++ hi)) {goRight : Key → Bool} {check : Nat → Bool}
    (hlo : ∀ t ∈ lo, goRight t.key = true) (hhi : ∀ t ∈ hi, goRight t.key = false)
    (hhead : check s.head = true) (hcheck : ∀ t ∈ lo, check t.node = true) :
    ∀ (fuel : Nat) (pre rest : List (Tower Key)) (level : Nat) (prev : Option PrevArray),
      lo = pre ++ rest → level < kMaxHeight → (∀ t, pre.getLast? = some t → level < t.height) →
      level + rest.length < fuel →
      s.descend goRight check fuel (lastNode s.head pre) level prev =
        .ok ⟨lastNode s.head lo, (hi.map Tower.node).head?, fillPrev s.head lo level prev⟩ := by
  intro fuel
  induction fuel with
  | zero => intro pre rest level prev _ _ _ hf; omega
  | succ fuel ih =>
    intro pre rest level prev hsplit hlev htall hf
    have hchk : check (lastNode s.head pre) = true := by
      rcases pre.eq_nil_or_concat with rfl | ⟨pre', t, rfl⟩
      · exact hhead
      · rw [List.concat_eq_append] at *
        rw [lastNode_concat]
        exact hcheck t (by rw [hsplit]; simp)
    unfold SkipList.descend
    rw [if_pos hchk]
    rcases h.partRep.look_step hsplit hlev htall goRight hlo hhi with
      ⟨mid, t, rest', hr, ht, hlook⟩ | ⟨hlook, hlast⟩
    · -- the first tower of `rest` on this level is passed
      have hnode : t.node = lastNode s.head (pre ++ mid ++ [t]) := by rw [lastNode_concat]
      rw [hlook]
      simp only
      rw [hnode]
      refine ih (pre ++ mid ++ [t]) rest' level prev (by rw [hsplit, hr]; simp) hlev ?_ ?_
      · intro u hu
        rw [List.getLast?_concat, Option.some.injEq] at hu
        rw [← hu]; exact ht
      · rw [hr] at hf
        simp only [List.length_append, List.length_cons] at hf
        omega
    · -- nothing left to pass on this level
      rw [hlook]
      cases level with
      | zero =>
        obtain ⟨hlo', hhi'⟩ := h.partRep.leave_zero
        simp only [fillPrev_zero, hhi', hlast, ← hlo']
      | succ l =>
        simp only
        rw [ih pre rest l _ hsplit (by omega) (fun t ht => by have := htall t ht; omega) (by omega),
          fillPrev_succ, hlast]

/-- A search from `head_` on the topmost level has enough fuel. -/
theorem search_eq (h : Rep s (lo ++ hi)) {goRight : Key → Bool} {check : Nat → Bool}
    (hlo : ∀ t ∈ lo, goRight t.key = true) (hhi : ∀ t ∈ hi, goRight t.key = false)
    (hhead : check s.head = true) (hcheck : ∀ t ∈ lo, check t.node = true)
    (prev : Option PrevArray) :
    s.search goRight check prev =
      .ok ⟨lastNode s.head lo, (hi.map Tower.node).head?,
        fillPrev s.head lo (s.maxHeight - 1) prev⟩ := by
  have hlen := h.partRep.length_lt
  have hmax := h.maxHeight
  rw [List.length_append] at hlen
  unfold SkipList.search SkipList.fuel
  exact h.descend_eq hlo hhi hhead hcheck _ [] lo _ prev rfl (by omega) (by simp) (by omega)

omit [LinearOrder Key] in
/-- The assertion at the head of the loop only ever cuts a search short, and it was checked at
the node where a search stops. -/
theorem descend_check (s : SkipList Key) (goRight : Key → Bool) (check : Nat → Bool) :
    ∀ (fuel x level : Nat) (prev : Option PrevArray),
      s.descend goRight check fuel x level prev = .error .assertion ∨
      s.descend goRight check fuel x level prev =
          s.descend goRight (fun _ => true) fuel x level prev ∧
        ∀ st, s.descend goRight check fuel x level prev = .ok st → check st.x = true
  | 0, _, _, _ => by simp [SkipList.descend]
  | fuel + 1, x, level, prev => by
    unfold SkipList.descend
    by_cases hc : check x = true
    · rw [if_pos hc, if_pos rfl]
      cases s.look goRight x level with
      | error e => simp
      | ok l =>
        cases l with
        | right n => exact descend_check s goRight check fuel n level prev
        | leave next =>
          cases level with
          | zero => exact Or.inr ⟨rfl, fun st hst => by cases hst; exact hc⟩
          | succ l => exact descend_check s goRight check fuel x l _
    · exact Or.inl (if_neg hc)

/-- `FindGreaterOrEqual` returns the first tower that is not below `key` and leaves in `prev`
the last node below `key` on every level in use. -/
theorem findGreaterOrEqual_eq (h : Rep s (lo ++ hi)) {key : Key} (hlo : ∀ t ∈ lo, t.key < key)
    (hhi : ∀ t ∈ hi, ¬ t.key < key) (prev : Option PrevArray) :
    s.findGreaterOrEqual key prev =
      .ok ((hi.map Tower.node).head?, fillPrev s.head lo (s.maxHeight - 1) prev) := by
  unfold SkipList.findGreaterOrEqual
  rw [h.search_eq (by simpa using hlo) (by simpa using hhi) rfl (fun _ _ => rfl)]

/-- `FindLast` returns the last tower, or `head_`. -/
theorem findLast_eq (h : Rep s T) : s.findLast = .ok (lastNode s.head T) := by
  unfold SkipList.findLast
  have hrep : Rep s (T ++ []) := by simpa using h
  rw [hrep.search_eq (fun _ _ => rfl) (by simp) rfl (fun _ _ => rfl)]

/-- `FindLessThan` either fails its assertion, or stops at the last tower that is not above
`key`, where the assertion holds. -/
theorem findLessThan_eq (h : Rep s (lo ++ hi)) {key : Key} (hlo : ∀ t ∈ lo, ¬ key < t.key)
    (hhi : ∀ t ∈ hi, key < t.key) :
    s.findLessThan key = .error .assertion ∨
      s.findLessThan key = .ok (lastNode s.head lo) ∧
        s.lessThanCheck key (lastNode s.head lo) = true := by
  have hlo' : ∀ t ∈ lo, (!decide (key < t.key)) = true := by simpa using hlo
  have hhi' : ∀ t ∈ hi, (!decide (key < t.key)) = false := by simpa using hhi
  have hfree : s.search (fun k => !decide (key < k)) (fun _ => true) none = _ :=
    h.search_eq hlo' hhi' rfl (fun _ _ => rfl) none
  unfold SkipList.findLessThan
  unfold SkipList.search at hfree ⊢
  rcases descend_check s (fun k => !decide (key < k)) (s.lessThanCheck key) s.fuel s.head
      (s.maxHeight - 1) none with he | ⟨he, hst⟩
  · rw [he]
    exact Or.inl rfl
  · rw [hfree] at he
    rw [he]
    exact Or.inr ⟨rfl, hst _ he⟩

theorem findLessThan_cases (h : Rep s T) (key : Key) :
    (∃ x, s.findLessThan key = .ok x) ∨ s.findLessThan key = .error .assertion := by
  obtain ⟨lo, hi, rfl, hlo, hhi⟩ := split_le h.sorted key
  rcases h.findLessThan_eq hlo hhi with he | ⟨he, -⟩
  · exact Or.inr he
  · exact Or.inl ⟨_, he⟩

/-- `Contains` answers membership among the inserted keys. -/
theorem contains_eq (h : Rep s T) (key : Key) :
    s.contains key = .ok (decide (∃ t ∈ T, t.key = key)) := by
  obtain ⟨lo, hi, rfl, hlo, hhi⟩ := split_lt h.sorted key
  unfold SkipList.contains
  rw [h.findGreaterOrEqual_eq hlo hhi]
  have hnone : ∀ t ∈ lo, t.key ≠ key := fun t ht e =>
    absurd (hlo t ht) (by rw [e]; exact lt_irrefl _)
  cases hi with
  | nil => simpa using fun t ht => hnone t ht
  | cons u hi =>
    obtain ⟨nd, hnd, hk, _⟩ := h.node u (by simp)
    simp only [List.map_cons, List.head?_cons, hnd, hk, Except.ok.injEq, decide_eq_decide]
    constructor
    · intro e; exact ⟨u, by simp, e.symm⟩
    · rintro ⟨t, ht, rfl⟩
      rcases List.mem_append.1 ht with ht | ht
      · exact absurd rfl (hnone t ht)
      · rcases List.mem_cons.1 ht with rfl | ht
        · rfl
        · -- a later tower has a larger key, but `u` is not below `t.key`
          have hs := (List.pairwise_append.1 h.sorted).2.1
          exact absurd ((List.pairwise_cons.1 hs).1 t ht) (hhi u (by simp))

end Rep

end LevelDB
