import LevelDB.SkipList.Search
import Mathlib.Data.List.Nodup
import Mathlib.Order.MinMax

/-!
# `SkipList::Insert` keeps the representation

* `setNext_spec`, `newNode_shape` — what one store and one allocation do to the links.
* `linkLevels_spec` — the linking loop: below the height of the new node every level gets the
  node spliced in behind `prev[i]`, the other levels keep their links.
* `Rep.insert` — inserting a new key turns a skip list for `lo ++ hi` into one for
  `lo ++ t :: hi`, where `t` is the tower of the new key.
* `insertAll_isSet` — every sequence of inserts of distinct keys, with any heights, yields a
  skip list whose chains are sorted, complete and nested, and whose searches are right.
-/

set_option autoImplicit false

namespace LevelDB

open Linked

variable {Key : Type}

namespace SkipList

/-- Key and number of slots of every allocated node: what no store ever changes. -/
def shape (s : SkipList Key) (n : Nat) : Option (Key × Nat) :=
  (s.arena[n]?).map fun nd => (nd.key, nd.next.length)

theorem shape_eq_some {s : SkipList Key} {n : Nat} {key : Key} {slots : Nat} :
    s.shape n = some (key, slots) ↔
      ∃ nd, s.arena[n]? = some nd ∧ nd.key = key ∧ nd.next.length = slots := by
  simp [shape]

/-- The heap after a store, seen through the links. -/
structure Stored (s s' : SkipList Key) (x : Nat) (n : Nat) (p : Ptr) : Prop where
  head : s'.head = s.head
  maxHeight : s'.maxHeight = s.maxHeight
  shape : s'.shape = s.shape
  link? : ∀ i y, s'.link? i y = if y = x ∧ i = n then some p else s.link? i y

theorem setNext_spec {s : SkipList Key} {x : Nat} {n : Nat} {key : Key} {slots : Nat}
    (hx : s.shape x = some (key, slots)) (hn : n < slots) (p : Ptr) :
    ∃ s', s.setNext x n p = .ok s' ∧ Stored s s' x n p := by
  obtain ⟨nd, hnd, -, rfl⟩ := shape_eq_some.1 hx
  have hlt := (List.getElem?_eq_some_iff.1 hnd).1
  refine ⟨{ s with arena := s.arena.set x { nd with next := nd.next.set n (some p) } },
    by unfold setNext; rw [hnd]; simp only; rw [if_pos hn], rfl, rfl, ?_, ?_⟩
  · funext y
    unfold SkipList.shape
    by_cases hy : y = x
    · rw [hy, hnd, List.getElem?_set_self hlt]
      simp
    · rw [List.getElem?_set_ne (Ne.symm hy)]
  · intro i y
    unfold SkipList.link?
    by_cases hy : y = x
    · rw [hy, hnd, List.getElem?_set_self hlt, Option.bind_some, Option.bind_some]
      by_cases hi : i = n
      · rw [hi, List.getElem?_set_self hn, if_pos ⟨rfl, rfl⟩]
        rfl
      · rw [List.getElem?_set_ne (Ne.symm hi), if_neg fun h => hi h.2]
    · rw [List.getElem?_set_ne (Ne.symm hy), if_neg fun h => hy h.1]

theorem newNode_link? (s : SkipList Key) (key : Key) (height i : Nat) (y : Nat) :
    (s.newNode key height).2.link? i y = s.link? i y := by
  unfold SkipList.newNode SkipList.link?
  by_cases hy : y < s.arena.length
  · simp [List.getElem?_append_left hy]
  · have hnone : s.arena[y]? = none := List.getElem?_eq_none (by omega)
    rw [hnone]
    by_cases he : y = s.arena.length
    · subst he
      simp only [List.getElem?_concat_length, Option.bind_some, Option.bind_none,
        List.getElem?_replicate]
      split <;> rfl
    · rw [List.getElem?_eq_none (by simp; omega)]

theorem newNode_shape (s : SkipList Key) (key : Key) (height : Nat) (y : Nat) :
    (s.newNode key height).2.shape y =
      if y = s.arena.length then some (key, height) else s.shape y := by
  unfold SkipList.newNode SkipList.shape
  by_cases he : y = s.arena.length
  · subst he; simp
  · by_cases hy : y < s.arena.length
    · simp [List.getElem?_append_left hy, he]
    · rw [List.getElem?_eq_none (by simp; omega), List.getElem?_eq_none (by omega), if_neg he]

/-- The links after the linking loop ran on the levels below `j`. -/
structure Linked (s s' : SkipList Key) (prev : Nat → Nat) (x : Nat) (j : Nat) : Prop where
  head : s'.head = s.head
  maxHeight : s'.maxHeight = s.maxHeight
  shape : s'.shape = s.shape
  link? : ∀ i y, s'.link? i y =
    if i < j then
      if y = x then s.link? i (prev i) else if y = prev i then some (some x) else s.link? i y
    else s.link? i y

/-- **The linking loop**, by induction on the number of levels done. -/
theorem linkLevels_spec {s : SkipList Key} {pa : PrevArray} {prev : Nat → Nat} {x : Nat}
    {key : Key} {height : Nat} (hx : s.shape x = some (key, height))
    (hpa : ∀ i < height, pa i = some (prev i)) (hne : ∀ i < height, prev i ≠ x)
    (hslot : ∀ i < height, ∃ k slots, s.shape (prev i) = some (k, slots) ∧ i < slots)
    (hread : ∀ i < height, ∃ q, s.link? i (prev i) = some q) :
    ∀ j ≤ height, ∃ s', (List.range j).foldlM (linkLevel pa x) s = .ok s' ∧
      Linked s s' prev x j := by
  intro j
  induction j with
  | zero => exact fun _ => ⟨s, rfl, rfl, rfl, rfl, fun i y => by simp⟩
  | succ j ih =>
    intro hj
    obtain ⟨s₁, hrun, h₁⟩ := ih (by omega)
    have hjh : j < height := by omega
    obtain ⟨q, hq⟩ := hread j hjh
    obtain ⟨k, slots, hsh, hlt⟩ := hslot j hjh
    -- level `j` is untouched so far
    have hq₁ : s₁.link? j (prev j) = some q := by rw [h₁.link?]; simp [hq]
    obtain ⟨s₂, hset₂, h₂⟩ := setNext_spec (by rw [h₁.shape]; exact hx) hjh q
    obtain ⟨s₃, hset₃, h₃⟩ := setNext_spec (s := s₂) (by rw [h₂.shape, h₁.shape]; exact hsh) hlt
      (some x)
    refine ⟨s₃, ?_, ?_, ?_, ?_, ?_⟩
    · rw [List.range_succ, List.foldlM_append, hrun]
      show (do let s ← List.foldlM (linkLevel pa x) s₁ [j]; pure s) = _
      simp [linkLevel, hpa j hjh, hq₁, hset₂, hset₃]
    · rw [h₃.head, h₂.head, h₁.head]
    · rw [h₃.maxHeight, h₂.maxHeight, h₁.maxHeight]
    · rw [h₃.shape, h₂.shape, h₁.shape]
    · intro i y
      rw [h₃.link?, h₂.link?, h₁.link?]
      by_cases hij : i = j
      · subst hij
        by_cases hyx : y = x
        · subst hyx
          simp [(hne i hjh).symm, hq]
        · simp [hyx]
      · have : i < j + 1 ↔ i < j := by omega
        simp [hij, this]

end SkipList

namespace PartRep

variable [LinearOrder Key] {s : SkipList Key} {T lo hi : List (Tower Key)}

/-- Every node of the list was allocated. -/
theorem node_lt (h : PartRep s T) {n : Nat} (hn : n ∈ s.head :: T.map Tower.node) :
    n < s.arena.length := by
  rcases List.mem_cons.1 hn with rfl | hn
  · obtain ⟨nd, hnd, _⟩ := h.headNode
    exact (List.getElem?_eq_some_iff.1 hnd).1
  · obtain ⟨t, ht, rfl⟩ := List.mem_map.1 hn
    obtain ⟨nd, hnd, _⟩ := h.node t ht
    exact (List.getElem?_eq_some_iff.1 hnd).1

/-- No old node is the freshly allocated one. -/
theorem ne_fresh (h : PartRep s T) {n : Nat} (hn : n ∈ s.head :: T.map Tower.node) :
    n ≠ s.arena.length := Nat.ne_of_lt (h.node_lt hn)

/-- `assert(x == nullptr || !Equal(key, x->key))` holds for a new key. -/
theorem freshCheck_eq (h : PartRep s (lo ++ hi)) {key : Key} (hhi : ∀ t ∈ hi, key < t.key) :
    s.freshCheck key (hi.map Tower.node).head? = true := by
  cases hi with
  | nil => rfl
  | cons u hi =>
    obtain ⟨nd, hnd, hk, _⟩ := h.node u (by simp)
    simp [SkipList.freshCheck, hnd, hk, (hhi u (by simp)).ne]

end PartRep

namespace Rep

variable [LinearOrder Key] {s : SkipList Key} {T lo hi : List (Tower Key)}

theorem shape_tower (h : Rep s T) {t : Tower Key} (ht : t ∈ T) :
    s.shape t.node = some (t.key, t.height) :=
  SkipList.shape_eq_some.2 (h.node t ht)

/-- A node of the list, or `head_`, has a slot on every level where it is linked. -/
theorem lastAt_slot (h : Rep s (lo ++ hi)) {i : Nat} (hi' : i < kMaxHeight) :
    ∃ k slots, s.shape (lastAt s.head i lo) = some (k, slots) ∧ i < slots := by
  rcases List.mem_cons.1 (lastAt_mem s.head i lo) with he | hm
  · obtain ⟨nd, hnd, hlen⟩ := h.headNode
    rw [he]
    exact ⟨nd.key, _, SkipList.shape_eq_some.2 ⟨nd, hnd, rfl, hlen⟩, hi'⟩
  · obtain ⟨t, ht, hn, hlt⟩ := levelNodes_subset hm
    rw [← hn]
    exact ⟨_, _, h.shape_tower (List.mem_append_left _ ht), hlt⟩

/-- What `prev` holds when `Insert` starts to link, at every level of the new node. -/
theorem patchPrev_eq (h : Rep s (lo ++ hi)) (height : Nat) {i : Nat} (hi' : i < height)
    {prev : PrevArray}
    (hprev : some prev = fillPrev s.head lo (s.maxHeight - 1) (some fun _ => none)) :
    s.patchPrev height prev i = some (lastAt s.head i lo) := by
  simp only [fillPrev, Option.map_some, Option.some.injEq] at hprev
  subst hprev
  have hmax := h.maxHeight
  unfold SkipList.patchPrev
  by_cases hnew : s.maxHeight ≤ i
  · -- a level above the old height: no tower reaches it
    have hnil : levelNodes i lo = [] := levelNodes_eq_nil fun t ht => by
      have := (h.height t (List.mem_append_left _ ht)).2
      omega
    have hlast : lastAt s.head i lo = s.head := lastAt_append_short (l := []) hnil
    rw [if_pos ⟨hnew, hi'⟩, hlast]
  · rw [if_neg (by omega)]
    simp only
    rw [if_pos (by omega)]

omit [LinearOrder Key] in
theorem shape_raise (s : SkipList Key) (height : Nat) : (s.raise height).shape = s.shape := by
  unfold SkipList.raise
  split <;> rfl

omit [LinearOrder Key] in
theorem link?_raise (s : SkipList Key) (height i : Nat) (y : Nat) :
    (s.raise height).link? i y = s.link? i y := by
  unfold SkipList.raise
  split <;> rfl

omit [LinearOrder Key] in
theorem head_raise (s : SkipList Key) (height : Nat) : (s.raise height).head = s.head := by
  unfold SkipList.raise
  split <;> rfl

omit [LinearOrder Key] in
theorem arena_raise (s : SkipList Key) (height : Nat) : (s.raise height).arena = s.arena := by
  unfold SkipList.raise
  split <;> rfl

omit [LinearOrder Key] in
theorem maxHeight_raise (s : SkipList Key) (height : Nat) :
    (s.raise height).maxHeight = max s.maxHeight height := by
  unfold SkipList.raise
  split
  · rename_i hlt
    exact (max_eq_right hlt.le).symm
  · rename_i hlt
    exact (max_eq_left (Nat.le_of_not_lt hlt)).symm

omit [LinearOrder Key] in
theorem levelNodes_mem_map {i : Nat} {l : List (Tower Key)} {n : Nat} (h : n ∈ levelNodes i l) :
    n ∈ l.map Tower.node := by
  obtain ⟨t, ht, rfl, -⟩ := levelNodes_subset h
  exact List.mem_map_of_mem ht

omit [LinearOrder Key] in
theorem mem_map_of_levelNodes {i : Nat} {n : Nat} (h : n ∈ s.head :: levelNodes i T) :
    n ∈ s.head :: T.map Tower.node := by
  rcases List.mem_cons.1 h with rfl | h
  · exact List.mem_cons_self
  · exact List.mem_cons_of_mem _ (levelNodes_mem_map h)

/-- The heap after a key was linked in behind the towers `lo`: the node `x` is new, and below
its height every level has it spliced in behind the last node of `lo`. -/
structure Spliced (s s' : SkipList Key) (lo : List (Tower Key)) (x : Nat) (key : Key)
    (height : Nat) : Prop where
  head : s'.head = s.head
  maxHeight : s'.maxHeight = max s.maxHeight height
  shape : ∀ y, s'.shape y = if y = x then some (key, height) else s.shape y
  link? : ∀ i y, s'.link? i y =
    if i < height then
      if y = x then s.link? i (lastAt s.head i lo)
      else if y = lastAt s.head i lo then some (some x) else s.link? i y
    else s.link? i y

theorem lastAt_ne_fresh (h : Rep s (lo ++ hi)) (i : Nat) :
    lastAt s.head i lo ≠ s.arena.length := by
  refine h.partRep.ne_fresh ?_
  have := mem_map_of_levelNodes (s := s) (lastAt_mem s.head i lo)
  rw [List.map_append, ← List.cons_append]
  exact List.mem_append_left _ this

/-- `Insert` of a new key runs to its end and splices the new node in. -/
theorem insert_spliced (h : Rep s (lo ++ hi)) {key : Key} (hlo : ∀ t ∈ lo, t.key < key)
    (hhi : ∀ t ∈ hi, key < t.key) (height : Height) :
    ∃ s', s.insert key height = .ok s' ∧ Spliced s s' lo s.arena.length key height.1 := by
  have hfind := h.findGreaterOrEqual_eq hlo (fun t ht => not_lt.2 (hhi t ht).le)
    (some fun _ => none)
  obtain ⟨prev, hprev⟩ : ∃ prev,
      some prev = fillPrev s.head lo (s.maxHeight - 1) (some fun _ => none) := ⟨_, rfl⟩
  rw [← hprev] at hfind
  -- the linking loop runs in the raised list with the new node allocated
  obtain ⟨s₀, hs₀⟩ : ∃ s₀, s₀ = ((s.raise height.1).newNode key height.1).2 := ⟨_, rfl⟩
  have hlink₀ : ∀ i y, s₀.link? i y = s.link? i y := fun i y => by
    rw [hs₀, SkipList.newNode_link?, link?_raise]
  have hshape₀ : ∀ y, s₀.shape y = if y = s.arena.length then some (key, height.1) else s.shape y :=
    fun y => by rw [hs₀, SkipList.newNode_shape, arena_raise, shape_raise]
  have hh := height.2.2
  have hnew : s₀.shape s.arena.length = some (key, height.1) := by rw [hshape₀, if_pos rfl]
  obtain ⟨s', hrun, hs'⟩ := SkipList.linkLevels_spec hnew
    (fun i hi' => h.patchPrev_eq height.1 hi' hprev) (fun i _ => h.lastAt_ne_fresh i)
    (fun i hi' => by
      obtain ⟨k, slots, hk, hlt⟩ := h.lastAt_slot (i := i) (by omega)
      exact ⟨k, slots, by rw [hshape₀, if_neg (h.lastAt_ne_fresh i)]; exact hk, hlt⟩)
    (fun i hi' => by
      obtain ⟨front, -, hw⟩ := h.partRep.chain_split (i := i) (by omega)
      exact ⟨_, by rw [hlink₀]; exact hw.succ⟩) height.1 le_rfl
  refine ⟨s', ?_, ?_, ?_, ?_, ?_⟩
  · unfold SkipList.insert
    rw [hfind]
    simp only
    rw [if_pos (h.partRep.freshCheck_eq hhi)]
    simpa [SkipList.newNode, hs₀, arena_raise] using hrun
  · rw [hs'.head, hs₀]
    exact head_raise s height.1
  · rw [hs'.maxHeight, hs₀]
    exact maxHeight_raise s height.1
  · intro y
    rw [hs'.shape, hshape₀]
  · intro i y
    rw [hs'.link?, hlink₀, hlink₀]

/-- Splicing keeps every chain: the new node joins the levels below its height. -/
theorem Spliced.chain {s' : SkipList Key} {key : Key} {height : Nat} (h : Rep s (lo ++ hi))
    (hs' : Spliced s s' lo s.arena.length key height) {i : Nat} (hi' : i < kMaxHeight) :
    Walk (s'.link? i) (some s'.head)
      (s'.head :: levelNodes i (lo ++ ⟨s.arena.length, key, height⟩ :: hi)) := by
  obtain ⟨front, hfront, hw⟩ := h.partRep.chain_split hi'
  have hnd : (front ++ lastAt s.head i lo :: levelNodes i hi).Nodup := by
    have hsub : (s.head :: levelNodes i (lo ++ hi)).Sublist (s.head :: (lo ++ hi).map Tower.node) :=
      List.Sublist.cons_cons _ (List.Sublist.map _ List.filter_sublist)
    have := hsub.nodup h.nodup
    rw [levelNodes_append, ← List.cons_append, hfront] at this
    simpa using this
  have hother : ∀ z ∈ front ++ levelNodes i hi,
      z ≠ s.arena.length ∧ z ≠ lastAt s.head i lo := by
    intro z hz
    constructor
    · refine h.partRep.ne_fresh (mem_map_of_levelNodes (i := i) ?_)
      rw [levelNodes_append, ← List.cons_append, hfront]
      simp only [List.mem_append, List.mem_singleton] at hz ⊢
      grind
    · rintro rfl
      rw [List.nodup_middle, List.nodup_cons] at hnd
      exact hnd.1 hz
  rw [hs'.head, levelNodes_append, levelNodes_cons, ← List.cons_append, hfront, List.append_assoc]
  by_cases hlev : i < height
  · rw [if_pos hlev]
    refine Walk.insert hw ?_ ?_ ?_
    · rw [hs'.link?, if_pos hlev, if_neg (h.lastAt_ne_fresh i), if_pos rfl]
    · rw [hs'.link?, if_pos hlev, if_pos rfl]
    · intro z hz
      rw [hs'.link?, if_pos hlev, if_neg (hother z hz).1, if_neg (hother z hz).2]
  · rw [if_neg hlev]
    refine Walk.congr hw fun z _ => ?_
    rw [hs'.link?, if_neg hlev]

/-- **Splicing in a tower between `lo` and `hi` keeps the representation.** -/
theorem of_spliced {s' : SkipList Key} {key : Key} (h : Rep s (lo ++ hi))
    (hlo : ∀ t ∈ lo, t.key < key) (hhi : ∀ t ∈ hi, key < t.key) (height : Height)
    (hs' : Spliced s s' lo s.arena.length key height.1) :
    Rep s' (lo ++ ⟨s.arena.length, key, height.1⟩ :: hi) := by
  have hcases : ∀ t ∈ lo ++ ⟨s.arena.length, key, height.1⟩ :: hi,
      t = ⟨s.arena.length, key, height.1⟩ ∨ t ∈ lo ++ hi := fun t ht => by
    simp only [List.mem_append, List.mem_cons] at ht ⊢
    grind
  constructor
  case node =>
    intro t ht
    rw [← SkipList.shape_eq_some, hs'.shape]
    rcases hcases t ht with rfl | ht
    · simp
    · rw [if_neg (h.partRep.ne_fresh (List.mem_cons_of_mem _ (List.mem_map_of_mem ht)))]
      exact h.shape_tower ht
  case headNode =>
    obtain ⟨nd, hnd, hlen⟩ := h.headNode
    have hshape := hs'.shape s'.head
    rw [hs'.head, if_neg (h.partRep.ne_fresh List.mem_cons_self),
      SkipList.shape_eq_some.2 ⟨nd, hnd, rfl, hlen⟩, ← hs'.head] at hshape
    obtain ⟨nd', hnd', -, hlen'⟩ := SkipList.shape_eq_some.1 hshape
    exact ⟨nd', hnd', hlen'⟩
  case nodup =>
    have hperm : (s.head :: (lo ++ ⟨s.arena.length, key, height.1⟩ :: hi).map Tower.node).Perm
        (s.arena.length :: s.head :: (lo ++ hi).map Tower.node) := by
      simp only [List.map_append, List.map_cons, ← List.cons_append]
      exact List.perm_middle
    rw [hs'.head, hperm.nodup_iff, List.nodup_cons]
    exact ⟨fun hm => h.partRep.ne_fresh hm rfl, h.nodup⟩
  case sorted =>
    have hs := List.pairwise_append.1 h.sorted
    rw [List.pairwise_append, List.pairwise_cons]
    refine ⟨hs.1, ⟨hhi, hs.2.1⟩, ?_⟩
    intro t ht u hu
    rcases List.mem_cons.1 hu with rfl | hu
    · exact hlo t ht
    · exact hs.2.2 t ht u hu
  case height =>
    intro t ht
    rw [hs'.maxHeight]
    rcases hcases t ht with rfl | ht
    · exact ⟨height.2.1, le_max_right _ _⟩
    · exact ⟨(h.height t ht).1, le_max_of_le_left (h.height t ht).2⟩
  case maxHeight =>
    rw [hs'.maxHeight]
    exact ⟨lt_max_of_lt_left h.maxHeight.1, max_le h.maxHeight.2 height.2.2⟩
  case chain => exact fun i hi' => hs'.chain h hi'

/-- **`Insert` of a new key.** -/
theorem insert (h : Rep s T) {key : Key} (hnew : ∀ t ∈ T, t.key ≠ key) (height : Height) :
    ∃ s' lo hi, T = lo ++ hi ∧ s.insert key height = .ok s' ∧
      Rep s' (lo ++ ⟨s.arena.length, key, height.1⟩ :: hi) := by
  obtain ⟨lo, hi, rfl, hlo, hhi⟩ := split_lt h.sorted key
  have hhi' : ∀ t ∈ hi, key < t.key := fun t ht =>
    lt_of_le_of_ne (not_lt.1 (hhi t ht)) (hnew t (List.mem_append_right _ ht)).symm
  obtain ⟨s', hrun, hs'⟩ := h.insert_spliced hlo hhi' height
  exact ⟨s', lo, hi, rfl, hrun, h.of_spliced hlo hhi' height hs'⟩

end Rep

/-! ## Sequences of inserts -/

section InsertAll

variable [LinearOrder Key]

/-- Key and height of a tower. -/
def Tower.entry (t : Tower Key) : Key × Nat := (t.key, t.height)

/-- Key and height of an `Insert` call. -/
def opEntry (op : Key × Height) : Key × Nat := (op.1, op.2.1)

/-- By induction on the calls: the towers are the old ones and one for each call. -/
theorem Rep.insertAll : ∀ {ops : List (Key × Height)} {s : SkipList Key} {T : List (Tower Key)},
    Rep s T → (T.map Tower.key ++ ops.map Prod.fst).Nodup →
    ∃ s' T', s.insertAll ops = .ok s' ∧ Rep s' T' ∧
      (T'.map Tower.entry).Perm (T.map Tower.entry ++ ops.map opEntry)
  | [], s, T, h, _ => ⟨s, T, rfl, h, by simp⟩
  | (key, height) :: ops, s, T, h, hnd => by
    have hnew : ∀ t ∈ T, t.key ≠ key := fun t ht e =>
      (List.nodup_append.1 hnd).2.2 t.key (List.mem_map_of_mem ht) key (by simp) e
    obtain ⟨s₁, lo, hi, rfl, hrun, h₁⟩ := h.insert hnew height
    have hkeys : ((lo ++ ⟨s.arena.length, key, height.1⟩ :: hi).map Tower.key ++
        ops.map Prod.fst).Nodup := by
      refine (List.Perm.nodup_iff ?_).1 hnd
      simp only [List.map_append, List.map_cons, List.append_assoc, List.cons_append]
      exact List.Perm.append_left _ List.perm_middle
    obtain ⟨s', T', hrun', h', hperm⟩ := Rep.insertAll h₁ hkeys
    refine ⟨s', T', ?_, h', hperm.trans ?_⟩
    · unfold SkipList.insertAll at hrun' ⊢
      rw [List.foldlM_cons]
      show (s.insert key height).bind _ = _
      rw [hrun]
      exact hrun'
    · simp only [List.map_append, List.map_cons, List.append_assoc, List.cons_append]
      exact List.Perm.append_left _ List.perm_middle.symm

omit [LinearOrder Key] in
/-- Towers for the operations have their keys. -/
theorem keys_perm {T : List (Tower Key)} {ops : List (Key × Height)}
    (hperm : (T.map Tower.entry).Perm (ops.map opEntry)) :
    (T.map Tower.key).Perm (ops.map Prod.fst) := by
  have hmap := hperm.map Prod.fst
  rw [List.map_map, List.map_map] at hmap
  exact hmap

/-- Every sequence of inserts of distinct keys runs to its end, in a list for their towers. -/
theorem Rep.of_insertAll (anyKey : Key) {ops : List (Key × Height)}
    (hne : (ops.map Prod.fst).Nodup) :
    ∃ s T, (SkipList.new anyKey).insertAll ops = .ok s ∧ Rep s T ∧
      (T.map Tower.entry).Perm (ops.map opEntry) := by
  have hnd : (([] : List (Tower Key)).map Tower.key ++ ops.map Prod.fst).Nodup := hne
  simpa using (Rep.new anyKey).insertAll hnd

/-- The chain of level `i` from `head_` visits exactly `l`. -/
def SkipList.Chain (s : SkipList Key) (i : Nat) (l : List Nat) : Prop :=
  Walk (s.link? i) (some s.head) (s.head :: l)

/-- The list `s`, whose nodes in chain order are those of `T`, is the set of the keys of
`ops`. -/
structure IsSetOf (s : SkipList Key) (T : List (Tower Key)) (ops : List (Key × Height)) : Prop where
  /-- the nodes hold the inserted keys and have the drawn heights -/
  node : ∀ t ∈ T, s.shape t.node = some (t.key, t.height)
  entries : (T.map Tower.entry).Perm (ops.map opEntry)
  sorted : T.Pairwise fun t u => t.key < u.key
  /-- level 0 links all of them, level `i` those higher than `i` -/
  bottom : s.Chain 0 (T.map Tower.node)
  level : ∀ i < kMaxHeight, s.Chain i (levelNodes i T)
  above : ∀ i < kMaxHeight, s.maxHeight ≤ i → s.Chain i []
  /-- no search runs into a missing or unset link, or runs for ever -/
  findGreaterOrEqual : ∀ key prev, ∃ r, s.findGreaterOrEqual key prev = .ok r
  findLessThan : ∀ key, s.findLessThan key ≠ .error .link ∧ s.findLessThan key ≠ .error .fuel
  findLast : ∃ x, s.findLast = .ok x
  contains : ∀ key, s.contains key = .ok (decide (key ∈ ops.map Prod.fst))

theorem Rep.isSetOf {s : SkipList Key} {T : List (Tower Key)} {ops : List (Key × Height)}
    (h : Rep s T) (hperm : (T.map Tower.entry).Perm (ops.map opEntry)) : IsSetOf s T ops where
  node := fun t ht => h.shape_tower ht
  entries := hperm
  sorted := h.sorted
  bottom := by rw [← h.levelNodes_zero]; exact h.chain 0 (by decide)
  level := h.chain
  above := by
    intro i hi hmax
    have hnil : levelNodes i T = [] :=
      levelNodes_eq_nil fun t ht => (h.height t ht).2.trans hmax
    rw [← hnil]
    exact h.chain i hi
  findGreaterOrEqual := by
    intro key prev
    obtain ⟨lo, hi, rfl, hlo, hhi⟩ := split_lt h.sorted key
    exact ⟨_, h.findGreaterOrEqual_eq hlo hhi prev⟩
  findLessThan := by
    intro key
    rcases h.findLessThan_cases key with ⟨x, hx⟩ | hx <;> simp [hx]
  findLast := ⟨_, h.findLast_eq⟩
  contains := by
    intro key
    rw [h.contains_eq, Except.ok.injEq, decide_eq_decide]
    have hmem := (keys_perm hperm).mem_iff (a := key)
    simpa using hmem

/-- **`Insert` keeps the representation, and the list is the set of inserted keys.**  For every
sequence of `Insert` calls with distinct keys and every height drawn for each of them. -/
theorem insertAll_isSet (anyKey : Key) (ops : List (Key × Height))
    (hne : (ops.map Prod.fst).Nodup) :
    ∃ s T, (SkipList.new anyKey).insertAll ops = .ok s ∧ IsSetOf s T ops := by
  obtain ⟨s, T, hrun, h, hperm⟩ := Rep.of_insertAll anyKey hne
  exact ⟨s, T, hrun, h.isSetOf hperm⟩

/-- Three keys, inserted out of order, the tallest tower in the middle. -/
theorem insertAll_isSet_three :
    ([3, 1, 2] : List Nat).Nodup ∧
    ∃ s T, (SkipList.new 0).insertAll
      [(3, ⟨2, by decide⟩), (1, ⟨1, by decide⟩), (2, ⟨12, by decide⟩)] = .ok s ∧
      IsSetOf s T [(3, ⟨2, by decide⟩), (1, ⟨1, by decide⟩), (2, ⟨12, by decide⟩)] :=
  ⟨by decide, insertAll_isSet 0 [(3, ⟨2, by decide⟩), (1, ⟨1, by decide⟩), (2, ⟨12, by decide⟩)]
    (by decide)⟩

end InsertAll

end LevelDB
