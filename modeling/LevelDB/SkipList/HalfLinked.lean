import LevelDB.SkipList.Concurrent

/-!
# Half-linked towers

While an `Insert` links its tower from the bottom up, the tower takes part in the chains of the
levels done so far. Seen with that height the list is well formed between any two stores, and what
a search has found stays true when the towers grow.

* `Linking` — the linking loop of the inserter at level `i`;
* `PartRep.publish` — one more level of the tower is linked;
* `InserterOk` — what holds between any two steps of the inserter; its own search fills `prev` as
  the loop expects it (`InsertSearchOk.step`).
-/

set_option autoImplicit false

namespace LevelDB

open Linked

variable {Key : Type}

/-! ## The tower in the making -/

/-- The tower of a node that is linked on the levels below `i`. -/
def partTower (x : Nat) (key : Key) (i : Nat) : List (Tower Key) :=
  if i = 0 then [] else [⟨x, key, i⟩]

@[simp] theorem levelNodes_partTower (x : Nat) (key : Key) (i j : Nat) :
    levelNodes j (partTower x key i) = if j < i then [x] else [] := by
  unfold partTower
  by_cases hi : i = 0
  · simp [hi]
  · rw [if_neg hi, levelNodes_cons]
    rfl

theorem mem_partTower {x : Nat} {key : Key} {i : Nat} {t : Tower Key}
    (h : t ∈ partTower x key i) : t = ⟨x, key, i⟩ ∧ 0 < i := by
  unfold partTower at h
  split at h
  · cases h
  · exact ⟨List.mem_singleton.mp h, by omega⟩

section Rep

variable [LinearOrder Key] {s s' : SkipList Key} {T lo hi : List (Tower Key)}

namespace PartRep

theorem shape_tower (h : PartRep s T) {t : Tower Key} (ht : t ∈ T) :
    ∃ slots, s.shape t.node = some (t.key, slots) ∧ t.height ≤ slots := by
  obtain ⟨nd, hnd, hkey, hlen⟩ := h.node t ht
  exact ⟨_, SkipList.shape_eq_some.mpr ⟨nd, hnd, hkey, rfl⟩, hlen⟩

theorem shape_head (h : PartRep s T) : ∃ key, s.shape s.head = some (key, kMaxHeight) := by
  obtain ⟨nd, hnd, hlen⟩ := h.headNode
  exact ⟨nd.key, SkipList.shape_eq_some.mpr ⟨nd, hnd, rfl, hlen⟩⟩

omit [LinearOrder Key] in
theorem node_of_shape {t : Tower Key} {slots : Nat} (h : s.shape t.node = some (t.key, slots))
    (hlen : t.height ≤ slots) :
    ∃ nd, s.arena[t.node]? = some nd ∧ nd.key = t.key ∧ t.height ≤ nd.next.length := by
  obtain ⟨nd, hnd, hkey, rfl⟩ := SkipList.shape_eq_some.mp h
  exact ⟨nd, hnd, hkey, hlen⟩

omit [LinearOrder Key] in
theorem headNode_of_shape {key : Key} (h : s.shape s.head = some (key, kMaxHeight)) :
    ∃ nd, s.arena[s.head]? = some nd ∧ nd.next.length = kMaxHeight := by
  obtain ⟨nd, hnd, -, hlen⟩ := SkipList.shape_eq_some.mp h
  exact ⟨nd, hnd, hlen⟩

omit [LinearOrder Key] in
theorem level_subset {i : Nat} {n : Nat} (hn : n ∈ s.head :: levelNodes i T) :
    n ∈ s.head :: T.map Tower.node := Rep.mem_map_of_levelNodes hn

/-- What does not touch the links of the list keeps it. -/
theorem congr (h : PartRep s T) (hhead : s'.head = s.head)
    (hmax : s.maxHeight ≤ s'.maxHeight ∧ s'.maxHeight ≤ kMaxHeight)
    (hshape : ∀ n ∈ s.head :: T.map Tower.node, s'.shape n = s.shape n)
    (hlink : ∀ i, ∀ n ∈ s.head :: levelNodes i T, s'.link? i n = s.link? i n) : PartRep s' T where
  node := fun t ht => by
    obtain ⟨slots, hslots, hlen⟩ := h.shape_tower ht
    rw [← hshape _ (List.mem_cons_of_mem _ (List.mem_map_of_mem ht))] at hslots
    exact node_of_shape hslots hlen
  headNode := by
    obtain ⟨key, hkey⟩ := h.shape_head
    rw [← hshape _ List.mem_cons_self, ← hhead] at hkey
    exact headNode_of_shape hkey
  nodup := hhead ▸ h.nodup
  sorted := h.sorted
  height := fun t ht => ⟨(h.height t ht).1, (h.height t ht).2.trans hmax.1⟩
  maxHeight := ⟨h.maxHeight.1.trans_le hmax.1, hmax.2⟩
  chain := fun i hi => by
    rw [hhead]
    exact (h.chain i hi).congr (hlink i)

/-- The link that `Insert` loads at level `i`, behind the last tower of `lo`. -/
theorem link?_lastAt {mid : List (Tower Key)} (h : PartRep s (lo ++ mid ++ hi)) {i : Nat}
    (hi' : i < kMaxHeight) (hmid : levelNodes i mid = []) :
    s.link? i (lastAt s.head i lo) = some (levelNodes i hi).head? := by
  rw [List.append_assoc] at h
  obtain ⟨front, hfront, hwalk⟩ := h.chain_split hi'
  rw [levelNodes_append, hmid, List.nil_append] at hwalk
  exact hwalk.succ

/-- Where `Insert` stores its node, there is a slot. -/
theorem lastAt_slot (h : PartRep s (lo ++ hi)) {i : Nat} (hi' : i < kMaxHeight) :
    ∃ key slots, s.shape (lastAt s.head i lo) = some (key, slots) ∧ i < slots := by
  rcases List.mem_cons.mp (lastAt_mem s.head i lo) with heq | hmem
  · obtain ⟨key, hkey⟩ := h.shape_head
    rw [heq]
    exact ⟨key, _, hkey, hi'⟩
  · obtain ⟨t, ht, hnode, hlt⟩ := levelNodes_subset hmem
    obtain ⟨slots, hslots, hlen⟩ := h.shape_tower (List.mem_append_left _ ht)
    rw [← hnode]
    exact ⟨_, _, hslots, hlt.trans_le hlen⟩

end PartRep

/-- **The linking loop at level `i`**: the node `x` has its slots, is linked below level `i`, and
`prev` names the nodes behind which it belongs. -/
structure Linking (s : SkipList Key) (T lo hi : List (Tower Key)) (key : Key) (height : Nat)
    (prev : PrevArray) (x i : Nat) : Prop where
  towers : T = lo ++ partTower x key i ++ hi
  below : ∀ t ∈ lo, t.key < key
  above : ∀ t ∈ hi, key < t.key
  fresh : x ∉ s.head :: (lo ++ hi).map Tower.node
  shape : s.shape x = some (key, height)
  level : i < height
  high : height ≤ s.maxHeight
  prev : ∀ j < height, prev j = some (lastAt s.head j lo)

variable {key : Key} {height : Nat} {prev : PrevArray} {x i : Nat}

theorem Linking.levelNodes_self (h : Linking s T lo hi key height prev x i) :
    levelNodes i T = levelNodes i lo ++ levelNodes i hi := by
  rw [h.towers, levelNodes_append, levelNodes_append, levelNodes_partTower,
    if_neg (Nat.lt_irrefl i), List.append_nil]

/-- The node is not in the chain of the level that comes next. -/
theorem Linking.not_mem_level (h : Linking s T lo hi key height prev x i) :
    x ∉ s.head :: levelNodes i T := by
  rw [h.levelNodes_self, ← levelNodes_append]
  exact fun hmem => h.fresh (PartRep.level_subset hmem)

theorem Linking.lastAt_ne (h : Linking s T lo hi key height prev x i) :
    lastAt s.head i lo ≠ x := by
  rintro rfl
  refine h.fresh ?_
  rw [List.map_append, ← List.cons_append]
  exact List.mem_append_left _ (Rep.mem_map_of_levelNodes (lastAt_mem s.head i lo))

/-- **One more level is linked.** -/
theorem PartRep.publish (h : PartRep s T) (hlinking : Linking s T lo hi key height prev x i)
    (hx : s.link? i x = some (levelNodes i hi).head?)
    (hs' : SkipList.Stored s s' (lastAt s.head i lo) i (some x)) :
    PartRep s' (lo ++ partTower x key (i + 1) ++ hi) := by
  have hpart : partTower x key (i + 1) = [⟨x, key, i + 1⟩] := if_neg (Nat.succ_ne_zero i)
  have hmax : i < kMaxHeight :=
    hlinking.level.trans_le (hlinking.high.trans h.maxHeight.2)
  have hmem : ∀ t ∈ lo ++ [⟨x, key, i + 1⟩] ++ hi, t = ⟨x, key, i + 1⟩ ∨ t ∈ lo ++ hi := by
    intro t ht
    simp only [List.mem_append, List.mem_singleton] at ht ⊢
    grind
  have hold : ∀ t ∈ lo ++ hi, t ∈ T := by
    intro t ht
    rw [hlinking.towers]
    simp only [List.mem_append] at ht ⊢
    grind
  have hsub : (lo ++ hi).Sublist T := by
    rw [hlinking.towers, List.append_assoc]
    exact (List.sublist_append_right _ _).append_left _
  rw [hpart]
  constructor
  case node =>
    intro t ht
    rcases hmem t ht with rfl | ht
    · have hshape : s'.shape x = some (key, height) := by
        rw [hs'.shape]
        exact hlinking.shape
      exact node_of_shape (t := ⟨x, key, i + 1⟩) hshape hlinking.level
    · obtain ⟨slots, hslots, hlen⟩ := h.shape_tower (hold t ht)
      rw [← hs'.shape] at hslots
      exact node_of_shape hslots hlen
  case headNode =>
    obtain ⟨key, hkey⟩ := h.shape_head
    rw [← hs'.shape, ← hs'.head] at hkey
    exact headNode_of_shape hkey
  case nodup =>
    have hnodup : (s.head :: (lo ++ hi).map Tower.node).Nodup :=
      h.nodup.sublist ((hsub.map Tower.node).cons_cons s.head)
    have hperm : (s.head :: (lo ++ [(⟨x, key, i + 1⟩ : Tower Key)] ++ hi).map Tower.node).Perm
        (x :: s.head :: (lo ++ hi).map Tower.node) := by
      simp only [List.map_append, List.map_cons, List.append_assoc, List.singleton_append,
        ← List.cons_append]
      exact List.perm_middle
    rw [hs'.head, hperm.nodup_iff, List.nodup_cons]
    exact ⟨hlinking.fresh, hnodup⟩
  case sorted =>
    obtain ⟨hlo, hhi, hcross⟩ := List.pairwise_append.mp (h.sorted.sublist hsub)
    rw [List.append_assoc, List.singleton_append, List.pairwise_append, List.pairwise_cons]
    refine ⟨hlo, ⟨hlinking.above, hhi⟩, ?_⟩
    intro t ht u hu
    rcases List.mem_cons.mp hu with rfl | hu
    · exact hlinking.below t ht
    · exact hcross t ht u hu
  case height =>
    intro t ht
    rw [hs'.maxHeight]
    rcases hmem t ht with rfl | ht
    · exact ⟨Nat.succ_pos i, hlinking.level.trans_le hlinking.high⟩
    · exact h.height t (hold t ht)
  case maxHeight =>
    rw [hs'.maxHeight]
    exact h.maxHeight
  case chain =>
    intro j hj
    have hwalk := h.chain j hj
    rw [hs'.head]
    by_cases hji : j = i
    · -- the node is spliced in behind the last of `lo`
      subst hji
      have hmember : x ∉ s.head :: levelNodes j T := hlinking.not_mem_level
      have hnodup : (s.head :: levelNodes j T).Nodup :=
        h.nodup.sublist (List.Sublist.cons_cons _ (List.Sublist.map _ List.filter_sublist))
      obtain ⟨front, hfront⟩ := lastAt_split s.head j lo
      have hsplit : s.head :: levelNodes j T = front ++ lastAt s.head j lo :: levelNodes j hi := by
        rw [hlinking.levelNodes_self, ← List.cons_append, hfront, List.append_assoc]
        rfl
      have htarget : s.head :: levelNodes j (lo ++ [⟨x, key, j + 1⟩] ++ hi) =
          front ++ lastAt s.head j lo :: x :: levelNodes j hi := by
        rw [levelNodes_append, levelNodes_append, levelNodes_cons, if_pos (Nat.lt_succ_self j),
          levelNodes_nil, ← List.cons_append, ← List.cons_append, hfront]
        simp
      rw [hsplit] at hwalk hmember hnodup
      rw [htarget]
      refine Walk.insert hwalk ?_ ?_ ?_
      · rw [hs'.link?, if_pos ⟨rfl, rfl⟩]
      · rw [hs'.link?, if_neg fun heq => hlinking.lastAt_ne heq.1.symm, hx, hwalk.succ]
      · intro z hz
        rw [hs'.link?, if_neg]
        rintro ⟨rfl, -⟩
        rw [List.nodup_middle, List.nodup_cons] at hnodup
        exact hnodup.1 hz
    · -- the other chains, and their links, stay
      have hsame : levelNodes j (lo ++ [⟨x, key, i + 1⟩] ++ hi) = levelNodes j T := by
        have hiff : j < i + 1 ↔ j < i := by omega
        rw [hlinking.towers, ← hpart]
        simp only [levelNodes_append, levelNodes_partTower, hiff]
      rw [hsame]
      exact hwalk.congr fun z _ => by rw [hs'.link?, if_neg fun heq => hji heq.2]

end Rep

/-! ## The inserter -/

section Inserter

variable [LinearOrder Key] {s s' : SkipList Key} {T lo hi : List (Tower Key)} {inserted : List Key}
  {key : Key} {height : Height} {prev : PrevArray} {x i : Nat}

/-- The new key belongs between the towers `lo` and `hi`. -/
structure Between (T lo hi : List (Tower Key)) (key : Key) : Prop where
  towers : T = lo ++ hi
  below : ∀ t ∈ lo, t.key < key
  above : ∀ t ∈ hi, key < t.key

/-- On its levels `prev` names the last of `lo`. -/
def Recorded (s : SkipList Key) (lo : List (Tower Key)) (prev : PrevArray) (levels : Nat) : Prop :=
  ∀ j < levels, prev j = some (lastAt s.head j lo)

/-- What holds of the inserter's own search, which fills `prev` from the top. -/
def InsertSearchOk (s : SkipList Key) (lo hi : List (Tower Key)) : Search → Prop
  | .called prev => ∃ p, prev = some p
  | .visiting x level prev => level < s.maxHeight ∧
      (∃ pre rest, lo = pre ++ rest ∧ x = lastNode s.head pre ∧
        ∀ t, pre.getLast? = some t → level < t.height) ∧
      ∃ p, prev = some p ∧
        ∀ j, level < j → j < s.maxHeight → p j = some (lastAt s.head j lo)
  | .returned next prev => next = (hi.map Tower.node).head? ∧
      ∃ p, prev = some p ∧ Recorded s lo p s.maxHeight
  | .faulted _ => False

/-- What holds of the inserter between two of its loads and stores. -/
def InserterOk (s : SkipList Key) (inserted : List Key) (T : List (Tower Key)) :
    Inserter Key → Prop
  | .idle => ∀ t ∈ T, t.key ∈ inserted
  | .searching key _ search => ∃ lo hi, (∀ t ∈ lo ++ hi, t.key ∈ inserted) ∧
      Between T lo hi key ∧ InsertSearchOk s lo hi search
  | .raising key height prev => ∃ lo hi, (∀ t ∈ lo ++ hi, t.key ∈ inserted) ∧
      Between T lo hi key ∧ s.maxHeight < height.1 ∧ Recorded s lo prev s.maxHeight
  | .storing key height prev => ∃ lo hi, (∀ t ∈ lo ++ hi, t.key ∈ inserted) ∧
      Between T lo hi key ∧ s.maxHeight < height.1 ∧ Recorded s lo prev height
  | .loading key height prev x i => ∃ lo hi, (∀ t ∈ lo ++ hi, t.key ∈ inserted) ∧
      Linking s T lo hi key height prev x i
  | .setting key height prev x i next => ∃ lo hi, (∀ t ∈ lo ++ hi, t.key ∈ inserted) ∧
      Linking s T lo hi key height prev x i ∧ next = (levelNodes i hi).head?
  | .publishing key height prev x i => ∃ lo hi, (∀ t ∈ lo ++ hi, t.key ∈ inserted) ∧
      Linking s T lo hi key height prev x i ∧ s.link? i x = some (levelNodes i hi).head?
  | .faulted _ => False

/-- **A load of the inserter's search.** -/
theorem InsertSearchOk.step (hrep : PartRep s T) (hbetween : Between T lo hi key)
    {search search' : Search} (h : InsertSearchOk s lo hi search)
    (hstep : search.step s key = some search') :
    InsertSearchOk s lo hi search' := by
  have hmax := hrep.maxHeight
  obtain rfl := hbetween.towers
  cases search with
  | called prev =>
    cases hstep
    obtain ⟨p, rfl⟩ := h
    exact ⟨by omega, ⟨[], lo, rfl, rfl, fun t ht => by cases ht⟩, p, rfl,
      fun j hj hlt => by omega⟩
  | visiting x level prev =>
    obtain rfl := Option.some.inj hstep
    obtain ⟨hlevel, ⟨pre, rest, hsplit, rfl, htall⟩, p, rfl, hp⟩ := h
    have hhi : ∀ t ∈ hi, decide (t.key < key) = false := by
      simpa using fun t ht => (hbetween.above t ht).le
    rcases hrep.look_step hsplit (by omega) htall (fun k => decide (k < key))
        (by simpa using hbetween.below) hhi with
      ⟨mid, t, rest', hrest, ht, hlook⟩ | ⟨hlook, hlast⟩
    · rw [hlook]
      refine ⟨hlevel, ⟨pre ++ mid ++ [t], rest', ?_, (lastNode_concat _ _ _).symm, ?_⟩, p, rfl, hp⟩
      · rw [hsplit, hrest]
        simp
      · intro u hu
        rw [List.getLast?_concat, Option.some.injEq] at hu
        rw [← hu]
        exact ht
    · rw [hlook]
      have hrecord : ∀ j, level ≤ j → j < s.maxHeight →
          Function.update p level (some (lastNode s.head pre)) j = some (lastAt s.head j lo) := by
        intro j hj hlt
        by_cases heq : j = level
        · rw [heq, Function.update_self, hlast]
        · rw [Function.update_of_ne heq]
          exact hp j (by omega) hlt
      cases level with
      | zero => exact ⟨hrep.leave_zero.2, _, rfl, fun j hj => hrecord j (Nat.zero_le j) hj⟩
      | succ l =>
        refine ⟨by omega, ⟨pre, rest, hsplit, rfl, fun t ht => ?_⟩, _, rfl,
          fun j hj hlt => hrecord j hj hlt⟩
        have hheight := htall t ht
        omega
  | returned => cases hstep
  | faulted => cases hstep

/-- The levels above `max_height_` are empty, and `prev` gets `head_` there. -/
theorem Recorded.patch (hrep : PartRep s (lo ++ hi)) {levels : Nat}
    (h : Recorded s lo prev s.maxHeight) : Recorded s lo (s.patchPrev levels prev) levels := by
  intro j hj
  unfold SkipList.patchPrev
  by_cases hnew : s.maxHeight ≤ j
  · have hnil : levelNodes j lo = [] := levelNodes_eq_nil fun t ht =>
      (hrep.height t (List.mem_append_left _ ht)).2.trans hnew
    have hlast : lastAt s.head j lo = s.head := lastAt_append_short (l := []) hnil
    rw [if_pos ⟨hnew, hj⟩, hlast]
  · rw [if_neg fun hcond => hnew hcond.1]
    exact h j (Nat.lt_of_not_le hnew)

/-- A store of the inserter leaves the rest of its work as it is. -/
theorem Linking.stored {next : Ptr} {p n : Nat} (h : Linking s T lo hi key height prev x i)
    (hs' : SkipList.Stored s s' p n next) : Linking s' T lo hi key height prev x i where
  towers := h.towers
  below := h.below
  above := h.above
  fresh := by
    rw [hs'.head]
    exact h.fresh
  shape := by
    rw [hs'.shape]
    exact h.shape
  level := h.level
  high := by
    rw [hs'.maxHeight]
    exact h.high
  prev := by
    rw [hs'.head]
    exact h.prev

/-- A store to a slot of the new node that is not linked yet. -/
theorem PartRep.set (hrep : PartRep s T) (h : Linking s T lo hi key height prev x i) {next : Ptr}
    (hs' : SkipList.Stored s s' x i next) : PartRep s' T := by
  refine hrep.congr hs'.head ⟨by rw [hs'.maxHeight], by rw [hs'.maxHeight]; exact hrep.maxHeight.2⟩
    (fun n _ => by rw [hs'.shape]) ?_
  intro j n hn
  rw [hs'.link?, if_neg]
  rintro ⟨rfl, rfl⟩
  exact h.not_mem_level hn

/-- `NewNode` allocates outside of the list. -/
theorem PartRep.newNode (h : PartRep s T) (key : Key) (height : Nat) :
    PartRep (s.newNode key height).2 T := by
  refine h.congr rfl ⟨le_refl _, h.maxHeight.2⟩ ?_
    fun i n _ => SkipList.newNode_link? s key height i n
  intro n hn
  rw [SkipList.newNode_shape, if_neg (h.ne_fresh hn)]

/-- The linking loop begins. -/
theorem Linking.start (hrep : PartRep s T) (hbetween : Between T lo hi key)
    (hhigh : height.1 ≤ s.maxHeight) (hprev : Recorded s lo prev height) :
    Linking (s.newNode key height).2 T lo hi key height prev s.arena.length 0 where
  towers := by
    rw [hbetween.towers]
    unfold partTower
    simp
  below := hbetween.below
  above := hbetween.above
  fresh := fun hmem => hrep.ne_fresh (hbetween.towers ▸ hmem) rfl
  shape := by rw [SkipList.newNode_shape, if_pos rfl]
  level := height.2.1
  high := hhigh
  prev := hprev

end Inserter

end LevelDB
