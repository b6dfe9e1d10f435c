import LevelDB.SkipList.HalfLinked

/-!
# Searches find what was in before

A search stands at a tower that is linked on its level, and stays there in the right place when the
towers grow under it.

* `ReaderOk.grow`, `ReaderOk.step` — what holds of a search between two of its loads;
* `threadsOk_of_run` — every step of every thread keeps the list and all searches well formed;
* `searches_correct` — no search follows an unset link, and each one ends at the right node.
-/

set_option autoImplicit false

namespace LevelDB

open Linked

variable {Key : Type}

/-! ## Searches -/

section Search

variable [LinearOrder Key] {s : SkipList Key} {T T' lo hi : List (Tower Key)} {target : Key}
  {head x level : Nat}

/-- The towers of `T` are among those of `T'`, and at least as high there. -/
def Grows (T T' : List (Tower Key)) : Prop :=
  ∀ t ∈ T, ∃ t' ∈ T', t'.node = t.node ∧ t'.key = t.key ∧ t.height ≤ t'.height

omit [LinearOrder Key] in
theorem Grows.refl (T : List (Tower Key)) : Grows T T := fun t ht => ⟨t, ht, rfl, rfl, le_refl _⟩

/-- How many towers are not above a key. -/
def upTo (T : List (Tower Key)) (key : Key) : Nat :=
  (T.filter fun t => decide (t.key ≤ key)).length

theorem upTo_le_length (T : List (Tower Key)) (key : Key) : upTo T key ≤ T.length :=
  List.length_filter_le _ _

theorem upTo_grow (hsorted : T.Pairwise fun t u => t.key < u.key) (hgrows : Grows T T')
    (key : Key) : upTo T key ≤ upTo T' key := by
  have hnodup : ((T.filter fun t => decide (t.key ≤ key)).map Tower.key).Nodup :=
    ((hsorted.imp fun hlt => hlt.ne).map Tower.key fun _ _ hne => hne).sublist
      (List.filter_sublist.map Tower.key)
  have hsub : (T.filter fun t => decide (t.key ≤ key)).map Tower.key ⊆
      (T'.filter fun t => decide (t.key ≤ key)).map Tower.key := by
    intro k hk
    obtain ⟨t, ht, rfl⟩ := List.mem_map.mp hk
    obtain ⟨ht, hle⟩ := List.mem_filter.mp ht
    obtain ⟨t', ht', -, hkey, -⟩ := hgrows t ht
    rw [← hkey] at hle ⊢
    exact List.mem_map_of_mem (List.mem_filter.mpr ⟨ht', hle⟩)
  have hlen := (List.subperm_of_subset hnodup hsub).length_le
  rw [List.length_map, List.length_map] at hlen
  exact hlen

/-- A tower counts itself, on top of those that a smaller key counts. -/
theorem upTo_lt {t : Tower Key} {key : Key} (ht : t ∈ T) (hlt : key < t.key) :
    upTo T key < upTo T t.key := by
  have hsub : (T.filter fun u => decide (u.key ≤ key)).Sublist
      (T.filter fun u => decide (u.key ≤ t.key)) :=
    List.monotone_filter_right T fun u hu => by
      simpa using (of_decide_eq_true hu).trans hlt.le
  refine lt_of_le_of_ne hsub.length_le fun heq => ?_
  have hmem : t ∈ T.filter fun u => decide (u.key ≤ key) := by
    rw [hsub.eq_of_length heq]
    exact List.mem_filter.mpr ⟨ht, decide_eq_true (le_refl _)⟩
  exact absurd (of_decide_eq_true (List.mem_filter.mp hmem).2) (not_le.mpr hlt)

theorem upTo_pos {t : Tower Key} (ht : t ∈ T) : 0 < upTo T t.key :=
  List.length_pos_of_mem (List.mem_filter.mpr ⟨ht, decide_eq_true (le_refl _)⟩)

/-- A search stands at `head_`, or at a tower below its target that is linked on its level. It has
taken a load for each level that it left and for some of the towers up to there. -/
def StandsAt (head : Nat) (T : List (Tower Key)) (target : Key) (x level loads : Nat) : Prop :=
  level < kMaxHeight ∧
    (x = head ∧ loads + level ≤ kMaxHeight ∨
      ∃ t ∈ T, t.node = x ∧ level < t.height ∧ t.key < target ∧
        loads + level ≤ kMaxHeight + upTo T t.key)

/-- The node that a search for `target` owes when the keys `before` have to be found. -/
def Answers (T : List (Tower Key)) (target : Key) (before : List Key) : Ptr → Prop
  | none => ∀ k ∈ before, k < target
  | some n => ∃ t ∈ T, t.node = n ∧ target ≤ t.key ∧ ∀ k ∈ before, target ≤ k → t.key ≤ k

/-- What holds of a reader between two of its loads. -/
def ReaderOk (head : Nat) (T : List (Tower Key)) (r : Reader Key) : Prop :=
  (∀ k ∈ r.before, ∃ t ∈ T, t.key = k) ∧
    match r.search with
    | .called _ => r.loads = 0
    | .visiting x level _ => StandsAt head T r.target x level r.loads
    | .returned next _ => Answers T r.target r.before next ∧ r.loads ≤ kMaxHeight + T.length + 1
    | .faulted _ => False

omit [LinearOrder Key] in
theorem Grows.length_le (hnodup : (T.map Tower.node).Nodup) (hgrows : Grows T T') :
    T.length ≤ T'.length := by
  have hsub : T.map Tower.node ⊆ T'.map Tower.node := by
    intro n hn
    obtain ⟨t, ht, rfl⟩ := List.mem_map.mp hn
    obtain ⟨t', ht', hnode, -⟩ := hgrows t ht
    rw [← hnode]
    exact List.mem_map_of_mem ht'
  have hlen := (List.subperm_of_subset hnodup hsub).length_le
  rw [List.length_map, List.length_map] at hlen
  exact hlen

/-- Growing towers take nothing from a reader. -/
theorem ReaderOk.grow (hrep : PartRep s T) {r : Reader Key} (h : ReaderOk head T r)
    (hgrows : Grows T T') : ReaderOk head T' r := by
  obtain ⟨hbefore, hsearch⟩ := h
  refine ⟨?_, ?_⟩
  · intro k hk
    obtain ⟨t, ht, rfl⟩ := hbefore k hk
    obtain ⟨t', ht', -, hkey, -⟩ := hgrows t ht
    exact ⟨t', ht', hkey⟩
  · cases hr : r.search with
    | called =>
      rw [hr] at hsearch
      exact hsearch
    | visiting x level prev =>
      rw [hr] at hsearch
      refine ⟨hsearch.1, hsearch.2.imp_right ?_⟩
      rintro ⟨t, ht, hnode, hlevel, hkey, hloads⟩
      obtain ⟨t', ht', hnode', hkey', hheight⟩ := hgrows t ht
      have hupTo := upTo_grow hrep.sorted hgrows t.key
      rw [← hkey'] at hkey hupTo hloads
      exact ⟨t', ht', hnode'.trans hnode, hlevel.trans_le hheight, hkey, by omega⟩
    | returned next prev =>
      rw [hr] at hsearch
      have hlen := hgrows.length_le (List.nodup_cons.mp hrep.nodup).2
      refine ⟨?_, hsearch.2.trans (by omega)⟩
      have hsearch := hsearch.1
      cases next with
      | none => exact hsearch
      | some n =>
        obtain ⟨t, ht, hnode, hkey, hleast⟩ := hsearch
        obtain ⟨t', ht', hnode', hkey', -⟩ := hgrows t ht
        exact ⟨t', ht', hnode'.trans hnode, hkey'.symm ▸ hkey, hkey'.symm ▸ hleast⟩
    | faulted =>
      rw [hr] at hsearch
      exact hsearch

theorem StandsAt.loads_le {loads : Nat} (h : StandsAt head T target x level loads) :
    loads + level ≤ kMaxHeight + T.length := by
  rcases h.2 with ⟨-, hloads⟩ | ⟨t, -, -, -, -, hloads⟩
  · omega
  · have hlen := upTo_le_length T t.key
    omega

/-- Where a search stands, seen in the towers below its target; each tower that lies before it
leaves room for a load. -/
theorem StandsAt.split (hrep : PartRep s (lo ++ hi)) {loads : Nat}
    (h : StandsAt s.head (lo ++ hi) target x level loads) (hhi : ∀ t ∈ hi, ¬ t.key < target) :
    ∃ pre rest, lo = pre ++ rest ∧ x = lastNode s.head pre ∧
      (∀ t, pre.getLast? = some t → level < t.height) ∧
      ∀ t ∈ rest, loads + level < kMaxHeight + upTo (lo ++ hi) t.key := by
  rcases h.2 with ⟨rfl, hloads⟩ | ⟨t, ht, rfl, hlevel, hkey, hloads⟩
  · refine ⟨[], lo, rfl, rfl, fun _ ht => (by cases ht), fun t ht => ?_⟩
    have hpos := upTo_pos (List.mem_append_left hi ht)
    omega
  · have hlo : t ∈ lo := (List.mem_append.mp ht).resolve_right fun hmem => hhi t hmem hkey
    obtain ⟨front, rest, rfl⟩ := List.append_of_mem hlo
    refine ⟨front ++ [t], rest, by simp, (lastNode_concat _ _ _).symm, ?_, fun u hu => ?_⟩
    · intro u hu
      rw [List.getLast?_concat, Option.some.injEq] at hu
      rw [← hu]
      exact hlevel
    · have hsorted := (List.pairwise_append.mp (List.pairwise_append.mp hrep.sorted).1).2.1
      have hmem : u ∈ front ++ t :: rest ++ hi := by simp [hu]
      have hlt := upTo_lt hmem (List.rel_of_pairwise_cons hsorted hu)
      omega

/-- At the end of level 0 a search has its answer. -/
theorem PartRep.answers (h : PartRep s (lo ++ hi)) (hlo : ∀ t ∈ lo, t.key < target)
    (hhi : ∀ t ∈ hi, ¬ t.key < target) {before : List Key}
    (hbefore : ∀ k ∈ before, ∃ t ∈ lo ++ hi, t.key = k) :
    Answers (lo ++ hi) target before (hi.map Tower.node).head? := by
  have hlater : ∀ k ∈ before, target ≤ k → ∃ t ∈ hi, t.key = k := by
    intro k hk hle
    obtain ⟨t, ht, rfl⟩ := hbefore k hk
    refine ⟨t, (List.mem_append.mp ht).resolve_left fun hmem => ?_, rfl⟩
    exact absurd (hlo t hmem) (not_lt.mpr hle)
  cases hi with
  | nil =>
    intro k hk
    by_contra hge
    obtain ⟨t, ht, -⟩ := hlater k hk (not_lt.mp hge)
    cases ht
  | cons u hi =>
    refine ⟨u, List.mem_append_right _ List.mem_cons_self, rfl,
      not_lt.mp (hhi u List.mem_cons_self), ?_⟩
    intro k hk hle
    obtain ⟨t, ht, rfl⟩ := hlater k hk hle
    rcases List.mem_cons.mp ht with rfl | ht
    · exact le_refl _
    · exact (List.rel_of_pairwise_cons (List.pairwise_append.mp h.sorted).2.1 ht).le

/-- **A load of a reader**: it follows a link that is set, and what it finds is right. -/
theorem ReaderOk.step (hrep : PartRep s T) {r : Reader Key} (h : ReaderOk s.head T r)
    {search : Search} (hstep : r.search.step s r.target = some search) :
    ReaderOk s.head T { r with search, loads := r.loads + 1 } := by
  obtain ⟨hbefore, hsearch⟩ := h
  refine ⟨hbefore, ?_⟩
  cases hr : r.search with
  | called prev =>
    rw [hr] at hstep hsearch
    cases hstep
    have hmax := hrep.maxHeight
    have hloads : r.loads = 0 := hsearch
    refine ⟨by omega, Or.inl ⟨rfl, ?_⟩⟩
    show r.loads + 1 + (s.maxHeight - 1) ≤ kMaxHeight
    omega
  | visiting x level prev =>
    rw [hr] at hsearch hstep
    have hsearch : StandsAt s.head T r.target x level r.loads := hsearch
    obtain rfl := Option.some.inj hstep
    obtain ⟨lo, hi, rfl, hlo, hhi⟩ := split_lt hrep.sorted r.target
    obtain ⟨pre, rest, hsplit, rfl, htall, hroom⟩ := hsearch.split hrep hhi
    rcases hrep.look_step hsplit hsearch.1 htall (fun k => decide (k < r.target))
        (by simpa using hlo) (by simpa using hhi) with
      ⟨mid, t, rest', hrest, hlevel, hlook⟩ | ⟨hlook, -⟩
    · rw [hlook]
      have hmem : t ∈ rest := by
        rw [hrest]
        simp
      have ht : t ∈ lo := hsplit ▸ List.mem_append_right _ hmem
      refine ⟨hsearch.1, Or.inr ⟨t, List.mem_append_left _ ht, rfl, hlevel, hlo t ht, ?_⟩⟩
      have hlt := hroom t hmem
      show r.loads + 1 + level ≤ _
      omega
    · rw [hlook]
      have hloads := hsearch.loads_le
      cases level with
      | zero =>
        refine ⟨?_, ?_⟩
        · rw [hrep.leave_zero.2]
          exact hrep.answers hlo hhi hbefore
        · show r.loads + 1 ≤ _
          omega
      | succ level =>
        refine ⟨Nat.lt_of_succ_lt hsearch.1, hsearch.2.imp ?_ ?_⟩
        · rintro ⟨hhead, hloads⟩
          refine ⟨hhead, ?_⟩
          show r.loads + 1 + level ≤ _
          omega
        · rintro ⟨t, ht, hnode, hlevel, hkey, hloads⟩
          refine ⟨t, ht, hnode, Nat.lt_of_succ_lt hlevel, hkey, ?_⟩
          show r.loads + 1 + level ≤ _
          omega
  | returned =>
    rw [hr] at hstep
    cases hstep
  | faulted =>
    rw [hr] at hstep
    cases hstep

end Search

/-! ## All threads -/

section Threads

variable [LinearOrder Key] {s t : Threads Key} {T lo hi : List (Tower Key)} {key : Key}
  {height : Height} {prev : PrevArray}

/-- What holds between any two steps: the list has the towers `T`, among them those of all keys
whose insertion is over. -/
structure ThreadsOk (s : Threads Key) (T : List (Tower Key)) : Prop where
  rep : PartRep s.list T
  inserted : ∀ k ∈ s.inserted, ∃ t ∈ T, t.key = k
  inserter : InserterOk s.list s.inserted T s.inserter
  readers : ∀ r ∈ s.readers, ReaderOk s.list.head T r

theorem ThreadsOk.start (anyKey : Key) : ThreadsOk (Threads.start anyKey) [] where
  rep := (Rep.new anyKey).partRep
  inserted := fun _ hk => by cases hk
  inserter := fun _ ht => by cases ht
  readers := fun _ hr => by cases hr

/-- `NewNode` and the start of the linking loop, in a list whose `max_height_` is large enough. -/
theorem ThreadsOk.link (hrep : PartRep s.list T) (hinserted : ∀ k ∈ s.inserted, ∃ t ∈ T, t.key = k)
    (hreaders : ∀ r ∈ s.readers, ReaderOk s.list.head T r)
    (hknown : ∀ t ∈ lo ++ hi, t.key ∈ s.inserted) (hbetween : Between T lo hi key)
    (hhigh : height.1 ≤ s.list.maxHeight) (hprev : Recorded s.list lo prev height) :
    ThreadsOk (s.link key height prev) T where
  rep := hrep.newNode key height
  inserted := hinserted
  inserter := ⟨lo, hi, hknown, Linking.start hrep hbetween hhigh hprev⟩
  readers := hreaders

theorem ThreadsOk.searched (h : ThreadsOk s T) {x : Ptr} {prev : Option PrevArray}
    (hpc : s.inserter = .searching key height (.returned x prev)) :
    ThreadsOk (s.checkFresh key height x prev) T := by
  have hinserter := h.inserter
  rw [hpc] at hinserter
  obtain ⟨lo, hi, hknown, hbetween, rfl, p, rfl, hp⟩ := hinserter
  have hrep := h.rep
  rw [hbetween.towers] at hrep
  unfold Threads.checkFresh
  dsimp only
  rw [if_pos (hrep.freshCheck_eq hbetween.above)]
  split
  · rename_i hhigher
    exact ⟨h.rep, h.inserted, ⟨lo, hi, hknown, hbetween, hhigher, hp⟩, h.readers⟩
  · rename_i hlow
    have hhigh : height.1 ≤ s.list.maxHeight := Nat.le_of_not_lt hlow
    exact ThreadsOk.link h.rep h.inserted h.readers hknown hbetween hhigh
      fun j hj => hp j (hj.trans_le hhigh)

/-- `max_height_` is raised before any link exists on the new levels. -/
theorem ThreadsOk.raised (h : ThreadsOk s T) (hpc : s.inserter = .storing key height prev) :
    ThreadsOk ({ s with list := { s.list with maxHeight := height } }.link key height prev) T := by
  have hinserter := h.inserter
  rw [hpc] at hinserter
  obtain ⟨lo, hi, hknown, hbetween, hlt, hp⟩ := hinserter
  have hrep : PartRep { s.list with maxHeight := height.1 } T :=
    h.rep.congr rfl ⟨hlt.le, height.2.2⟩ (fun _ _ => rfl) fun _ _ _ => rfl
  exact ThreadsOk.link hrep h.inserted h.readers hknown hbetween (le_refl _) hp

variable {x i : Nat}

/-- **A store of a link.** -/
theorem ThreadsOk.published (h : ThreadsOk s T)
    (hpc : s.inserter = .publishing key height prev x i) (hstep : s.write = some t) :
    ∃ T', Grows T T' ∧ ThreadsOk t T' := by
  have hinserter := h.inserter
  rw [hpc] at hinserter
  obtain ⟨lo, hi, hknown, hlinking, hx⟩ := hinserter
  have hmax : i < kMaxHeight :=
    hlinking.level.trans_le (hlinking.high.trans h.rep.maxHeight.2)
  obtain ⟨k, slots, hshape, hslot⟩ : ∃ k slots,
      s.list.shape (lastAt s.list.head i lo) = some (k, slots) ∧ i < slots := by
    have hrep := h.rep
    rw [hlinking.towers, List.append_assoc] at hrep
    exact hrep.lastAt_slot hmax
  obtain ⟨list, hset, hstored⟩ := SkipList.setNext_spec hshape hslot (some x)
  unfold Threads.write at hstep
  rw [hpc] at hstep
  dsimp only at hstep
  rw [hlinking.prev i hlinking.level] at hstep
  dsimp only at hstep
  rw [hset] at hstep
  obtain rfl := Option.some.inj hstep
  have hgrows : Grows T (lo ++ partTower x key (i + 1) ++ hi) := by
    intro t ht
    rw [hlinking.towers, List.mem_append, List.mem_append] at ht
    rcases ht with (ht | ht) | ht
    · exact ⟨t, by simp [ht], rfl, rfl, le_refl _⟩
    · obtain ⟨rfl, -⟩ := mem_partTower ht
      exact ⟨⟨x, key, i + 1⟩, by simp [partTower], rfl, rfl, Nat.le_succ i⟩
    · exact ⟨t, by simp [ht], rfl, rfl, le_refl _⟩
  have hrep := h.rep.publish hlinking hx hstored
  have hinserted : ∀ k ∈ s.inserted, ∃ t ∈ lo ++ partTower x key (i + 1) ++ hi, t.key = k := by
    intro k hk
    obtain ⟨t, ht, rfl⟩ := h.inserted k hk
    obtain ⟨t', ht', -, hkey, -⟩ := hgrows t ht
    exact ⟨t', ht', hkey⟩
  have hreaders : ∀ r ∈ s.readers, ReaderOk list.head (lo ++ partTower x key (i + 1) ++ hi) r := by
    intro r hr
    rw [hstored.head]
    exact (h.readers r hr).grow h.rep hgrows
  refine ⟨lo ++ partTower x key (i + 1) ++ hi, hgrows, ?_⟩
  unfold Threads.stored
  dsimp only
  split
  · rename_i hmore
    refine ⟨hrep, hinserted, ⟨lo, hi, hknown, ?_⟩, hreaders⟩
    have hnext := hlinking.stored hstored
    exact { hnext with towers := rfl, level := hmore }
  · -- the last level: the insertion is over
    refine ⟨hrep, ?_, ?_, hreaders⟩
    · intro k hk
      rcases List.mem_append.mp hk with hk | hk
      · exact hinserted k hk
      · rw [List.mem_singleton.mp hk]
        exact ⟨⟨x, key, i + 1⟩, by simp [partTower], rfl⟩
    · intro t ht
      rw [List.mem_append, List.mem_append] at ht
      rcases ht with (ht | ht) | ht
      · exact List.mem_append_left _ (hknown t (List.mem_append_left _ ht))
      · obtain ⟨rfl, -⟩ := mem_partTower ht
        exact List.mem_append_right _ List.mem_cons_self
      · exact List.mem_append_left _ (hknown t (List.mem_append_right _ ht))

/-- **Every load and store of the inserter.** -/
theorem ThreadsOk.write (h : ThreadsOk s T) (hstep : s.write = some t) :
    ∃ T', Grows T T' ∧ ThreadsOk t T' := by
  have hinserter := h.inserter
  cases hpc : s.inserter with
  | idle =>
    unfold Threads.write at hstep
    rw [hpc] at hstep
    cases hstep
  | searching key height search =>
    rw [hpc] at hinserter
    obtain ⟨lo, hi, hknown, hbetween, hsearch⟩ := hinserter
    refine ⟨T, .refl T, ?_⟩
    cases search with
    | returned x prev =>
      unfold Threads.write at hstep
      rw [hpc] at hstep
      obtain rfl := Option.some.inj hstep
      exact h.searched hpc
    | called prev =>
      unfold Threads.write at hstep
      rw [hpc] at hstep
      obtain ⟨search, hnext, rfl⟩ := Option.map_eq_some_iff.mp hstep
      exact ⟨h.rep, h.inserted,
        ⟨lo, hi, hknown, hbetween, hsearch.step h.rep hbetween hnext⟩, h.readers⟩
    | visiting x level prev =>
      unfold Threads.write at hstep
      rw [hpc] at hstep
      obtain ⟨search, hnext, rfl⟩ := Option.map_eq_some_iff.mp hstep
      exact ⟨h.rep, h.inserted,
        ⟨lo, hi, hknown, hbetween, hsearch.step h.rep hbetween hnext⟩, h.readers⟩
    | faulted => exact absurd hsearch id
  | raising key height prev =>
    rw [hpc] at hinserter
    obtain ⟨lo, hi, hknown, hbetween, hlt, hp⟩ := hinserter
    unfold Threads.write at hstep
    rw [hpc] at hstep
    obtain rfl := Option.some.inj hstep
    have hrep := h.rep
    rw [hbetween.towers] at hrep
    exact ⟨T, .refl T, h.rep, h.inserted, ⟨lo, hi, hknown, hbetween, hlt, hp.patch hrep⟩,
      h.readers⟩
  | storing key height prev =>
    unfold Threads.write at hstep
    rw [hpc] at hstep
    obtain rfl := Option.some.inj hstep
    exact ⟨T, .refl T, h.raised hpc⟩
  | loading key height prev x i =>
    rw [hpc] at hinserter
    obtain ⟨lo, hi, hknown, hlinking⟩ := hinserter
    have hlink : s.list.link? i (lastAt s.list.head i lo) = some (levelNodes i hi).head? := by
      have hrep := h.rep
      rw [hlinking.towers] at hrep
      refine hrep.link?_lastAt (hlinking.level.trans_le (hlinking.high.trans h.rep.maxHeight.2)) ?_
      rw [levelNodes_partTower, if_neg (Nat.lt_irrefl i)]
    unfold Threads.write at hstep
    rw [hpc] at hstep
    dsimp only at hstep
    rw [hlinking.prev i hlinking.level, Option.bind_some, hlink] at hstep
    obtain rfl := Option.some.inj hstep
    exact ⟨T, .refl T, h.rep, h.inserted, ⟨lo, hi, hknown, hlinking, rfl⟩, h.readers⟩
  | setting key height prev x i next =>
    rw [hpc] at hinserter
    obtain ⟨lo, hi, hknown, hlinking, rfl⟩ := hinserter
    obtain ⟨list, hset, hstored⟩ := SkipList.setNext_spec hlinking.shape hlinking.level
      (levelNodes i hi).head?
    unfold Threads.write at hstep
    rw [hpc] at hstep
    dsimp only at hstep
    rw [hset] at hstep
    obtain rfl := Option.some.inj hstep
    refine ⟨T, .refl T, h.rep.set hlinking hstored, h.inserted,
      ⟨lo, hi, hknown, hlinking.stored hstored, ?_⟩, ?_⟩
    · show list.link? i x = _
      rw [hstored.link?, if_pos ⟨rfl, rfl⟩]
    · intro r hr
      show ReaderOk list.head T r
      rw [hstored.head]
      exact h.readers r hr
  | publishing key height prev x i => exact h.published hpc hstep
  | faulted =>
    rw [hpc] at hinserter
    exact absurd hinserter id

/-- **Every step of every thread.** -/
theorem ThreadsOk.step (h : ThreadsOk s T) {l : ThreadStep Key} (hnew : InsertsNew s l)
    (hstep : s.step l = some t) : ∃ T', Grows T T' ∧ ThreadsOk t T' := by
  cases l with
  | insert key height =>
    unfold Threads.step at hstep
    dsimp only at hstep
    split at hstep
    · rename_i hpc
      obtain rfl := Option.some.inj hstep
      have hinserter := h.inserter
      rw [hpc] at hinserter
      have hknown : ∀ t ∈ T, t.key ∈ s.inserted := hinserter
      obtain ⟨lo, hi, rfl, hlo, hhi⟩ := split_lt h.rep.sorted key
      have habove : ∀ t ∈ hi, key < t.key := by
        intro t ht
        refine lt_of_le_of_ne (not_lt.mp (hhi t ht)) ?_
        rintro rfl
        exact hnew (hknown t (List.mem_append_right _ ht))
      have hbetween : Between (lo ++ hi) lo hi key := ⟨rfl, hlo, habove⟩
      exact ⟨lo ++ hi, .refl _, h.rep, h.inserted, ⟨lo, hi, hknown, hbetween, _, rfl⟩, h.readers⟩
    · cases hstep
  | write => exact h.write hstep
  | find target =>
    obtain rfl := Option.some.inj hstep
    refine ⟨T, .refl T, h.rep, h.inserted, h.inserter, ?_⟩
    intro r hr
    rcases List.mem_append.mp hr with hr | hr
    · exact h.readers r hr
    · rw [List.mem_singleton.mp hr]
      exact ⟨h.inserted, rfl⟩
  | read i =>
    obtain ⟨r, hr, hstep⟩ := Option.bind_eq_some_iff.mp hstep
    obtain ⟨search, hsearch, rfl⟩ := Option.map_eq_some_iff.mp hstep
    refine ⟨T, .refl T, h.rep, h.inserted, h.inserter, ?_⟩
    intro r' hr'
    rcases List.mem_or_eq_of_mem_set hr' with hr' | rfl
    · exact h.readers r' hr'
    · exact (h.readers r (List.mem_of_getElem? hr)).step h.rep hsearch

theorem threadsOk_of_run {s t : Threads Key} (run : Transition.Run Threads.step InsertsNew s t)
    (h : ∃ T, ThreadsOk s T) : ∃ T, ThreadsOk t T :=
  run.invariant (I := fun s => ∃ T, ThreadsOk s T)
    (fun ⟨_, hok⟩ hnew hstep => (hok.step hnew hstep).imp fun _ => And.right) h

/-! ## What searches return -/

/-- A search for the target returned `next`: no key that was in before it began lies between them,
and the node is linked at level 0. -/
def ReturnsRight (s : SkipList Key) (r : Reader Key) : Ptr → Prop
  | none => ∀ k ∈ r.before, k < r.target
  | some n => ∃ nodes nd, s.Chain 0 nodes ∧ n ∈ nodes ∧ s.arena[n]? = some nd ∧
      r.target ≤ nd.key ∧ ∀ k ∈ r.before, r.target ≤ k → nd.key ≤ k

theorem ReaderOk.returnsRight {s : SkipList Key} (hrep : PartRep s T) {r : Reader Key} {next : Ptr}
    {prev : Option PrevArray} (h : ReaderOk s.head T r) (hr : r.search = .returned next prev) :
    ReturnsRight s r next := by
  have hsearch := h.2
  rw [hr] at hsearch
  have hanswers := hsearch.1
  cases next with
  | none => exact hanswers
  | some n =>
    obtain ⟨t, ht, rfl, hkey, hleast⟩ := hanswers
    obtain ⟨nd, hnd, hndkey, -⟩ := hrep.node t ht
    refine ⟨levelNodes 0 T, nd, hrep.chain 0 (by decide), ?_, hnd, hndkey ▸ hkey, hndkey ▸ hleast⟩
    rw [levelNodes_zero_of fun t ht => (hrep.height t ht).1]
    exact List.mem_map_of_mem ht

/-- The number of loads that a search has taken. -/
theorem ReaderOk.loads_le {s : SkipList Key} (hrep : PartRep s T) {r : Reader Key}
    (h : ReaderOk s.head T r) : r.loads ≤ kMaxHeight + s.arena.length := by
  have hlen := hrep.length_lt
  have hsearch := h.2
  cases hr : r.search with
  | called =>
    rw [hr] at hsearch
    have hloads : r.loads = 0 := hsearch
    omega
  | visiting x level prev =>
    rw [hr] at hsearch
    have hloads := StandsAt.loads_le hsearch
    omega
  | returned =>
    rw [hr] at hsearch
    have hloads := hsearch.2
    omega
  | faulted =>
    rw [hr] at hsearch
    exact absurd hsearch id

/-- **Searches stay correct in the middle of inserts**: no load of any thread follows a link that is
unset; a search ends after a number of loads that the nodes allocated so far bound, and until then
it can go on; and it returns the right node. -/
theorem searches_correct (anyKey : Key) {t : Threads Key}
    (run : Transition.Run Threads.step InsertsNew (Threads.start anyKey) t) :
    (∀ fault, t.inserter ≠ .faulted fault) ∧
      ∀ (i : Nat) (r : Reader Key), t.readers[i]? = some r →
        (∀ fault, r.search ≠ .faulted fault) ∧
        r.loads ≤ kMaxHeight + t.list.arena.length ∧
        ((∃ u, t.step (.read i) = some u) ∨
          ∃ next prev, r.search = .returned next prev ∧ ReturnsRight t.list r next) := by
  obtain ⟨T, h⟩ := threadsOk_of_run run ⟨[], .start anyKey⟩
  refine ⟨fun fault hpc => ?_, fun i r hr => ?_⟩
  · have hinserter := h.inserter
    rw [hpc] at hinserter
    exact hinserter
  have hreader := h.readers r (List.mem_of_getElem? hr)
  have hread : ∀ search, r.search.step t.list r.target = some search →
      ∃ u, t.step (.read i) = some u := by
    intro search hstep
    show ∃ u, t.readers[i]?.bind _ = some u
    rw [hr, Option.bind_some, hstep]
    exact ⟨_, rfl⟩
  refine ⟨fun fault hsearch => ?_, hreader.loads_le h.rep, ?_⟩
  · have hok := hreader.2
    rw [hsearch] at hok
    exact hok
  cases hsearch : r.search with
  | called prev => exact Or.inl (hread _ (by rw [hsearch]; rfl))
  | visiting x level prev => exact Or.inl (hread _ (by rw [hsearch]; rfl))
  | returned next prev => exact Or.inr ⟨next, prev, rfl, hreader.returnsRight h.rep hsearch⟩
  | faulted =>
    have hok := hreader.2
    rw [hsearch] at hok
    exact absurd hok id

end Threads

/-! ## A search between two stores -/

/-- `InsertsNew`, decided. -/
def insertsNew (s : Threads Nat) : ThreadStep Nat → Bool
  | .insert key _ => decide (key ∉ s.inserted)
  | _ => true

theorem insertsNew_sound (s : Threads Nat) (l : ThreadStep Nat) (h : insertsNew s l = true) :
    InsertsNew s l := by
  cases l with
  | insert key height =>
    have hnew : key ∉ s.inserted := of_decide_eq_true h
    exact hnew
  | _ => trivial

/-- The key 5 is in; the tower of 3 is linked on level 0 and not yet on level 1, and `max_height_`
is raised already, when a search for 2 runs. -/
def searchedHalfway : List (ThreadStep Nat) :=
  .insert 5 ⟨1, by decide⟩ :: List.replicate 6 .write ++
    .insert 3 ⟨2, by decide⟩ :: List.replicate 9 .write ++ .find 2 :: List.replicate 3 (.read 0)

theorem searches_correct_halfway :
    ∃ t, Transition.Run Threads.step InsertsNew (Threads.start 0) t ∧
      ∃ r, t.readers[0]? = some r ∧ r.before = [5] ∧
        ∃ prev, r.search = .returned (some 2) prev ∧ ReturnsRight t.list r (some 2) := by
  obtain ⟨t, ht, r, hr, hbefore, hsearch⟩ : ∃ t, Transition.exec
      (fun s l => if insertsNew s l then Threads.step s l else none) searchedHalfway
      (Threads.start 0) = some t ∧ ∃ r, t.readers[0]? = some r ∧ r.before = [5] ∧
        r.search = .returned (some 2) none := ⟨_, rfl, _, rfl, rfl, rfl⟩
  have run := Transition.Run.of_checked insertsNew_sound ht
  refine ⟨t, run, r, hr, hbefore, none, hsearch, ?_⟩
  obtain ⟨-, -, hends⟩ := (searches_correct 0 run).2 0 r hr
  rcases hends with ⟨u, hstep⟩ | ⟨next, prev, hreturned, hright⟩
  · obtain ⟨r', hr', hstep⟩ := Option.bind_eq_some_iff.mp hstep
    obtain rfl : r = r' := Option.some.inj (hr.symm.trans hr')
    rw [hsearch] at hstep
    cases hstep
  · rw [hsearch] at hreturned
    cases hreturned
    exact hright

end LevelDB
