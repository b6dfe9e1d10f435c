import LevelDB.SkipList.ConcurrentSearch

/-!
# Iterators in the middle of inserts

An iterator reads while another thread inserts: `Seek` is a search, `SeekToFirst` and `Next` are one
load each of a link on level 0. Keys are only ever added, so an iterator that goes forward meets all
keys that were in when it began, each once and in order.

* `Cursor`, `IteratorThreads` — the iterators beside the threads that search and insert;
* `CursorOk` — the keys met so far, against the towers;
* `CursorOk.grow`, `CursorOk.step` — other threads keep it, and so does the iterator itself;
* `scan_correct` — every iterator, in every run;
* `contains_correct` — what `Contains` returns.
-/

set_option autoImplicit false

namespace LevelDB

open Linked

variable {Key : Type}

/-! ## The model -/

/-- Where an iterator is. -/
inductive CursorPc (Key : Type)
  /-- in `Seek` -/
  | seeking (r : Reader Key)
  /-- before the load of `SeekToFirst` -/
  | first
  /-- at a node, before the load of `Next` -/
  | standing (x : Nat)
  /-- not `Valid()` any more -/
  | ended
  | faulted (fault : Fault)

/-- An iterator that goes forward from `target`, or from the first key. `before` are the keys whose
insertion was over when it began, `visited` the keys that `key()` has shown. -/
structure Cursor (Key : Type) where
  target : Option Key
  before : List Key
  pc : CursorPc Key
  visited : List Key := []

structure IteratorThreads (Key : Type) where
  threads : Threads Key
  cursors : List (Cursor Key) := []

inductive ScanStep (Key : Type)
  | thread (l : ThreadStep Key)
  | seek (target : Key)
  | seekToFirst
  | next (i : Nat)

section Model

variable [LinearOrder Key]

/-- `node_` gets a value. -/
def Cursor.land (c : Cursor Key) (s : SkipList Key) : Option Ptr → Cursor Key
  | none => { c with pc := .faulted .link }
  | some none => { c with pc := .ended }
  | some (some x) =>
    match s.arena[x]? with
    | none => { c with pc := .faulted .link }
    | some nd => { c with pc := .standing x, visited := c.visited ++ [nd.key] }

/-- The next load of an iterator. -/
def Cursor.step (s : SkipList Key) (c : Cursor Key) : Option (Cursor Key) :=
  match c.pc with
  | .seeking r =>
    match r.search with
    | .returned next _ => some (c.land s (some next))
    | .faulted e => some { c with pc := .faulted e }
    | search => (search.step s r.target).map fun search =>
      { c with pc := .seeking { r with search, loads := r.loads + 1 } }
  | .first => some (c.land s (s.link? 0 s.head))
  | .standing x => some (c.land s (s.link? 0 x))
  | _ => none

def IteratorThreads.step (s : IteratorThreads Key) : ScanStep Key → Option (IteratorThreads Key)
  | .thread l => (s.threads.step l).map fun threads => { s with threads }
  | .seek target => some { s with
      cursors := s.cursors ++ [{
        target := some target, before := s.threads.inserted
        pc := .seeking { target, before := s.threads.inserted } }] }
  | .seekToFirst => some { s with
      cursors := s.cursors ++ [{
        target := none, before := s.threads.inserted, pc := .first }] }
  | .next i => s.cursors[i]?.bind fun c => (c.step s.threads.list).map fun c =>
      { s with cursors := s.cursors.set i c }

/-- The inserter inserts keys that are new. -/
def ScansNew (s : IteratorThreads Key) : ScanStep Key → Prop
  | .thread l => InsertsNew s.threads l
  | _ => True

/-- The keys that an iterator is to meet. -/
def Cursor.Wants (c : Cursor Key) (k : Key) : Prop := ∀ target, c.target = some target → target ≤ k

/-- What `Contains` makes of the node that its search returns. -/
def Reader.contains (s : SkipList Key) (r : Reader Key) : Option Bool :=
  match r.search with
  | .returned none _ => some false
  | .returned (some x) _ => (s.arena[x]?).map fun nd => decide (nd.key = r.target)
  | _ => none

/-- The key that the inserter is about to insert. -/
def Inserter.key? : Inserter Key → Option Key
  | .searching key _ _ => some key
  | .raising key _ _ => some key
  | .storing key _ _ => some key
  | .loading key _ _ _ _ => some key
  | .setting key _ _ _ _ _ => some key
  | .publishing key _ _ _ _ => some key
  | _ => none

end Model

/-! ## What an iterator has met -/

section Cursor

variable [LinearOrder Key] {s : SkipList Key} {T T' lo hi : List (Tower Key)} {head : Nat}
  {c c' : Cursor Key}

/-- What an iterator owes at the place where it is. -/
def Cursor.PlaceOk (head : Nat) (T : List (Tower Key)) (c : Cursor Key) : CursorPc Key → Prop
  | .seeking r => c.visited = [] ∧ c.target = some r.target ∧ r.before = c.before ∧
      ReaderOk head T r
  | .first => c.visited = [] ∧ c.target = none
  | .standing x => ∃ t ∈ T, t.node = x ∧ c.visited.getLast? = some t.key ∧
      ∀ k ∈ c.before, c.Wants k → k ≤ t.key → k ∈ c.visited
  | .ended => ∀ k ∈ c.before, c.Wants k → k ∈ c.visited
  | .faulted _ => False

structure CursorOk (head : Nat) (T : List (Tower Key)) (c : Cursor Key) : Prop where
  before : ∀ k ∈ c.before, ∃ t ∈ T, t.key = k
  visited : ∀ k ∈ c.visited, c.Wants k ∧ ∃ t ∈ T, t.key = k
  increasing : c.visited.Pairwise (· < ·)
  place : c.PlaceOk head T c.pc

omit [LinearOrder Key] in
theorem Grows.key (hgrows : Grows T T') {k : Key} (h : ∃ t ∈ T, t.key = k) :
    ∃ t ∈ T', t.key = k := by
  obtain ⟨t, ht, rfl⟩ := h
  obtain ⟨t', ht', -, hkey, -⟩ := hgrows t ht
  exact ⟨t', ht', hkey⟩

/-- **Growing towers take nothing from an iterator.** -/
theorem CursorOk.grow (hrep : PartRep s T) (h : CursorOk head T c) (hgrows : Grows T T') :
    CursorOk head T' c := by
  refine ⟨fun k hk => hgrows.key (h.before k hk),
    fun k hk => (h.visited k hk).imp_right hgrows.key, h.increasing, ?_⟩
  have hplace := h.place
  cases hpc : c.pc with
  | seeking r =>
    rw [hpc] at hplace
    obtain ⟨hvisited, htarget, hbefore, hreader⟩ := hplace
    exact ⟨hvisited, htarget, hbefore, hreader.grow hrep hgrows⟩
  | standing x =>
    rw [hpc] at hplace
    obtain ⟨t, ht, hnode, hlast, hall⟩ := hplace
    obtain ⟨t', ht', hnode', hkey', -⟩ := hgrows t ht
    exact ⟨t', ht', hnode'.trans hnode, hkey' ▸ hlast, hkey' ▸ hall⟩
  | _ =>
    rw [hpc] at hplace
    exact hplace

/-- What a link may lead to: the first tower behind all that was visited, or the end. -/
def Cursor.Leads (c : Cursor Key) (T : List (Tower Key)) : Ptr → Prop
  | none => ∀ k ∈ c.before, c.Wants k → k ∈ c.visited
  | some x => ∃ t ∈ T, t.node = x ∧ c.Wants t.key ∧ (∀ k ∈ c.visited, k < t.key) ∧
      ∀ k ∈ c.before, c.Wants k → k ∈ c.visited ∨ t.key ≤ k

/-- **An iterator lands** on the next key. -/
theorem CursorOk.land (hrep : PartRep s T) (h : CursorOk head T c) {next : Ptr}
    (hnext : c.Leads T next) : CursorOk head T (c.land s (some next)) := by
  cases next with
  | none => exact ⟨h.before, h.visited, h.increasing, hnext⟩
  | some x =>
    obtain ⟨t, ht, rfl, hwants, hlater, hall⟩ := hnext
    obtain ⟨nd, hnd, hkey, -⟩ := hrep.node t ht
    unfold Cursor.land
    simp only [hnd]
    refine ⟨h.before, fun k hk => ?_, ?_, t, ht, rfl, ?_, fun k hk hwant hle => ?_⟩
    · rcases List.mem_append.mp hk with hk | hk
      · exact h.visited k hk
      · rw [List.mem_singleton.mp hk, hkey]
        exact ⟨hwants, t, ht, rfl⟩
    · refine List.pairwise_append.mpr ⟨h.increasing, List.pairwise_singleton _ _, ?_⟩
      intro k hk k' hk'
      rw [List.mem_singleton.mp hk', hkey]
      exact hlater k hk
    · rw [List.getLast?_concat, hkey]
    · rcases hall k hk hwant with hold | hge
      · exact List.mem_append_left _ hold
      · rw [le_antisymm hle hge, ← hkey]
        exact List.mem_append_right _ List.mem_cons_self

/-- `FindGreaterOrEqual` leads to the first key that the iterator wants. -/
theorem CursorOk.leads_seek {r : Reader Key} (hvisited : c.visited = [])
    (htarget : c.target = some r.target) (hbefore : r.before = c.before) {next : Ptr}
    (hanswers : Answers T r.target r.before next) : c.Leads T next := by
  have hwants : ∀ k, c.Wants k ↔ r.target ≤ k := by
    intro k
    unfold Cursor.Wants
    rw [htarget]
    exact ⟨fun h => h _ rfl, fun h target heq => Option.some.inj heq ▸ h⟩
  rw [hbefore] at hanswers
  cases next with
  | none =>
    intro k hk hwant
    exact absurd ((hwants k).mp hwant) (not_le.mpr (hanswers k hk))
  | some x =>
    obtain ⟨t, ht, hnode, hge, hleast⟩ := hanswers
    refine ⟨t, ht, hnode, (hwants _).mpr hge, ?_, fun k hk hwant => ?_⟩
    · rw [hvisited]
      exact fun k hk => absurd hk List.not_mem_nil
    · exact Or.inr (hleast k hk ((hwants k).mp hwant))

/-- A link on level 0 leads to the next tower. -/
theorem PartRep.link_zero (h : PartRep s (lo ++ hi)) :
    s.link? 0 (lastNode s.head lo) = some (hi.map Tower.node).head? := by
  have hheight : ∀ t ∈ lo ++ hi, 0 < t.height := fun t ht => (h.height t ht).1
  have hlast : lastAt s.head 0 lo = lastNode s.head lo :=
    lastAt_of_tall fun t ht => hheight t (List.mem_append_left _ (List.mem_of_getLast? ht))
  have hsplit : PartRep s (lo ++ [] ++ hi) := by
    rw [List.append_nil]
    exact h
  rw [← hlast, hsplit.link?_lastAt (by decide) rfl,
    levelNodes_zero_of fun t ht => hheight t (List.mem_append_right _ ht)]

/-- From behind the towers `lo`, all of which have been dealt with. -/
theorem CursorOk.leads_next (hrep : PartRep s (lo ++ hi)) (h : CursorOk head (lo ++ hi) c)
    (hlater : ∀ k ∈ c.visited, ∀ u ∈ hi, k < u.key) (hwants : ∀ u ∈ hi, c.Wants u.key)
    (hlo : ∀ t ∈ lo, t.key ∈ c.before → c.Wants t.key → t.key ∈ c.visited) :
    c.Leads (lo ++ hi) (hi.map Tower.node).head? := by
  have hrest : ∀ k ∈ c.before, c.Wants k → k ∈ c.visited ∨ ∃ u ∈ hi, u.key = k := by
    intro k hk hwant
    obtain ⟨t, ht, rfl⟩ := h.before k hk
    rcases List.mem_append.mp ht with ht | ht
    · exact Or.inl (hlo t ht hk hwant)
    · exact Or.inr ⟨t, ht, rfl⟩
  cases hi with
  | nil =>
    intro k hk hwant
    rcases hrest k hk hwant with hold | ⟨u, hu, -⟩
    · exact hold
    · cases hu
  | cons u hi =>
    refine ⟨u, List.mem_append_right _ List.mem_cons_self, rfl, hwants u List.mem_cons_self,
      fun k hk => hlater k hk u List.mem_cons_self, fun k hk hwant => ?_⟩
    rcases hrest k hk hwant with hold | ⟨v, hv, rfl⟩
    · exact Or.inl hold
    · right
      rcases List.mem_cons.mp hv with rfl | hv
      · exact le_refl _
      · exact (List.rel_of_pairwise_cons (List.pairwise_append.mp hrep.sorted).2.1 hv).le

/-- **A load of an iterator.** -/
theorem CursorOk.step (hrep : PartRep s T) (h : CursorOk s.head T c) (hstep : c.step s = some c') :
    CursorOk s.head T c' := by
  have hplace := h.place
  unfold Cursor.step at hstep
  split at hstep
  · rename_i r hpc
    rw [hpc] at hplace
    obtain ⟨hvisited, htarget, hbefore, hreader⟩ := hplace
    have hseeks : ∀ {search : Search}, r.search.step s r.target = some search →
        CursorOk s.head T
          { c with pc := .seeking { r with search, loads := r.loads + 1 } } := by
      intro search hsearch
      refine ⟨h.before, h.visited, h.increasing, hvisited, htarget, hbefore, ?_⟩
      exact hreader.step hrep hsearch
    split at hstep
    · rename_i next prev hreturned
      obtain rfl := Option.some.inj hstep
      have hanswers := hreader.2
      rw [hreturned] at hanswers
      exact h.land hrep (CursorOk.leads_seek hvisited htarget hbefore hanswers.1)
    · rename_i e hfaulted
      have hfaults := hreader.2
      rw [hfaulted] at hfaults
      exact absurd hfaults id
    · obtain ⟨search, hsearch, rfl⟩ := Option.map_eq_some_iff.mp hstep
      exact hseeks hsearch
  · rename_i hpc
    rw [hpc] at hplace
    obtain ⟨hvisited, htarget⟩ := hplace
    obtain rfl := Option.some.inj hstep
    have hlink : s.link? 0 s.head = some (T.map Tower.node).head? :=
      @PartRep.link_zero Key _ s [] T hrep
    rw [hlink]
    refine h.land hrep (@CursorOk.leads_next Key _ s [] T s.head c hrep h ?_ ?_ nofun)
    · rw [hvisited]
      exact fun k hk => absurd hk List.not_mem_nil
    · intro u _ target heq
      rw [htarget] at heq
      cases heq
  · rename_i x hpc
    rw [hpc] at hplace
    obtain ⟨t, ht, rfl, hlast, hall⟩ := hplace
    obtain rfl := Option.some.inj hstep
    obtain ⟨lo, hi, rfl⟩ := List.append_of_mem ht
    -- everything that was visited is at or before the tower where the iterator stands
    have hle : ∀ k ∈ c.visited, k ≤ t.key := by
      intro k hk
      obtain ⟨front, hfront⟩ := List.getLast?_eq_some_iff.mp hlast
      have hincreasing := h.increasing
      rw [hfront] at hk hincreasing
      rcases List.mem_append.mp hk with hk | hk
      · exact ((List.pairwise_append.mp hincreasing).2.2 k hk t.key List.mem_cons_self).le
      · exact le_of_eq (List.mem_singleton.mp hk)
    have hwants : c.Wants t.key := (h.visited _ (List.mem_of_getLast? hlast)).1
    have hsplit : lo ++ t :: hi = lo ++ [t] ++ hi := by simp
    rw [hsplit] at hrep h ⊢
    have hafter : ∀ u ∈ hi, t.key < u.key := fun u hu =>
      (List.pairwise_append.mp hrep.sorted).2.2 t (List.mem_append_right _ List.mem_cons_self) u hu
    have hbefore : ∀ u ∈ lo ++ [t], u.key ≤ t.key := by
      intro u hu
      rcases List.mem_append.mp hu with hu | hu
      · have hsorted := (List.pairwise_append.mp hrep.sorted).1
        exact ((List.pairwise_append.mp hsorted).2.2 u hu t List.mem_cons_self).le
      · rw [List.mem_singleton.mp hu]
    have hlink : s.link? 0 t.node = some (hi.map Tower.node).head? := by
      have hnode := lastNode_concat s.head lo t
      rw [← hnode]
      exact hrep.link_zero
    rw [hlink]
    refine h.land hrep (h.leads_next hrep (fun k hk u hu => (hle k hk).trans_lt (hafter u hu))
      (fun u hu target htarget => (hwants target htarget).trans (hafter u hu).le)
      fun u hu hk hwant => hall u.key hk hwant (hbefore u hu))
  · cases hstep

end Cursor

/-! ## All threads -/

section Threads

variable [LinearOrder Key] {s t : Threads Key} {T : List (Tower Key)}

omit [LinearOrder Key] in
theorem setNext_head {s s' : SkipList Key} {x n : Nat} {p : Ptr} (h : s.setNext x n p = .ok s') :
    s'.head = s.head := by
  unfold SkipList.setNext at h
  split at h
  · cases h
  · split at h
    · cases h
      rfl
    · cases h

theorem checkFresh_head (key : Key) (height : Height) (x : Ptr) (prev : Option PrevArray) :
    (s.checkFresh key height x prev).list.head = s.list.head := by
  unfold Threads.checkFresh
  split
  · rfl
  · split
    · split
      · rfl
      · rfl
    · rfl

/-- `head_` is never stored to. -/
theorem head_of_step {l : ThreadStep Key} (h : s.step l = some t) : t.list.head = s.list.head := by
  cases l with
  | insert key height =>
    unfold Threads.step at h
    dsimp only at h
    split at h
    · cases h
      rfl
    · cases h
  | write =>
    have h : s.write = some t := h
    unfold Threads.write at h
    split at h
    · cases h
      exact checkFresh_head _ _ _ _
    · obtain ⟨search, -, rfl⟩ := Option.map_eq_some_iff.mp h
      rfl
    · cases h
      rfl
    · cases h
      rfl
    · split at h
      · cases h
        rfl
      · cases h
        rfl
    · cases h
      unfold Threads.stored
      split
      · rfl
      · rename_i list hset
        exact setNext_head hset
    · split at h
      · cases h
        rfl
      · cases h
        unfold Threads.stored
        split
        · rfl
        · rename_i list hset
          split
          · exact setNext_head hset
          · exact setNext_head hset
    · cases h
  | find target =>
    cases h
    rfl
  | read i =>
    obtain ⟨r, -, h⟩ := Option.bind_eq_some_iff.mp h
    obtain ⟨search, -, rfl⟩ := Option.map_eq_some_iff.mp h
    rfl

/-- The towers are those of the keys that are in, and of the one that is being inserted. -/
theorem ThreadsOk.known (h : ThreadsOk s T) {u : Tower Key} (hu : u ∈ T) :
    u.key ∈ s.inserted ∨ s.inserter.key? = some u.key := by
  have hinserter := h.inserter
  -- while a tower is being linked, it is the only one that is not in
  have hlinking : ∀ {lo hi : List (Tower Key)} {key : Key} {height : Nat} {prev : PrevArray}
      {x i : Nat}, (∀ t ∈ lo ++ hi, t.key ∈ s.inserted) →
      Linking s.list T lo hi key height prev x i → u.key ∈ s.inserted ∨ key = u.key := by
    intro lo hi key height prev x i hknown hlink
    rw [hlink.towers, List.mem_append, List.mem_append] at hu
    rcases hu with (hu | hu) | hu
    · exact Or.inl (hknown u (List.mem_append_left _ hu))
    · rw [(mem_partTower hu).1]
      exact Or.inr rfl
    · exact Or.inl (hknown u (List.mem_append_right _ hu))
  cases hpc : s.inserter with
  | idle =>
    rw [hpc] at hinserter
    exact Or.inl (hinserter u hu)
  | searching key height search =>
    rw [hpc] at hinserter
    obtain ⟨lo, hi, hknown, hbetween, -⟩ := hinserter
    exact Or.inl (hknown u (hbetween.towers ▸ hu))
  | raising key height prev =>
    rw [hpc] at hinserter
    obtain ⟨lo, hi, hknown, hbetween, -⟩ := hinserter
    exact Or.inl (hknown u (hbetween.towers ▸ hu))
  | storing key height prev =>
    rw [hpc] at hinserter
    obtain ⟨lo, hi, hknown, hbetween, -⟩ := hinserter
    exact Or.inl (hknown u (hbetween.towers ▸ hu))
  | loading key height prev x i =>
    rw [hpc] at hinserter
    obtain ⟨lo, hi, hknown, hlink⟩ := hinserter
    exact (hlinking hknown hlink).imp_right (congrArg some)
  | setting key height prev x i next =>
    rw [hpc] at hinserter
    obtain ⟨lo, hi, hknown, hlink, -⟩ := hinserter
    exact (hlinking hknown hlink).imp_right (congrArg some)
  | publishing key height prev x i =>
    rw [hpc] at hinserter
    obtain ⟨lo, hi, hknown, hlink, -⟩ := hinserter
    exact (hlinking hknown hlink).imp_right (congrArg some)
  | faulted =>
    rw [hpc] at hinserter
    exact absurd hinserter id

/-- **`Contains`** finds every key that was in when it began, and no key that is neither in nor
being inserted. -/
theorem contains_correct (anyKey : Key)
    (run : Transition.Run Threads.step InsertsNew (Threads.start anyKey) t) {r : Reader Key}
    (hr : r ∈ t.readers) {next : Ptr} {prev : Option PrevArray}
    (hreturned : r.search = .returned next prev) :
    ∃ b, r.contains t.list = some b ∧ (r.target ∈ r.before → b = true) ∧
      (b = true → r.target ∈ t.inserted ∨ t.inserter.key? = some r.target) := by
  obtain ⟨T, h⟩ := threadsOk_of_run run ⟨[], .start anyKey⟩
  have hanswers := (h.readers r hr).2
  rw [hreturned] at hanswers
  have hanswers : Answers T r.target r.before next := hanswers.1
  unfold Reader.contains
  rw [hreturned]
  cases next with
  | none => exact ⟨false, rfl, fun hin => absurd (hanswers _ hin) (lt_irrefl _), nofun⟩
  | some x =>
    obtain ⟨u, hu, rfl, hge, hleast⟩ := hanswers
    obtain ⟨nd, hnd, hkey, -⟩ := h.rep.node u hu
    refine ⟨decide (nd.key = r.target), by simp only [hnd, Option.map_some], fun hin => ?_,
      fun hb => ?_⟩
    · exact decide_eq_true (hkey.trans (le_antisymm (hleast _ hin (le_refl _)) hge))
    · have heq : u.key = r.target := hkey.symm.trans (of_decide_eq_true hb)
      rw [← heq]
      exact h.known hu

/-! ## All iterators -/

/-- What holds between any two steps. -/
structure ScansOk (s : IteratorThreads Key) (T : List (Tower Key)) : Prop where
  threads : ThreadsOk s.threads T
  cursors : ∀ c ∈ s.cursors, CursorOk s.threads.list.head T c

theorem ScansOk.step {s t : IteratorThreads Key} (h : ScansOk s T) {l : ScanStep Key}
    (hnew : ScansNew s l) (hstep : s.step l = some t) : ∃ T', ScansOk t T' := by
  cases l with
  | thread l =>
    obtain ⟨threads, hthread, rfl⟩ := Option.map_eq_some_iff.mp hstep
    obtain ⟨T', hgrows, hthreads⟩ := h.threads.step hnew hthread
    refine ⟨T', hthreads, fun c hc => ?_⟩
    show CursorOk threads.list.head T' c
    rw [head_of_step hthread]
    exact (h.cursors c hc).grow h.threads.rep hgrows
  | seek target =>
    obtain rfl := Option.some.inj hstep
    refine ⟨T, h.threads, fun c hc => ?_⟩
    rcases List.mem_append.mp hc with hc | hc
    · exact h.cursors c hc
    · rw [List.mem_singleton.mp hc]
      exact ⟨h.threads.inserted, nofun, List.Pairwise.nil, rfl, rfl, rfl, h.threads.inserted, rfl⟩
  | seekToFirst =>
    obtain rfl := Option.some.inj hstep
    refine ⟨T, h.threads, fun c hc => ?_⟩
    rcases List.mem_append.mp hc with hc | hc
    · exact h.cursors c hc
    · rw [List.mem_singleton.mp hc]
      exact ⟨h.threads.inserted, nofun, List.Pairwise.nil, rfl, rfl⟩
  | next i =>
    obtain ⟨c, hc, hstep⟩ := Option.bind_eq_some_iff.mp hstep
    obtain ⟨c', hload, rfl⟩ := Option.map_eq_some_iff.mp hstep
    refine ⟨T, h.threads, fun c'' hc'' => ?_⟩
    rcases List.mem_or_eq_of_mem_set hc'' with hc'' | rfl
    · exact h.cursors c'' hc''
    · exact (h.cursors c (List.mem_of_getElem? hc)).step h.threads.rep hload

/-- What an iterator has shown is right: in order, nothing but keys that are in or being inserted,
and nothing left out between the keys that it has shown. -/
structure ScanRight (s : Threads Key) (c : Cursor Key) : Prop where
  noFault : ∀ fault, c.pc ≠ .faulted fault
  increasing : c.visited.Pairwise (· < ·)
  known : ∀ k ∈ c.visited, c.Wants k ∧ (k ∈ s.inserted ∨ s.inserter.key? = some k)
  upTo : ∀ k ∈ c.before, c.Wants k → ∀ k' ∈ c.visited, k ≤ k' → k ∈ c.visited
  complete : c.pc = .ended → ∀ k ∈ c.before, c.Wants k → k ∈ c.visited
  bounded : c.visited.length ≤ s.list.arena.length

theorem CursorOk.right (hthreads : ThreadsOk s T) {c : Cursor Key}
    (h : CursorOk s.list.head T c) : ScanRight s c := by
  have hplace := h.place
  refine ⟨fun fault hpc => ?_, h.increasing, fun k hk => ?_, fun k hk hwant k' hk' hle => ?_,
    fun hpc => ?_, ?_⟩
  · rw [hpc] at hplace
    exact hplace
  · obtain ⟨hwant, u, hu, rfl⟩ := h.visited k hk
    exact ⟨hwant, hthreads.known hu⟩
  · cases hpc : c.pc with
    | seeking r =>
      rw [hpc] at hplace
      rw [hplace.1] at hk'
      cases hk'
    | first =>
      rw [hpc] at hplace
      rw [hplace.1] at hk'
      cases hk'
    | standing x =>
      rw [hpc] at hplace
      obtain ⟨u, -, -, hlast, hall⟩ := hplace
      refine hall k hk hwant (hle.trans ?_)
      obtain ⟨front, hfront⟩ := List.getLast?_eq_some_iff.mp hlast
      have hincreasing := h.increasing
      rw [hfront] at hk' hincreasing
      rcases List.mem_append.mp hk' with hk' | hk'
      · exact ((List.pairwise_append.mp hincreasing).2.2 k' hk' u.key List.mem_cons_self).le
      · exact le_of_eq (List.mem_singleton.mp hk')
    | ended =>
      rw [hpc] at hplace
      exact hplace k hk hwant
    | faulted =>
      rw [hpc] at hplace
      exact absurd hplace id
  · rw [hpc] at hplace
    exact hplace
  · have hnodup : c.visited.Nodup := h.increasing.imp fun hlt => hlt.ne
    have hsub : c.visited ⊆ T.map Tower.key := by
      intro k hk
      obtain ⟨-, u, hu, rfl⟩ := h.visited k hk
      exact List.mem_map_of_mem hu
    have hlength := (List.subperm_of_subset hnodup hsub).length_le
    rw [List.length_map] at hlength
    exact hlength.trans hthreads.rep.length_lt.le

/-- An iterator that has not ended can go on. -/
theorem CursorOk.goes {s : SkipList Key} {c : Cursor Key} (h : CursorOk s.head T c)
    (hpc : c.pc ≠ .ended) : ∃ c', c.step s = some c' := by
  have hplace := h.place
  unfold Cursor.step
  cases hcase : c.pc with
  | seeking r =>
    cases hsearch : r.search with
    | _ =>
      dsimp only
      rw [hsearch]
      exact ⟨_, rfl⟩
  | first => exact ⟨_, rfl⟩
  | standing x => exact ⟨_, rfl⟩
  | ended => exact absurd hcase hpc
  | faulted =>
    rw [hcase] at hplace
    exact absurd hplace id

/-- **Iterators go forward correctly in the middle of inserts.** In every run with one inserter of
new keys, and any number of searches and iterators: no load of an iterator follows a link that is
unset; the keys it shows are strictly increasing, none lies before its target, each is in the list
or being inserted; it leaves out no key that was in when it began, neither between those that it has
shown nor, when it has ended, anywhere; and until then it can go on. -/
theorem scan_correct (anyKey : Key) {t : IteratorThreads Key}
    (run : Transition.Run IteratorThreads.step ScansNew { threads := Threads.start anyKey } t) :
    ∀ (i : Nat) (c : Cursor Key), t.cursors[i]? = some c →
      ScanRight t.threads c ∧ (c.pc = .ended ∨ ∃ u, t.step (.next i) = some u) := by
  obtain ⟨T, h⟩ := run.invariant (I := fun s => ∃ T, ScansOk s T)
    (fun ⟨_, hok⟩ hnew hstep => hok.step hnew hstep)
    ⟨[], .start anyKey, fun c hc => absurd hc List.not_mem_nil⟩
  intro i c hc
  have hcursor := h.cursors c (List.mem_of_getElem? hc)
  refine ⟨hcursor.right h.threads, ?_⟩
  by_cases hpc : c.pc = .ended
  · exact Or.inl hpc
  · obtain ⟨c', hload⟩ := hcursor.goes hpc
    refine Or.inr ⟨{ t with cursors := t.cursors.set i c' }, ?_⟩
    show t.cursors[i]?.bind _ = _
    rw [hc, Option.bind_some, hload, Option.map_some]

end Threads

/-! ## A scan between two inserts -/

/-- `ScansNew`, decided. -/
def scansNew (s : IteratorThreads Nat) : ScanStep Nat → Bool
  | .thread l => insertsNew s.threads l
  | _ => true

theorem scansNew_sound (s : IteratorThreads Nat) (l : ScanStep Nat) (h : scansNew s l = true) :
    ScansNew s l := by
  cases l with
  | thread l => exact insertsNew_sound s.threads l h
  | _ => trivial

theorem height_one : 0 < 1 ∧ 1 ≤ kMaxHeight := by decide

/-- The key 5 is in when an iterator seeks 2; 7 comes in while it stands at 5, and 3 behind it. -/
def scannedMeanwhile : List (ScanStep Nat) :=
  .thread (.insert 5 ⟨1, height_one⟩) :: List.replicate 6 (.thread .write) ++
    .seek 2 :: List.replicate 3 (.next 0) ++
    .thread (.insert 7 ⟨1, height_one⟩) :: List.replicate 7 (.thread .write) ++
    .thread (.insert 3 ⟨1, height_one⟩) :: List.replicate 6 (.thread .write) ++
    List.replicate 2 (.next 0)

theorem scan_correct_meanwhile :
    ∃ t, Transition.Run IteratorThreads.step ScansNew { threads := Threads.start 0 } t ∧
      t.threads.inserted = [5, 7, 3] ∧
      ∃ c, t.cursors[0]? = some c ∧ c.before = [5] ∧ c.visited = [5, 7] ∧
        ScanRight t.threads c ∧ (c.pc = .ended ∨ ∃ u, t.step (.next 0) = some u) := by
  obtain ⟨t, ht, hinserted, c, hc, hbefore, hvisited⟩ : ∃ t, Transition.exec
      (fun s l => if scansNew s l then IteratorThreads.step s l else none) scannedMeanwhile
      { threads := Threads.start 0 } = some t ∧ t.threads.inserted = [5, 7, 3] ∧
      ∃ c, t.cursors[0]? = some c ∧ c.before = [5] ∧ c.visited = [5, 7] :=
    ⟨_, rfl, rfl, _, rfl, rfl, rfl⟩
  have run := Transition.Run.of_checked scansNew_sound ht
  exact ⟨t, run, hinserted, c, hc, hbefore, hvisited, scan_correct 0 run 0 c hc⟩

/-- `Contains(3)` while the tower of 3 is linked on level 0 only. -/
theorem contains_correct_halfway :
    ∃ t, Transition.Run Threads.step InsertsNew (Threads.start 0) t ∧ t.inserted = [5] ∧
      ∃ r ∈ t.readers, r.contains t.list = some true ∧
        ∃ b, r.contains t.list = some b ∧ (r.target ∈ r.before → b = true) ∧
          (b = true → r.target ∈ t.inserted ∨ t.inserter.key? = some r.target) := by
  obtain ⟨t, ht, hinserted, r, hr, hcontains, hreturned⟩ : ∃ t, Transition.exec
      (fun s l => if insertsNew s l then Threads.step s l else none)
      (.insert 5 ⟨1, by decide⟩ :: List.replicate 6 .write ++
        .insert 3 ⟨2, by decide⟩ :: List.replicate 9 .write ++
        .find 3 :: List.replicate 3 (.read 0))
      (Threads.start 0) = some t ∧ t.inserted = [5] ∧ ∃ r, t.readers[0]? = some r ∧
        r.contains t.list = some true ∧ r.search = .returned (some 2) none :=
    ⟨_, rfl, rfl, _, rfl, rfl, rfl⟩
  have run := Transition.Run.of_checked insertsNew_sound ht
  have hmem := List.mem_of_getElem? hr
  exact ⟨t, run, hinserted, r, hmem, hcontains, contains_correct 0 run hmem hreturned⟩

end LevelDB
