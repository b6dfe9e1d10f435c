import LevelDB.SkipList.ConcurrentScan

/-!
# `FindLast` and `FindLessThan` in the middle of inserts

Both go down like `FindGreaterOrEqual`, but they move right for another reason and return the node
where they stopped. `FindLessThan` asserts at the head of its loop that it stands before its key,
and goes right onto the key itself when it meets it.

* `LastReader`, `LastThreads` — these calls beside the threads that search and insert;
* `LastSearch.step_descend` — a call that takes its steps alone is the loop of the sequential model;
* `LastOk.grow`, `LastOk.step` — what other threads and the call itself keep;
* `last_searches_correct` — every call in every run: where it returns, when its assertion fails.
-/

set_option autoImplicit false

namespace LevelDB

open Linked

variable {Key : Type}

/-! ## The model -/

/-- Where a call is. -/
inductive LastSearch
  /-- before `GetMaxHeight()` -/
  | called
  /-- before the assertion, and the load after it -/
  | visiting (x level : Nat)
  | returned (x : Nat)
  | faulted (fault : Fault)

/-- A call of `FindLessThan(key)`, or of `FindLast()` where there is no key. `before` are the keys
whose insertion was over when it began, `loads` counts its loads and a failed assertion. -/
structure LastReader (Key : Type) where
  key : Option Key
  before : List Key
  search : LastSearch := .called
  loads : Nat := 0

structure LastThreads (Key : Type) where
  threads : Threads Key
  finders : List (LastReader Key) := []

inductive LastStep (Key : Type)
  | thread (l : ThreadStep Key)
  | findLast
  | findLessThan (key : Key)
  | load (i : Nat)

section Model

variable [LinearOrder Key]

/-- Whether the search goes on to a node with the key `k`: `FindLast` goes on to any node,
`FindLessThan` unless `compare_(next->key, key) > 0`. -/
def goesTo : Option Key → Key → Bool
  | none, _ => true
  | some key, k => !decide (key < k)

/-- What is asserted at the head of the loop. -/
def asserted (s : SkipList Key) : Option Key → Nat → Bool
  | none, _ => true
  | some key, x => s.lessThanCheck key x

theorem findLast_eq_search (s : SkipList Key) : s.findLast =
    match s.search (goesTo none) (asserted s none) none with
    | .error e => .error e
    | .ok st => .ok st.x := rfl

theorem findLessThan_eq_search (s : SkipList Key) (key : Key) : s.findLessThan key =
    match s.search (goesTo (some key)) (asserted s (some key)) none with
    | .error e => .error e
    | .ok st => .ok st.x := rfl

/-- What a search does with what it loaded from `x` at `level`. -/
def LastSearch.continued (x level : Nat) : Except Fault SkipList.Look → LastSearch
  | .error e => .faulted e
  | .ok (.right n) => .visiting n level
  | .ok (.leave _) =>
    match level with
    | 0 => .returned x
    | l + 1 => .visiting x l

/-- The next load of a call. -/
def LastSearch.step (s : SkipList Key) (key : Option Key) : LastSearch → Option LastSearch
  | .called => some (.visiting s.head (s.maxHeight - 1))
  | .visiting x level =>
    if asserted s key x then some (.continued x level (s.look (goesTo key) x level))
    else some (.faulted .assertion)
  | _ => none

def LastThreads.step (s : LastThreads Key) : LastStep Key → Option (LastThreads Key)
  | .thread l => (s.threads.step l).map fun threads => { s with threads }
  | .findLast =>
    some { s with finders := s.finders ++ [{ key := none, before := s.threads.inserted }] }
  | .findLessThan key =>
    some { s with finders := s.finders ++ [{ key := some key, before := s.threads.inserted }] }
  | .load i => s.finders[i]?.bind fun r => (r.search.step s.threads.list r.key).map fun search =>
      { s with finders := s.finders.set i { r with search, loads := r.loads + 1 } }

/-- The inserter inserts keys that are new. -/
def FindsNew (s : LastThreads Key) : LastStep Key → Prop
  | .thread l => InsertsNew s.threads l
  | _ => True

/-- One more load of a call is one more pass of the sequential loop. -/
theorem LastSearch.step_descend (s : SkipList Key) (key : Option Key) (fuel x level : Nat) :
    (s.descend (goesTo key) (asserted s key) (fuel + 1) x level none).map SkipList.Stop.x =
      match LastSearch.step s key (.visiting x level) with
      | some (.visiting x' level') =>
        (s.descend (goesTo key) (asserted s key) fuel x' level' none).map SkipList.Stop.x
      | some (.returned x') => .ok x'
      | some (.faulted e) => .error e
      | _ => .error .fuel := by
  have hstep : LastSearch.step s key (.visiting x level) =
      if asserted s key x then some (.continued x level (s.look (goesTo key) x level))
      else some (.faulted .assertion) := rfl
  rw [hstep, SkipList.descend]
  by_cases hcheck : asserted s key x = true
  · rw [if_pos hcheck, if_pos hcheck]
    cases s.look (goesTo key) x level with
    | error e => rfl
    | ok l =>
      cases l with
      | right n => rfl
      | leave next =>
        cases level with
        | zero => rfl
        | succ l => rfl
  · rw [if_neg hcheck, if_neg hcheck]
    rfl

end Model

/-! ## One call -/

section Search

variable [LinearOrder Key] {s : SkipList Key} {T T' lo hi : List (Tower Key)}
  {goRight : Key → Bool} {head x level loads : Nat}

/-- A search stands at `head_`, or at a tower that it went on to and that is linked on its level. It
has taken a load for each level that it left and for some of the towers up to there. -/
def StandsIn (head : Nat) (T : List (Tower Key)) (goRight : Key → Bool) (x level loads : Nat) :
    Prop :=
  level < kMaxHeight ∧
    (x = head ∧ loads + level ≤ kMaxHeight ∨
      ∃ t ∈ T, t.node = x ∧ level < t.height ∧ goRight t.key = true ∧
        loads + level ≤ kMaxHeight + upTo T t.key)

theorem StandsIn.grow (hrep : PartRep s T) (h : StandsIn head T goRight x level loads)
    (hgrows : Grows T T') : StandsIn head T' goRight x level loads := by
  refine ⟨h.1, h.2.imp_right ?_⟩
  rintro ⟨t, ht, hnode, hlevel, hright, hloads⟩
  obtain ⟨t', ht', hnode', hkey', hheight⟩ := hgrows t ht
  have hupTo := upTo_grow hrep.sorted hgrows t.key
  rw [← hkey'] at hright hupTo hloads
  exact ⟨t', ht', hnode'.trans hnode, hlevel.trans_le hheight, hright, by omega⟩

theorem StandsIn.loads_le (h : StandsIn head T goRight x level loads) :
    loads + level ≤ kMaxHeight + T.length := by
  rcases h.2 with ⟨-, hloads⟩ | ⟨t, -, -, -, -, hloads⟩
  · omega
  · have hlen := upTo_le_length T t.key
    omega

/-- Where the search stands, seen in the towers that it goes on to; each tower that lies before it
leaves room for a load. -/
theorem StandsIn.split (hrep : PartRep s (lo ++ hi))
    (h : StandsIn s.head (lo ++ hi) goRight x level loads)
    (hhi : ∀ t ∈ hi, goRight t.key = false) :
    ∃ pre rest, lo = pre ++ rest ∧ x = lastNode s.head pre ∧
      (∀ t, pre.getLast? = some t → level < t.height) ∧
      ∀ t ∈ rest, loads + level < kMaxHeight + upTo (lo ++ hi) t.key := by
  rcases h.2 with ⟨rfl, hloads⟩ | ⟨t, ht, rfl, hlevel, hright, hloads⟩
  · refine ⟨[], lo, rfl, rfl, fun _ ht => (by cases ht), fun t ht => ?_⟩
    have hpos := upTo_pos (List.mem_append_left hi ht)
    omega
  · have hlo : t ∈ lo := by
      refine (List.mem_append.mp ht).resolve_right fun hmem => ?_
      rw [hhi t hmem] at hright
      cases hright
    obtain ⟨front, rest, rfl⟩ := List.append_of_mem hlo
    refine ⟨front ++ [t], rest, by simp, (lastNode_concat _ _ _).symm, ?_, fun u hu => ?_⟩
    · intro u hu
      rw [List.getLast?_concat, Option.some.injEq] at hu
      rw [← hu]
      exact hlevel
    · have hsorted := (List.pairwise_append.mp (List.pairwise_append.mp hrep.sorted).1).2.1
      have hmem : u ∈ front ++ t :: rest ++ hi := by simp [hu]
      have hlt := upTo_lt hmem (List.rel_of_pairwise_cons hsorted hu)
      omega

/-- A test that a search makes holds below every key at which it holds. -/
theorem goesTo_mono (key : Option Key) (a b : Key) (hlt : a < b) (hb : goesTo key b = true) :
    goesTo key a = true := by
  cases key with
  | none => rfl
  | some key =>
    have hle : b ≤ key := by simpa [goesTo] using hb
    simpa [goesTo] using hlt.le.trans hle

/-- The node that a call owes: the last one that it could go on to, before its key. -/
def Stops (head : Nat) (T : List (Tower Key)) (r : LastReader Key) (x : Nat) : Prop :=
  x = head ∧ (∀ k ∈ r.before, goesTo r.key k = false) ∨
    ∃ t ∈ T, t.node = x ∧ (∀ key, r.key = some key → t.key < key) ∧
      ∀ k ∈ r.before, goesTo r.key k = true → k ≤ t.key

/-- What holds of a call between two of its loads. -/
def LastOk (head : Nat) (T : List (Tower Key)) (r : LastReader Key) : Prop :=
  (∀ k ∈ r.before, ∃ t ∈ T, t.key = k) ∧
    match r.search with
    | .called => r.loads = 0
    | .visiting x level => StandsIn head T (goesTo r.key) x level r.loads
    | .returned x => Stops head T r x ∧ r.loads ≤ kMaxHeight + T.length + 1
    | .faulted fault => (fault = .assertion ∧ ∃ t ∈ T, r.key = some t.key) ∧
        r.loads ≤ kMaxHeight + T.length + 1

/-- Growing towers take nothing from a call. -/
theorem LastOk.grow (hrep : PartRep s T) {r : LastReader Key} (h : LastOk head T r)
    (hgrows : Grows T T') : LastOk head T' r := by
  obtain ⟨hbefore, hsearch⟩ := h
  have hlen := hgrows.length_le (List.nodup_cons.mp hrep.nodup).2
  refine ⟨fun k hk => hgrows.key (hbefore k hk), ?_⟩
  cases hr : r.search with
  | called =>
    rw [hr] at hsearch
    exact hsearch
  | visiting x level =>
    rw [hr] at hsearch
    exact StandsIn.grow hrep hsearch hgrows
  | returned x =>
    rw [hr] at hsearch
    refine ⟨hsearch.1.imp_right ?_, hsearch.2.trans (by omega)⟩
    rintro ⟨t, ht, hnode, hless, hlast⟩
    obtain ⟨t', ht', hnode', hkey', -⟩ := hgrows t ht
    exact ⟨t', ht', hnode'.trans hnode, hkey'.symm ▸ hless, hkey'.symm ▸ hlast⟩
  | faulted fault =>
    rw [hr] at hsearch
    obtain ⟨⟨hfault, t, ht, hkey⟩, hloads⟩ := hsearch
    obtain ⟨t', ht', -, hkey', -⟩ := hgrows t ht
    exact ⟨⟨hfault, t', ht', hkey'.symm ▸ hkey⟩, hloads.trans (by omega)⟩

/-- Where the assertion fails, the search has gone on to the key itself. -/
theorem StandsIn.not_asserted (hrep : PartRep s T) {key : Option Key}
    (h : StandsIn s.head T (goesTo key) x level loads) (hfails : ¬ asserted s key x = true) :
    ∃ t ∈ T, key = some t.key := by
  cases key with
  | none => exact absurd rfl hfails
  | some key =>
    rcases h.2 with ⟨rfl, -⟩ | ⟨t, ht, rfl, -, hright, -⟩
    · exact absurd (by simp [asserted, SkipList.lessThanCheck]) hfails
    · obtain ⟨nd, hnd, hkey, -⟩ := hrep.node t ht
      refine ⟨t, ht, congrArg some (le_antisymm ?_ (by simpa [goesTo] using hright))⟩
      rw [← not_lt]
      intro hlt
      refine hfails ?_
      simp [asserted, SkipList.lessThanCheck, hnd, hkey, hlt]

/-- Where the assertion holds at a tower, the tower lies before the key. -/
theorem lt_of_asserted (hrep : PartRep s T) {t : Tower Key} (ht : t ∈ T) {key : Option Key}
    (hcheck : asserted s key t.node = true) (k : Key) (hk : key = some k) : t.key < k := by
  obtain ⟨nd, hnd, hkey, -⟩ := hrep.node t ht
  have hne : t.node ≠ s.head := fun heq =>
    (List.nodup_cons.mp hrep.nodup).1 (heq ▸ List.mem_map_of_mem ht)
  subst hk
  simpa [asserted, SkipList.lessThanCheck, hnd, hkey, hne] using hcheck

/-- At the end of level 0 a search stands behind everything that it could go on to. -/
theorem PartRep.stops (hrep : PartRep s (lo ++ hi)) {r : LastReader Key}
    (hlo : ∀ t ∈ lo, goesTo r.key t.key = true) (hhi : ∀ t ∈ hi, goesTo r.key t.key = false)
    (hbefore : ∀ k ∈ r.before, ∃ t ∈ lo ++ hi, t.key = k)
    (hcheck : asserted s r.key (lastNode s.head lo) = true) :
    Stops s.head (lo ++ hi) r (lastNode s.head lo) := by
  have hgone : ∀ k ∈ r.before, goesTo r.key k = true → ∃ t ∈ lo, t.key = k := by
    intro k hk hright
    obtain ⟨t, ht, rfl⟩ := hbefore k hk
    refine ⟨t, (List.mem_append.mp ht).resolve_right fun hmem => ?_, rfl⟩
    rw [hhi t hmem] at hright
    cases hright
  rcases lo.eq_nil_or_concat with rfl | ⟨front, u, rfl⟩
  · refine Or.inl ⟨rfl, fun k hk => ?_⟩
    cases hright : goesTo r.key k with
    | false => rfl
    | true =>
      obtain ⟨t, ht, -⟩ := hgone k hk hright
      cases ht
  · rw [List.concat_eq_append] at *
    rw [lastNode_concat] at hcheck ⊢
    have hu : u ∈ front ++ [u] ++ hi := by simp
    refine Or.inr ⟨u, hu, rfl, lt_of_asserted hrep hu hcheck, fun k hk hright => ?_⟩
    obtain ⟨t, ht, rfl⟩ := hgone k hk hright
    have hsorted := (List.pairwise_append.mp hrep.sorted).1
    rcases List.mem_append.mp ht with ht | ht
    · exact ((List.pairwise_append.mp hsorted).2.2 t ht u List.mem_cons_self).le
    · rw [List.mem_singleton.mp ht]

/-- **A load of a call**: it follows a link that is set, and the search ends at the right node or at
its own key. -/
theorem LastOk.step (hrep : PartRep s T) {r : LastReader Key} (h : LastOk s.head T r)
    {search : LastSearch} (hstep : r.search.step s r.key = some search) :
    LastOk s.head T { r with search, loads := r.loads + 1 } := by
  obtain ⟨hbefore, hsearch⟩ := h
  refine ⟨hbefore, ?_⟩
  cases hr : r.search with
  | called =>
    rw [hr] at hstep hsearch
    cases hstep
    have hmax := hrep.maxHeight
    have hloads : r.loads = 0 := hsearch
    refine ⟨by omega, Or.inl ⟨rfl, ?_⟩⟩
    show r.loads + 1 + (s.maxHeight - 1) ≤ kMaxHeight
    omega
  | visiting x level =>
    rw [hr] at hsearch hstep
    have hsearch : StandsIn s.head T (goesTo r.key) x level r.loads := hsearch
    have hloads := hsearch.loads_le
    unfold LastSearch.step at hstep
    dsimp only at hstep
    split at hstep
    · rename_i hcheck
      obtain rfl := Option.some.inj hstep
      obtain ⟨lo, hi, rfl, hlo, hhi⟩ := exists_split hrep.sorted (goesTo_mono r.key)
      obtain ⟨pre, rest, hsplit, rfl, htall, hroom⟩ := hsearch.split hrep hhi
      rcases hrep.look_step hsplit hsearch.1 htall (goesTo r.key) hlo hhi with
        ⟨mid, t, rest', hrest, hlevel, hlook⟩ | ⟨hlook, hlast⟩
      · rw [hlook]
        have hmem : t ∈ rest := by
          rw [hrest]
          simp
        have ht : t ∈ lo := hsplit ▸ List.mem_append_right _ hmem
        refine ⟨hsearch.1, Or.inr ⟨t, List.mem_append_left _ ht, rfl, hlevel, hlo t ht, ?_⟩⟩
        have hlt := hroom t hmem
        show r.loads + 1 + level ≤ _
        omega
      · rw [hlook]
        cases level with
        | zero =>
          refine ⟨?_, ?_⟩
          · rw [← hlast, hrep.leave_zero.1] at hcheck ⊢
            exact hrep.stops hlo hhi hbefore hcheck
          · show r.loads + 1 ≤ _
            omega
        | succ level =>
          refine ⟨Nat.lt_of_succ_lt hsearch.1, hsearch.2.imp ?_ ?_⟩
          · rintro ⟨hhead, hloads⟩
            refine ⟨hhead, ?_⟩
            show r.loads + 1 + level ≤ _
            omega
          · rintro ⟨t, ht, hnode, hlevel, hright, hloads⟩
            refine ⟨t, ht, hnode, Nat.lt_of_succ_lt hlevel, hright, ?_⟩
            show r.loads + 1 + level ≤ _
            omega
    · rename_i hfails
      obtain rfl := Option.some.inj hstep
      refine ⟨⟨rfl, hsearch.not_asserted hrep hfails⟩, ?_⟩
      show r.loads + 1 ≤ _
      omega
  | returned =>
    rw [hr] at hstep
    cases hstep
  | faulted =>
    rw [hr] at hstep
    cases hstep

end Search

/-! ## All calls -/

section Threads

variable [LinearOrder Key] {T : List (Tower Key)}

/-- What holds between any two steps. -/
structure LastsOk (s : LastThreads Key) (T : List (Tower Key)) : Prop where
  threads : ThreadsOk s.threads T
  finders : ∀ r ∈ s.finders, LastOk s.threads.list.head T r

/-- A call begins. -/
theorem LastsOk.begin {s : LastThreads Key} (h : LastsOk s T) (key : Option Key) :
    LastsOk { s with finders := s.finders ++ [{ key, before := s.threads.inserted }] } T := by
  refine ⟨h.threads, fun r hr => ?_⟩
  rcases List.mem_append.mp hr with hr | hr
  · exact h.finders r hr
  · rw [List.mem_singleton.mp hr]
    exact ⟨h.threads.inserted, rfl⟩

theorem LastsOk.step {s t : LastThreads Key} (h : LastsOk s T) {l : LastStep Key}
    (hnew : FindsNew s l) (hstep : s.step l = some t) : ∃ T', LastsOk t T' := by
  cases l with
  | thread l =>
    obtain ⟨threads, hthread, rfl⟩ := Option.map_eq_some_iff.mp hstep
    obtain ⟨T', hgrows, hthreads⟩ := h.threads.step hnew hthread
    refine ⟨T', hthreads, fun r hr => ?_⟩
    show LastOk threads.list.head T' r
    rw [head_of_step hthread]
    exact (h.finders r hr).grow h.threads.rep hgrows
  | findLast =>
    obtain rfl := Option.some.inj hstep
    exact ⟨T, h.begin none⟩
  | findLessThan key =>
    obtain rfl := Option.some.inj hstep
    exact ⟨T, h.begin (some key)⟩
  | load i =>
    obtain ⟨r, hr, hstep⟩ := Option.bind_eq_some_iff.mp hstep
    obtain ⟨search, hload, rfl⟩ := Option.map_eq_some_iff.mp hstep
    refine ⟨T, h.threads, fun r' hr' => ?_⟩
    rcases List.mem_or_eq_of_mem_set hr' with hr' | rfl
    · exact h.finders r' hr'
    · exact (h.finders r (List.mem_of_getElem? hr)).step h.threads.rep hload

/-- A call returned `x`: it is `head_`, and no key that was in lies where it looked, or it is linked
on level 0, lies before the key of the call and behind all keys that were in and not above it. -/
def ReturnsLast (s : SkipList Key) (r : LastReader Key) (x : Nat) : Prop :=
  x = s.head ∧ (∀ k ∈ r.before, ∃ key, r.key = some key ∧ key < k) ∨
    ∃ nodes nd, s.Chain 0 nodes ∧ x ∈ nodes ∧ s.arena[x]? = some nd ∧
      (∀ key, r.key = some key → nd.key < key) ∧
      ∀ k ∈ r.before, (∀ key, r.key = some key → k ≤ key) → k ≤ nd.key

theorem goesTo_eq_false {key : Option Key} {k : Key} (h : goesTo key k = false) :
    ∃ key', key = some key' ∧ key' < k := by
  cases key with
  | none => cases h
  | some key => exact ⟨key, rfl, by simpa [goesTo] using h⟩

theorem goesTo_eq_true {key : Option Key} {k : Key} (h : ∀ key', key = some key' → k ≤ key') :
    goesTo key k = true := by
  cases key with
  | none => rfl
  | some key => simpa [goesTo] using h key rfl

theorem Stops.returnsLast {s : SkipList Key} (hrep : PartRep s T) {r : LastReader Key} {x : Nat}
    (h : Stops s.head T r x) : ReturnsLast s r x := by
  rcases h with ⟨hhead, hnone⟩ | ⟨t, ht, rfl, hless, hlast⟩
  · exact Or.inl ⟨hhead, fun k hk => goesTo_eq_false (hnone k hk)⟩
  · obtain ⟨nd, hnd, hkey, -⟩ := hrep.node t ht
    refine Or.inr ⟨levelNodes 0 T, nd, hrep.chain 0 (by decide), ?_, hnd, hkey ▸ hless,
      fun k hk hle => ?_⟩
    · rw [levelNodes_zero_of fun t ht => (hrep.height t ht).1]
      exact List.mem_map_of_mem ht
    · rw [hkey]
      exact hlast k hk (goesTo_eq_true hle)

/-- A call of `FindLessThan` that returned was for a key that was not in. -/
theorem ReturnsLast.not_mem {s : SkipList Key} {r : LastReader Key} {x : Nat}
    (h : ReturnsLast s r x) (key : Key) (hkey : r.key = some key) : key ∉ r.before := by
  intro hin
  rcases h with ⟨-, hnone⟩ | ⟨nodes, nd, -, -, -, hless, hlast⟩
  · obtain ⟨key', hkey', hlt⟩ := hnone key hin
    obtain rfl := Option.some.inj (hkey.symm.trans hkey')
    exact lt_irrefl _ hlt
  · refine not_le.mpr (hless key hkey) (hlast key hin fun key' hkey' => ?_)
    exact (Option.some.inj (hkey.symm.trans hkey')).le

/-- The number of loads that a call has taken. -/
theorem LastOk.loads_le {s : SkipList Key} (hrep : PartRep s T) {r : LastReader Key}
    (h : LastOk s.head T r) : r.loads ≤ kMaxHeight + s.arena.length := by
  have hlen := hrep.length_lt
  have hsearch := h.2
  cases hr : r.search with
  | called =>
    rw [hr] at hsearch
    have hloads : r.loads = 0 := hsearch
    omega
  | visiting x level =>
    rw [hr] at hsearch
    have hloads := StandsIn.loads_le hsearch
    omega
  | returned =>
    rw [hr] at hsearch
    have hloads := hsearch.2
    omega
  | faulted =>
    rw [hr] at hsearch
    have hloads := hsearch.2
    omega

/-- A call that has neither returned nor failed can go on. -/
theorem LastSearch.goes (s : SkipList Key) (key : Option Key) (search : LastSearch) :
    (∃ search', search.step s key = some search') ∨ (∃ x, search = .returned x) ∨
      ∃ fault, search = .faulted fault := by
  cases search with
  | called => exact Or.inl ⟨_, rfl⟩
  | visiting x level =>
    left
    unfold LastSearch.step
    dsimp only
    split
    · exact ⟨_, rfl⟩
    · exact ⟨_, rfl⟩
  | returned x => exact Or.inr (Or.inl ⟨x, rfl⟩)
  | faulted fault => exact Or.inr (Or.inr ⟨fault, rfl⟩)

/-- **`FindLast` and `FindLessThan` in the middle of inserts.** In every run with one inserter of
new keys and any number of searches: a call follows no link that is unset and takes a number of
loads that the nodes allocated so far bound; it goes on until it returns or its assertion fails.
Where it returns, it is at the right node, and it was not for a key that was in when it began. The
assertion fails in `FindLessThan` alone, and only for a key that is in or being inserted. -/
theorem last_searches_correct (anyKey : Key) {t : LastThreads Key}
    (run : Transition.Run LastThreads.step FindsNew { threads := Threads.start anyKey } t) :
    ∀ (i : Nat) (r : LastReader Key), t.finders[i]? = some r →
      r.loads ≤ kMaxHeight + t.threads.list.arena.length ∧
      (∀ x, r.search = .returned x → ReturnsLast t.threads.list r x ∧
        ∀ key, r.key = some key → key ∉ r.before) ∧
      (∀ fault, r.search = .faulted fault → fault = .assertion ∧ ∃ key, r.key = some key ∧
        (key ∈ t.threads.inserted ∨ t.threads.inserter.key? = some key)) ∧
      ((∃ u, t.step (.load i) = some u) ∨ (∃ x, r.search = .returned x) ∨
        ∃ fault, r.search = .faulted fault) := by
  obtain ⟨T, h⟩ := run.invariant (I := fun s => ∃ T, LastsOk s T)
    (fun ⟨_, hok⟩ hnew hstep => hok.step hnew hstep)
    ⟨[], .start anyKey, fun r hr => absurd hr List.not_mem_nil⟩
  intro i r hr
  have hfinder := h.finders r (List.mem_of_getElem? hr)
  have hsearch := hfinder.2
  refine ⟨hfinder.loads_le h.threads.rep, fun x hreturned => ?_, fun fault hfaulted => ?_, ?_⟩
  · rw [hreturned] at hsearch
    have hright := hsearch.1.returnsLast h.threads.rep
    exact ⟨hright, hright.not_mem⟩
  · rw [hfaulted] at hsearch
    obtain ⟨⟨hfault, u, hu, hkey⟩, -⟩ := hsearch
    exact ⟨hfault, u.key, hkey, h.threads.known hu⟩
  · refine (LastSearch.goes t.threads.list r.key r.search).imp_left ?_
    rintro ⟨search, hload⟩
    show ∃ u, t.finders[i]?.bind _ = some u
    rw [hr, Option.bind_some, hload]
    exact ⟨_, rfl⟩

end Threads

/-! ## Two calls between two stores -/

/-- `FindsNew`, decided. -/
def findsNew (s : LastThreads Nat) : LastStep Nat → Bool
  | .thread l => insertsNew s.threads l
  | _ => true

theorem findsNew_sound (s : LastThreads Nat) (l : LastStep Nat) (h : findsNew s l = true) :
    FindsNew s l := by
  cases l with
  | thread l => exact insertsNew_sound s.threads l h
  | _ => trivial

theorem height_two : 0 < 2 ∧ 2 ≤ kMaxHeight := by decide

/-- The key 5 is in; the tower of 7 is linked on level 0 and not yet on level 1 when `FindLast()`
and `FindLessThan(6)` run. -/
def foundHalfway : List (LastStep Nat) :=
  .thread (.insert 5 ⟨1, height_one⟩) :: List.replicate 6 (.thread .write) ++
    .thread (.insert 7 ⟨2, height_two⟩) :: List.replicate 10 (.thread .write) ++
    .findLast :: .findLessThan 6 :: List.replicate 5 (.load 0) ++ List.replicate 4 (.load 1)

theorem last_searches_correct_halfway :
    ∃ t, Transition.Run LastThreads.step FindsNew { threads := Threads.start 0 } t ∧
      t.threads.inserted = [5] ∧
      ∃ r r' : LastReader Nat, t.finders[0]? = some r ∧ t.finders[1]? = some r' ∧
        r.search = .returned 2 ∧ r'.search = .returned 1 ∧
        ReturnsLast t.threads.list r 2 ∧ ReturnsLast t.threads.list r' 1 := by
  obtain ⟨t, ht, hinserted, r, hr, r', hr', hsearch, hsearch'⟩ : ∃ t, Transition.exec
      (fun s l => if findsNew s l then LastThreads.step s l else none) foundHalfway
      { threads := Threads.start 0 } = some t ∧ t.threads.inserted = [5] ∧
      ∃ r, t.finders[0]? = some r ∧ ∃ r', t.finders[1]? = some r' ∧
        r.search = .returned 2 ∧ r'.search = .returned 1 := by
    exact ⟨_, rfl, rfl, _, rfl, _, rfl, rfl, rfl⟩
  have run := Transition.Run.of_checked findsNew_sound ht
  have hright := (last_searches_correct 0 run 0 r hr).2.1 2 hsearch
  have hright' := (last_searches_correct 0 run 1 r' hr').2.1 1 hsearch'
  exact ⟨t, run, hinserted, r, r', hr, hr', hsearch, hsearch', hright.1, hright'.1⟩

end LevelDB
