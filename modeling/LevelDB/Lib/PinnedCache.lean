import Mathlib.Data.List.Basic
import Mathlib.Logic.Function.Basic

/-!
# A cache with pinned entries

A map from keys to values that are shared through handles. `lookup` and `insert` pin the entry that
they hand out until it is released. The cache may evict any entry that is not pinned. An entry that
was replaced while it was pinned stays readable through its handles, and goes with the last of them.

* `lookup_eq_some`, `lookup_eq_none` — a hit pins the entry under the key, and changes no value;
* `All.insert`, `All.release`, `All.evict` — what holds of every entry, if it holds of those inserted;
* `value_insert`, `value_release`, `value_evict` — pinned entries stay;
* `pins_insert`, `pins_release`, `pins_evict` — and how often they are pinned;
* `evictAll` — several evictions.
-/

set_option autoImplicit false

namespace PinnedCache

structure Entry (K V : Type) where
  key : K
  value : V
  pins : Nat

/-- `index` gives the handle of the entry that a lookup finds; handles are not used again. -/
structure Cache (K V : Type) where
  index : K → Option Nat
  entries : Nat → Option (Entry K V)
  next : Nat
  indexed : ∀ k n, index k = some n → ∃ e, entries n = some e ∧ e.key = k
  fresh : ∀ n e, entries n = some e → n < next

variable {K V : Type}

namespace Cache

def empty : Cache K V where
  index _ := none
  entries _ := none
  next := 0
  indexed _ _ h := by cases h
  fresh _ _ h := by cases h

variable (c : Cache K V)

def value (n : Nat) : Option V := (c.entries n).map Entry.value

/-- How often an entry is pinned. -/
def pins (n : Nat) : Nat := ((c.entries n).map Entry.pins).getD 0

theorem entry_of_index {k : K} {n : Nat} (h : c.index k = some n) :
    ∃ e, c.entries n = some e ∧ e.key = k ∧ n < c.next := by
  obtain ⟨e, he, hkey⟩ := c.indexed k n h
  exact ⟨e, he, hkey, c.fresh n e he⟩

/-- An entry is found under one key only. -/
theorem index_inj {k k' : K} {n : Nat} (h : c.index k = some n) (h' : c.index k' = some n) :
    k = k' := by
  obtain ⟨e, he, rfl⟩ := c.indexed k n h
  obtain ⟨e', he', rfl⟩ := c.indexed k' n h'
  rw [he] at he'
  rw [Option.some.inj he']

/-- Change how often an entry is pinned. -/
def setPins (n : Nat) (f : Nat → Nat) : Cache K V where
  index := c.index
  entries m := if m = n then (c.entries n).map fun e => { e with pins := f e.pins }
    else c.entries m
  next := c.next
  indexed k m h := by
    obtain ⟨e, he, hkey⟩ := c.indexed k m h
    by_cases hm : m = n
    · subst hm
      exact ⟨{ e with pins := f e.pins }, by rw [if_pos rfl, he]; rfl, hkey⟩
    · exact ⟨e, by rw [if_neg hm, he], hkey⟩
  fresh m e h := by
    by_cases hm : m = n
    · subst hm
      rw [if_pos rfl] at h
      obtain ⟨e', he', -⟩ := Option.map_eq_some_iff.mp h
      exact c.fresh m e' he'
    · rw [if_neg hm] at h
      exact c.fresh m e h

/-- Take an entry out. -/
def remove (n : Nat) : Cache K V where
  index k := if c.index k = some n then none else c.index k
  entries m := if m = n then none else c.entries m
  next := c.next
  indexed k m h := by
    split at h
    · cases h
    · rename_i hne
      obtain ⟨e, he, hkey⟩ := c.indexed k m h
      have hm : m ≠ n := fun heq => hne (heq ▸ h)
      exact ⟨e, by rw [if_neg hm, he], hkey⟩
  fresh m e h := by
    split at h
    · cases h
    · exact c.fresh m e h

/-- A hit pins the entry. -/
def lookup (k : K) : Option (Nat × Cache K V) :=
  (c.index k).map fun n => (n, c.setPins n (· + 1))

/-- Without its last pin an entry that is no longer found goes. -/
def release (n : Nat) : Option (Cache K V) :=
  (c.entries n).bind fun e =>
    if e.pins = 0 then none
    else if e.pins = 1 ∧ c.index e.key ≠ some n then some (c.remove n)
    else some (c.setPins n (· - 1))

/-- The cache drops an entry that is not pinned. -/
def evict (k : K) : Option (Cache K V) :=
  (c.index k).bind fun n => if c.pins n = 0 then some (c.remove n) else none

/-- The entries under some keys, as far as they may be evicted. -/
def evictAll (ks : List K) : Cache K V := ks.foldl (fun c k => (c.evict k).getD c) c

/-- A new entry, pinned for the caller, takes the place of the one under the key. -/
def insert [DecidableEq K] (k : K) (v : V) : Nat × Cache K V :=
  (c.next,
    { index := fun k' => if k' = k then some c.next else c.index k'
      entries := fun m =>
        if m = c.next then some { key := k, value := v, pins := 1 }
        else if c.index k = some m ∧ c.pins m = 0 then none
        else c.entries m
      next := c.next + 1
      indexed := fun k' m h => by
        by_cases hk : k' = k
        · rw [if_pos hk] at h
          cases h
          exact ⟨_, if_pos rfl, hk.symm⟩
        · rw [if_neg hk] at h
          obtain ⟨e, he, hkey, hlt⟩ := c.entry_of_index h
          have hother : ¬ (c.index k = some m ∧ c.pins m = 0) := fun ⟨h', _⟩ =>
            hk (c.index_inj h h')
          exact ⟨e, by rw [if_neg (Nat.ne_of_lt hlt), if_neg hother, he], hkey⟩
      fresh := fun m e h => by
        by_cases hm : m = c.next
        · omega
        · rw [if_neg hm] at h
          split at h
          · cases h
          · exact Nat.lt_succ_of_lt (c.fresh m e h) })

variable {c}

@[simp] theorem value_setPins (n : Nat) (f : Nat → Nat) (m : Nat) :
    (c.setPins n f).value m = c.value m := by
  unfold value setPins
  by_cases hm : m = n
  · subst hm
    simp [Option.map_map, Function.comp_def]
  · simp [hm]

theorem pins_setPins_self {n : Nat} {e : Entry K V} (he : c.entries n = some e) (f : Nat → Nat) :
    (c.setPins n f).pins n = f (c.pins n) := by
  unfold pins setPins
  simp [he]

theorem pins_setPins_ne {n m : Nat} (f : Nat → Nat) (hm : m ≠ n) :
    (c.setPins n f).pins m = c.pins m := by
  unfold pins setPins
  simp [hm]

theorem value_remove_ne {n m : Nat} (hm : m ≠ n) : (c.remove n).value m = c.value m := by
  unfold value remove
  simp [hm]

theorem pins_remove (n m : Nat) : (c.remove n).pins m = if m = n then 0 else c.pins m := by
  unfold pins remove
  by_cases hm : m = n
  · simp [hm]
  · simp [hm]

/-! ## Lookup -/

theorem lookup_eq_some {k : K} {n : Nat} {c' : Cache K V} :
    c.lookup k = some (n, c') ↔ c.index k = some n ∧ c' = c.setPins n (· + 1) := by
  unfold lookup
  rw [Option.map_eq_some_iff]
  constructor
  · rintro ⟨m, hm, heq⟩
    cases heq
    exact ⟨hm, rfl⟩
  · rintro ⟨hn, rfl⟩
    exact ⟨n, hn, rfl⟩

theorem lookup_eq_none {k : K} : c.lookup k = none ↔ c.index k = none := Option.map_eq_none_iff

theorem pins_lookup {k : K} {n : Nat} {c' : Cache K V} (h : c.lookup k = some (n, c')) (m : Nat) :
    c'.pins m = if m = n then c.pins m + 1 else c.pins m := by
  obtain ⟨hindex, rfl⟩ := lookup_eq_some.mp h
  obtain ⟨e, he, -⟩ := c.entry_of_index hindex
  by_cases hm : m = n
  · subst hm
    rw [if_pos rfl, pins_setPins_self he]
  · rw [if_neg hm, pins_setPins_ne _ hm]

/-! ## Insert -/

section Insert

variable [DecidableEq K] {k : K} {v : V}

omit [DecidableEq K] in
theorem pins_next : c.pins c.next = 0 := by
  unfold pins
  cases he : c.entries c.next with
  | none => rfl
  | some e => exact absurd (c.fresh _ e he) (Nat.lt_irrefl _)

theorem pins_insert (m : Nat) : (c.insert k v).2.pins m = if m = c.next then 1 else c.pins m := by
  show ((if m = c.next then _ else _ : Option (Entry K V)).map Entry.pins).getD 0 = _
  by_cases hm : m = c.next
  · rw [if_pos hm, if_pos hm]
    rfl
  · rw [if_neg hm, if_neg hm]
    split
    · rename_i hfree
      exact hfree.2.symm
    · rfl

theorem value_insert_self : (c.insert k v).2.value c.next = some v := by
  show (if c.next = c.next then _ else _ : Option (Entry K V)).map Entry.value = _
  rw [if_pos rfl]
  rfl

theorem value_insert {m : Nat} (hm : 0 < c.pins m) : (c.insert k v).2.value m = c.value m := by
  have hne : m ≠ c.next := by
    rintro rfl
    rw [pins_next] at hm
    exact Nat.lt_irrefl _ hm
  have hkept : ¬ (c.index k = some m ∧ c.pins m = 0) := fun ⟨_, hzero⟩ => by omega
  show (if m = c.next then _ else _ : Option (Entry K V)).map Entry.value = _
  rw [if_neg hne, if_neg hkept]
  rfl

end Insert

/-! ## Release -/

theorem release_isSome {n : Nat} (h : 0 < c.pins n) : ∃ c', c.release n = some c' := by
  unfold pins at h
  unfold release
  cases he : c.entries n with
  | none => simp [he] at h
  | some e =>
    have hpins : e.pins ≠ 0 := by
      simp [he] at h
      omega
    rw [Option.bind_some, if_neg hpins]
    split
    · exact ⟨_, rfl⟩
    · exact ⟨_, rfl⟩

/-- What a release may do. -/
theorem release_cases {n : Nat} {c' : Cache K V} (h : c.release n = some c') :
    0 < c.pins n ∧
      (c' = c.setPins n (· - 1) ∨ c' = c.remove n ∧ c.pins n = 1 ∧ ∀ k, c.index k ≠ some n) := by
  obtain ⟨e, he, h⟩ := Option.bind_eq_some_iff.mp h
  have hpins : c.pins n = e.pins := by
    unfold pins
    rw [he]
    rfl
  split at h
  · cases h
  · rename_i hne
    refine ⟨by omega, ?_⟩
    split at h
    · rename_i hlast
      cases h
      refine Or.inr ⟨rfl, by omega, fun k hk => hlast.2 ?_⟩
      obtain ⟨e', he', rfl⟩ := c.indexed k n hk
      rw [he] at he'
      rw [Option.some.inj he']
      exact hk
    · cases h
      exact Or.inl rfl

theorem pins_release {n : Nat} {c' : Cache K V} (h : c.release n = some c') (m : Nat) :
    c'.pins m = if m = n then c.pins m - 1 else c.pins m := by
  obtain ⟨e, he, -⟩ := Option.bind_eq_some_iff.mp h
  obtain ⟨-, rfl | ⟨rfl, hone, -⟩⟩ := release_cases h
  · by_cases hm : m = n
    · subst hm
      rw [if_pos rfl, pins_setPins_self he]
    · rw [if_neg hm, pins_setPins_ne _ hm]
  · rw [pins_remove]
    by_cases hm : m = n
    · subst hm
      rw [if_pos rfl, if_pos rfl, hone]
    · rw [if_neg hm, if_neg hm]

theorem value_release {n : Nat} {c' : Cache K V} (h : c.release n = some c') {m : Nat}
    (hm : 0 < c'.pins m) : c'.value m = c.value m := by
  have hpins := pins_release h m
  obtain ⟨-, rfl | ⟨rfl, hone, -⟩⟩ := release_cases h
  · exact value_setPins n _ m
  · refine value_remove_ne fun heq => ?_
    rw [if_pos heq, heq, hone] at hpins
    rw [heq, hpins] at hm
    exact Nat.lt_irrefl _ hm

/-! ## Eviction -/

/-- Entries that are not pinned have gone. -/
structure Evicts (c c' : Cache K V) : Prop where
  next : c'.next = c.next
  index : ∀ k, c'.index k = c.index k ∨ c'.index k = none
  entries : ∀ n e, c'.entries n = some e → c.entries n = some e
  pins : ∀ n, c'.pins n = c.pins n
  value : ∀ n, 0 < c.pins n → c'.value n = c.value n

theorem Evicts.refl (c : Cache K V) : Evicts c c :=
  ⟨rfl, fun _ => Or.inl rfl, fun _ _ h => h, fun _ => rfl, fun _ _ => rfl⟩

theorem Evicts.trans {c₁ c₂ c₃ : Cache K V} (h : Evicts c₁ c₂) (h' : Evicts c₂ c₃) :
    Evicts c₁ c₃ where
  next := h'.next.trans h.next
  index k := by
    rcases h'.index k with heq | hnone
    · rw [heq]
      exact h.index k
    · exact Or.inr hnone
  entries n e he := h.entries n e (h'.entries n e he)
  pins n := (h'.pins n).trans (h.pins n)
  value n hn := (h'.value n (by rw [h.pins]; exact hn)).trans (h.value n hn)

theorem evicts_evict {k : K} {c' : Cache K V} (h : c.evict k = some c') : Evicts c c' := by
  obtain ⟨n, -, h⟩ := Option.bind_eq_some_iff.mp h
  split at h
  · rename_i hzero
    cases h
    refine ⟨rfl, fun k' => ?_, fun m e he => ?_, fun m => ?_, fun m hm => ?_⟩
    · show (if _ then _ else _) = _ ∨ (if _ then _ else _) = _
      split
      · exact Or.inr rfl
      · exact Or.inl rfl
    · have he : (if m = n then none else c.entries m) = some e := he
      split at he
      · cases he
      · exact he
    · rw [pins_remove]
      split
      · rename_i heq
        rw [heq, hzero]
      · rfl
    · refine value_remove_ne fun heq => ?_
      rw [heq] at hm
      omega
  · cases h

theorem evicts_evictAll (ks : List K) (c : Cache K V) : Evicts c (c.evictAll ks) := by
  induction ks generalizing c with
  | nil => exact .refl c
  | cons k ks ih =>
    refine Evicts.trans ?_ (ih ((c.evict k).getD c))
    cases h : c.evict k with
    | none => exact .refl c
    | some c' => exact evicts_evict h

/-! ## What holds of every entry -/

/-- `P` holds of every entry with its handle, also of those that only a handle still reaches. -/
def All (P : Nat → K → V → Prop) (c : Cache K V) : Prop :=
  ∀ n e, c.entries n = some e → P n e.key e.value

variable {P : Nat → K → V → Prop}

theorem All.empty : All P (empty : Cache K V) := fun _ _ h => by cases h

theorem All.setPins (h : All P c) (n : Nat) (f : Nat → Nat) : All P (c.setPins n f) := by
  intro m e he
  have he : (if m = n then _ else _ : Option (Entry K V)) = some e := he
  split at he
  · rename_i hm
    subst hm
    obtain ⟨e', he', rfl⟩ := Option.map_eq_some_iff.mp he
    exact h m e' he'
  · exact h m e he

theorem All.remove (h : All P c) (n : Nat) : All P (c.remove n) := by
  intro m e he
  have he : (if m = n then none else c.entries m) = some e := he
  split at he
  · cases he
  · exact h m e he

theorem All.lookup (h : All P c) {k : K} {n : Nat} {c' : Cache K V}
    (hlookup : c.lookup k = some (n, c')) : All P c' := by
  obtain ⟨-, rfl⟩ := lookup_eq_some.mp hlookup
  exact h.setPins n _

theorem All.insert [DecidableEq K] (h : All P c) {k : K} {v : V} (hnew : P c.next k v) :
    All P (c.insert k v).2 := by
  intro m e he
  have he : (if m = c.next then _ else if c.index k = some m ∧ c.pins m = 0 then none
    else c.entries m) = some e := he
  split at he
  · rename_i hm
    cases he
    rw [hm]
    exact hnew
  · split at he
    · cases he
    · exact h m e he

theorem All.release (h : All P c) {n : Nat} {c' : Cache K V} (hrelease : c.release n = some c') :
    All P c' := by
  obtain ⟨-, rfl | ⟨rfl, -⟩⟩ := release_cases hrelease
  · exact h.setPins n _
  · exact h.remove n

theorem All.evicts (h : All P c) {c' : Cache K V} (hevicts : Evicts c c') : All P c' :=
  fun n e he => h n e (hevicts.entries n e he)

/-- The entry that a lookup finds. -/
theorem All.index (h : All P c) {k : K} {n : Nat} (hindex : c.index k = some n) :
    ∃ v, c.value n = some v ∧ P n k v := by
  obtain ⟨e, he, rfl, -⟩ := c.entry_of_index hindex
  exact ⟨e.value, by unfold value; rw [he]; rfl, h n e he⟩

end Cache

end PinnedCache
