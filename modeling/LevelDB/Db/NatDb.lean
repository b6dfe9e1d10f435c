import LevelDB.Db.State

/-!
# A small database

Natural numbers as keys and values and two levels, with simple versions of the parts that are not in
this repository. They behave as assumed: `natDb_records`, `natDb_reuses`, `natDb_answers`,
`natDb_keepsLive`, `natDb_iterates`.

* `newestVisible_spec` — a lookup by one pass over the entries.
-/

set_option autoImplicit false

namespace LevelDB

/-! ## Lookup by one pass -/

section Newest

variable {U V : Type} [DecidableEq U]

instance (k : LookupKey U) : DecidablePred (Entry.Visible (V := V) k) := fun e =>
  inferInstanceAs (Decidable (e.key.userKey = k.userKey ∧ e.key.sequence ≤ k.sequence))

/-- The newest visible entry of a list. -/
def newestVisible (k : LookupKey U) : List (Entry U V) → Option (Entry U V)
  | [] => none
  | e :: es =>
    match newestVisible k es with
    | none => if e.Visible k then some e else none
    | some e' => if e.Visible k ∧ e'.key.sequence < e.key.sequence then some e else some e'

theorem newestVisible_spec (k : LookupKey U) : ∀ es : List (Entry U V),
    (newestVisible k es = none ∧ ∀ e ∈ es, ¬ e.Visible k) ∨
      ∃ e, newestVisible k es = some e ∧
        Layered.Newest Entry.number (Entry.Visible k) {e | e ∈ es} e
  | [] => Or.inl ⟨rfl, fun _ he => absurd he List.not_mem_nil⟩
  | e :: es => by
    unfold newestVisible
    rcases newestVisible_spec k es with ⟨heq, hnone⟩ | ⟨e', heq, hmem, hvisible, hmax⟩
    · rw [heq]
      by_cases he : e.Visible k
      · refine Or.inr ⟨e, if_pos he, List.mem_cons_self, he, ?_⟩
        intro a ha hva
        rcases List.mem_cons.mp ha with rfl | ha
        · exact le_refl _
        · exact absurd hva (hnone a ha)
      · refine Or.inl ⟨if_neg he, ?_⟩
        intro a ha
        rcases List.mem_cons.mp ha with rfl | ha
        · exact he
        · exact hnone a ha
    · rw [heq]
      by_cases he : e.Visible k ∧ e'.key.sequence < e.key.sequence
      · refine Or.inr ⟨e, if_pos he, List.mem_cons_self, he.1, ?_⟩
        intro a ha hva
        rcases List.mem_cons.mp ha with rfl | ha
        · exact le_refl _
        · exact le_trans (hmax a ha hva) (le_of_lt he.2)
      · refine Or.inr ⟨e', if_neg he, List.mem_cons_of_mem e hmem, hvisible, ?_⟩
        intro a ha hva
        rcases List.mem_cons.mp ha with rfl | ha
        · by_contra hlt
          exact he ⟨hva, lt_of_not_ge hlt⟩
        · exact hmax a ha hva

end Newest

/-! ## The configuration -/

/-- User keys upwards, newer entries first. -/
def natInternalCompare : InternalKey Nat → InternalKey Nat → Ordering :=
  compareLex (compareOn InternalKey.userKey)
    (fun a b => compareOn InternalKey.sequence b a)

instance : Std.TransCmp natInternalCompare :=
  inferInstanceAs (Std.TransCmp (compareLex (compareOn InternalKey.userKey)
    (fun a b => compareOn InternalKey.sequence b a)))

/-- The files of a version that may hold a key: level by level, in each level the last one first. -/
def natOverlapping {N : Nat} (v : Version (InternalKey Nat) N) (k : LookupKey Nat) :
    List (Fin N × FileMetaData (InternalKey Nat)) :=
  (List.finRange N).flatMap fun level =>
    ((v.files level).reverse.filter fun f =>
      decide (f.smallest.userKey ≤ k.userKey ∧ k.userKey ≤ f.largest.userKey)).map
        fun f => (level, f)

def natDb : DbConfig Nat Nat (VersionEdit (InternalKey Nat) 2) 2 where
  version :=
    { icmp := natInternalCompare
      ok := Status.isOK
      dbname := ['d', 'b']
      comparatorName := "nat"
      encodeTo := id
      l0CompactionTrigger := 4
      totalFileSize := fun files => (files.map FileMetaData.fileSize).sum
      maxByteForLevel := fun _ => 10485760 }
  writeBufferSize := 4
  l0SlowdownWritesTrigger := 8
  l0StopWritesTrigger := 12
  approximateMemoryUsage := List.length
  newIterator := id
  memTableGet es k := (newestVisible k es).map Entry.outcome
  tableCacheGet
    | none, _ => (.NotFound "" "", .notFound)
    | some es, k =>
      (.OK, match (newestVisible k es).map Entry.outcome with
        | none => .notFound
        | some (some v) => .found v
        | some none => .deleted)
  forEachOverlapping := natOverlapping
  pickLevelForMemTableOutput _ _ _ := ⟨0, Nat.zero_lt_two⟩
  recordBackgroundError e s := if e = .OK then s else e
  reuseFileNumber next n := if next = n + 1 then n else next
  obsolete live pending n :=
    decide (n ∉ pending ∧ ∀ v ∈ live, ∀ level, ∀ f ∈ v.files level, f.number ≠ n)
  keyText := Nat.repr

instance : Std.TransCmp natDb.version.icmp := inferInstanceAs (Std.TransCmp natInternalCompare)

theorem natDb_records : natDb.RecordsFirst := fun _ _ => rfl

theorem natDb_reuses : natDb.ReusesLast := fun _ => if_pos rfl

theorem natDb_iterates : natDb.IteratesAll := fun es => List.Perm.refl es

theorem natDb_keepsLive : natDb.KeepsLive := by
  intro live pending number h
  obtain ⟨hpending, hlive⟩ := of_decide_eq_true h
  refine ⟨hpending, ?_⟩
  rintro v hv ⟨level, f, hf, hnumber⟩
  exact hlive v hv level f hf hnumber

theorem natDb_answers : natDb.AnswersReads where
  memNone es k h := by
    rcases newestVisible_spec k es with ⟨-, hnone⟩ | ⟨e, heq, -⟩
    · exact hnone
    · have h : (newestVisible k es).map Entry.outcome = none := h
      rw [heq] at h
      cases h
  memSome es k r h := by
    have h : (newestVisible k es).map Entry.outcome = some r := h
    rcases newestVisible_spec k es with ⟨heq, -⟩ | ⟨e, heq, hnewest⟩
    · rw [heq] at h
      cases h
    · rw [heq] at h
      cases h
      exact ⟨e, hnewest, rfl⟩
  table es k := by
    show _ ∧ (Status.OK, _) = _ ∨ ∃ e, _ ∧ (Status.OK, _) = _
    rcases newestVisible_spec k es with ⟨heq, hnone⟩ | ⟨e, heq, hnewest⟩
    · rw [heq]
      exact Or.inl ⟨hnone, rfl⟩
    · rw [heq]
      refine Or.inr ⟨e, hnewest, ?_⟩
      cases hout : e.outcome with
      | none => simp [hout]
      | some v => simp [hout]

end LevelDB
