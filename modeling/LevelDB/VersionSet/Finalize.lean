import LevelDB.Lib.RunningMax
import LevelDB.VersionSet.LogAndApply
import Mathlib.Algebra.Order.Field.Basic
import Mathlib.Algebra.Order.Ring.Rat

/-!
# The level to compact

`Finalize` scores all levels but the last and keeps the best score. Scores are not negative, so the
`-1` that it starts from is always replaced, and a strictly greater score only replaces another, so
of the worst levels it keeps the lowest.

* `finalize_firstMax` — the loop ends at the first level with the greatest score;
* `one_le_levelScore` — a score of at least 1 is a level that has reached its limit;
* `finalize_worstLevel` — what `Finalize` sets, and when the score asks for a compaction.
-/

set_option autoImplicit false

namespace LevelDB

open RunningMax

variable {K R : Type} {N : Nat}

/-- The levels over which `Finalize` loops. -/
theorem mem_dropLast_finRange : ∀ {N : Nat} {level : Fin N},
    level ∈ (List.finRange N).dropLast ↔ level.val + 1 < N
  | 0, level => level.elim0
  | N + 1, level => by
    rw [List.finRange_succ_last, List.dropLast_concat, List.mem_map]
    constructor
    · rintro ⟨l, -, rfl⟩
      exact Nat.succ_lt_succ l.isLt
    · intro hlevel
      exact ⟨⟨level.val, Nat.lt_of_succ_lt_succ hlevel⟩, List.mem_finRange _, rfl⟩

/-- The limits against which the levels before the last are scored. -/
structure VersionConfig.PositiveLimits (cfg : VersionConfig K R N) : Prop where
  trigger : 0 < cfg.l0CompactionTrigger
  bytes : ∀ level : Fin N, 0 < level.val → level.val + 1 < N → 0 < cfg.maxByteForLevel level

section Scores

variable {cfg : VersionConfig K R N} {v : Version K N} {level : Fin N}

theorem levelScore_nonneg (hlimits : cfg.PositiveLimits) (hlevel : level.val + 1 < N) :
    0 ≤ levelScore cfg v level := by
  unfold levelScore
  split
  · exact div_nonneg (Nat.cast_nonneg _) (Nat.cast_nonneg _)
  · rename_i hzero
    exact div_nonneg (Nat.cast_nonneg _) (hlimits.bytes level (Nat.pos_of_ne_zero hzero) hlevel).le

/-- **A score of at least 1**: the level has reached its limit, in files or in bytes. -/
theorem one_le_levelScore (hlimits : cfg.PositiveLimits) (hlevel : level.val + 1 < N) :
    1 ≤ levelScore cfg v level ↔
      level.val = 0 ∧ cfg.l0CompactionTrigger ≤ (v.files level).length ∨
        0 < level.val ∧ cfg.maxByteForLevel level ≤ cfg.totalFileSize (v.files level) := by
  unfold levelScore
  split
  · rename_i hzero
    rw [one_le_div₀ (Nat.cast_pos.mpr hlimits.trigger), Nat.cast_le]
    simp [hzero]
  · rename_i hzero
    have hpos := Nat.pos_of_ne_zero hzero
    rw [one_le_div₀ (hlimits.bytes level hpos hlevel)]
    simp [hzero, hpos]

/-- **The loop of `Finalize`** ends at the first level with the greatest score. -/
theorem finalize_firstMax (hN : 2 ≤ N) (hlimits : cfg.PositiveLimits) (v : Version K N) :
    ∃ best : Fin N, FirstMax (levelScore cfg v) (List.finRange N).dropLast best ∧
      finalize cfg v = { v with
        compactionLevel := best.val
        compactionScore := levelScore cfg v best } := by
  have hzero : (⟨0, by omega⟩ : Fin N) ∈ (List.finRange N).dropLast := mem_dropLast_finRange.mpr hN
  have hsorted := (List.pairwise_lt_finRange N).sublist (List.dropLast_sublist _)
  have hscores : ∀ level ∈ (List.finRange N).dropLast, (-1 : Rat) < levelScore cfg v level := by
    intro level hlevel
    have hscore : 0 ≤ levelScore cfg v level :=
      levelScore_nonneg hlimits (mem_dropLast_finRange.mp hlevel)
    exact neg_one_lt_zero.trans_le hscore
  obtain ⟨best, hbest, hloop⟩ := @foldl_firstMax (Fin N) Rat Int _ _ _
    (fun level => (level.val : Int)) (-1, -1) _ (List.ne_nil_of_mem hzero) hsorted hscores
  exact ⟨best, hbest, congrArg (fun kept : Int × Rat =>
    { v with compactionLevel := kept.1, compactionScore := kept.2 }) hloop⟩

theorem finalize_score (hN : 2 ≤ N) (hlimits : cfg.PositiveLimits) (v : Version K N) :
    1 ≤ (finalize cfg v).compactionScore ↔ ∃ level : Fin N, level.val + 1 < N ∧
      (level.val = 0 ∧ cfg.l0CompactionTrigger ≤ (v.files level).length ∨
        0 < level.val ∧ cfg.maxByteForLevel level ≤ cfg.totalFileSize (v.files level)) := by
  obtain ⟨best, hbest, heq⟩ := finalize_firstMax hN hlimits v
  rw [heq]
  refine hbest.le_iff.trans (exists_congr fun level => ?_)
  rw [mem_dropLast_finRange]
  exact and_congr_right fun hlevel => one_le_levelScore hlimits hlevel

/-- **Compaction scoring picks the worst level.** For any number of levels and any files, with
positive limits, `Finalize` sets `compaction_level_` to the lowest of the levels before the last
whose score is the greatest, and `compaction_score_` to that score, which is at least 1 exactly when
level 0 has the files that trigger a compaction or another level before the last holds its limit of
bytes. -/
theorem finalize_worstLevel (cfg : VersionConfig K R N) (hN : 2 ≤ N)
    (hlimits : cfg.PositiveLimits) (v : Version K N) :
    ∃ best : Fin N, best.val + 1 < N ∧
      finalize cfg v = { v with
        compactionLevel := best.val
        compactionScore := levelScore cfg v best } ∧
      (∀ level : Fin N, level.val + 1 < N → levelScore cfg v level ≤ levelScore cfg v best) ∧
      (∀ level < best, levelScore cfg v level < levelScore cfg v best) ∧
      (1 ≤ (finalize cfg v).compactionScore ↔
        cfg.l0CompactionTrigger ≤ (v.files ⟨0, by omega⟩).length ∨
          ∃ level : Fin N, 0 < level.val ∧ level.val + 1 < N ∧
            cfg.maxByteForLevel level ≤ cfg.totalFileSize (v.files level)) := by
  obtain ⟨best, hbest, heq⟩ := finalize_firstMax hN hlimits v
  have hlevel := mem_dropLast_finRange.mp hbest.mem
  refine ⟨best, hlevel, heq, fun level h => hbest.max level (mem_dropLast_finRange.mpr h),
    fun level h => hbest.first level (mem_dropLast_finRange.mpr ?_) h, ?_⟩
  · exact (Nat.succ_lt_succ h).trans hlevel
  refine (finalize_score hN hlimits v).trans ?_
  constructor
  · rintro ⟨level, hlevel, ⟨hzero, hfull⟩ | ⟨hpos, hfull⟩⟩
    · rw [show level = ⟨0, by omega⟩ from Fin.ext hzero] at hfull
      exact Or.inl hfull
    · exact Or.inr ⟨level, hpos, hlevel, hfull⟩
  · rintro (hfull | ⟨level, hpos, hlevel, hfull⟩)
    · exact ⟨⟨0, by omega⟩, hN, Or.inl ⟨rfl, hfull⟩⟩
    · exact ⟨level, hlevel, Or.inr ⟨hpos, hfull⟩⟩

/-- Three levels with room for four files, 100 bytes and any number of bytes. -/
def threeLevels : VersionConfig Nat (VersionEdit Nat 3) 3 where
  icmp := compare
  ok := Status.isOK
  dbname := ['d', 'b']
  comparatorName := "nat"
  encodeTo := id
  l0CompactionTrigger := 4
  totalFileSize files := (files.map FileMetaData.fileSize).sum
  maxByteForLevel _ := 100

/-- Level 1 holds 150 bytes, and the last level, which holds more, is not scored. -/
def fullVersion : Version Nat 3 where
  files
    | 0 => [{ number := 7, fileSize := 60, smallest := 1, largest := 9 }]
    | 1 => [{ number := 4, fileSize := 70, smallest := 1, largest := 4 },
        { number := 5, fileSize := 80, smallest := 6, largest := 9 }]
    | 2 => [{ number := 3, fileSize := 900, smallest := 2, largest := 8 }]

theorem finalize_worstLevel_bytes :
    threeLevels.PositiveLimits ∧ (finalize threeLevels fullVersion).compactionLevel = 1 ∧
      1 ≤ (finalize threeLevels fullVersion).compactionScore := by
  have hlimits : threeLevels.PositiveLimits :=
    ⟨by decide, fun _ _ _ => (by decide : (0 : Rat) < 100)⟩
  obtain ⟨best, -, -, -, -, hscore⟩ :=
    finalize_worstLevel threeLevels (by decide) hlimits fullVersion
  exact ⟨hlimits, by decide +kernel, hscore.mpr (Or.inr ⟨1, by decide, by decide, by decide⟩)⟩

end Scores

end LevelDB
