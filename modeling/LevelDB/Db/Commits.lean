import LevelDB.Db.ExactlyOnce
import LevelDB.Db.GroupEntries

/-!
# The groups that become visible

A leader that has inserted its group sets `last_sequence_` and returns OK in one step.

* `System.committing`, `recordCommits` — the calls that do so with their groups, in order;
* `CommitsOk` — these are the calls that have returned OK, and their records are in the log in the
  same order;
* `CommitsOk.step` — every step keeps this.
-/

set_option autoImplicit false

namespace LevelDB

variable {U V R W : Type} {N : Nat}

/-- A call of `Write` with the group that it led. -/
abbrev Commit (U V W : Type) : Type := W × Group U V W

/-- The group that the step makes visible, with its leader. -/
def System.committing (s : System U V R W N) : Label U V W N → List (Commit U V W)
  | .write w .finish => (s.writes w).placing?.toList.map fun g => (w, g)
  | _ => []

def recordCommits (commits : List (Commit U V W)) (s : System U V R W N) (l : Label U V W N)
    (_ : System U V R W N) : List (Commit U V W) :=
  commits ++ s.committing l

namespace WriteCall

/-- The group in progress whose record has been appended, and synced if that was asked. -/
def recorded? : WriteCall U V W → Option (Group U V W)
  | syncing g => some g
  | inserting g _ _ => some g
  | relocking g status _ => if status = .OK then some g else none
  | _ => none

@[simp] theorem recorded?_unsignalled (pc : WriteCall U V W) :
    pc.unsignalled.recorded? = pc.recorded? := by
  cases pc <;> rfl

theorem group?_of_recorded {pc : WriteCall U V W} {g : Group U V W} (h : pc.recorded? = some g) :
    pc.group? = some g := by
  cases pc with
  | syncing => exact h
  | inserting => exact h
  | relocking g' status syncError =>
    have h : (if status = .OK then some g' else none) = some g := h
    split at h
    · exact h
    · cases h
  | _ => cases h

theorem recorded?_none {pc : WriteCall U V W} (h : pc.group? = none) : pc.recorded? = none := by
  cases hg : pc.recorded? with
  | none => rfl
  | some g => rw [group?_of_recorded hg] at h; cases h

/-- A signal does not make a call return. -/
theorem returned_unsignalled {pc : WriteCall U V W} {status : Status} :
    pc.unsignalled = .returned status ↔ pc = .returned status := by
  cases pc with
  | returned => exact Iff.rfl
  | _ => exact iff_of_false nofun nofun

end WriteCall

/-- The call leads the group: it is its first member and has a batch. -/
structure Group.LedBy (calls : W → WriteRequest U V) (g : Group U V W) (w : W) : Prop where
  first : g.members.head? = some w
  batch : (calls w).updates.isSome
  carries : g.Carries calls

/-- The calls that have committed a group are those that have returned OK. -/
structure CommitsOk (calls : W → WriteRequest U V) (commits : List (Commit U V W))
    (s : System U V R W N) : Prop where
  leads : ∀ w g, (s.writes w).group? = some g → g.LedBy calls w
  returned : ∀ w, (calls w).updates.isSome →
    (s.writes w = .returned .OK ↔ w ∈ commits.map Prod.fst)
  once : (commits.map Prod.fst).Nodup
  led : ∀ c ∈ commits, c.2.LedBy calls c.1
  /-- A group is in the log before it is visible, and the log has them in the same order. -/
  logged : (commits.map Prod.snd).Sublist s.appended
  logging : ∀ w g, (s.writes w).recorded? = some g → ∃ before, s.appended = before ++ [g] ∧
    (commits.map Prod.snd).Sublist before

section Step

variable [DecidableEq W] {cfg : DbConfig U V R N} {calls : W → WriteRequest U V}
  {s t u : System U V R W N} {w : W} {commits : List (Commit U V W)}

omit [DecidableEq W] in
theorem committing_of_ne {l : Label U V W N} (h : ∀ w, l ≠ .write w .finish) :
    s.committing l = [] := by
  unfold System.committing
  split
  · exact absurd rfl (h _)
  · rfl

omit [DecidableEq W] in
/-- A step of one call that does not return OK, or has no batch. -/
theorem CommitsOk.of_self (h : CommitsOk calls commits s)
    (hothers : ∀ x ≠ w, (t.writes x).unsignalled = (s.writes x).unsignalled)
    (hnot : s.writes w ≠ .returned .OK)
    (hnot' : (calls w).updates.isSome → t.writes w ≠ .returned .OK)
    (hleads : ∀ g, (t.writes w).group? = some g → g.LedBy calls w)
    (hlogged : (commits.map Prod.snd).Sublist t.appended)
    (hlogging : ∀ x g, (t.writes x).recorded? = some g → ∃ before, t.appended = before ++ [g] ∧
      (commits.map Prod.snd).Sublist before) : CommitsOk calls commits t where
  leads x g hg := by
    by_cases hx : x = w
    · subst hx
      exact hleads g hg
    · rw [WriteCall.group?_congr (hothers x hx)] at hg
      exact h.leads x g hg
  returned x hx := by
    rw [← h.returned x hx]
    by_cases hxw : x = w
    · subst hxw
      exact iff_of_false (hnot' hx) hnot
    · rw [← WriteCall.returned_unsignalled, hothers x hxw, WriteCall.returned_unsignalled]
  once := h.once
  led := h.led
  logged := hlogged
  logging := hlogging

omit [DecidableEq W] in
/-- The same while the log stays: no other call comes to have a logged group. -/
theorem CommitsOk.of_same_log (h : CommitsOk calls commits s)
    (hothers : ∀ x ≠ w, (t.writes x).unsignalled = (s.writes x).unsignalled)
    (hnot : s.writes w ≠ .returned .OK)
    (hnot' : (calls w).updates.isSome → t.writes w ≠ .returned .OK)
    (hleads : ∀ g, (t.writes w).group? = some g → g.LedBy calls w)
    (happended : t.appended = s.appended)
    (hself : ∀ g, (t.writes w).recorded? = some g → (s.writes w).recorded? = some g) :
    CommitsOk calls commits t := by
  refine h.of_self hothers hnot hnot' hleads (happended ▸ h.logged) fun x g hg => ?_
  rw [happended]
  refine h.logging x g ?_
  by_cases hx : x = w
  · subst hx
    exact hself g hg
  · rw [← WriteCall.recorded?_unsignalled, ← hothers x hx, WriteCall.recorded?_unsignalled]
    exact hg

/-- What follows `MakeRoomForWrite` commits nothing. -/
theorem CommitsOk.rooms (h : CommitsOk calls commits s) (hok : cfg.ok = Status.isOK)
    (hq : QueueOk s) {act : WriteAct} {s₁ : System U V R W N} {room : Room} {o : CreateOutcome}
    {size : Nat} {db : Db U V R N} {e : RoomExit}
    (henters : EntersRoom calls s w act s₁ room o size)
    (hthen : RoomThen cfg calls { s₁ with db } w size e t) : CommitsOk calls commits t := by
  have hothers : ∀ x ≠ w, (t.writes x).unsignalled = (s.writes x).unsignalled := by
    intro x hx
    rw [hthen.others hx]
    exact congrArg (fun writes => (writes x).unsignalled) henters.writes.1
  have happended : t.appended = s.appended :=
    hthen.keeps.2.2.2.1.trans henters.keeps.2.2.1
  have hnot : s.writes w ≠ .returned .OK := by
    cases henters with
    | called hpc => rw [hpc]; nofun
    | woken hpc => rw [hpc]; nofun
    | slept hpc => rw [hpc]; nofun
    | waited hpc => rw [hpc]; nofun
  obtain ⟨rest, hs₁, -⟩ := henters.shape hq
  cases hthen with
  | sleeps room =>
    refine h.of_same_log hothers hnot (fun _ => ?_) ?_ happended ?_
    · rw [setWrite_self]; nofun
    · rw [setWrite_self]; nofun
    · rw [setWrite_self]; nofun
  | waits room =>
    refine h.of_same_log hothers hnot (fun _ => ?_) ?_ happended ?_
    · rw [setWrite_self]; nofun
    · rw [setWrite_self]; nofun
    · rw [setWrite_self]; nofun
  | @leads status hgood hbatch hsize =>
    refine h.of_same_log hothers hnot (fun _ => ?_) (fun g hg => ?_) happended ?_
    · rw [setWrite_self]; nofun
    · rw [setWrite_self] at hg
      obtain rfl := Option.some.inj hg
      refine ⟨?_, hbatch, buildGroup_carries size⟩
      show (s₁.writers.take size).head? = some w
      rw [hs₁]
      obtain ⟨size, rfl⟩ := Nat.exists_eq_succ_of_ne_zero hsize.ne'
      rfl
    · rw [setWrite_self]; nofun
  | @returns status rest hwriters hbad =>
    refine h.of_same_log hothers hnot (fun hbatch => ?_) ?_ happended ?_
    · rw [leave_self]
      rintro heq
      cases heq
      exact hbad ⟨by rw [hok]; rfl, hbatch⟩
    · rw [leave_self]; nofun
    · rw [leave_self]; nofun

omit [DecidableEq W] in
/-- The leader of a group returns; its group is committed if it returns OK. -/
theorem CommitsOk.finish (h : CommitsOk calls commits s) {g : Group U V W} {status : Status}
    {syncError : Bool} (hpc : s.writes w = .relocking g status syncError)
    (hothers : ∀ x ≠ w, (t.writes x).unsignalled = (s.writes x).unsignalled)
    (hself : t.writes w = .returned status) (halone : ∀ x ≠ w, (t.writes x).recorded? = none)
    (happended : t.appended = s.appended) :
    CommitsOk calls (commits ++ s.committing (.write w .finish)) t := by
  have hled : g.LedBy calls w := h.leads w g (by rw [hpc]; rfl)
  have hnot : s.writes w ≠ .returned .OK := by rw [hpc]; nofun
  unfold System.committing
  dsimp only
  rw [hpc]
  by_cases hstatus : status = .OK
  · subst hstatus
    obtain ⟨before, hbefore, hsub⟩ := h.logging w g (by rw [hpc]; rfl)
    have hnew : w ∉ commits.map Prod.fst := fun hin => hnot ((h.returned w hled.batch).mpr hin)
    show CommitsOk calls (commits ++ [(w, g)]) t
    refine ⟨fun x g' hg' => ?_, fun x hx => ?_, ?_, fun c hc => ?_, ?_, fun x g' hg' => ?_⟩
    · by_cases hxw : x = w
      · rw [hxw, hself] at hg'
        cases hg'
      · rw [WriteCall.group?_congr (hothers x hxw)] at hg'
        exact h.leads x g' hg'
    · rw [List.map_append, List.mem_append, ← h.returned x hx]
      by_cases hxw : x = w
      · subst hxw
        exact iff_of_true hself (Or.inr List.mem_cons_self)
      · rw [← WriteCall.returned_unsignalled, hothers x hxw, WriteCall.returned_unsignalled]
        exact (or_iff_left fun hin => hxw (List.mem_singleton.mp hin)).symm
    · rw [List.map_append, List.nodup_append]
      refine ⟨h.once, List.nodup_singleton w, ?_⟩
      rintro a ha b hb rfl
      obtain rfl : a = w := List.mem_singleton.mp hb
      exact hnew ha
    · rcases List.mem_append.mp hc with hc | hc
      · exact h.led c hc
      · rw [List.mem_singleton.mp hc]
        exact hled
    · rw [happended, hbefore, List.map_append]
      exact hsub.append (List.Sublist.refl _)
    · by_cases hxw : x = w
      · rw [hxw, hself] at hg'
        cases hg'
      · rw [halone x hxw] at hg'
        cases hg'
  · rw [show (WriteCall.relocking g status syncError : WriteCall U V W).placing? = none from
      if_neg hstatus]
    show CommitsOk calls (commits ++ []) t
    rw [List.append_nil]
    refine h.of_same_log hothers hnot (fun _ => ?_) ?_ happended ?_
    · rw [hself]
      exact fun heq => hstatus (WriteCall.returned.inj heq)
    · rw [hself]; nofun
    · rw [hself]; nofun

theorem CommitsOk.write (h : CommitsOk calls commits s) (hok : cfg.ok = Status.isOK)
    (hq : QueueOk s) {act : WriteAct} (hstep : WriteStep cfg calls s w act t) :
    CommitsOk calls (recordCommits commits s (.write w act) t) t := by
  have hothers : ∀ x ≠ w, (t.writes x).unsignalled = (s.writes x).unsignalled :=
    fun x hx => hstep.others hx
  have hsame : act ≠ .finish → CommitsOk calls commits t →
      CommitsOk calls (recordCommits commits s (.write w act) t) t := by
    intro hact hc
    unfold recordCommits
    rw [committing_of_ne fun x heq => hact (by cases heq; rfl), List.append_nil]
    exact hc
  -- while a call is active, no other one has a group
  have halone : (s.writes w).phase = .active → ∀ x ≠ w, (t.writes x).recorded? = none := by
    intro hactive x hx
    refine WriteCall.recorded?_none ?_
    rw [WriteCall.group?_congr (hothers x hx)]
    cases hg : (s.writes x).group? with
    | none => rfl
    | some g => exact absurd (hq.unique (WriteCall.active_of_group hg) hactive) hx
  cases hstep with
  | joins hpc =>
    refine hsame nofun (h.of_same_log hothers (by rw [hpc]; nofun) (fun _ => ?_) ?_ rfl ?_)
    · rw [setWrite_self]; nofun
    · rw [setWrite_self]; nofun
    · rw [setWrite_self]; nofun
  | waits hpc =>
    refine hsame nofun (h.of_same_log hothers (by rw [hpc]; nofun) (fun _ => ?_) ?_ rfl ?_)
    · rw [setWrite_self]; nofun
    · rw [setWrite_self]; nofun
    · rw [setWrite_self]; nofun
  | rooms henters hmake hthen =>
    refine hsame ?_ (h.rooms hok hq henters hthen)
    cases henters with
    | _ => nofun
  | @appends t g status hpc happend =>
    have hled : g.LedBy calls w := h.leads w g (by rw [hpc]; rfl)
    have hgroup := group?_logAppend happend
    have halone := halone (by rw [hpc]; rfl)
    obtain ⟨n, -, happend⟩ := Option.bind_eq_some_iff.mp happend
    obtain ⟨records, -, rfl⟩ := Option.map_eq_some_iff.mp happend
    refine hsame nofun (h.of_self hothers (by rw [hpc]; nofun) (fun _ heq => ?_)
      (fun g' hg' => Option.some.inj (hgroup.symm.trans hg') ▸ hled) ?_ fun x g' hg' => ?_)
    · rw [heq] at hgroup
      cases hgroup
    · show (commits.map Prod.snd).Sublist (if status = .OK then s.appended ++ [g] else s.appended)
      split
      · exact h.logged.trans (List.sublist_append_left _ _)
      · exact h.logged
    · by_cases hx : x = w
      · subst hx
        obtain rfl := Option.some.inj (hgroup.symm.trans (WriteCall.group?_of_recorded hg'))
        refine ⟨s.appended, if_pos ?_, h.logged⟩
        rw [setWrite_self, hok] at hg'
        by_contra hstatus
        rw [if_neg (fun hisOK => hstatus (Status.isOK_iff.mp hisOK))] at hg'
        have hg' : (if status = .OK then some g else none) = some g := hg'
        rw [if_neg hstatus] at hg'
        cases hg'
      · rw [halone x hx] at hg'
        cases hg'
  | @syncs t g status hpc hsync =>
    have hled : g.LedBy calls w := h.leads w g (by rw [hpc]; rfl)
    have hgroup := group?_logSync hsync
    obtain ⟨n, -, rfl⟩ := Option.map_eq_some_iff.mp hsync
    refine hsame nofun (h.of_same_log hothers (by rw [hpc]; nofun) (fun _ heq => ?_)
      (fun g' hg' => Option.some.inj (hgroup.symm.trans hg') ▸ hled) rfl fun g' hg' => ?_)
    · rw [heq] at hgroup
      cases hgroup
    · rw [hpc]
      exact hgroup.symm.trans (WriteCall.group?_of_recorded hg')
  | @inserts t g m e rest hpc hinsert =>
    have hled : g.LedBy calls w := h.leads w g (by rw [hpc]; rfl)
    have hgroup := group?_memInsert hinsert
    obtain ⟨memtables, -, rfl⟩ := Option.map_eq_some_iff.mp hinsert
    refine hsame nofun (h.of_same_log hothers (by rw [hpc]; nofun) (fun _ heq => ?_)
      (fun g' hg' => Option.some.inj (hgroup.symm.trans hg') ▸ hled) rfl fun g' hg' => ?_)
    · rw [heq] at hgroup
      cases hgroup
    · rw [hpc]
      exact hgroup.symm.trans (WriteCall.group?_of_recorded hg')
  | @ends t g m rest status hpc hend =>
    have hled : g.LedBy calls w := h.leads w g (by rw [hpc]; rfl)
    have hgroup := group?_insertEnd hend
    unfold System.insertEnd at hend
    split at hend
    · cases hend
    · cases hend
      refine hsame nofun (h.of_same_log hothers (by rw [hpc]; nofun) (fun _ heq => ?_)
        (fun g' hg' => Option.some.inj (hgroup.symm.trans hg') ▸ hled) rfl fun g' hg' => ?_)
      · rw [heq] at hgroup
        cases hgroup
      · rw [hpc]
        exact hgroup.symm.trans (WriteCall.group?_of_recorded hg')
  | @finishes g status syncError rest hpc hwriters =>
    refine h.finish hpc hothers (leave_self rest status) (halone (by rw [hpc]; rfl)) ?_
    obtain ⟨writes, heq⟩ := finish_keeps cfg s w g status syncError rest
    rw [heq]

variable [Std.TransCmp cfg.version.icmp]

theorem CommitsOk.step (h : CommitsOk calls commits s) (hok : cfg.ok = Status.isOK)
    (hq : QueueOk s) {l : Label U V W N} (hstep : System.step cfg calls s l = some t) :
    CommitsOk calls (recordCommits commits s l t) t := by
  rcases l.write_or_other with ⟨w, act, rfl⟩ | hl
  · exact h.write hok hq (writeStep_of_write hq hstep)
  · have hsame := sameQueue_of_step hl hstep
    unfold recordCommits
    rw [committing_of_ne fun x => hl x .finish, List.append_nil]
    refine ⟨fun x g hg => ?_, fun x hx => ?_, h.once, h.led, ?_, fun x g hg => ?_⟩
    · rw [WriteCall.group?_congr (hsame.unsignalled x)] at hg
      exact h.leads x g hg
    · rw [← h.returned x hx, ← WriteCall.returned_unsignalled, hsame.unsignalled,
        WriteCall.returned_unsignalled]
    · rw [hsame.appended]
      exact h.logged
    · rw [hsame.appended]
      refine h.logging x g ?_
      rw [← WriteCall.recorded?_unsignalled, ← hsame.unsignalled, WriteCall.recorded?_unsignalled]
      exact hg

omit [DecidableEq W] [Std.TransCmp cfg.version.icmp] in
theorem Opened.commitsOk (hopened : Opened s) : CommitsOk calls [] s where
  leads w g hg := by
    rw [hopened.writes] at hg
    cases hg
  returned w _ := by
    rw [hopened.writes]
    exact iff_of_false nofun List.not_mem_nil
  once := List.nodup_nil
  led _ hc := absurd hc List.not_mem_nil
  logged := List.nil_sublist _
  logging w g hg := by
    rw [hopened.writes] at hg
    cases hg

end Step

end LevelDB
