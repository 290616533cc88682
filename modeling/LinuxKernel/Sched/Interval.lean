import LinuxKernel.Sched.Slice

/-!
# Android scheduler — the time slice that is reported

`sched_rr_get_interval` asks the class of a task for its slice. `get_rr_interval_wrr` decides by the
path of the cgroup alone, and calls every group but the root a background group; the rest of the
class looks at the path of the autogroup first, and at its second character.

* `classify_slice`, `taskTickWrr_slice` — what a task is granted when it enters its group, and at
  the end of every slice.
* `wrr_interval_iff` — for which groups this is what is reported.
-/

namespace LinuxKernel.Sched

open LinuxKernel.Lib

variable {σ : Type}

/-! ## `get_rr_interval` -/

/-- The two paths of a group. `autogroup_path` returns 0 for a group that is not an autogroup. -/
structure GroupPaths (c : Config) where
  autogroupPath : TaskGroup → Option (List Char)
  cgroupPath    : TaskGroup → List Char
  groupPath_eq  : ∀ g, c.groupPath g = (autogroupPath g).getD (cgroupPath g)

/-- `get_rr_interval_wrr`. It returns no value for a task with another policy. -/
def getRrIntervalWrr (c : Config) (paths : GroupPaths c) (t : Task) : Option Nat :=
  if t.policy = .wrr then
    -- group_path[1] == '\0'
    if (paths.cgroupPath t.schedTaskGroup)[1]? = none then some c.wrrFgTimeslice
    else some c.wrrBgTimeslice
  else none

/-- `get_rr_interval_rt` -/
def getRrIntervalRt (c : Config) (t : Task) : Nat := if t.policy = .rr then c.rrTimeslice else 0

/-- `p->sched_class->get_rr_interval`; `other` stands for the classes that are not in the tree. -/
def getRrInterval (c : Config) (paths : GroupPaths c) (other : Task → Nat) (t : Task) :
    Option Nat :=
  match t.schedClass with
  | .wrr => getRrIntervalWrr c paths t
  | .rt => some (getRrIntervalRt c t)
  | _ => some (other t)

/-- `sys_sched_rr_get_interval`: the value returned, and the slice that is written in jiffies.
`find` is `find_process_by_pid`, `security` what `security_task_getscheduler` returns. -/
def schedRrGetInterval (c : Config) (paths : GroupPaths c) (other : Task → Nat) (s : State σ)
    (find : Int → Option Pid) (security : Pid → Int) (copyOk : Bool) (pid : Int) :
    Int × Option Nat :=
  if pid < 0 then (-22, none)
  else
    match find pid with
    | none => (-3, none)
    | some p =>
      if security p ≠ 0 then (security p, none)
      else if copyOk then (0, getRrInterval c paths other (s.tasks p))
      else (-14, none)

/-! ## What is granted -/

/-- The slice `enqueue_wrr_entity` assigns when a task enters a group. -/
theorem classify_slice (c : Config) (g : TaskGroup) {w : SchedWrrEntity}
    (hw : w.weight ≠ groupWeight c g) :
    (classify c g w).timeSlice = refill c (groupWeight c g) := by
  unfold classify groupWeight at *
  cases hbg : c.background g with
  | true => simp_all [refill]
  | false => simp_all [refill]

/-- The slice `task_tick_wrr` assigns when the old one is used up. -/
theorem taskTickWrr_slice (c : Config) {s : State σ} {p : Pid}
    (h : (s.tasks p).wrr.timeSlice = 1) :
    ((taskTickWrr c s p).tasks p).wrr.timeSlice = refill c (s.tasks p).wrr.weight := by
  unfold taskTickWrr
  dsimp only
  rw [updateCurrWrr_toBase, h, usub_of_le le_rfl, if_neg (by decide)]
  split
  · simp [requeueTaskWrr, Base.setWrr]
  · simp [Base.setWrr]

/-- The slice that is reported for a task is the one it is granted: the one it gets when it enters
its group with another weight, and the one it gets at the tick that uses up the old one. -/
structure ReportsGranted (k : Kernel σ) (paths : GroupPaths k.toConfig) (s : State σ) (p : Pid) :
    Prop where
  entered  : ∀ w : SchedWrrEntity,
    w.weight ≠ groupWeight k.toConfig (s.tasks p).schedTaskGroup →
    getRrIntervalWrr k.toConfig paths (s.tasks p) =
      some (classify k.toConfig (s.tasks p).schedTaskGroup w).timeSlice
  refilled : getRrIntervalWrr k.toConfig paths (s.tasks p) =
    some ((taskTickWrr k.toConfig (s.setWrr p fun t => { t.wrr with timeSlice := 1 }) p).tasks
      p).wrr.timeSlice
  syscall  : ∀ other find security pid, 0 ≤ pid → find pid = some p → security p = 0 →
    schedRrGetInterval k.toConfig paths other s find security true pid =
      (0, some (refill k.toConfig (s.tasks p).wrr.weight))

/-- What is granted to a group, and what is reported for it. -/
theorem interval_eq_granted_iff (c : Config) (paths : GroupPaths c) {t : Task}
    (hpol : t.policy = .wrr) :
    getRrIntervalWrr c paths t = some (refill c (groupWeight c t.schedTaskGroup)) ↔
      ((paths.cgroupPath t.schedTaskGroup)[1]? = none ↔
        (c.groupPath t.schedTaskGroup)[1]? ≠ some 'b') ∨
      c.wrrFgTimeslice = c.wrrBgTimeslice := by
  have hbg : (c.groupPath t.schedTaskGroup)[1]? ≠ some 'b' ↔
      c.background t.schedTaskGroup = false := by
    rw [Config.background, beq_eq_false_iff_ne]
  rw [hbg, getRrIntervalWrr, if_pos hpol]
  by_cases hroot : (paths.cgroupPath t.schedTaskGroup)[1]? = none
  · rw [if_pos hroot]
    cases hb : c.background t.schedTaskGroup with
    | true => simp [hroot, hb, refill, groupWeight]
    | false => simp [hroot, hb, refill, groupWeight]
  · rw [if_neg hroot]
    cases hb : c.background t.schedTaskGroup with
    | true => simp [hroot, hb, refill, groupWeight]
    | false => simp [hroot, hb, refill, groupWeight, eq_comm]

/-- **The reported slice.** In every state reached from boot, the slice that is reported for a
queued SCHED_WRR task is the one it is granted exactly if its cgroup is the root and its group is
not a background group, or its cgroup is not the root and its group is one (or HZ is so small that
the two slices are the same). -/
theorem wrr_interval_iff (k : Kernel σ) (paths : GroupPaths k.toConfig) (s : State σ)
    (hs : Reachable (step k) (boot k) s) (p : Pid) (hp : p ∈ s.toBase.wrr.queue)
    (hpol : (s.tasks p).policy = .wrr) :
    ReportsGranted k paths s p ↔
      ((paths.cgroupPath (s.tasks p).schedTaskGroup)[1]? = none ↔
        (k.groupPath (s.tasks p).schedTaskGroup)[1]? ≠ some 'b') ∨
      k.wrrFgTimeslice = k.wrrBgTimeslice := by
  have hI := (Inv.reachable hs).queues.wrr
  have hclass := (hI.mem.mp hp).2
  have hweight := hI.weight hp
  rw [← interval_eq_granted_iff k.toConfig paths hpol]
  constructor
  · intro h
    have hother : (0 : Nat) ≠ groupWeight k.toConfig (s.tasks p).schedTaskGroup := by
      rcases groupWeight_cases k.toConfig (s.tasks p).schedTaskGroup with hw | hw <;> omega
    rw [h.entered ⟨0, 0⟩ hother, classify_slice _ _ hother]
  · intro h
    refine ⟨fun w hw => ?_, ?_, fun other find security pid hpid hfind hsec => ?_⟩
    · rw [h, classify_slice _ _ hw]
    · rw [h, taskTickWrr_slice _ (by simp [Base.setWrr]), ← hweight]
      simp [Base.setWrr]
    · rw [schedRrGetInterval, if_neg (by omega), hfind]
      dsimp only
      rw [if_neg (by simp [hsec]), if_pos rfl, getRrInterval, hclass]
      dsimp only
      rw [h, hweight]

/-- The paths of a kernel without autogroups. -/
def cgroupPaths (c : Config) : GroupPaths c where
  autogroupPath _ := none
  cgroupPath := c.groupPath
  groupPath_eq _ := rfl

/-- Both tasks: one in the root group, one in the background group. -/
theorem wrr_interval_two_tasks : ∃ s, Reachable (step fifoKernel) (boot fifoKernel) s ∧
    ReportsGranted fifoKernel (cgroupPaths fifoKernel.toConfig) s 1 ∧
    ReportsGranted fifoKernel (cgroupPaths fifoKernel.toConfig) s 2 := by
  have hrun : (run (step fifoKernel) (boot fifoKernel) wrrOps).any (fun s =>
      s.toBase.wrr.queue = [1, 2] ∧ (s.tasks 1).policy = .wrr ∧ (s.tasks 2).policy = .wrr ∧
      (s.tasks 1).schedTaskGroup = [] ∧ (s.tasks 2).schedTaskGroup = [1]) = true := by
    decide +kernel
  obtain ⟨s, hs, hq⟩ := (Option.any_eq_true _ _).mp hrun
  obtain ⟨hqueue, hpol₁, hpol₂, hg₁, hg₂⟩ := of_decide_eq_true hq
  have hreach := run_reachable hs
  refine ⟨s, hreach, ?_, ?_⟩
  · refine (wrr_interval_iff fifoKernel (cgroupPaths _) s hreach 1 (by simp [hqueue]) hpol₁).mpr ?_
    rw [hg₁]
    decide
  · refine (wrr_interval_iff fifoKernel (cgroupPaths _) s hreach 2 (by simp [hqueue]) hpol₂).mpr ?_
    rw [hg₂]
    decide

/-- The group of the second task is no background group. -/
def fooKernel : Kernel (SchedClass → List Pid) :=
  { fifoKernel with groupPath := fun g => if g = [1] then ['/', 'f', 'o', 'o'] else ['/'] }

/-- A task in the cgroup `/foo` runs for ten jiffies and is said to run for one. -/
theorem wrr_interval_fails : ∃ s, Reachable (step fooKernel) (boot fooKernel) s ∧
    2 ∈ s.toBase.wrr.queue ∧ (s.tasks 2).policy = .wrr ∧ (s.tasks 2).wrr.timeSlice = 10 ∧
    ((taskTickWrr fooKernel.toConfig (s.setWrr 2 fun t => { t.wrr with timeSlice := 1 }) 2).tasks
      2).wrr.timeSlice = 10 ∧
    getRrIntervalWrr fooKernel.toConfig (cgroupPaths _) (s.tasks 2) = some 1 := by
  have hrun : (run (step fooKernel) (boot fooKernel) wrrOps).any (fun s =>
      2 ∈ s.toBase.wrr.queue ∧ (s.tasks 2).policy = .wrr ∧ (s.tasks 2).wrr.timeSlice = 10 ∧
      ((taskTickWrr fooKernel.toConfig (s.setWrr 2 fun t => { t.wrr with timeSlice := 1 }) 2).tasks
        2).wrr.timeSlice = 10 ∧
      getRrIntervalWrr fooKernel.toConfig (cgroupPaths _) (s.tasks 2) = some 1) = true := by
    decide +kernel
  obtain ⟨s, hs, hq⟩ := (Option.any_eq_true _ _).mp hrun
  exact ⟨s, run_reachable hs, of_decide_eq_true hq⟩

end LinuxKernel.Sched
