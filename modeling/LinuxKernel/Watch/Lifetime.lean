import LinuxKernel.Watch.Calls
import LinuxKernel.Lib.Run

/-!
# /proc/watch — the life of a process

Whether there is something to be measured is asked by the pid, and what is measured is the
task that had the pid when it was written. In between, the task may have exited, been reaped,
and its pid be given to another one.

* `System`          — the processes and the module, which take their steps in any order.
* `History`         — the processes without the module, and what was written last.
* `watch_safe_iff`  — no measurement is made of a task that is not there or has no `mm`, and
  after an exit "-1 -1 -1 -1 -1 " is reported, iff at every write and every new read the
  pid is free or the task it was written for has an `mm`.
-/

namespace LinuxKernel.Watch

open LinuxKernel.Lib LinuxKernel.Proc

/-! ## Steps -/

structure System where
  world : World
  watch : State

inductive WatchOp
  | write (userOk : Bool) (pos : BitVec 64) (ubuf : List Byte)
  | read (userOk : Bool) (pos len : BitVec 64)
  | process (op : ProcessOp)

/-- One call or a step of a process; nothing comes after a null pointer. -/
def System.next (userHz : Nat) (s : System) : WatchOp → Option System
  | .write userOk pos ubuf =>
    match procWrite userOk pos ubuf s.world s.watch with
    | .ok (_, world, watch) => some ⟨world, watch⟩
    | .error _ => none
  | .read userOk pos len =>
    match procRead userHz userOk pos len s.world s.watch with
    | .ok (_, world, watch) => some ⟨world, watch⟩
    -- bytes from behind the array have been copied to the reader
    | .error .overrun => some s
    | .error _ => none
  | .process op => some { s with world := s.world.next op }

/-- A new read after the measured process has exited reports that it is gone. -/
def ReportsGone (op : WatchOp) (t : System) : Prop :=
  match op with
  | .read _ pos _ => pos = 0 → ∀ task, t.watch.taskp = some task →
    (t.world.tasks task).life = .exited →
    cstr t.watch.output.bytes = goneText ∧ t.watch.outLen = goneText.length
  | _ => True

/-! ## What happened before -/

/-- The processes as they are without the module, the pid written last, and the task it was
registered for then. -/
structure History where
  world : World
  pid   : Pid
  task  : Option Nat

def History.note (h : History) : WatchOp → History
  | .write userOk pos ubuf =>
    match writtenPid userOk pos ubuf with
    | none => h
    | some pid => { h with pid := pid, task := h.world.pids pid }
  | .read _ _ _ => h
  | .process op => { h with world := h.world.next op }

/-- A pid that is written is free or that of a task with an `mm`; at a new read, the pid written
last is free, or the task it was registered for then has an `mm`. -/
def MayMeasure (h : History) : WatchOp → Prop
  | .write userOk pos ubuf => ∀ pid task, writtenPid userOk pos ubuf = some pid →
    h.world.pids pid = some task → (h.world.tasks task).mm ≠ none
  | .read _ pos _ => pos = 0 → h.world.pids h.pid = none ∨
    ∃ task, h.task = some task ∧ (h.world.tasks task).mm ≠ none
  | .process _ => True

/-! ## The module and the history -/

/-- Two worlds that differ in nothing but the address spaces. -/
structure World.SameTasks (w v : World) : Prop where
  pids    : w.pids = v.pids
  tasks   : w.tasks = v.tasks
  created : w.created = v.created

theorem World.SameTasks.next {w v : World} (h : w.SameTasks v) (op : ProcessOp) :
    (w.next op).SameTasks (v.next op) := by
  obtain ⟨pids, tasks, mms, created, exist⟩ := w
  obtain ⟨pids', tasks', mms', created', exist'⟩ := v
  obtain ⟨rfl, rfl, rfl⟩ := h
  cases op with
  | create pid mm signal =>
    unfold World.next
    dsimp only
    split
    · exact ⟨rfl, rfl, rfl⟩
    · exact ⟨rfl, rfl, rfl⟩
  | work signals mms => exact ⟨rfl, rfl, rfl⟩
  | exit task => exact ⟨rfl, rfl, rfl⟩
  | reap pid =>
    unfold World.next
    dsimp only
    split
    · exact ⟨rfl, rfl, rfl⟩
    · split
      · exact ⟨rfl, rfl, rfl⟩
      · exact ⟨rfl, rfl, rfl⟩

/-- The module has the task and the pid of the history. -/
structure Agrees (s : System) (h : History) : Prop where
  same  : s.world.SameTasks h.world
  pid   : s.watch.pidMeasured = h.pid
  taskp : s.watch.taskp = h.task

theorem Agrees.start (s : System) : Agrees s ⟨s.world, s.watch.pidMeasured, s.watch.taskp⟩ :=
  ⟨⟨rfl, rfl, rfl⟩, rfl, rfl⟩

section Steps

variable {userHz : Nat} {s t : System} {h : History}

/-- A read that is not a new one changes nothing. -/
theorem System.next_read_later {pos : BitVec 64} (hpos : pos ≠ 0) (userOk : Bool)
    (len : BitVec 64) :
    s.next userHz (.read userOk pos len) = some s := by
  unfold System.next procRead
  dsimp only
  rw [if_neg hpos, ok_bind]
  dsimp only
  obtain ⟨result, hcopy⟩ | hcopy := copyReport_cases userOk s.watch pos len
  · rw [hcopy]
    rfl
  · rw [hcopy]
    rfl

/-- A new read does what `updateStatus` does: the copy from the start of the report succeeds. -/
theorem System.next_read_new (userOk : Bool) (len : BitVec 64) {world : World} {watch : State}
    (hstatus : updateStatus userHz s.world s.watch = .ok (world, watch)) :
    s.next userHz (.read userOk 0 len) = some ⟨world, watch⟩ := by
  obtain ⟨text, hholds, hout, -⟩ := updateStatus_holds hstatus
  have hcopy : ∃ result, copyReport userOk watch 0 len = .ok result := by
    unfold copyReport
    dsimp only
    rw [hout, copyToUser_holds hholds (Nat.zero_le _), ok_bind]
    dsimp only
    split
    · exact ⟨_, rfl⟩
    · exact ⟨_, rfl⟩
  obtain ⟨result, hcopy⟩ := hcopy
  unfold System.next procRead
  dsimp only
  rw [if_pos rfl, hstatus, ok_bind]
  dsimp only
  rw [hcopy]
  rfl

theorem System.next_read_fault (userOk : Bool) (len : BitVec 64)
    (hfault : updateStatus userHz s.world s.watch = .error .nullPointer) :
    s.next userHz (.read userOk 0 len) = none := by
  unfold System.next procRead
  dsimp only
  rw [if_pos rfl, hfault]
  rfl

/-- **What a write that returns does:** nothing if it is refused; otherwise it notes the pid, and
measures the task that has it. -/
theorem System.next_write_cases {userOk : Bool} {pos : BitVec 64} {ubuf : List Byte}
    (hnext : s.next userHz (.write userOk pos ubuf) = some t) :
    (writtenPid userOk pos ubuf = none ∧ t = s) ∨
    (∃ pid, writtenPid userOk pos ubuf = some pid ∧ s.world.pids pid = none ∧
      t = ⟨s.world, { s.watch with taskp := none, pidMeasured := pid }⟩) ∨
    (∃ pid task mms, writtenPid userOk pos ubuf = some pid ∧ s.world.pids pid = some task ∧
      t = ⟨{ s.world with mms := mms }, s.watch.measuring pid task⟩) := by
  unfold System.next at hnext
  dsimp only at hnext
  obtain ⟨hw, hcall⟩ | ⟨pid, _, hw, hpid, hcall⟩ | ⟨pid, task, _, _, mms, hw, hpid, -, hcall⟩ |
    ⟨_, _, -, -, -, hcall⟩ := procWrite_cases userOk pos ubuf s.world s.watch
  · rw [hcall] at hnext
    exact Or.inl ⟨hw, (Option.some.inj hnext).symm⟩
  · rw [hcall] at hnext
    exact Or.inr (Or.inl ⟨pid, hw, hpid, (Option.some.inj hnext).symm⟩)
  · rw [hcall] at hnext
    exact Or.inr (Or.inr ⟨pid, task, mms, hw, hpid, (Option.some.inj hnext).symm⟩)
  · rw [hcall] at hnext
    simp at hnext

/-- **What a read that returns does:** nothing, unless it is a new one; it then reports that the pid
is free, or it measures the task. -/
theorem System.next_read_cases {userOk : Bool} {pos len : BitVec 64}
    (hnext : s.next userHz (.read userOk pos len) = some t) :
    (pos ≠ 0 ∧ t = s) ∨
    (s.world.pids s.watch.pidMeasured = none ∧ t = ⟨s.world,
      { s.watch with output := writeGone s.watch.output, outLen := goneText.length }⟩) ∨
    (pos = 0 ∧ s.world.pids s.watch.pidMeasured ≠ none ∧ ∃ mms output numbers,
      output.Holds (reportText numbers) ∧ t = ⟨{ s.world with mms := mms }, { s.watch with
        output := output, outLen := (reportText numbers).length,
          pidRefs := s.watch.pidRefs + 1 }⟩) := by
  by_cases hpos : pos = 0
  · subst hpos
    obtain ⟨hpid, hok⟩ | ⟨_, _, mms, output, numbers, hpid, -, -, hok, hholds, -⟩ |
        ⟨-, -, hfault⟩ :=
      updateStatus_cases userHz s.world s.watch
    · rw [System.next_read_new userOk len hok] at hnext
      exact Or.inr (Or.inl ⟨hpid, (Option.some.inj hnext).symm⟩)
    · rw [System.next_read_new userOk len hok] at hnext
      exact Or.inr (Or.inr ⟨rfl, hpid, mms, output, numbers, hholds, (Option.some.inj hnext).symm⟩)
    · rw [System.next_read_fault userOk len hfault] at hnext
      simp at hnext
  · rw [System.next_read_later hpos] at hnext
    exact Or.inl ⟨hpos, (Option.some.inj hnext).symm⟩

/-- **One step.** Whatever an operation does, the module agrees with the history. -/
theorem Agrees.next {op : WatchOp} (ha : Agrees s h) (hnext : s.next userHz op = some t) :
    Agrees t (h.note op) := by
  cases op with
  | write userOk pos ubuf =>
    unfold History.note
    dsimp only
    obtain ⟨hw, rfl⟩ | ⟨pid, hw, hpid, rfl⟩ | ⟨pid, task, _, hw, hpid, rfl⟩ :=
      System.next_write_cases hnext
    · rw [hw]
      exact ha
    · rw [hw]
      refine ⟨ha.same, rfl, ?_⟩
      show none = h.world.pids pid
      rw [← ha.same.pids, hpid]
    · rw [hw]
      refine ⟨⟨ha.same.pids, ha.same.tasks, ha.same.created⟩, rfl, ?_⟩
      show some task = h.world.pids pid
      rw [← ha.same.pids, hpid]
  | read userOk pos len =>
    obtain ⟨-, rfl⟩ | ⟨-, rfl⟩ | ⟨-, -, _, _, _, -, rfl⟩ := System.next_read_cases hnext
    · exact ha
    · exact ⟨ha.same, ha.pid, ha.taskp⟩
    · exact ⟨⟨ha.same.pids, ha.same.tasks, ha.same.created⟩, ha.pid, ha.taskp⟩
  | process op =>
    obtain rfl := Option.some.inj hnext
    exact ⟨ha.same.next op, ha.pid, ha.taskp⟩

/-- A write goes well exactly if there is nothing to be measured or something to be measured. -/
theorem Agrees.write_iff (ha : Agrees s h) (userOk : Bool) (pos : BitVec 64) (ubuf : List Byte) :
    (∃ t, s.next userHz (.write userOk pos ubuf) = some t) ↔
    MayMeasure h (.write userOk pos ubuf) := by
  unfold System.next MayMeasure
  dsimp only
  rw [← ha.same.pids, ← ha.same.tasks]
  obtain ⟨hw, hcall⟩ | ⟨pid, _, hw, hpid, hcall⟩ | ⟨pid, task, mm, _, _, hw, hpid, hmm, hcall⟩ |
    ⟨pid, task, hw, hpid, hmm, hcall⟩ := procWrite_cases userOk pos ubuf s.world s.watch
  · rw [hcall, hw]
    exact ⟨fun _ => by simp, fun _ => ⟨_, rfl⟩⟩
  · rw [hcall, hw]
    refine ⟨fun _ pid' task hpid' htask => ?_, fun _ => ⟨_, rfl⟩⟩
    obtain rfl := Option.some.inj hpid'
    rw [hpid] at htask
    simp at htask
  · rw [hcall, hw]
    refine ⟨fun _ pid' task' hpid' htask => ?_, fun _ => ⟨_, rfl⟩⟩
    obtain rfl := Option.some.inj hpid'
    obtain rfl := Option.some.inj (hpid.symm.trans htask)
    rw [hmm]
    exact Option.some_ne_none mm
  · rw [hcall, hw]
    refine ⟨by simp, fun hall => absurd hmm (hall pid task rfl hpid)⟩

/-- A new read goes well, and tells that the measured process has exited, exactly if the pid is free
or the task can be measured. -/
theorem Agrees.read_iff (ha : Agrees s h) (userOk : Bool) (len : BitVec 64) :
    (∃ t, s.next userHz (.read userOk 0 len) = some t ∧ ReportsGone (.read userOk 0 len) t) ↔
      MayMeasure h (.read userOk 0 len) := by
  unfold MayMeasure
  dsimp only
  rw [← ha.same.pids, ← ha.same.tasks, ← ha.pid, ← ha.taskp]
  obtain ⟨hpid, hok⟩ | ⟨task, mm, _, _, _, -, htaskp, hmm, hok, -, -⟩ |
      ⟨⟨holder, hpid⟩, hnone, hfault⟩ :=
    updateStatus_cases userHz s.world s.watch
  · rw [System.next_read_new userOk len hok]
    refine ⟨fun _ _ => Or.inl hpid, fun _ => ⟨_, rfl, fun _ _ _ _ => ⟨?_, rfl⟩⟩⟩
    exact (writeGone_holds s.watch.output).cstr_eq
  · rw [System.next_read_new userOk len hok]
    have hmm' : (s.world.tasks task).mm ≠ none := by
      rw [hmm]
      exact Option.some_ne_none mm
    refine ⟨fun _ _ => Or.inr ⟨task, htaskp, hmm'⟩,
      fun _ => ⟨_, rfl, fun _ task' htask' hexited => ?_⟩⟩
    -- a task with an mm has not exited
    obtain rfl := Option.some.inj (htaskp.symm.trans htask')
    refine absurd ?_ hmm'
    unfold Task.mm
    rw [show (s.world.tasks task).life = .exited from hexited]
  · rw [System.next_read_fault userOk len hfault]
    refine ⟨by simp, fun hmay => ?_⟩
    obtain hfree | ⟨task, htaskp, hmm⟩ := hmay rfl
    · rw [hpid] at hfree
      simp at hfree
    · exact absurd (hnone task htaskp) hmm

/-- **Any operation.** -/
theorem Agrees.safe_iff (ha : Agrees s h) (op : WatchOp) :
    (∃ t, s.next userHz op = some t ∧ ReportsGone op t) ↔ MayMeasure h op := by
  cases op with
  | write userOk pos ubuf =>
    rw [← ha.write_iff userOk pos ubuf]
    exact ⟨fun ⟨t, hnext, _⟩ => ⟨t, hnext⟩, fun ⟨t, hnext⟩ => ⟨t, hnext, trivial⟩⟩
  | read userOk pos len =>
    by_cases hpos : pos = 0
    · subst hpos
      exact ha.read_iff userOk len
    · rw [System.next_read_later hpos]
      exact ⟨fun _ h => absurd h hpos, fun _ => ⟨s, rfl, fun h => absurd h hpos⟩⟩
  | process op => exact ⟨fun _ => trivial, fun _ => ⟨_, rfl, trivial⟩⟩

end Steps

/-- **The life of a process.** For all processes, the module in any state, and writes, reads,
creations, exits, reaping and all else processes do, in any order: no call measures a task that is
not there or has no `mm`, and every new read after the measured process has exited reports "-1 -1 -1
-1 -1 ", iff every pid written is free or that of a task with an `mm`, and at every new read the pid
written last is free or the task it was registered for then has an `mm`. -/
theorem watch_safe_iff (userHz : Nat) (s : System) (ops : List WatchOp) :
    (∀ before op after, ops = before ++ op :: after →
      ∃ t, run (System.next userHz) s (before ++ [op]) = some t ∧ ReportsGone op t) ↔
    ∀ before op after, ops = before ++ op :: after →
      MayMeasure (before.foldl History.note ⟨s.world, s.watch.pidMeasured, s.watch.taskp⟩) op := by
  have hstep : ∀ s h op t, Agrees s h → System.next userHz s op = some t → Agrees t (h.note op) :=
    fun _ _ _ _ ha hnext => ha.next hnext
  exact run_all_iff hstep (fun _ _ op ha => ha.safe_iff op) (Agrees.start s) ops

/-- The measured process is a zombie; it has been reaped and its pid given to another one; a pid
that was free when it was written is given to a process: the next read measures a task without an
`mm`, twice the one that has exited, and no task at all. Nor can the pid of a zombie be written. -/
theorem watch_safe_fails :
    let s : System := ⟨sampleWorld, State.init⟩
    let signal : Signal := ⟨0, 0, ⟨0, 0, []⟩, []⟩
    let write42 : WatchOp := .write true 0 [52, 50, 10]
    let read : WatchOp := .read true 0 20
    (run (System.next 100) s [write42, read, .process (.exit 0)]).isSome ∧
    run (System.next 100) s [write42, read, .process (.exit 0), read] = none ∧
    run (System.next 100) s [write42, .process (.exit 0), .process (.reap 42),
      .process (.create 42 (some 0) signal), read] = none ∧
    run (System.next 100) s [.process (.exit 0), .process (.reap 42), write42,
      .process (.create 42 (some 0) signal), read] = none ∧
    run (System.next 100) s [.process (.exit 0), write42] = none := by
  refine ⟨by decide +kernel, ?_, ?_, ?_, ?_⟩
  all_goals exact Option.isNone_iff_eq_none.mp (by decide +kernel)

end LinuxKernel.Watch
