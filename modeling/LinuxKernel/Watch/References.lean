import LinuxKernel.Watch.Lifetime

/-!
# /proc/watch — the references

`find_get_pid` takes a reference to a `struct pid` and `get_pid_task` one to a task. The module
gives none of them up.

* `State.Balanced`           — no reference to a pid is held, and one to a task at most, that of
  `taskp`.
* `System.next_refs`         — what a step adds to the references.
* `references_balanced_iff`  — the references are balanced after every call of a run, and no read
  adds one, iff no write names a pid that is in use and at no new read the pid written last is.
-/

namespace LinuxKernel.Watch

open LinuxKernel.Lib LinuxKernel.Proc

/-- The references taken and not given up. -/
structure State.Balanced (s : State) : Prop where
  pid  : s.pidRefs = 0
  task : s.taskRefs = [] ∨ ∃ task, s.taskp = some task ∧ s.taskRefs = [task]

/-- A read takes no reference for good. -/
def ReadAddsNone (s : System) (op : WatchOp) (t : System) : Prop :=
  match op with
  | .read _ _ _ =>
    t.watch.pidRefs ≤ s.watch.pidRefs ∧ t.watch.taskRefs.length ≤ s.watch.taskRefs.length
  | _ => True

/-- A write is refused or names a pid that is free, and at a new read the pid written last is
free. -/
def FindsNone (s : System) : WatchOp → Prop
  | .write userOk pos ubuf => ∀ pid, writtenPid userOk pos ubuf = some pid → s.world.pids pid = none
  | .read _ pos _ => pos = 0 → s.world.pids s.watch.pidMeasured = none
  | .process _ => True

section Steps

variable {userHz : Nat} {s t : System} {op : WatchOp}

/-- **One step.** An operation that finds no pid leaves the references as they are, and any other
takes some. -/
theorem System.next_refs (hnext : s.next userHz op = some t) :
    (FindsNone s op ∧ t.watch.pidRefs = s.watch.pidRefs ∧ t.watch.taskRefs = s.watch.taskRefs) ∨
    (¬ FindsNone s op ∧ s.watch.pidRefs < t.watch.pidRefs ∧
      t.watch.taskRefs.length + s.watch.pidRefs ≤ s.watch.taskRefs.length + t.watch.pidRefs) := by
  cases op with
  | write userOk pos ubuf =>
    unfold FindsNone
    dsimp only
    -- no number was given, no process has it, or the process is measured
    obtain ⟨hw, rfl⟩ | ⟨pid, hw, hpid, rfl⟩ | ⟨pid, task, _, hw, hpid, rfl⟩ :=
      System.next_write_cases hnext
    · refine Or.inl ⟨?_, rfl, rfl⟩
      intro pid hpid
      rw [hw] at hpid
      simp at hpid
    · refine Or.inl ⟨?_, rfl, rfl⟩
      intro pid' hpid'
      obtain rfl := Option.some.inj (hw.symm.trans hpid')
      exact hpid
    · refine Or.inr ⟨?_, ?_, ?_⟩
      · intro hall
        rw [hall pid hw] at hpid
        simp at hpid
      · simp only [State.measuring]
        omega
      · simp only [State.measuring, List.length_cons]
        omega
  | read userOk pos len =>
    unfold FindsNone
    -- a later read, no process to measure, or a first read that measures it
    obtain ⟨hpos, rfl⟩ | ⟨hpid, rfl⟩ | ⟨hpos, hpid, _, _, _, -, rfl⟩ := System.next_read_cases hnext
    · exact Or.inl ⟨fun h => absurd h hpos, rfl, rfl⟩
    · exact Or.inl ⟨fun _ => hpid, rfl, rfl⟩
    · refine Or.inr ⟨fun hall => hpid (hall hpos), Nat.lt_succ_self _, ?_⟩
      dsimp only
      omega
  | process op =>
    obtain rfl := Option.some.inj hnext
    exact Or.inl ⟨trivial, rfl, rfl⟩

/-- As many references to pids are taken as to tasks, at least. -/
theorem System.next_taskRefs_le (hle : s.watch.taskRefs.length ≤ s.watch.pidRefs)
    (hnext : s.next userHz op = some t) : t.watch.taskRefs.length ≤ t.watch.pidRefs := by
  obtain ⟨-, hpid, htask⟩ | ⟨-, -, hmore⟩ := System.next_refs hnext
  · rwa [hpid, htask]
  · omega

/-- From balanced references, a step leads to balanced ones exactly if it finds no pid. -/
theorem State.Balanced.next_iff (h : s.watch.Balanced)
    (hle : s.watch.taskRefs.length ≤ s.watch.pidRefs)
    (hnext : s.next userHz op = some t) : t.watch.Balanced ↔ FindsNone s op := by
  have hnil : s.watch.taskRefs = [] := List.length_eq_zero_iff.mp (by have := h.pid; omega)
  obtain ⟨hfinds, hpid, htask⟩ | ⟨hfinds, hmore, -⟩ := System.next_refs hnext
  · refine iff_of_true ⟨?_, Or.inl ?_⟩ hfinds
    · rw [hpid, h.pid]
    · rw [htask, hnil]
  · refine iff_of_false ?_ hfinds
    intro hbalanced
    have := hbalanced.pid
    omega

theorem readAddsNone_of_findsNone (hfinds : FindsNone s op) (hnext : s.next userHz op = some t) :
    ReadAddsNone s op t := by
  obtain ⟨-, hpid, htask⟩ | ⟨hnot, -⟩ := System.next_refs hnext
  · unfold ReadAddsNone
    rw [hpid, htask]
    split
    · exact ⟨Nat.le_refl _, Nat.le_refl _⟩
    · trivial
  · exact absurd hfinds hnot

end Steps

/-- **References.** In every run of the module from when it is loaded, with any writes and reads and
whatever processes do in between: after every call no reference to a `struct pid` is held and one to
a task at most, that of `taskp`, and no read adds one, iff every write that is not refused names a
pid that is free, and at every new read the pid written last is free. -/
theorem references_balanced_iff (userHz : Nat) (w : World)
    {tr : List (StepRec System WatchOp)} {u : System}
    (h : Steps (System.next userHz) ⟨w, State.init⟩ tr u) :
    (∀ r ∈ tr, r.post.watch.Balanced ∧ ReadAddsNone r.pre r.op r.post) ↔
      ∀ r ∈ tr, FindsNone r.pre r.op := by
  have hiff : (∀ r ∈ tr, r.post.watch.Balanced) ↔ ∀ r ∈ tr, FindsNone r.pre r.op :=
    Steps.all_iff (I := fun s => s.watch.taskRefs.length ≤ s.watch.pidRefs)
      (P := fun s => s.watch.Balanced) (fun _ _ _ hle hnext => System.next_taskRefs_le hle hnext)
      (fun _ _ _ hle hbalanced hnext => hbalanced.next_iff hle hnext) h (Nat.le_refl 0)
      ⟨rfl, Or.inl rfl⟩
  constructor
  · intro hall
    exact hiff.mp fun r hr => (hall r hr).1
  · intro hall r hr
    exact ⟨hiff.mpr hall r hr, readAddsNone_of_findsNone (hall r hr) (h.step_of_mem hr)⟩

/-- A pid that is free is written and read twice. -/
theorem references_balanced_free :
    ∃ tr u, Steps (System.next 100) ⟨sampleWorld, State.init⟩ tr u ∧
      tr.map StepRec.op = [.write true 0 [55, 10], .read true 0 20, .read true 0 20] ∧
      ∀ r ∈ tr, r.post.watch.Balanced ∧ ReadAddsNone r.pre r.op r.post := by
  have hwritten : writtenPid true 0 [55, 10] = some 7 := by decide +kernel
  obtain ⟨_, hcall⟩ := procWrite_free (w := sampleWorld) (s := State.init) hwritten rfl
  have hwrite : System.next 100 ⟨sampleWorld, State.init⟩ (.write true 0 [55, 10]) =
      some ⟨sampleWorld, { State.init with taskp := none, pidMeasured := 7 }⟩ := by
    unfold System.next
    dsimp only
    rw [hcall]
  have hread : ∀ s : State, s.pidMeasured = 7 → System.next 100 ⟨sampleWorld, s⟩ (.read true 0 20) =
      some ⟨sampleWorld, { s with output := writeGone s.output, outLen := goneText.length }⟩ := by
    intro s hfree
    exact System.next_read_new true 20 (updateStatus_gone (by rw [hfree]; rfl))
  have hsteps := Steps.cons hwrite (.cons (hread _ rfl) (.cons (hread _ rfl) (.nil _)))
  refine ⟨_, _, hsteps, rfl, ?_⟩
  refine (references_balanced_iff 100 sampleWorld hsteps).mpr ?_
  simp only [List.forall_mem_cons, List.not_mem_nil, false_imp_iff, implies_true, and_true]
  refine ⟨?_, fun _ => rfl, fun _ => rfl⟩
  intro pid hpid
  obtain rfl := Option.some.inj (hwritten.symm.trans hpid)
  rfl

/-- The pid 42 is in use: two references to it are taken when it is written, and one by every new
read. After a second write there are two references to the task. -/
theorem references_balanced_fails :
    let s : System := ⟨sampleWorld, State.init⟩
    let write42 : WatchOp := .write true 0 [52, 50, 10]
    let read : WatchOp := .read true 0 20
    let refs : System → Nat × List Nat := fun t => (t.watch.pidRefs, t.watch.taskRefs)
    (run (System.next 100) s [write42]).map refs = some (2, [0]) ∧
    (run (System.next 100) s [write42, read]).map refs = some (3, [0]) ∧
    (run (System.next 100) s [write42, read, read]).map refs = some (4, [0]) ∧
    (run (System.next 100) s [write42, write42]).map refs = some (4, [0, 0]) ∧
    ∃ t, run (System.next 100) s [write42] = some t ∧ ¬ t.watch.Balanced := by
  intro s write42 read refs
  have hone : (run (System.next 100) s [write42]).map refs = some (2, [0]) := by decide +kernel
  refine ⟨hone, by decide +kernel, by decide +kernel, by decide +kernel, ?_⟩
  obtain ⟨t, hrun, hrefs⟩ := Option.map_eq_some_iff.mp hone
  refine ⟨t, hrun, ?_⟩
  intro hbalanced
  have hpid : t.watch.pidRefs = 2 := congrArg Prod.fst hrefs
  rw [hbalanced.pid] at hpid
  simp at hpid

end LinuxKernel.Watch
