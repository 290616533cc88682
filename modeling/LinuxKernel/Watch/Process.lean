import LinuxKernel.Proc.PageTable

/-!
# /proc/watch — the processes around it

What `watch.c` reads of tasks and of their address spaces, and what becomes of the processes while
the module is loaded.

* **Numbers.** A pid is registered from the creation of its task until the task is reaped, and
  can then be given to another one.
* **Pointers.** A task is named by a number of its own that is not used again: the module never
  gives up the reference `get_pid_task` took.
* **Exit.** A task that has exited is a zombie with no `mm`, registered until it is reaped. The
  threads of the kernel have no `mm` from the start.
-/

namespace LinuxKernel.Watch

open LinuxKernel.Proc

abbrev Pid := BitVec 32

/-- `vm_area_struct`. -/
structure Vma where
  vmStart : BitVec 64
  vmEnd   : BitVec 64
  deriving DecidableEq, Repr

/-- `mm_struct`: the list of areas and the page tables. -/
structure Mm where
  mmap : List Vma
  pgd  : PgdTable

/-- What one round of the loop in `cpu_measure` reads: the times of threads that have
exited, and `utime` and `stime` of each thread in the group. -/
structure Round where
  utime   : BitVec 64
  stime   : BitVec 64
  threads : List (BitVec 64 × BitVec 64)

/-- `signal_struct`. A round of `cpu_measure` is made again as long as `need_seqretry` says so; the
times may have changed by then. -/
structure Signal where
  cutime : BitVec 64
  cstime : BitVec 64
  first  : Round
  again  : List Round

/-- The mm of a task, by number, as long as it has not exited. -/
inductive Life
  | alive (mm : Option Nat)
  | exited
  deriving DecidableEq, Repr

/-- `task_struct`. -/
structure Task where
  life   : Life
  signal : Signal

def Task.mm (task : Task) : Option Nat :=
  match task.life with
  | .alive mm => mm
  | .exited => none

/-- The processes: the tasks by number, of which those below `created` exist, and the task each
pid is registered for. -/
structure World where
  pids    : Pid → Option Nat
  tasks   : Nat → Task
  mms     : Nat → Mm
  created : Nat
  exist   : ∀ pid task, pids pid = some task → task < created

/-! ## What processes do -/

inductive ProcessOp
  /-- A process is created with a pid that is free. -/
  | create (pid : Pid) (mm : Option Nat) (signal : Signal)
  /-- Processes run: time passes, pages are accessed, memory is mapped. -/
  | work (signals : Nat → Signal) (mms : Nat → Mm)
  /-- A task exits. -/
  | exit (task : Nat)
  /-- The parent has waited for a zombie. -/
  | reap (pid : Pid)

/-- A process that cannot do what is asked does nothing. -/
def World.next (w : World) : ProcessOp → World
  | .create pid mm signal =>
    if w.pids pid = none then
      { w with
        pids := Function.update w.pids pid (some w.created)
        tasks := Function.update w.tasks w.created ⟨.alive mm, signal⟩
        created := w.created + 1
        exist := by
          intro n task hn
          rw [Function.update_apply] at hn
          split at hn
          · injection hn with hn
            omega
          · exact Nat.lt_succ_of_lt (w.exist n task hn) }
    else w
  | .work signals mms =>
    { w with tasks := fun task => { w.tasks task with signal := signals task }, mms := mms }
  | .exit task =>
    { w with tasks := Function.update w.tasks task { w.tasks task with life := .exited } }
  | .reap pid =>
    match w.pids pid with
    | none => w
    | some task =>
      if (w.tasks task).life = .exited then
        { w with
          pids := Function.update w.pids pid none
          exist := by
            intro n task hn
            rw [Function.update_apply] at hn
            split at hn
            · simp at hn
            · exact w.exist n task hn }
      else w

/-- A process with the pid 42 that has used no time and no memory. -/
def sampleWorld : World where
  pids pid := if pid = 42 then some 0 else none
  tasks _ := ⟨.alive (some 0), ⟨0, 0, ⟨0, 0, []⟩, []⟩⟩
  mms _ := ⟨[], fun _ => .none⟩
  created := 1
  exist := by
    intro pid task hpid
    split at hpid
    · injection hpid with hpid
      omega
    · simp at hpid

end LinuxKernel.Watch
