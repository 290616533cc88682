import LinuxKernel.Lib.Run
import LinuxKernel.Lib.Text
import Mathlib.Logic.Function.Basic

/-!
# Context switch counters — `core.c`, `fork.c` and `base.c`

`task_struct` has a new counter `ctx`, which `__schedule` increments for the task it picks,
`copy_process` clears, and `/proc/pid/ctx` shows. The counters `nvcsw` and `nivcsw` and the
`nr_switches` of a run queue were there before.

* **Tasks.** They are numbered by their creation, `0` being `init_task`, and keep their number when
  they are gone.
* **Forks.** `copy_process` runs in the context of the parent, which can be preempted on the way,
  and can fail at many places. A `Fork` is the new `task_struct` on the way.
* **The rest.** Which task `pick_next_task` returns, whether a signal is pending and who writes
  `state` is up to the operations; only a task that was created is on a run queue.
-/

namespace LinuxKernel.Ctx

open LinuxKernel.Lib

abbrev Pid := Nat

/-- The fields of `task_struct`. `state` is 0 for `TASK_RUNNING`; `ctx` is an `int` that wraps
around. -/
structure Task where
  state  : Nat
  ctx    : BitVec 32
  nvcsw  : BitVec 64
  nivcsw : BitVec 64
  deriving DecidableEq, Repr

/-- `TASK_NEW` -/
def taskNew : Nat := 0x800

/-- How far `copy_process` has come. -/
inductive Stage
  | duplicated | ctxCleared | mmCopied
  deriving DecidableEq, Repr

/-- The `task_struct` that `copy_process` works on. -/
structure Fork where
  stage         : Stage
  task          : Task
  ctx_zero      : stage ≠ .duplicated → task.ctx = 0
  switches_zero : stage = .mmCopied → task.nvcsw = 0 ∧ task.nivcsw = 0

/-- `struct rq`; a cpu that is not up has no current task. -/
structure Rq where
  curr       : Option Pid
  nrSwitches : BitVec 64
  deriving DecidableEq, Repr

structure State (Cpu : Type) where
  tasks   : Pid → Task
  nrTasks : Nat
  -- the fork that a task is making
  forks   : Pid → Option Fork
  rq      : Cpu → Rq

section Updates

variable {Cpu : Type}

def State.setTask (s : State Cpu) (p : Pid) (f : Task → Task) : State Cpu :=
  { s with tasks := Function.update s.tasks p (f (s.tasks p)) }

def State.setFork (s : State Cpu) (p : Pid) (f : Option Fork) : State Cpu :=
  { s with forks := Function.update s.forks p f }

@[simp] theorem State.setTask_nrTasks (s : State Cpu) (p : Pid) (f : Task → Task) :
    (s.setTask p f).nrTasks = s.nrTasks := rfl
@[simp] theorem State.setTask_tasks (s : State Cpu) (p : Pid) (f : Task → Task) :
    (s.setTask p f).tasks = Function.update s.tasks p (f (s.tasks p)) := rfl
@[simp] theorem State.setTask_rq (s : State Cpu) (p : Pid) (f : Task → Task) :
    (s.setTask p f).rq = s.rq := rfl

variable [DecidableEq Cpu]

def State.setRq (s : State Cpu) (cpu : Cpu) (rq : Rq) : State Cpu :=
  { s with rq := Function.update s.rq cpu rq }

@[simp] theorem State.setRq_nrTasks (s : State Cpu) (cpu : Cpu) (rq : Rq) :
    (s.setRq cpu rq).nrTasks = s.nrTasks := rfl
@[simp] theorem State.setRq_tasks (s : State Cpu) (cpu : Cpu) (rq : Rq) :
    (s.setRq cpu rq).tasks = s.tasks := rfl
@[simp] theorem State.setRq_rq (s : State Cpu) (cpu : Cpu) (rq : Rq) :
    (s.setRq cpu rq).rq = Function.update s.rq cpu rq := rfl

end Updates

/-! ## `__schedule` -/

/-- `++*switch_count` -/
def Task.countSwitch (t : Task) (voluntary : Bool) : Task :=
  if voluntary then { t with nvcsw := t.nvcsw + 1 } else { t with nivcsw := t.nivcsw + 1 }

/-- `next->ctx++` -/
def Task.countPick (t : Task) : Task := { t with ctx := t.ctx + 1 }

section Schedule

variable {Cpu : Type} [DecidableEq Cpu]

/-- `__schedule(preempt)` on a cpu, where `signal` is the result of `signal_pending_state` and
`next` what `pick_next_task` returns. -/
def schedule (s : State Cpu) (cpu : Cpu) (preempt signal : Bool) (next : Pid) :
    Option (State Cpu) :=
  match (s.rq cpu).curr with
  | none => none
  | some prev =>
    if next < s.nrTasks then
      let voluntary := !preempt && (s.tasks prev).state != 0
      let s := if voluntary && signal then s.setTask prev fun t => { t with state := 0 } else s
      let s := s.setTask next Task.countPick
      if prev ≠ next then
        some ((s.setRq cpu { curr := some next, nrSwitches := (s.rq cpu).nrSwitches + 1 }).setTask
          prev (·.countSwitch voluntary))
      else some s
    else none

/-! ## `copy_process` -/

/-- `dup_task_struct`: `*dst = *src`. -/
def dupTaskStruct (t : Task) : Fork :=
  { stage := .duplicated, task := t, ctx_zero := fun h => absurd rfl h, switches_zero := nofun }

/-- The next part of `copy_process`: up to the clearing of `ctx`, or from there up to `copy_mm`,
with `sched_fork` on the way. Nothing is left after that but failures. -/
def Fork.advance (f : Fork) : Option Fork :=
  match h : f.stage with
  | .duplicated =>
    some
      { stage := .ctxCleared
        task := { f.task with ctx := 0 }
        ctx_zero := fun _ => rfl
        switches_zero := nofun }
  | .ctxCleared =>
    some
      { stage := .mmCopied
        task := { f.task with state := taskNew, nvcsw := 0, nivcsw := 0 }
        ctx_zero := fun _ => f.ctx_zero (by rw [h]; nofun)
        switches_zero := fun _ => ⟨rfl, rfl⟩ }
  | .mmCopied => none

/-- The new task is in the system. -/
def State.create (s : State Cpu) (parent : Pid) (t : Task) : State Cpu :=
  { s with
    tasks := Function.update s.tasks s.nrTasks t
    nrTasks := s.nrTasks + 1
    forks := Function.update s.forks parent none }

def copyProcess (s : State Cpu) (parent : Pid) : Option (State Cpu) :=
  match s.forks parent with
  | none => none
  | some f =>
    match f.advance with
    | some f => some (s.setFork parent (some f))
    | none => some (s.create parent f.task)

/-! ## The system -/

inductive Op (Cpu : Type)
  | schedule (cpu : Cpu) (preempt signal : Bool) (next : Pid)
  -- parts of copy_process, by the task on a cpu
  | dup (cpu : Cpu)
  | copy (cpu : Cpu)
  | fail (cpu : Cpu)
  -- set_current_state, wake-ups and so on
  | setState (p : Pid) (state : Nat)
  -- init_idle
  | initIdle (cpu : Cpu) (idle : Pid)

def step (s : State Cpu) : Op Cpu → Option (State Cpu)
  | .schedule cpu preempt signal next => schedule s cpu preempt signal next
  | .dup cpu =>
    (s.rq cpu).curr.bind fun p =>
      if (s.forks p).isNone then some (s.setFork p (some (dupTaskStruct (s.tasks p)))) else none
  | .copy cpu => (s.rq cpu).curr.bind (copyProcess s)
  | .fail cpu => (s.rq cpu).curr.map fun p => s.setFork p none
  | .setState p state =>
    if p < s.nrTasks then some (s.setTask p fun t => { t with state := state }) else none
  | .initIdle cpu idle =>
    if idle < s.nrTasks then
      some ((s.setTask idle fun t => { t with state := 0 }).setRq cpu
        { curr := some idle, nrSwitches := (s.rq cpu).nrSwitches })
    else none

/-- One task runs on one cpu; static data is zero. -/
def boot (cpu : Cpu) : State Cpu where
  tasks _ := ⟨0, 0, 0, 0⟩
  nrTasks := 1
  forks _ := none
  rq c := { curr := if c = cpu then some 0 else none, nrSwitches := 0 }

end Schedule

/-! ## `/proc/pid/ctx` -/

/-- `proc_pid_ctx`: `"%u\n"`. -/
def procPidCtx (t : Task) : List (BitVec 8) := numeral 10 t.ctx.toNat ++ [10]

end LinuxKernel.Ctx
