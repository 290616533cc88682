import Mathlib.Data.List.Basic
import LinuxKernel.Smp.Model

/-!
# What a processor relies on

At each place of the code a processor holds some locks, and relies on what it has read or written of
some tasks: that a task stays at a run queue, that it is off its run queue, that it is between two
of them.

* `holds`  — the locks that are held at a place.
* `claims` — what is relied on there, and of which tasks.
* `left`   — the wakeups that the processor still has to make.
* `Claim.Ok` — what a claim says.
* `Claim.Ok.congr` — which parts of the state a claim depends on.
-/

namespace LinuxKernel.Smp

variable {Task Cpu : Type}

/-- The lock that the caller holds besides the run queue's. -/
def Back.holds : Back Task → Lock Task Cpu → Prop
  | .task p, l | .worker p, l => l = .pi p
  | _, _ => False

/-- The wakeups that are left to the caller. -/
def Back.left : Back Task → List Task
  | .pending ps => ps
  | _ => []

/-- The caller works at its own run queue. -/
def Back.Local (c r : Cpu) : Back Task → Prop
  | .pending _ | .pre | .worker _ => r = c
  | _ => True

/-- The caller is `__schedule`, which may have taken the running task off its run queue. -/
def Back.Gone : Back Task → Prop
  | .pre | .worker _ => True
  | _ => False

/-- The locks that processor `c` holds. -/
def holds (c : Cpu) : Pc Task Cpu → Lock Task Cpu → Prop
  | .idle, _ => False
  | .acquire m k, l => holds c k l ∧ l ≠ m
  | .release m k, l => holds c k l ∨ l = m
  | .rqOf p, l | .wakeState p, l | .wakeOnRq p, l | .wakeRqOf p, l | .wakeSpin p, l | .wakeMark p, l
  | .wakeSelect p, l | .wakeQueue p, l => l = .pi p
  | .rqCheck p r, l | .held p r, l | .taken p r, l | .wakeRqCheck p r, l | .wakeRemote p r, l =>
    l = .pi p ∨ l = .rq r
  | .activate _ r b, l | .activateOnRq _ r b, l | .activateRun _ r b, l | .push r b, l
  | .pushBalance _ r _ b, l | .pull r b, l | .pullBalance r _ b, l => l = .rq r ∨ b.holds l
  | .schedState, l | .schedOnRq _, l | .schedWorker, l | .workerLock _, l | .schedPick, l
  | .schedOn _ _, l | .schedOff _, l => l = .rq c
  | .workerState p, l => l = .pi p ∨ l = .rq c
  | .migrate p dest, l => l = .pi p ∨ l = .rq c ∨ l = .rq dest
  | .moveCpu _ _ _ k, l | .moveEnqueue _ _ k, l => holds c k l
  | .pushCheck _ _ r q b, l | .pullPick r q b, l => l = .rq r ∨ l = .rq q ∨ b.holds l

/-- What a processor may rely on of a task. -/
inductive Claim (Cpu : Type)
  /-- The task stays at run queue `r`. -/
  | pinned (r : Cpu)
  /-- The same, and it is taken out of the queue for a while. -/
  | taken (r : Cpu)
  /-- No wakeup of it is left to another processor. -/
  | unlisted
  /-- Besides, it is off its run queue. -/
  | blocked
  /-- Besides, it has left its processor. -/
  | stopped
  /-- Besides, it is marked as waking. -/
  | marked
  /-- Besides, it is placed at `r`. -/
  | placed (r : Cpu)
  /-- It has been enqueued, and is not yet marked so. -/
  | entering (r : Cpu)
  /-- It is, and its state is to be set. -/
  | entered (r : Cpu)
  /-- The running task has been dequeued, and is still marked as enqueued. -/
  | leaving
  /-- The task that is switched from. -/
  | outgoing
  /-- The task that is switched to. -/
  | chosen
  /-- It is not the one that runs here. -/
  | notCurrent
  /-- It is between two run queues, at `r` by its number. -/
  | moving (r : Cpu)
  /-- It waits at `r`. -/
  | waiting (r : Cpu)
deriving DecidableEq

/-- What processor `c` relies on. -/
def claims : Pc Task Cpu → List (Task × Claim Cpu)
  | .acquire _ k | .release _ k => claims k
  | .held p r => [(p, .pinned r)]
  | .taken p r => [(p, .taken r)]
  | .wakeOnRq p | .wakeRqOf p | .wakeRqCheck p _ => [(p, .unlisted)]
  | .wakeRemote p r => [(p, .pinned r), (p, .unlisted)]
  | .wakeSpin p => [(p, .blocked)]
  | .wakeMark p => [(p, .stopped)]
  | .wakeSelect p | .wakeQueue p => [(p, .marked)]
  | .activate p r b =>
    match b with
    | .task _ | .worker _ => [(p, .placed r)]
    | _ => []
  | .activateOnRq p r _ => [(p, .entering r)]
  | .activateRun p r _ => [(p, .entered r)]
  | .schedOnRq p => [(p, .leaving)]
  | .schedOn prev next => (next, .chosen) :: prev.toList.map fun p => (p, .outgoing)
  | .schedOff prev => prev.toList.map fun p => (p, .outgoing)
  | .migrate p _ | .workerLock p | .workerState p => [(p, .notCurrent)]
  | .moveCpu p src _ _ => [(p, .moving src)]
  | .moveEnqueue p dst _ => [(p, .moving dst)]
  | .pushBalance p r _ _ => [(p, .waiting r)]
  | .pushCheck dropped p r _ _ => if dropped then [] else [(p, .waiting r)]
  | _ => []

/-- A claim that the rest of the invariant refers to. -/
def Claim.Hard : Claim Cpu → Prop
  | .taken _ | .moving _ | .leaving | .entering _ | .chosen | .outgoing => True
  | _ => False

/-- The locks that protect a claim. -/
def Claim.locks (c : Cpu) (p : Task) : Claim Cpu → List (Lock Task Cpu)
  | .pinned r | .taken r => [.pi p, .rq r]
  | .unlisted | .blocked | .stopped | .marked | .placed _ => [.pi p]
  | .notCurrent => []
  | .entering r | .entered r | .moving r | .waiting r => [.rq r]
  | .leaving | .outgoing | .chosen => [.rq c]

/-- The wakeups that are left to a processor, with the one it is about to finish. -/
def left : Pc Task Cpu → List Task
  | .acquire _ k | .release _ k | .moveCpu _ _ _ k | .moveEnqueue _ _ k => left k
  | .activate p _ b | .activateOnRq p _ b =>
    match b with
    | .pending ps => p :: ps
    | _ => []
  | .activateRun _ _ b | .push _ b | .pushBalance _ _ _ b | .pushCheck _ _ _ _ b | .pull _ b
  | .pullBalance _ _ b | .pullPick _ _ b => b.left
  | _ => []

/-- `__schedule` has taken the running task off its run queue, or may have. -/
def gone : Pc Task Cpu → Prop
  | .acquire _ k | .release _ k | .moveCpu _ _ _ k | .moveEnqueue _ _ k => gone k
  | .activate _ _ b | .activateOnRq _ _ b | .activateRun _ _ b | .push _ b | .pushBalance _ _ _ b
  | .pushCheck _ _ _ _ b | .pull _ b | .pullBalance _ _ b | .pullPick _ _ b => b.Gone
  | .schedWorker | .workerLock _ | .workerState _ | .schedPick => True
  | _ => False

/-! ## What a claim says -/

/-- A task that is to be enqueued at `r` by a processor that has been told to. -/
structure Waking (s : Sys Task Cpu) (p : Task) (r : Cpu) : Prop where
  onRq : (s.task p).onRq = false
  onCpu : (s.task p).onCpu = false
  state : (s.task p).state = .waking
  cpu : (s.task p).cpu = r

/-- A wakeup of the task is left to some processor. -/
def Listed (s : Sys Task Cpu) (p : Task) : Prop := ∃ r, p ∈ s.wakeList r ∨ p ∈ left (s.pc r)

/-- What a claim of processor `c` about `p` says. -/
def Claim.Ok (s : Sys Task Cpu) (c : Cpu) (p : Task) : Claim Cpu → Prop
  | .pinned r => (s.task p).cpu = r
  | .taken r => (s.task p).cpu = r ∧ (s.task p).onRq = true ∧ (s.task p).queue r = false
  | .unlisted => ¬ Listed s p
  | .blocked => (s.task p).onRq = false ∧ ¬ Listed s p
  | .stopped => (s.task p).onRq = false ∧ (s.task p).onCpu = false ∧ ¬ Listed s p
  | .marked =>
    (s.task p).onRq = false ∧ (s.task p).onCpu = false ∧ ¬ Listed s p ∧ (s.task p).state = .waking
  | .placed r =>
    (s.task p).onRq = false ∧ (s.task p).onCpu = false ∧ ¬ Listed s p ∧ (s.task p).cpu = r
  | .entering r =>
    (s.task p).queue r = true ∧ (s.task p).onRq = false ∧ (s.task p).onCpu = false ∧
    (s.task p).cpu = r ∧
      (s.owner (.pi p) = some c ∧ ¬ Listed s p ∨ p ∈ left (s.pc c))
  | .entered r => (s.task p).cpu = r ∧ (s.task p).onRq = true
  | .leaving =>
    (s.task p).cpu = c ∧ (s.task p).onRq = true ∧ (s.task p).queue c = false ∧
    (s.task p).onCpu = true ∧
      s.curr c = some p
  | .outgoing => (s.task p).cpu = c ∧ (s.task p).onCpu = true ∧ s.curr c ≠ some p
  | .chosen =>
    (s.task p).cpu = c ∧ (s.task p).onRq = true ∧ (s.task p).onCpu = false ∧ s.curr c = some p
  | .notCurrent => s.curr c ≠ some p
  | .moving r =>
    (s.task p).cpu = r ∧ (s.task p).onRq = true ∧ (s.task p).onCpu = false ∧
    (s.task p).queue r = false
  | .waiting r => (s.task p).queue r = true ∧ s.curr r ≠ some p

/-- The run queue that a claim looks for the task in. -/
def Claim.asks (c : Cpu) : Claim Cpu → Option Cpu
  | .taken r | .entering r | .moving r | .waiting r => some r
  | .leaving => some c
  | _ => none

/-- Claims that depend on `task_cpu(p)`. -/
def Claim.ReadsCpu : Claim Cpu → Prop
  | .unlisted | .blocked | .stopped | .marked | .notCurrent | .waiting _ => False
  | _ => True

/-- Claims that depend on `p->on_rq`. -/
def Claim.ReadsOnRq : Claim Cpu → Prop
  | .pinned _ | .unlisted | .outgoing | .notCurrent | .waiting _ => False
  | _ => True

/-- Claims that depend on `p->on_cpu`. -/
def Claim.ReadsOnCpu : Claim Cpu → Prop
  | .pinned _ | .taken _ | .unlisted | .blocked | .entered _ | .notCurrent | .waiting _ => False
  | _ => True

/-- A claim that accounts for a task that is marked as enqueued and is not. -/
def Claim.Out : Claim Cpu → Prop
  | .taken _ | .moving _ | .leaving => True
  | _ => False

variable {s : Sys Task Cpu} {c d r : Cpu} {k k₀ : Pc Task Cpu} {p q : Task} {b : Back Task}

theorem mem_claims_activate {p : Task} {r : Cpu} {b : Back Task} {x : Task × Claim Cpu}
    (hx : x ∈ claims (.activate p r b)) :
    x = (p, .placed r) ∧ ∃ q, b = .task q ∨ b = .worker q := by
  cases b with
  | task q => exact ⟨List.mem_singleton.mp hx, q, .inl rfl⟩
  | worker q => exact ⟨List.mem_singleton.mp hx, q, .inr rfl⟩
  | _ => exact absurd hx List.not_mem_nil

/-- A place where one thing is relied on that the rest of the invariant does not refer to. -/
theorem soft_of_claims {x : Claim Cpu} (hk : claims k = [(p, x)]) (hx : ¬ x.Hard) :
    ∀ q y, (q, y) ∈ claims k → ¬ y.Hard := by
  intro q y hy
  rw [hk, List.mem_singleton, Prod.mk.injEq] at hy
  rwa [hy.2]

/-- Who asks for a task in a run queue has locked it. -/
theorem Claim.asks_locked {x : Claim Cpu} {r : Cpu} (hx : x.asks d = some r) :
    .rq r ∈ x.locks d p := by
  cases x <;> simp_all [Claim.asks, Claim.locks]

theorem Claim.Out.hard {x : Claim Cpu} (hx : x.Out) : x.Hard := by
  cases x with
  | taken r | moving r | leaving => trivial
  | _ => exact hx.elim

/-- What a claim about a task depends on. -/
theorem Claim.Ok.congr {s' : Sys Task Cpu} {x : Claim Cpu} (hx : x.Ok s d p)
    (hcpu : x.ReadsCpu → (s'.task p).cpu = (s.task p).cpu)
    (honRq : x.ReadsOnRq → (s'.task p).onRq = (s.task p).onRq)
    (honCpu : x.ReadsOnCpu → (s'.task p).onCpu = (s.task p).onCpu)
    (hstate : x = .marked → (s'.task p).state = (s.task p).state)
    (hqueue : ∀ r, x.asks d = some r → (s'.task p).queue r = (s.task p).queue r)
    (hcurr : ∀ r, r = d ∨ x.asks d = some r → (s'.curr r = some p ↔ s.curr r = some p))
    (howner : s'.owner = s.owner)
    (hlisted : .pi p ∈ x.locks d p ∨ s.owner (.pi p) = some d → Listed s' p → Listed s p)
    (hleft : p ∈ left (s.pc d) → p ∈ left (s'.pc d)) : x.Ok s' d p := by
  cases x with
  | pinned r => exact (hcpu trivial).trans hx
  | taken r =>
    obtain ⟨hr, ho, hq⟩ := hx
    exact ⟨(hcpu trivial).trans hr, (honRq trivial).trans ho, (hqueue r rfl).trans hq⟩
  | unlisted => exact fun hl => hx (hlisted (.inl (by simp [locks])) hl)
  | blocked =>
    obtain ⟨ho, hl⟩ := hx
    exact ⟨(honRq trivial).trans ho, fun hl' => hl (hlisted (.inl (by simp [locks])) hl')⟩
  | stopped =>
    obtain ⟨ho, hc, hl⟩ := hx
    exact ⟨(honRq trivial).trans ho, (honCpu trivial).trans hc,
      fun hl' => hl (hlisted (.inl (by simp [locks])) hl')⟩
  | marked =>
    obtain ⟨ho, hc, hl, hst⟩ := hx
    exact ⟨(honRq trivial).trans ho, (honCpu trivial).trans hc,
      fun hl' => hl (hlisted (.inl (by simp [locks])) hl'), (hstate rfl).trans hst⟩
  | placed r =>
    obtain ⟨ho, hc, hl, hr⟩ := hx
    exact ⟨(honRq trivial).trans ho, (honCpu trivial).trans hc,
      fun hl' => hl (hlisted (.inl (by simp [locks])) hl'), (hcpu trivial).trans hr⟩
  | entering r =>
    obtain ⟨hq, ho, hc, hr, hown⟩ := hx
    exact ⟨(hqueue r rfl).trans hq, (honRq trivial).trans ho, (honCpu trivial).trans hc,
      (hcpu trivial).trans hr,
      hown.imp (fun hpi => ⟨howner ▸ hpi.1, fun hl => hpi.2 (hlisted (.inr hpi.1) hl)⟩) hleft⟩
  | entered r => exact ⟨(hcpu trivial).trans hx.1, (honRq trivial).trans hx.2⟩
  | leaving =>
    obtain ⟨hr, ho, hq, hc, hcur⟩ := hx
    exact ⟨(hcpu trivial).trans hr, (honRq trivial).trans ho, (hqueue d rfl).trans hq,
      (honCpu trivial).trans hc, (hcurr d (.inl rfl)).mpr hcur⟩
  | outgoing =>
    obtain ⟨hr, hc, hcur⟩ := hx
    exact ⟨(hcpu trivial).trans hr, (honCpu trivial).trans hc,
      fun h => hcur ((hcurr d (.inl rfl)).mp h)⟩
  | chosen =>
    obtain ⟨hr, ho, hc, hcur⟩ := hx
    exact ⟨(hcpu trivial).trans hr, (honRq trivial).trans ho, (honCpu trivial).trans hc,
      (hcurr d (.inl rfl)).mpr hcur⟩
  | notCurrent => exact fun h => hx ((hcurr d (.inl rfl)).mp h)
  | moving r =>
    obtain ⟨hr, ho, hc, hq⟩ := hx
    exact ⟨(hcpu trivial).trans hr, (honRq trivial).trans ho, (honCpu trivial).trans hc,
      (hqueue r rfl).trans hq⟩
  | waiting r =>
    exact ⟨(hqueue r rfl).trans hx.1, fun h => hx.2 ((hcurr r (.inr rfl)).mp h)⟩

/-- A claim about a task stays true while nobody writes to the task. -/
theorem Claim.Ok.frame {s' : Sys Task Cpu} {x : Claim Cpu} (hx : x.Ok s d p)
    (htask : s'.task p = s.task p)
    (hcurr : ∀ r, s'.curr r = some p ↔ s.curr r = some p) (howner : s'.owner = s.owner)
    (hlisted : Listed s' p → Listed s p) (hleft : p ∈ left (s.pc d) → p ∈ left (s'.pc d)) :
    x.Ok s' d p :=
  hx.congr (fun _ => by rw [htask]) (fun _ => by rw [htask]) (fun _ => by rw [htask])
    (fun _ => by rw [htask]) (fun _ _ => by rw [htask]) (fun r _ => hcurr r) howner
      (fun _ => hlisted) hleft

/-! ## How the callers of `push_rt_tasks` and `pull_rt_task` go on -/

/-- The caller holds no other run queue. -/
theorem Back.not_holds_rq : ¬ b.holds (.rq r : Lock Task Cpu) := by
  cases b <;> simp [Back.holds]

theorem claims_resume : claims (.resume r b : Pc Task Cpu) = [] := by
  cases b with
  | pending ps => cases ps <;> rfl
  | _ => rfl

theorem left_resume : left (.resume r b : Pc Task Cpu) = b.left := by
  cases b with
  | pending ps => cases ps <;> rfl
  | _ => rfl

theorem holds_resume (hb : b.Local c r) {l : Lock Task Cpu} :
    holds c (.resume r b) l ↔ l = .rq r ∨ b.holds l := by
  cases b with
  | post => simp [Pc.resume, holds, Back.holds]
  | task p => simp [Pc.resume, holds, Back.holds, or_comm]
  | pending ps => cases ps <;> simp [Pc.resume, holds, Back.holds]
  | pre =>
    obtain rfl : r = c := hb
    simp [Pc.resume, holds, Back.holds]
  | worker p => simp [Pc.resume, holds, Back.holds]

theorem gone_resume (hb : b.Gone) : gone (.resume r b : Pc Task Cpu) := by
  cases b with
  | pre | worker p => trivial
  | _ => exact hb.elim

end LinuxKernel.Smp
