import Mathlib.Tactic.Abel
import LinuxKernel.Fork.CopyProcess

/-!
# A fork that fails leaves nothing behind

Each label of the ladder gives back what one call has taken. The child's own fields say what that
is: a pointer that was copied from the parent must not be given back before a reference has been
taken for it.

* `unwind_ledger` — the ladder from a label on gives back what its labels owe.
* `tryPoint_ends` — before a call, and where it fails, the ledger owes what stands at the labels
  below.
* `copy_process_all_or_nothing` — a fork that fails leaves the ledger as it was, and one that
  succeeds adds what the new task holds.
-/

namespace LinuxKernel.Fork

open Lib

section

variable (c : Call)

/-! ## What the labels owe -/

/-- What a label gives back. -/
def owed : Label → Child → Ledger
  | .cancelCgroup, _ => one .siglock + one .tasklistLock + one .cgroup
  | .cgroupThreadgroupChangeEnd, _ => one .threadgroup
  | .putPidfd, _ => if c.flags.pidfd then one .pidfile + one .pidRef + one .pidfd else 0
  | .freePid, _ => oneIf (!c.idle) .pid
  | .cleanupThread, _ => one .thread
  | .cleanupIo, p => ofPtr .io p.io
  | .cleanupNamespaces, _ => one .namespaces
  | .cleanupMm, p => ofPtr .mm p.mm + oneIf (p.mm = some .own && p.binfmt) .module
  | .cleanupSignal, p =>
    if c.flags.thread then 0
    else if p.signal = none then - one .oops
    else one .autogroup + ofPtr .signal p.signal
  | .cleanupSighand, p => if p.sighand = none then - one .oops else ofPtr .sighand p.sighand
  | .cleanupFs, p => ofPtr .fs p.fs
  | .cleanupFiles, p => ofPtr .files p.files
  | .cleanupSemundo, _ => one .semundo
  | .cleanupSecurity, _ => one .security
  | .cleanupAudit, _ => one .audit
  | .cleanupPerf, _ => one .perf
  | .cleanupPolicy, p => if c.cfg.numa then ofPtr .mempolicy p.mempolicy else 0
  | .cleanupThreadgroupLock, p => oneIf p.delays .delays
  | .cleanupCount, _ => one .processes + one .creds
  | .free, p =>
    one .stackAccount + one .stack + oneIf p.filter .filter +
      (if p.kthread then
        match p.setChildTid with
        | .null => 0
        | .kthread => one .kthread
        | .user => - one .oops
      else 0) + one .taskStruct
  | .forkOut, _ => oneIf (!c.flags.thread) .delayed

/-- What a label and those below it give back. -/
def owedFrom (l : Label) (p : Child) : Ledger := ((ladderFrom l).map (owed c · p)).sum

variable {c}

namespace St

@[simp] theorem take_ledger (s : St) (r : Res) : (s.take r).ledger = s.ledger + one r := rfl

@[simp] theorem take_child (s : St) (r : Res) : (s.take r).child = s.child := rfl

@[simp] theorem drop_ledger (s : St) (r : Res) : (s.drop r).ledger = s.ledger - one r := rfl

@[simp] theorem drop_child (s : St) (r : Res) : (s.drop r).child = s.child := rfl

@[simp] theorem takeIf_ledger (s : St) (b : Bool) (r : Res) :
    (s.takeIf b r).ledger = s.ledger + oneIf b r := by
  cases b <;> simp [takeIf]

@[simp] theorem takeIf_child (s : St) (b : Bool) (r : Res) : (s.takeIf b r).child = s.child := by
  cases b <;> rfl

@[simp] theorem dropIf_ledger (s : St) (b : Bool) (r : Res) :
    (s.dropIf b r).ledger = s.ledger - oneIf b r := by
  cases b <;> simp [dropIf]

@[simp] theorem dropIf_child (s : St) (b : Bool) (r : Res) : (s.dropIf b r).child = s.child := by
  cases b <;> rfl

@[simp] theorem dropPtr_ledger (s : St) (r : Owner → Res) (q : Option Owner) :
    (s.dropPtr r q).ledger = s.ledger - ofPtr r q := by
  cases q <;> simp [dropPtr]

@[simp] theorem dropPtr_child (s : St) (r : Owner → Res) (q : Option Owner) :
    (s.dropPtr r q).child = s.child := by
  cases q <;> rfl

end St

/-- The task is freed with its stack, its filter and, of a kernel thread, its data. -/
theorem release_free_ledger (s : St) :
    (release c .free s).ledger = s.ledger - owed c .free s.child := by
  simp only [release, owed, freeTask, putTaskStack]
  cases c.cfg.threadInfoInTask <;> cases s.child.kthread <;> cases s.child.setChildTid <;>
    simp [releaseTaskStack, freeKthreadStruct] <;> abel

theorem release_ledger (l : Label) (s : St) :
    (release c l s).ledger = s.ledger - owed c l s.child := by
  cases l with
  | free => exact release_free_ledger s
  | putPidfd => simp only [release, owed]; split <;> simp; abel
  | freePid => simp only [release, owed]; cases c.idle <;> simp
  | cleanupMm =>
    simp only [release, owed]
    obtain _ | _ | _ := s.child.mm <;> simp [mmput]
    abel
  | cleanupSignal =>
    simp only [release, owed, freeSignalStruct]
    cases c.flags.thread <;> cases s.child.signal <;> simp
    abel
  | cleanupSighand =>
    simp only [release, owed, cleanupSighand]
    cases s.child.sighand <;> simp
  | cleanupPolicy => simp only [release, owed]; cases c.cfg.numa <;> simp
  | _ => simp [release, owed] <;> abel

/-- No label changes what the labels below it give back. -/
theorem owed_release (l m : Label) (s : St) :
    owed c m (release c l s).child = owed c m s.child := by
  have hdead : ∀ b : Bool, owed c m { s.child with dead := b } = owed c m s.child := by
    intro b
    cases m <;> rfl
  cases l with
  | free =>
    have hchild : (release c .free s).child = { s.child with dead := true } := by
      simp only [release, freeTask, putTaskStack]
      cases c.cfg.threadInfoInTask <;> cases s.child.kthread <;> cases s.child.setChildTid <;>
        simp [releaseTaskStack, freeKthreadStruct]
    rw [hchild, hdead]
  | putPidfd => simp only [release]; split <;> rfl
  | freePid => simp only [release]; split <;> rfl
  | cleanupMm =>
    simp only [release]
    obtain _ | _ | _ := s.child.mm <;> simp [mmput]
  | cleanupSignal =>
    simp only [release, freeSignalStruct]
    cases c.flags.thread <;> cases s.child.signal <;> simp
  | cleanupSighand =>
    simp only [release, cleanupSighand]
    cases s.child.sighand <;> simp
  | cleanupPolicy => simp only [release]; split <;> simp
  | _ => simp [release]

/-- **The ladder gives back all that it owes.** -/
theorem unwind_ledger (l : Label) (s : St) :
    (unwind c l s).ledger = s.ledger - owedFrom c l s.child := by
  have hkeep : (ladderFrom l).Pairwise fun l m =>
      ∀ s, owed c m (release c l s).child = owed c m s.child :=
    List.pairwise_of_forall fun l m s => owed_release l m s
  exact @fallThrough_balance _ _ _ _ (release c) St.ledger
    (fun m s => owed c m s.child) release_ledger _
    hkeep s

/-! ## What is owed before each call -/

/-- Where a failure of a place goes to, and what is owed before it. -/
def Point.level : Point → Label
  | .pending | .dupTaskStruct => .forkOut
  | .nproc | .creds => .free
  | .maxThreads => .cleanupCount
  | .mempolicy => .cleanupThreadgroupLock
  | .schedFork | .perf => .cleanupPolicy
  | .audit => .cleanupPerf
  | .security => .cleanupAudit
  | .semundo => .cleanupSecurity
  | .files => .cleanupSemundo
  | .fs => .cleanupFiles
  | .sighand => .cleanupFs
  | .signal => .cleanupSighand
  | .mm => .cleanupSignal
  | .namespaces => .cleanupMm
  | .io => .cleanupNamespaces
  | .threadTls => .cleanupIo
  | .pid => .cleanupThread
  | .pidfd => .freePid
  | .changeBegin => .putPidfd
  | .canFork => .cgroupThreadgroupChangeEnd
  | .pidns | .fatalSignal => .cancelCgroup

/-- What is owed after a place is passed. -/
def Point.after : Point → Label
  | .pending => .forkOut
  | .dupTaskStruct | .nproc => .free
  | .creds => .cleanupCount
  | .maxThreads => .cleanupThreadgroupLock
  | .mempolicy | .schedFork => .cleanupPolicy
  | .perf => .cleanupPerf
  | .audit => .cleanupAudit
  | .security => .cleanupSecurity
  | .semundo => .cleanupSemundo
  | .files => .cleanupFiles
  | .fs => .cleanupFs
  | .sighand => .cleanupSighand
  | .signal => .cleanupSignal
  | .mm => .cleanupMm
  | .namespaces => .cleanupNamespaces
  | .io => .cleanupIo
  | .threadTls => .cleanupThread
  | .pid => .freePid
  | .pidfd => .putPidfd
  | .changeBegin => .cgroupThreadgroupChangeEnd
  | .canFork | .pidns | .fatalSignal => .cancelCgroup

/-- The flag that shares an object, or makes a copy of it. -/
def shared (flag : Bool) : Owner := if flag then .parent else .own

/-- The pointer to an object that the parent may not have. -/
def sharedIf (has flag : Bool) : Option Owner := if has then some (shared flag) else none

variable (c)

def newMempolicy : Option Owner :=
  if c.cfg.numa then sharedIf c.cur.mempolicy false else inherited c.cur.mempolicy

def newIo : Option Owner :=
  sharedIf (c.cfg.block && c.cur.ioContext && (c.flags.io || c.cur.ioprioValid)) c.flags.io

/-- The child where the labels from `l` on are owed. -/
def childAt (l : Label) : Child :=
  let past (m : Label) : Bool := (ladderFrom l).contains m
  { kthread := c.cur.kthread
    setChildTid := if c.flags.childSettid then .user else .null
    filter := past .cancelCgroup && c.cfg.seccomp && c.cur.filter
    dead := false
    delays := past .cleanupThreadgroupLock && c.res.delays
    mempolicy := if past .cleanupPolicy then newMempolicy c else inherited c.cur.mempolicy
    files :=
      if past .cleanupFiles then sharedIf c.cur.files c.flags.files else inherited c.cur.files
    fs := if past .cleanupFs then some (shared c.flags.fs) else some .parent
    sighand := if past .cleanupSighand then some (shared c.flags.sighand) else some .parent
    signal := if past .cleanupSignal then some (shared c.flags.thread) else some .parent
    mm := if past .cleanupMm then sharedIf c.cur.mm c.flags.vm else inherited c.cur.mm
    binfmt := c.cur.binfmt
    io :=
      if past .cleanupIo then newIo c
      else if past .cleanupThreadgroupLock then none
      else inherited c.cur.ioContext }

/-- Besides what `base` has, the ledger has what the labels from `l` on give back. -/
def Owes (base : Ledger) (l : Label) (s : St) : Prop := s.ledger = base + owedFrom c l s.child

/-- The state between two places. -/
structure At (base : Ledger) (l : Label) (s : St) : Prop where
  child : l ≠ .forkOut → s.child = childAt c l
  owes : Owes c base l s

/-- A failure: an error, and the label that gives back what was taken. -/
def Failed (base : Ledger) (f : Failure) : Prop := f.1 < 0 ∧ Owes c base f.2.1 f.2.2

variable {c} {base : Ledger} {s t : St}

theorem Owes.keep {l : Label} (h : Owes c base l s)
    (hkeep : ∀ m ∈ ladderFrom l, owed c m t.child = owed c m s.child) (hled : t.ledger = s.ledger) :
    Owes c base l t := by
  have hsame : owedFrom c l t.child = owedFrom c l s.child := by
    rw [owedFrom, owedFrom, List.map_congr_left hkeep]
  rw [Owes, hled, h, hsame]

/-- What is taken for a label is owed with what was owed before. -/
theorem Owes.push {l l' : Label} (h : Owes c base l s) (hl : ladderFrom l' = l' :: ladderFrom l)
    (hkeep : ∀ m ∈ ladderFrom l, owed c m t.child = owed c m s.child)
    (hled : t.ledger = s.ledger + owed c l' t.child) : Owes c base l' t := by
  have hsame : owedFrom c l' t.child = owed c l' t.child + owedFrom c l s.child := by
    rw [owedFrom, hl, List.map_cons, List.sum_cons, List.map_congr_left hkeep, owedFrom]
  rw [Owes, hled, h, hsame, add_assoc, add_comm (owedFrom _ _ _)]

theorem At.failed {l : Label} (h : At c base l s) {e : Int} (he : e < 0) :
    Failed c base (e, l, s) :=
  ⟨he, h.owes⟩

/-- A failure with nothing taken, after a change that no label from `l` on reads. -/
theorem At.fails {l : Label} (h : At c base l s) {e : Int} (he : e < 0)
    (hkeep : ∀ m ∈ ladderFrom l, owed c m t.child = owed c m s.child) (hled : t.ledger = s.ledger) :
    Failed c base (e, l, t) :=
  ⟨he, h.owes.keep hkeep hled⟩

/-- A call that takes one thing, or returns an error. -/
theorem call_ends {l l' : Label} {r : Res} {ret : Int} (h : At c base l s) (hret : ret ≤ 0)
    (hl : ladderFrom l' = l' :: ladderFrom l) (hr : owed c l' s.child = one r) (hne : l ≠ .forkOut)
    (hchild : childAt c l' = childAt c l) :
    Ends (At c base l') (Failed c base) (call ret r l s) := by
  unfold call
  split
  next hfail => exact h.failed (by omega)
  next hok =>
    refine ⟨fun _ => ?_, h.owes.push hl (fun _ _ => rfl) ?_⟩
    · rw [St.take_child, h.child hne, hchild]
    · rw [St.take_child, hr, St.take_ledger]

/-! ## One call after another -/

section Levels

variable (c)

theorem childAt_cleanupPolicy :
    childAt c .cleanupPolicy =
      { childAt c .cleanupThreadgroupLock with mempolicy := newMempolicy c } := rfl

theorem childAt_cleanupFiles :
    childAt c .cleanupFiles =
      { childAt c .cleanupSemundo with files := sharedIf c.cur.files c.flags.files } := rfl

theorem childAt_cleanupFs :
    childAt c .cleanupFs = { childAt c .cleanupFiles with fs := some (shared c.flags.fs) } := rfl

theorem childAt_cleanupSighand :
    childAt c .cleanupSighand =
      { childAt c .cleanupFs with sighand := some (shared c.flags.sighand) } := rfl

theorem childAt_cleanupSignal :
    childAt c .cleanupSignal =
      { childAt c .cleanupSighand with signal := some (shared c.flags.thread) } := rfl

theorem childAt_cleanupMm :
    childAt c .cleanupMm =
      { childAt c .cleanupSignal with mm := sharedIf c.cur.mm c.flags.vm } := rfl

theorem childAt_cleanupIo :
    childAt c .cleanupIo = { childAt c .cleanupNamespaces with io := newIo c } := rfl

theorem childAt_cancelCgroup :
    childAt c .cancelCgroup =
      { childAt c .cgroupThreadgroupChangeEnd with filter := c.cfg.seccomp && c.cur.filter } := rfl

end Levels

theorem pending_ends (h : At c base .forkOut s) :
    Ends (At c base .forkOut) (Failed c base) (tryPoint c .pending s) := by
  simp only [tryPoint]
  split
  · exact h.failed (by decide)
  · exact h

/-- Where `dup_task_struct` fails, its own labels have given back the stack and the task. -/
theorem dupTaskStruct_ends (h : At c base .forkOut s) :
    Ends (fun t => t.child = dupChild c ∧
        t.ledger = s.ledger + (one .taskStruct + one .stack + one .stackAccount))
      (Failed c base) (dupTaskStruct c s) := by
  have hkeep : ∀ p, ∀ m ∈ ladderFrom .forkOut, owed c m p = owed c m s.child := by
    intro p m hm
    cases m <;> first | rfl | exact absurd hm (by decide)
  simp only [dupTaskStruct]
  split
  · exact h.failed (by decide)
  split
  · exact h.fails (by decide) (hkeep _) (by simp)
  split
  · exact h.fails (by decide) (hkeep _) (by simp)
  split
  · exact h.fails (by decide) (hkeep _) (by simp)
  · refine ⟨rfl, ?_⟩
    simp only [St.take_ledger]
    abel

/-- A kernel thread's data is its parent's until `set_child_tid` is written. -/
theorem dup_ends (hkt : c.cur.kthread = true → c.flags.childSettid = false)
    (h : At c base .forkOut s) :
    Ends (At c base .free) (Failed c base) (tryPoint c .dupTaskStruct s) := by
  have hdup := dupTaskStruct_ends h
  rw [tryPoint]
  cases hcall : dupTaskStruct c s with
  | error e =>
    rw [hcall] at hdup
    exact hdup
  | ok t =>
    rw [hcall] at hdup
    obtain ⟨hchild, hled⟩ := hdup
    have hnew : { t.child with setChildTid := if c.flags.childSettid then .user else .null } =
        childAt c .free := by
      rw [hchild]
      rfl
    refine ⟨fun _ => hnew, h.owes.push rfl ?_ ?_⟩
    · intro m hm
      cases m <;> first | rfl | exact absurd hm (by decide)
    · have howed : owed c .free (childAt c .free) =
          one .taskStruct + one .stack + one .stackAccount := by
        cases hk : c.cur.kthread with
        | false => simp [owed, childAt, hk, ladderFrom, ladder]; abel
        | true => simp [owed, childAt, hk, hkt hk, ladderFrom, ladder]; abel
      simp only [hnew, howed]
      exact hled

theorem nproc_ends (h : At c base .free s) :
    Ends (At c base .free) (Failed c base) (tryPoint c .nproc s) := by
  rw [tryPoint]
  split
  · exact h.failed (by decide)
  · exact h

theorem creds_ends (h : At c base .free s) :
    Ends (At c base .cleanupCount) (Failed c base) (tryPoint c .creds s) := by
  rw [tryPoint]
  split
  next hneg => exact h.failed hneg
  next =>
    refine ⟨fun _ => h.child (by decide), h.owes.push rfl (fun _ _ => rfl) ?_⟩
    simp only [St.take_ledger, owed]
    abel

theorem maxThreads_ends (h : At c base .cleanupCount s) :
    Ends (At c base .cleanupThreadgroupLock) (Failed c base) (tryPoint c .maxThreads s) := by
  rw [tryPoint]
  split
  · exact h.failed (by decide)
  · refine ⟨fun _ => ?_, h.owes.push rfl ?_ ?_⟩
    · simp only [St.takeIf_child, h.child (by decide)]
      rfl
    · intro m hm
      cases m <;> first | exact absurd hm (by decide) | simp [owed]
    · simp [owed]

theorem mempolicy_ends (hr : c.res.Honest) (h : At c base .cleanupThreadgroupLock s) :
    Ends (At c base .cleanupPolicy) (Failed c base) (tryPoint c .mempolicy s) := by
  have hchild := h.child (by decide)
  have hold : s.child.mempolicy = inherited c.cur.mempolicy := by rw [hchild]; rfl
  have hkeep : ∀ q, ∀ m ∈ ladderFrom .cleanupThreadgroupLock,
      owed c m { s.child with mempolicy := q } = owed c m s.child := by
    intro q m hm
    cases m <;> first | rfl | exact absurd hm (by decide)
  rw [tryPoint]
  split
  next hno =>
    have hnew : newMempolicy c = inherited c.cur.mempolicy := by
      cases hn : c.cfg.numa <;> simp_all [newMempolicy, sharedIf, inherited]
    refine ⟨fun _ => ?_, h.owes.push rfl (fun _ _ => rfl) ?_⟩
    · rw [hchild, childAt_cleanupPolicy, hnew]
      rfl
    · cases hn : c.cfg.numa <;> simp_all [owed, inherited]
  next hyes =>
    obtain ⟨hn, hm⟩ : c.cfg.numa = true ∧ c.cur.mempolicy = true := by simpa using hyes
    cases hdup : c.res.mpolDup with
    | some e =>
      exact h.fails (hr.ptr _ (by simp) e hdup) (hkeep none) rfl
    | none =>
      refine ⟨fun _ => ?_, h.owes.push rfl (hkeep (some .own)) ?_⟩
      · simp only [St.take_child, hchild, childAt_cleanupPolicy, newMempolicy, hn, hm,
          sharedIf, shared]
        rfl
      · simp [owed, hn]

theorem schedFork_ends (hr : c.res.Honest) (h : At c base .cleanupPolicy s) :
    Ends (At c base .cleanupPolicy) (Failed c base) (tryPoint c .schedFork s) := by
  have hle := hr.int c.res.schedFork (by simp)
  rw [tryPoint]
  split
  · exact h.failed (by omega)
  · exact h

theorem files_ends (hr : c.res.Honest) (h : At c base .cleanupSemundo s) :
    Ends (At c base .cleanupFiles) (Failed c base) (copyFiles c s) := by
  have hchild := h.child (by decide)
  have hold : s.child.files = inherited c.cur.files := by rw [hchild]; rfl
  simp only [copyFiles]
  cases hf : c.cur.files with
  | false =>
    have hsame : sharedIf c.cur.files c.flags.files = s.child.files := by rw [hold, hf]; rfl
    refine ⟨fun _ => ?_, h.owes.push rfl (fun _ _ => rfl) ?_⟩
    · rw [childAt_cleanupFiles, ← hchild, hsame]
    · simp [owed, hold, inherited, hf]
  | true =>
    cases hshare : c.flags.files with
    | true =>
      have hsame : sharedIf c.cur.files c.flags.files = s.child.files := by
        rw [hold, hf, hshare]; rfl
      refine ⟨fun _ => ?_, h.owes.push rfl (fun _ _ => rfl) ?_⟩
      · rw [St.take_child, childAt_cleanupFiles, ← hchild, hsame]
      · simp [owed, hold, inherited, hf]
    | false =>
      cases hdup : c.res.dupFd with
      | some e =>
        have hneg : e < 0 := hr.ptr _ (by simp) e hdup
        have hne : e ≠ 0 := by omega
        simp only [Bool.not_true, Bool.false_eq_true, if_false, if_pos hne]
        exact h.failed hneg
      | none =>
        refine ⟨fun _ => ?_, h.owes.push rfl ?_ rfl⟩
        · simp only [St.take_child, hchild, childAt_cleanupFiles, hf, hshare]
          rfl
        · intro m hm
          cases m <;> first | rfl | exact absurd hm (by decide)

theorem fs_ends (h : At c base .cleanupFiles s) :
    Ends (At c base .cleanupFs) (Failed c base) (copyFs c s) := by
  have hchild := h.child (by decide)
  have hkeep : ∀ q, ∀ m ∈ ladderFrom .cleanupFiles,
      owed c m { s.child with fs := q } = owed c m s.child := by
    intro q m hm
    cases m <;> first | rfl | exact absurd hm (by decide)
  simp only [copyFs]
  cases hshare : c.flags.fs with
  | true =>
    cases c.cur.fsInExec with
    | true => exact h.failed (by decide)
    | false =>
      refine ⟨fun _ => ?_, h.owes.push rfl (fun _ _ => rfl) ?_⟩
      · rw [St.take_child, hchild, childAt_cleanupFs, hshare]
        rfl
      · rw [St.take_child, hchild]
        rfl
  | false =>
    cases c.res.copyFsStruct with
    | false =>
      exact h.fails (by decide) (hkeep none) rfl
    | true =>
      refine ⟨fun _ => ?_, h.owes.push rfl (hkeep (some .own)) rfl⟩
      · simp only [St.take_child, hchild, childAt_cleanupFs, hshare]
        rfl

theorem sighand_ends (h : At c base .cleanupFs s) :
    Ends (At c base .cleanupSighand) (Failed c base) (copySighand c s) := by
  have hchild := h.child (by decide)
  have hkeep : ∀ q, ∀ m ∈ ladderFrom .cleanupFs,
      owed c m { s.child with sighand := q } = owed c m s.child := by
    intro q m hm
    cases m <;> first | rfl | exact absurd hm (by decide)
  simp only [copySighand]
  cases hshare : c.flags.sighand with
  | true =>
    refine ⟨fun _ => ?_, h.owes.push rfl (fun _ _ => rfl) ?_⟩
    · rw [St.take_child, hchild, childAt_cleanupSighand, hshare]
      rfl
    · rw [St.take_child, hchild]
      rfl
  | false =>
    cases c.res.allocSighand with
    | false =>
      exact h.fails (by decide) (hkeep none) rfl
    | true =>
      refine ⟨fun _ => ?_, h.owes.push rfl (hkeep (some .own)) rfl⟩
      · simp only [St.take_child, hchild, childAt_cleanupSighand, hshare]
        rfl

/-- A thread keeps its parent's `signal`, and takes no reference here. -/
theorem signal_ends (h : At c base .cleanupSighand s) :
    Ends (At c base .cleanupSignal) (Failed c base) (copySignal c s) := by
  have hchild := h.child (by decide)
  have hkeep : ∀ q, ∀ m ∈ ladderFrom .cleanupSighand,
      owed c m { s.child with signal := q } = owed c m s.child := by
    intro q m hm
    cases m <;> first | rfl | exact absurd hm (by decide)
  simp only [copySignal]
  cases hshare : c.flags.thread with
  | true =>
    refine ⟨fun _ => ?_, h.owes.push rfl (fun _ _ => rfl) ?_⟩
    · rw [hchild, childAt_cleanupSignal, hshare]
      rfl
    · simp [owed, hshare]
  | false =>
    cases c.res.allocSignal with
    | false =>
      exact h.fails (by decide) (hkeep none) rfl
    | true =>
      refine ⟨fun _ => ?_, h.owes.push rfl (hkeep (some .own)) ?_⟩
      · simp only [St.take_child, hchild, childAt_cleanupSignal, hshare]
        rfl
      · simp [owed, hshare]
        abel

/-- Where `dup_mm` fails, it has given back the address space, and no module with it. -/
theorem dupMm_spec (s : St) :
    (dupMm c s).1 = false ∧ (dupMm c s).2.ledger = s.ledger ∧
        (∃ b, (dupMm c s).2.child = { s.child with binfmt := b }) ∨
      (dupMm c s).1 = true ∧
        (dupMm c s).2.ledger = s.ledger + (one (.mm .own) + oneIf c.cur.binfmt .module) ∧
        (dupMm c s).2.child = { s.child with binfmt := c.cur.binfmt } := by
  simp only [dupMm]
  split
  · exact .inl ⟨rfl, rfl, s.child.binfmt, rfl⟩
  split
  · exact .inl ⟨rfl, by simp, s.child.binfmt, rfl⟩
  split
  · exact .inl ⟨rfl, by simp [mmput], false, by simp [mmput]⟩
  split
  next hb =>
    have hb : c.cur.binfmt = false := by simpa using hb
    exact .inr ⟨rfl, by simp [hb], rfl⟩
  next hb =>
    have hb : c.cur.binfmt = true := by simpa using hb
    split
    · exact .inl ⟨rfl, by simp [mmput], false, by simp [mmput]⟩
    · refine .inr ⟨rfl, ?_, rfl⟩
      simp only [St.take_ledger, hb, oneIf_true]
      abel

theorem mm_ends (h : At c base .cleanupSignal s) :
    Ends (At c base .cleanupMm) (Failed c base) (copyMm c s) := by
  have hchild := h.child (by decide)
  have hkeep : ∀ (q : Option Owner) (b : Bool), ∀ m ∈ ladderFrom .cleanupSignal,
      owed c m { s.child with mm := q, binfmt := b } = owed c m s.child := by
    intro q b m hm
    cases m <;> first | rfl | exact absurd hm (by decide)
  simp only [copyMm]
  -- a kernel thread has no memory to copy
  cases hm : c.cur.mm with
  | false =>
    refine ⟨fun _ => ?_, h.owes.push rfl (hkeep none s.child.binfmt) ?_⟩
    · rw [childAt_cleanupMm, ← hchild, hm]
      rfl
    · simp [owed]
  | true =>
    -- `CLONE_VM` shares it
    cases hshare : c.flags.vm with
    | true =>
      refine ⟨fun _ => ?_, h.owes.push rfl (hkeep (some .parent) s.child.binfmt) ?_⟩
      · rw [childAt_cleanupMm, ← hchild, hm, hshare]
        rfl
      · simp [owed]
    | false =>
      -- otherwise `dup_mm` fails, with everything it took given back, or gives a new one
      rcases dupMm_spec (c := c) { s with child := { s.child with mm := none } } with
        ⟨hno, hled, b, hnew⟩ | ⟨hyes, hled, hnew⟩
      all_goals generalize dupMm c { s with child := { s.child with mm := none } } = r at *
      · obtain ⟨ok, t⟩ := r
        subst hno
        exact h.fails (by decide) (hnew ▸ hkeep none b) hled
      · obtain ⟨ok, t⟩ := r
        subst hyes
        simp only at hled hnew
        refine ⟨fun _ => ?_, h.owes.push rfl ?_ ?_⟩
        · have hb : s.child.binfmt = c.cur.binfmt := by rw [hchild]; rfl
          simp only [childAt_cleanupMm, ← hchild, hm, hshare, hnew, hb]
          rfl
        · simp only [hnew]
          exact hkeep (some .own) c.cur.binfmt
        · simp [owed, hled, hnew]

theorem io_ends (h : At c base .cleanupNamespaces s) :
    Ends (At c base .cleanupIo) (Failed c base) (copyIo c s) := by
  have hchild := h.child (by decide)
  have hold : s.child.io = none := by rw [hchild]; rfl
  -- the three ways to take nothing end the same way
  have hnone (hnew : newIo c = none) : At c base .cleanupIo s := by
    refine ⟨fun _ => ?_, h.owes.push rfl (fun _ _ => rfl) ?_⟩
    · rw [childAt_cleanupIo, ← hchild, hnew, ← hold]
    · simp [owed, hold]
  have htake {o : Owner} (hnew : newIo c = some o) :
      At c base .cleanupIo ({ s with child := { s.child with io := some o } }.take (.io o)) := by
    refine ⟨fun _ => ?_, h.owes.push rfl ?_ ?_⟩
    · rw [childAt_cleanupIo, ← hchild, hnew]
      rfl
    · intro m hm
      cases m <;> first | rfl | exact absurd hm (by decide)
    · simp [owed]
  simp only [copyIo]
  split
  next hb => exact hnone (by simp_all [newIo, sharedIf])
  split
  next hc => exact hnone (by simp_all [newIo, sharedIf])
  split
  next hio => exact htake (by simp_all [newIo, sharedIf, shared])
  split
  · split
    · exact h.failed (by decide)
    · exact htake (by simp_all [newIo, sharedIf, shared])
  · exact hnone (by simp_all [newIo, sharedIf])

theorem pid_ends (hr : c.res.Honest) (h : At c base .cleanupThread s) :
    Ends (At c base .freePid) (Failed c base) (tryPoint c .pid s) := by
  rw [tryPoint]
  cases hidle : c.idle with
  | true =>
    refine ⟨fun _ => h.child (by decide), h.owes.push rfl (fun _ _ => rfl) ?_⟩
    simp [owed, hidle]
  | false =>
    cases halloc : c.res.allocPid with
    | some e => exact h.failed (hr.ptr _ (by simp) e halloc)
    | none =>
      refine ⟨fun _ => h.child (by decide), h.owes.push rfl (fun _ _ => rfl) ?_⟩
      simp [owed, hidle]

/-- A pidfd whose file or number cannot be had is given back, with the file's reference to the
pid. -/
theorem pidfd_ends (hr : c.res.Honest) (h : At c base .freePid s) :
    Ends (At c base .putPidfd) (Failed c base) (copyPidfd c s) := by
  simp only [copyPidfd]
  cases hflag : c.flags.pidfd with
  | false =>
    refine ⟨fun _ => h.child (by decide), h.owes.push rfl (fun _ _ => rfl) ?_⟩
    simp [owed, hflag]
  | true =>
    have hfull : Owes c base .putPidfd (((s.take .pidfd).take .pidfile).take .pidRef) := by
      refine h.owes.push rfl (fun _ _ => rfl) ?_
      simp only [owed, hflag, St.take_ledger, if_true]
      abel
    by_cases hfd : c.res.unusedFd < 0
    · simp only [Bool.not_true, Bool.false_eq_true, if_false, if_pos hfd]
      exact h.failed hfd
    · simp only [Bool.not_true, Bool.false_eq_true, if_false, if_neg hfd]
      cases hfile : c.res.pidfile with
      | some e => exact h.fails (hr.ptr _ (by simp) e hfile) (fun _ _ => rfl) (by simp)
      | none =>
        have hle := hr.int c.res.putUser (by simp)
        by_cases hput : c.res.putUser = 0
        · simp only [hput]
          exact ⟨fun _ => h.child (by decide), hfull⟩
        · simp only [ne_eq, hput, not_false_eq_true, if_true]
          have hneg : c.res.putUser < 0 := by omega
          exact ⟨hneg, hfull⟩

theorem changeBegin_ends (h : At c base .putPidfd s) :
    Ends (At c base .cgroupThreadgroupChangeEnd) (Failed c base) (tryPoint c .changeBegin s) :=
  ⟨fun _ => h.child (by decide), h.owes.push rfl (fun _ _ => rfl) rfl⟩

/-- A filter is owed with the task, which every label but the last falls through to. -/
theorem owedFrom_filter {l : Label} (hl : l ≠ .forkOut) {p : Child}
    (hp : p.filter = false) (b : Bool) :
    owedFrom c l { p with filter := b } = owedFrom c l p + oneIf b .filter := by
  have hm : ∀ m ∈ ladderFrom l, owed c m { p with filter := b } =
      owed c m p + if m = .free then oneIf b .filter else 0 := by
    intro m _
    cases m <;> simp [owed, hp]
    abel
  have hone : ((ladderFrom l).map fun m =>
      if m = .free then oneIf b .filter else (0 : Ledger)).sum = oneIf b .filter := by
    cases l <;> first | exact absurd rfl hl | simp [ladderFrom, ladder]
  rw [owedFrom, List.map_congr_left hm, List.sum_map_add, hone, owedFrom]

/-- The filter is taken under the locks, and given back with the task. -/
theorem canFork_ends (hr : c.res.Honest) (h : At c base .cgroupThreadgroupChangeEnd s) :
    Ends (At c base .cancelCgroup) (Failed c base) (tryPoint c .canFork s) := by
  have hchild := h.child (by decide)
  have hold : s.child.filter = false := by rw [hchild]; rfl
  have hle := hr.int c.res.canFork (by simp)
  rw [tryPoint]
  split
  · exact h.failed (by omega)
  next =>
    have hnew : (copySeccomp c (((s.take .cgroup).take .tasklistLock).take .siglock)).child =
        { s.child with filter := c.cfg.seccomp && c.cur.filter } := by
      simp only [copySeccomp]
      cases hf : c.cfg.seccomp && c.cur.filter
      · simp only [Bool.false_eq_true, if_false, St.take_child]
        rw [← hold]
      · rfl
    have hled : (copySeccomp c (((s.take .cgroup).take .tasklistLock).take .siglock)).ledger =
        s.ledger + (one .siglock + one .tasklistLock + one .cgroup +
          oneIf (c.cfg.seccomp && c.cur.filter) .filter) := by
      simp only [copySeccomp]
      cases hf : c.cfg.seccomp && c.cur.filter
      · simp
        abel
      · simp
        abel
    refine ⟨fun _ => ?_, ?_⟩
    · rw [hnew, hchild, childAt_cancelCgroup]
    · have hsum : owedFrom c .cancelCgroup s.child =
          one .siglock + one .tasklistLock + one .cgroup +
            owedFrom c .cgroupThreadgroupChangeEnd s.child := rfl
      rw [Owes, hled, hnew, owedFrom_filter (by decide) hold, hsum, h.owes]
      abel

theorem pidns_ends (h : At c base .cancelCgroup s) :
    Ends (At c base .cancelCgroup) (Failed c base) (tryPoint c .pidns s) := by
  rw [tryPoint]
  split
  · exact h.failed (by decide)
  · exact h

theorem fatalSignal_ends (h : At c base .cancelCgroup s) :
    Ends (At c base .cancelCgroup) (Failed c base) (tryPoint c .fatalSignal s) := by
  rw [tryPoint]
  split
  · exact h.failed (by decide)
  · exact h

/-- **Before a call, and where it fails, the ledger owes what stands at the labels below.** -/
theorem tryPoint_ends (hr : c.res.Honest) (hkt : c.cur.kthread = true → c.flags.childSettid = false)
    (p : Point) (s : St) (h : At c base p.level s) :
    Ends (At c base p.after) (Failed c base) (tryPoint c p s) := by
  cases p with
  | pending => exact pending_ends h
  | dupTaskStruct => exact dup_ends hkt h
  | nproc => exact nproc_ends h
  | creds => exact creds_ends h
  | maxThreads => exact maxThreads_ends h
  | mempolicy => exact mempolicy_ends hr h
  | schedFork => exact schedFork_ends hr h
  | files => exact files_ends hr h
  | fs => exact fs_ends h
  | sighand => exact sighand_ends h
  | signal => exact signal_ends h
  | mm => exact mm_ends h
  | io => exact io_ends h
  | pid => exact pid_ends hr h
  | pidfd => exact pidfd_ends hr h
  | changeBegin => exact changeBegin_ends h
  | canFork => exact canFork_ends hr h
  | pidns => exact pidns_ends h
  | fatalSignal => exact fatalSignal_ends h
  | _ => exact call_ends h (hr.int _ (by simp)) rfl rfl (by decide) rfl

/-! ## The whole call -/

theorem begin_at : At c base .forkOut (begin c base) := by
  refine ⟨fun h => absurd rfl h, ?_⟩
  simp [Owes, begin, owedFrom, ladderFrom, ladder, owed]

/-- All calls, up to the first that fails. -/
theorem points_end (hr : c.res.Honest) (hkt : c.cur.kthread = true → c.flags.childSettid = false) :
    Ends (At c base .cancelCgroup) (Failed c base) (attempt (tryPoint c) points (begin c base)) :=
  attempt_spec (tryPoint_ends hr hkt) (by decide) begin_at

variable (c)

/-- What a new task holds, and what is counted for it. -/
def holdings : Ledger :=
  one .taskStruct + one .stack + one .stackAccount + one .creds + one .processes +
  one .perf + one .audit + one .security + one .semundo + one .namespaces +
    one .thread + one .cgroup +
  one (.fs (shared c.flags.fs)) + one (.sighand (shared c.flags.sighand)) +
  ofPtr .files (sharedIf c.cur.files c.flags.files) +
  ofPtr .mm (sharedIf c.cur.mm c.flags.vm) +
    oneIf (c.cur.mm && !c.flags.vm && c.cur.binfmt) .module +
  ofPtr .io (newIo c) +
  oneIf (c.cfg.numa && c.cur.mempolicy) (.mempolicy .own) +
  oneIf (c.cfg.seccomp && c.cur.filter) .filter +
  oneIf c.res.delays .delays +
  (if c.flags.thread then 0 else one (.signal .own) + one .autogroup) +
  (if c.flags.pidfd then one .pidfd + one .pidfile + one .pidRef else 0) +
  (if c.idle then 0
    else one .pid + one .nrThreads +
      if c.flags.thread then one .signalThreads + one (.signal .parent)
      else one .processCount + oneIf c.cur.tty .tty)

variable {c}

/-- What all labels owe is what the child holds, with the locks and without what is counted last. -/
theorem owedFrom_childAt (hkt : c.cur.kthread = true → c.flags.childSettid = false) :
    owedFrom c .cancelCgroup (childAt c .cancelCgroup) +
        (if c.idle then 0
          else one .nrThreads +
            if c.flags.thread then one .signalThreads + one (.signal .parent)
            else one .processCount + oneIf c.cur.tty .tty) =
      holdings c + (one .siglock + one .tasklistLock + one .threadgroup +
        oneIf (!c.flags.thread) .delayed) := by
  have hmm : owed c .cleanupMm (childAt c .cancelCgroup) =
      ofPtr .mm (sharedIf c.cur.mm c.flags.vm) +
        oneIf (c.cur.mm && !c.flags.vm && c.cur.binfmt) .module := by
    simp only [owed, childAt]
    cases c.cur.mm <;> cases c.flags.vm <;> rfl
  have hsignal : owed c .cleanupSignal (childAt c .cancelCgroup) =
      if c.flags.thread then 0 else one (.signal .own) + one .autogroup := by
    simp only [owed, childAt]
    cases c.flags.thread
    · exact add_comm _ _
    · rfl
  have hpolicy : owed c .cleanupPolicy (childAt c .cancelCgroup) =
      oneIf (c.cfg.numa && c.cur.mempolicy) (.mempolicy .own) := by
    simp only [owed, childAt, newMempolicy]
    cases c.cfg.numa <;> cases c.cur.mempolicy <;> rfl
  have hfree : owed c .free (childAt c .cancelCgroup) =
      one .stackAccount + one .stack + oneIf (c.cfg.seccomp && c.cur.filter) .filter +
        one .taskStruct := by
    cases hk : c.cur.kthread with
    | false => simp [owed, childAt, hk, ladderFrom, ladder]
    | true => simp [owed, childAt, hk, hkt hk, ladderFrom, ladder]
  have hall : owedFrom c .cancelCgroup (childAt c .cancelCgroup) =
      (ladder.map (owed c · (childAt c .cancelCgroup))).sum := rfl
  rw [hall]
  simp only [ladder, List.map_cons, List.map_nil, List.sum_cons, List.sum_nil, hmm, hsignal,
    hpolicy, hfree]
  simp only [owed, childAt_cancelCgroup, holdings]
  cases c.idle <;> cases c.flags.thread <;> cases c.flags.pidfd <;>
    simp [childAt, ladderFrom, ladder] <;> abel

/-- Past the last point of failure only counters go up, and the locks are let go. -/
theorem publish_balance (s : St) :
    (publish c s).ledger + (one .siglock + one .tasklistLock + one .threadgroup +
        oneIf (!c.flags.thread) .delayed) =
      s.ledger + (if c.idle then 0
        else one .nrThreads +
          if c.flags.thread then one .signalThreads + one (.signal .parent)
          else one .processCount + oneIf c.cur.tty .tty) := by
  simp only [publish]
  cases c.idle <;> cases c.flags.thread <;> simp <;> abel

theorem publish_ledger (hkt : c.cur.kthread = true → c.flags.childSettid = false)
    (h : At c base .cancelCgroup s) : (publish c s).ledger = base + holdings c := by
  have hsum := owedFrom_childAt hkt
  have howes := h.owes
  rw [Owes, h.child (by decide)] at howes
  have hpub := publish_balance (c := c) s
  rw [howes, add_assoc base, hsum, ← add_assoc base] at hpub
  exact add_right_cancel hpub

theorem publish_child (s : St) : (publish c s).child = s.child := by
  simp only [publish]
  cases c.idle <;> cases c.flags.thread <;> simp

variable (c)

/-- The new task: each object is shared where the flag says so, and its own elsewhere. -/
def newTask : Child where
  kthread := c.cur.kthread
  setChildTid := if c.flags.childSettid then .user else .null
  filter := c.cfg.seccomp && c.cur.filter
  dead := false
  delays := c.res.delays
  mempolicy := newMempolicy c
  files := sharedIf c.cur.files c.flags.files
  fs := some (shared c.flags.fs)
  sighand := some (shared c.flags.sighand)
  signal := some (shared c.flags.thread)
  mm := sharedIf c.cur.mm c.flags.vm
  binfmt := c.cur.binfmt
  io := newIo c

/-- The flags that pass keep a thread group together: its members share signal handlers and
memory. -/
theorem checkFlags_thread (h : checkFlags c = none) (ht : c.flags.thread = true) :
    c.flags.sighand = true ∧ c.flags.vm = true := by
  unfold checkFlags at h
  repeat' split at h
  all_goals first | cases h; done | simp_all

theorem checkFlags_neg {e : Int} (h : checkFlags c = some e) : e < 0 := by
  unfold checkFlags at h
  repeat' split at h
  all_goals first | cases h; decide | cases h

/-- **`copy_process` is all or nothing.** Whichever call fails, the error is an error, and the
ladder has given back every reference, charge, lock and piece of memory, each once, with no pointer
followed that is none. If none fails, the child is the one the flags ask for, what has been taken is
what it holds, no lock is left, and the tasks of a thread group share signal handlers and memory.

A kernel thread is not asked for `CLONE_CHILD_SETTID`: the flag stores an address of the caller in
`set_child_tid`, where a kernel thread keeps its own data, and `free_kthread_struct` would free
it. -/
theorem copy_process_all_or_nothing (base : Ledger) (hr : c.res.Honest)
    (hkt : c.cur.kthread = true → c.flags.childSettid = false) :
    Ends
      (fun t => t.child = newTask c ∧ t.ledger = base + holdings c ∧
        (c.flags.thread = true →
          t.child.sighand = some .parent ∧ t.child.mm = inherited c.cur.mm ∧
          t.child.signal = some .parent))
      (fun f => f.1 < 0 ∧ f.2 = base)
      (copyProcess c base) := by
  unfold copyProcess
  cases hflags : checkFlags c with
  | some e => exact ⟨checkFlags_neg c hflags, rfl⟩
  | none =>
    have hend : Ends (At c base .cancelCgroup) (Failed c base) _ := points_end hr hkt
    cases hrun : attempt (tryPoint c) points (begin c base) with
    | error f =>
      obtain ⟨e, l, s⟩ := f
      rw [hrun] at hend
      obtain ⟨hneg, howes⟩ := hend
      refine ⟨hneg, ?_⟩
      show (unwind c l s).ledger = base
      rw [unwind_ledger, howes]
      exact add_sub_cancel_right _ _
    | ok s =>
      rw [hrun, ends_ok] at hend
      have hchild : (publish c s).child = newTask c := by
        rw [publish_child, hend.child (by decide)]
        rfl
      refine ⟨hchild, publish_ledger hkt hend, fun ht => ?_⟩
      obtain ⟨hsig, hvm⟩ := checkFlags_thread c hflags ht
      rw [hchild]
      refine ⟨?_, ?_, ?_⟩
      · simp [newTask, shared, hsig]
      · simp [newTask, sharedIf, shared, inherited, hvm]
      · simp [newTask, shared, ht]

end

/-- A fork with a pidfd and nothing shared, by a user's task, with every call well but for a fatal
signal at the end. -/
def killedFork : Call where
  cfg := { numa := true, threadInfoInTask := true, block := true, seccomp := true }
  flags :=
    { vm := false, fs := false, files := false, sighand := false, thread := false, parent := false,
      newns := false, newuser := false, newpid := false, pidfd := true,
        detached := false, io := false,
      childSettid := true }
  idle := false
  cur :=
    { kthread := false, files := true, mm := true, binfmt := true, ioContext := true,
      ioprioValid := true,
      mempolicy := true, filter := true, fsInExec := false, unkillable := false,
        otherPidNs := false,
      tty := true, initUser := false, sysAdmin := false, sysResource := false }
  res :=
    { unprivilegedUsernsClone := false, signalPending := false, allocTaskStruct := true,
      allocThreadStack := true, memcgCharge := 0, archDup := 0, processes := 3, rlimitNproc := 100,
      copyCreds := 0, nrThreads := 50, maxThreads := 1000, delays := true, mpolDup := none,
      schedFork := 0, perf := 0, audit := 0, security := 0, semundo := 0, dupFd := none,
      copyFsStruct := true, allocSighand := true, allocSignal := true, allocMm := true,
        mmInit := true,
      dupMmap := 0, moduleGet := true, namespaces := 0, newIoContext := true, copyThread := 0,
      allocPid := none, unusedFd := 5, pidfile := none, putUser := 0, canFork := 0,
        pidnsAdding := true,
      fatalSignal := true }

theorem copy_process_all_or_nothing_killed :
    (copyProcess killedFork 0).isOk = false ∧
      Ends
        (fun t => t.child = newTask killedFork ∧ t.ledger = 0 + holdings killedFork ∧
          (killedFork.flags.thread = true →
            t.child.sighand = some .parent ∧ t.child.mm = inherited killedFork.cur.mm ∧
              t.child.signal = some .parent))
        (fun f => f.1 < 0 ∧ f.2 = 0)
        (copyProcess killedFork 0) :=
  ⟨by rfl, copy_process_all_or_nothing killedFork 0 ⟨by decide, by decide⟩ (by decide)⟩

end LinuxKernel.Fork
