import LinuxKernel.Watch.Report

/-!
# /proc/watch — what the calls do

* `updateStatus_cases`   — `proc_read` at position 0: the pid is free, or the task is measured, or
  there is nothing to be measured.
* `updateStatus_holds`   — there is a report after it.
* `copyReport_ok`        — the part of the report a reader gets.
* `procWrite_cases`      — what a write does.
-/

namespace LinuxKernel.Watch

open LinuxKernel.Lib LinuxKernel.Proc

/-! ## A new read -/

section Status

variable {userHz : Nat} {w : World} {s : State}

theorem writeGone_holds (output : Buffer) : (writeGone output).Holds goneText :=
  ⟨by decide, output.bytes.drop (goneText.length + 1), by
    rw [List.append_assoc, List.singleton_append, writeGone]⟩

theorem findGetPid_none {pid : Pid} (hpid : w.pids pid = none) :
    findGetPid w pid s = (false, s) := by
  rw [findGetPid, hpid]
  rfl

theorem findGetPid_some {pid : Pid} {holder : Nat} (hpid : w.pids pid = some holder) :
    findGetPid w pid s = (true, { s with pidRefs := s.pidRefs + 1 }) := by
  rw [findGetPid, hpid]
  rfl

/-- Without a process that has the pid. -/
theorem updateStatus_gone (hpid : w.pids s.pidMeasured = none) :
    updateStatus userHz w s =
      .ok (w, { s with output := writeGone s.output, outLen := goneText.length }) := by
  unfold updateStatus
  rw [findGetPid_none hpid]
  dsimp only
  rw [(writeGone_holds s.output).strlen_eq]

/-- Only the page tables of the process are changed. -/
theorem ramMeasure_ok {task mm : Nat} (hmm : (w.tasks task).mm = some mm) :
    ∃ mms pageCount, ramMeasure w (some task) = .ok ({ w with mms := mms }, pageCount) := by
  unfold ramMeasure
  dsimp only
  rw [hmm]
  exact ⟨_, _, rfl⟩

theorem ramMeasure_fault {taskp : Option Nat}
    (hnone : ∀ task, taskp = some task → (w.tasks task).mm = none) :
    ramMeasure w taskp = .error .nullPointer := by
  unfold ramMeasure
  cases taskp with
  | none => rfl
  | some task =>
    dsimp only
    rw [hnone task rfl]

/-- With a process that has the pid, and a task to be measured. -/
theorem updateStatus_report (userHz : Nat) {holder task mm : Nat}
    (hpid : w.pids s.pidMeasured = some holder) (htaskp : s.taskp = some task)
    (hmm : (w.tasks task).mm = some mm) :
    ∃ mms output numbers,
      updateStatus userHz w s = .ok ({ w with mms := mms },
        { s with
          output := output, outLen := (reportText numbers).length, pidRefs := s.pidRefs + 1 }) ∧
      output.Holds (reportText numbers) ∧ reportText numbers ≠ [] := by
  obtain ⟨mms, pageCount, hram⟩ := ramMeasure_ok hmm
  obtain ⟨times, hcpu⟩ : ∃ times, cpuMeasure { w with mms := mms } (some task) 0 0 = .ok times :=
    ⟨_, rfl⟩
  obtain ⟨output, hreport, hholds⟩ := writeReport_holds userHz s.output pageCount times
  refine ⟨mms, output, _, ?_, hholds, reportText_ne_nil (List.cons_ne_nil _ _)⟩
  unfold updateStatus
  rw [findGetPid_some hpid]
  dsimp only
  rw [htaskp, hram, ok_bind]
  dsimp only
  rw [hcpu, ok_bind, hreport, ok_bind]

/-- There is no other fault than that of measuring a task that is not there or has no `mm`. -/
theorem updateStatus_fault {holder : Nat} (hpid : w.pids s.pidMeasured = some holder)
    (hnone : ∀ task, s.taskp = some task → (w.tasks task).mm = none) :
    updateStatus userHz w s = .error .nullPointer := by
  unfold updateStatus
  rw [findGetPid_some hpid]
  dsimp only
  rw [ramMeasure_fault hnone]
  rfl

/-- **What a new read does.** -/
theorem updateStatus_cases (userHz : Nat) (w : World) (s : State) :
    (w.pids s.pidMeasured = none ∧ updateStatus userHz w s =
      .ok (w, { s with output := writeGone s.output, outLen := goneText.length })) ∨
    (∃ task mm mms output numbers, w.pids s.pidMeasured ≠ none ∧ s.taskp = some task ∧
      (w.tasks task).mm = some mm ∧ updateStatus userHz w s = .ok ({ w with mms := mms },
        { s with
          output := output, outLen := (reportText numbers).length, pidRefs := s.pidRefs + 1 }) ∧
      output.Holds (reportText numbers) ∧ reportText numbers ≠ []) ∨
    ((∃ holder, w.pids s.pidMeasured = some holder) ∧
      (∀ task, s.taskp = some task → (w.tasks task).mm = none) ∧
      updateStatus userHz w s = .error .nullPointer) := by
  cases hpid : w.pids s.pidMeasured with
  | none => exact Or.inl ⟨rfl, updateStatus_gone hpid⟩
  | some holder =>
    by_cases hnone : ∀ task, s.taskp = some task → (w.tasks task).mm = none
    · exact Or.inr (Or.inr ⟨⟨holder, rfl⟩, hnone, updateStatus_fault hpid hnone⟩)
    · push Not at hnone
      obtain ⟨task, htaskp, hmm⟩ := hnone
      obtain ⟨mm, hmm⟩ := Option.ne_none_iff_exists'.mp hmm
      obtain ⟨mms, output, numbers, hok, hholds, hne⟩ := updateStatus_report userHz hpid htaskp hmm
      exact Or.inr (Or.inl ⟨task, mm, mms, output, numbers, Option.some_ne_none holder,
        htaskp, hmm, hok, hholds, hne⟩)

/-- After a new read the output holds a report, and `out_len` is its length. -/
theorem updateStatus_holds {w' : World} {s' : State} (h : updateStatus userHz w s = .ok (w', s')) :
    ∃ text, s'.output.Holds text ∧ s'.outLen = text.length ∧ text ≠ [] := by
  obtain ⟨-, hok⟩ | ⟨_, _, _, _, _, -, -, -, hok, hholds, hne⟩ | ⟨-, -, hfault⟩ :=
    updateStatus_cases userHz w s
  · rw [hok] at h
    cases h
    exact ⟨goneText, writeGone_holds s.output, rfl, by decide⟩
  · rw [hok] at h
    cases h
    exact ⟨_, hholds, rfl, hne⟩
  · rw [hfault] at h
    simp at h

end Status

/-! ## What a reader gets -/

/-- At a position inside the report, or at its end. -/
theorem copyReport_ok {s : State} {text : List Byte} (hholds : s.output.Holds text)
    (hout : s.outLen = text.length) {pos : BitVec 64} (hpos : pos.toNat ≤ text.length)
    (len : BitVec 64) :
    ∃ pos', copyReport true s pos len = .ok (some ((text.drop pos.toNat).take len.toNat, pos')) ∧
      pos'.toNat = pos.toNat + ((text.drop pos.toNat).take len.toNat).length := by
  have hmax : maxSize = 128 := rfl
  have hlt := hholds.length_lt
  refine ⟨pos + (readCount text.length pos len).signExtend 64, ?_, ?_⟩
  · unfold copyReport
    dsimp only
    rw [hout, copyToUser_holds hholds hpos, ok_bind]
    rfl
  · rw [toNat_add_readCount hpos (by omega), List.length_take, List.length_drop]

/-- Anywhere, the copy is the only thing that can go wrong. -/
theorem copyReport_cases (userOk : Bool) (s : State) (pos len : BitVec 64) :
    (∃ result, copyReport userOk s pos len = .ok result) ∨
      copyReport userOk s pos len = .error .overrun := by
  unfold copyReport copyToUser
  dsimp only
  split
  · exact Or.inl ⟨_, rfl⟩
  · split
    · cases userOk with
      | true => exact Or.inl ⟨_, rfl⟩
      | false => exact Or.inl ⟨_, rfl⟩
    · exact Or.inr rfl

/-! ## `proc_write` -/

/-- The pid a write is about, if it is not refused. -/
def writtenPid (userOk : Bool) (pos : BitVec 64) (ubuf : List Byte) : Option Pid :=
  if (0#64).slt pos then none else kstrtointFromUser userOk ubuf

section Write

variable {userOk : Bool} {pos : BitVec 64} {ubuf : List Byte} {w : World} {s : State} {pid : Pid}

theorem procWrite_refused (h : writtenPid userOk pos ubuf = none) :
    procWrite userOk pos ubuf w s = .ok (none, w, s) := by
  unfold writtenPid at h
  unfold procWrite
  split
  · rfl
  · next hpos =>
    rw [if_neg hpos] at h
    rw [h]

/-- The rest of `proc_write`. -/
theorem procWrite_eq (h : writtenPid userOk pos ubuf = some pid) :
    ∃ result, procWrite userOk pos ubuf w s =
      match findGetPid w pid { (getPidTask w pid (findGetPid w pid s).2).2 with
        taskp := (getPidTask w pid (findGetPid w pid s).2).1, pidMeasured := pid } with
      | (true, s) =>
        (ramMeasure w s.taskp).bind fun (w, _) =>
        (cpuMeasure w s.taskp 0 0).bind fun _ =>
        .ok (result, w, s)
      | (false, s) => .ok (result, w, s) := by
  unfold writtenPid at h
  unfold procWrite
  split
  · next hpos =>
    rw [if_pos hpos] at h
    simp at h
  · next hpos =>
    rw [if_neg hpos] at h
    rw [h]
    exact ⟨_, rfl⟩

/-- A pid that is free: nothing is measured. -/
theorem procWrite_free (h : writtenPid userOk pos ubuf = some pid) (hpid : w.pids pid = none) :
    ∃ result, procWrite userOk pos ubuf w s =
      .ok (result, w, { s with taskp := none, pidMeasured := pid }) := by
  obtain ⟨result, hcall⟩ := procWrite_eq h
  refine ⟨result, ?_⟩
  rw [hcall]
  simp only [findGetPid_none hpid, getPidTask, hpid]

/-- The variables after a write of a pid that is in use. -/
def State.measuring (s : State) (pid : Pid) (task : Nat) : State :=
  { s with
    taskp := some task
    pidMeasured := pid
    pidRefs := s.pidRefs + 1 + 1
    taskRefs := task :: s.taskRefs }

/-- A pid of a task with an `mm`: the task is measured. -/
theorem procWrite_measured (h : writtenPid userOk pos ubuf = some pid) {task mm : Nat}
    (hpid : w.pids pid = some task) (hmm : (w.tasks task).mm = some mm) :
    ∃ result mms, procWrite userOk pos ubuf w s =
      .ok (result, { w with mms := mms }, s.measuring pid task) := by
  obtain ⟨result, hcall⟩ := procWrite_eq h
  obtain ⟨mms, pageCount, hram⟩ := ramMeasure_ok hmm
  refine ⟨result, mms, ?_⟩
  rw [hcall]
  simp only [findGetPid_some hpid, getPidTask, hpid]
  rw [hram, ok_bind]
  rfl

/-- A pid of a task without one. -/
theorem procWrite_fault (h : writtenPid userOk pos ubuf = some pid) {task : Nat}
    (hpid : w.pids pid = some task) (hmm : (w.tasks task).mm = none) :
    procWrite userOk pos ubuf w s = .error .nullPointer := by
  obtain ⟨result, hcall⟩ := procWrite_eq h
  rw [hcall]
  simp only [findGetPid_some hpid, getPidTask, hpid]
  rw [ramMeasure_fault (by rintro _ ⟨⟩; exact hmm)]
  rfl

/-- **What a write does.** -/
theorem procWrite_cases (userOk : Bool) (pos : BitVec 64) (ubuf : List Byte)
    (w : World) (s : State) :
    (writtenPid userOk pos ubuf = none ∧ procWrite userOk pos ubuf w s = .ok (none, w, s)) ∨
    (∃ pid result, writtenPid userOk pos ubuf = some pid ∧ w.pids pid = none ∧
      procWrite userOk pos ubuf w s =
        .ok (result, w, { s with taskp := none, pidMeasured := pid })) ∨
    (∃ pid task mm result mms, writtenPid userOk pos ubuf = some pid ∧ w.pids pid = some task ∧
      (w.tasks task).mm = some mm ∧
      procWrite userOk pos ubuf w s = .ok (result, { w with mms := mms }, s.measuring pid task)) ∨
    ∃ pid task, writtenPid userOk pos ubuf = some pid ∧ w.pids pid = some task ∧
      (w.tasks task).mm = none ∧ procWrite userOk pos ubuf w s = .error .nullPointer := by
  cases hwritten : writtenPid userOk pos ubuf with
  | none => exact Or.inl ⟨rfl, procWrite_refused hwritten⟩
  | some pid =>
    cases hpid : w.pids pid with
    | none =>
      obtain ⟨result, hcall⟩ := procWrite_free (s := s) hwritten hpid
      exact Or.inr (Or.inl ⟨pid, result, rfl, hpid, hcall⟩)
    | some task =>
      cases hmm : (w.tasks task).mm with
      | none =>
        exact Or.inr (Or.inr (Or.inr
          ⟨pid, task, rfl, hpid, hmm, procWrite_fault hwritten hpid hmm⟩))
      | some mm =>
        obtain ⟨result, mms, hcall⟩ := procWrite_measured (s := s) hwritten hpid hmm
        exact Or.inr (Or.inr (Or.inl ⟨pid, task, mm, result, mms, rfl, hpid, hmm, hcall⟩))

/-- A write leaves the report as it is. -/
theorem procWrite_output {result : Option (Nat × BitVec 64)} {w' : World} {s' : State}
    (h : procWrite userOk pos ubuf w s = .ok (result, w', s')) :
    s'.output = s.output ∧ s'.outLen = s.outLen := by
  obtain ⟨-, hcall⟩ | ⟨_, _, -, -, hcall⟩ | ⟨_, _, _, _, _, -, -, -, hcall⟩ |
      ⟨_, _, -, -, -, hcall⟩ :=
    procWrite_cases userOk pos ubuf w s
  · rw [hcall] at h
    cases h
    exact ⟨rfl, rfl⟩
  · rw [hcall] at h
    cases h
    exact ⟨rfl, rfl⟩
  · rw [hcall] at h
    cases h
    exact ⟨rfl, rfl⟩
  · rw [hcall] at h
    simp at h

end Write

end LinuxKernel.Watch
