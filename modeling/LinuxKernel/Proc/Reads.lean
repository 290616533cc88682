import LinuxKernel.Watch.Lifetime
import LinuxKernel.Mtest.Access

/-!
# Files in /proc — what a read copies

Both modules copy a part of the string in `output`, from the position on and up to `len` bytes.
Behind the end of the string, which a reader can reach by `lseek`, by `pread`, or when a later
report is shorter, `out_len - *pos` is negative and taken for a number close to 2^64.

* **/proc/watch** copies from `output + *pos`, and has a report as soon as it is loaded.
* **/proc/mtest** copies from `output`. Its string has one character at most, so this goes
  unnoticed up to the end of the string.

## Results

* `readsWatch_iff`, `readsMtest_iff` — one read of either file.
* `reads_inside_iff`                 — in all states the modules get into.
-/

namespace LinuxKernel.Proc

open LinuxKernel.Lib

/-- The bytes of the string from the position on, `len` of them at most, are copied, and the
position advances by their number. -/
def ReadsPart (text : List Byte) (pos len : BitVec 64) (result : Option (List Byte × BitVec 64)) :
    Prop :=
  ∃ pos', result = some ((text.drop pos.toNat).take len.toNat, pos') ∧
    pos'.toNat = pos.toNat + ((text.drop pos.toNat).take len.toNat).length

/-- The position is not behind the end, or the lower half of what is taken for the length is 0. -/
def CountRight (outLen : Nat) (pos len : BitVec 64) : Prop :=
  pos.toNat ≤ outLen ∨ min len.toNat (2 ^ 64 - (pos.toNat - outLen)) % 2 ^ 32 = 0

section Past

variable {text : List Byte} {pos len : BitVec 64}

/-- Nothing is copied, and the position stays where it is. -/
theorem readsPart_past (hpast : text.length < pos.toNat) :
    ReadsPart text pos len (some ([], pos)) := by
  refine ⟨pos, ?_, ?_⟩
  · rw [List.drop_of_length_le (Nat.le_of_lt hpast), List.take_nil]
  · rw [List.drop_of_length_le (Nat.le_of_lt hpast), List.take_nil]
    rfl

/-- Behind the end of the string, wherever the copy starts. -/
theorem copy_past_iff (buf : List Byte) (start : BitVec 64) (hpast : text.length < pos.toNat) :
    (∃ result, ((copyToUser buf start (readCount text.length pos len)).bind fun
        | none => .ok none
        | some bytes => .ok (some (bytes, pos + (readCount text.length pos len).signExtend 64))) =
          .ok result ∧ ReadsPart text pos len result) ↔
      CountRight text.length pos len := by
  have hcount : (readCount text.length pos len).toNat = _ := readCount_past hpast
  constructor
  · rintro ⟨result, hcall, pos', hresult, -⟩
    obtain ⟨copied, hcopy, hrest⟩ := bind_eq_ok hcall
    rw [List.drop_of_length_le (Nat.le_of_lt hpast), List.take_nil] at hresult
    cases copied with
    | none =>
      obtain rfl := Except.ok.inj hrest
      simp at hresult
    | some bytes =>
      obtain rfl := Except.ok.inj hrest
      have hnil : bytes = [] := congrArg Prod.fst (Option.some.inj hresult)
      have hlen := length_copyToUser hcopy
      rw [hnil, List.length_nil] at hlen
      refine Or.inr ?_
      rw [← hcount, ← hlen]
  · rintro (hle | hzero)
    · omega
    · have hnone : readCount text.length pos len = 0 := by
        apply BitVec.eq_of_toNat_eq
        rw [hcount, hzero]
        rfl
      refine ⟨some ([], pos), ?_, readsPart_past hpast⟩
      rw [hnone, copyToUser_zero, ok_bind]
      show Except.ok (some ([], pos + 0#64)) = _
      rw [BitVec.add_zero]

end Past

/-! ## /proc/watch -/

section Watch

open LinuxKernel.Watch

variable {userHz : Nat} {text : List Byte} {s t : System} {watch : Watch.State}

/-- One copy of the report. -/
theorem copyReport_iff (hholds : watch.output.Holds text) (hout : watch.outLen = text.length)
    (pos len : BitVec 64) :
    (∃ result, copyReport true watch pos len = .ok result ∧ ReadsPart text pos len result) ↔
      CountRight watch.outLen pos len := by
  rcases Nat.lt_or_ge text.length pos.toNat with hpast | hpos
  · rw [hout, ← copy_past_iff watch.output.bytes pos hpast, ← hout]
    rfl
  · obtain ⟨pos', hcopy, hpos'⟩ := copyReport_ok hholds hout hpos len
    exact iff_of_true ⟨_, hcopy, pos', rfl, hpos'⟩ (Or.inl (by omega))

/-- There is a report in `output`, and `out_len` is its length. -/
def HasReport (watch : Watch.State) : Prop :=
  ∃ text, watch.output.Holds text ∧ watch.outLen = text.length

theorem HasReport.init : HasReport State.init :=
  ⟨[], ⟨List.not_mem_nil, List.replicate 127 0, rfl⟩, rfl⟩

theorem HasReport.next {op : WatchOp} (h : HasReport s.watch) (hnext : s.next userHz op = some t) :
    HasReport t.watch := by
  cases op with
  | write userOk pos ubuf =>
    obtain ⟨text, hholds, hlen⟩ := h
    obtain ⟨-, rfl⟩ | ⟨_, -, -, rfl⟩ | ⟨_, _, _, -, -, rfl⟩ := System.next_write_cases hnext
    all_goals exact ⟨text, hholds, hlen⟩
  | read userOk pos len =>
    obtain ⟨-, rfl⟩ | ⟨-, rfl⟩ | ⟨-, -, _, _, numbers, hholds, rfl⟩ := System.next_read_cases hnext
    · exact h
    · exact ⟨goneText, writeGone_holds s.watch.output, rfl⟩
    · exact ⟨reportText numbers, hholds, rfl⟩
  | process op =>
    obtain rfl := Option.some.inj hnext
    exact h

/-- A call of `proc_read` returns, and what it copies is the part of the report there is after
it. -/
def ReadsWatch (userHz : Nat) (s : System) (pos len : BitVec 64) : Prop :=
  ∃ result world watch text, Watch.procRead userHz true pos len s.world s.watch =
    .ok (result, world, watch) ∧
    watch.output.Holds text ∧ watch.outLen = text.length ∧ ReadsPart text pos len result

/-- There is something to be reported: the pid is free, or the task has an `mm`. -/
def CanReport (s : System) : Prop :=
  s.world.pids s.watch.pidMeasured = none ∨
    ∃ task, s.watch.taskp = some task ∧ (s.world.tasks task).mm ≠ none

/-- A new read copies the start of the report it has made. -/
theorem readsWatch_new {w : World} (hok : updateStatus userHz s.world s.watch = .ok (w, watch))
    (len : BitVec 64) : ReadsWatch userHz s 0 len := by
  obtain ⟨text, hholds, hout, -⟩ := updateStatus_holds hok
  obtain ⟨result, hcopy, hpart⟩ := (copyReport_iff hholds hout 0 len).mpr (Or.inl (Nat.zero_le _))
  refine ⟨result, w, watch, text, ?_, hholds, hout, hpart⟩
  unfold Watch.procRead
  rw [if_pos rfl, hok, ok_bind]
  dsimp only
  rw [hcopy, ok_bind]

/-- Any other read copies a part of the report there is. -/
theorem readsWatch_later {pos : BitVec 64} (hne : pos ≠ 0) (hholds : s.watch.output.Holds text)
    (hout : s.watch.outLen = text.length) (len : BitVec 64) :
    ReadsWatch userHz s pos len ↔
      ∃ result, copyReport true s.watch pos len = .ok result ∧ ReadsPart text pos len result := by
  have hcall : Watch.procRead userHz true pos len s.world s.watch =
      (copyReport true s.watch pos len).bind fun result => .ok (result, s.world, s.watch) := by
    unfold Watch.procRead
    rw [if_neg hne, ok_bind]
  unfold ReadsWatch
  rw [hcall]
  constructor
  · rintro ⟨result, world, watch, text', hbind, hholds', -, hpart⟩
    obtain ⟨result', hcopy, hrest⟩ := bind_eq_ok hbind
    obtain ⟨rfl, rfl, rfl⟩ : result' = result ∧ s.world = world ∧ s.watch = watch := by
      simpa using hrest
    rw [← hholds'.cstr_eq, hholds.cstr_eq] at hpart
    exact ⟨result', hcopy, hpart⟩
  · rintro ⟨result, hcopy, hpart⟩
    refine ⟨result, s.world, s.watch, text, ?_, hholds, hout, hpart⟩
    rw [hcopy, ok_bind]

/-- **/proc/watch**, one read. -/
theorem readsWatch_iff (userHz : Nat) (h : HasReport s.watch) (pos len : BitVec 64) :
    ReadsWatch userHz s pos len ↔
      CountRight s.watch.outLen pos len ∧ (pos = 0 → CanReport s) := by
  by_cases hpos : pos = 0
  · subst hpos
    have hright : CountRight s.watch.outLen 0 len := Or.inl (Nat.zero_le _)
    obtain ⟨hpid, hok⟩ | ⟨task, mm, _, _, _, -, htaskp, hmm, hok, -, -⟩ |
        ⟨⟨holder, hpid⟩, hnone, hfault⟩ :=
      updateStatus_cases userHz s.world s.watch
    · exact iff_of_true (readsWatch_new hok len) ⟨hright, fun _ => Or.inl hpid⟩
    · refine iff_of_true (readsWatch_new hok len) ⟨hright, fun _ => Or.inr ⟨task, htaskp, ?_⟩⟩
      rw [hmm]
      exact Option.some_ne_none mm
    · refine iff_of_false ?_ ?_
      · rintro ⟨result, world, watch, text, hcall, -⟩
        unfold Watch.procRead at hcall
        rw [if_pos rfl, hfault] at hcall
        simp at hcall
      · rintro ⟨-, hcan⟩
        obtain hfree | ⟨task, htaskp, hmm⟩ := hcan rfl
        · rw [hpid] at hfree
          simp at hfree
        · exact hmm (hnone task htaskp)
  · obtain ⟨text, hholds, hout⟩ := h
    rw [readsWatch_later hpos hholds hout, copyReport_iff hholds hout]
    exact ⟨fun hright => ⟨hright, fun hzero => absurd hzero hpos⟩, fun hright => hright.1⟩

end Watch

/-! ## /proc/mtest -/

section Mtest

open LinuxKernel.Mtest

variable {s t : Mtest.State} {text : List Byte}

/-- A write to the file, with the processes as they are then, or a change of the memory by
others. -/
inductive MtestOp
  | write (k : Kernel) (userOk : Bool) (pos : BitVec 64) (ubuf : List Byte)
  | memory (mem : Memory)

def nextMtest (s : Mtest.State) : MtestOp → Option Mtest.State
  | .write k userOk pos ubuf =>
    match Mtest.procWrite k userOk pos ubuf s with
    | .ok (_, t) => some t
    | .error _ => none
  | .memory mem => some { s with mem := mem }

/-- As the module is loaded. -/
def loadedMtest (mem : Memory) : Mtest.State :=
  { mem := mem, output := ⟨List.replicate maxSize 0, length_zeros⟩ }

/-- The string in `output` has one character at most. -/
def ShortOutput (s : Mtest.State) : Prop := ∃ text, s.output.Holds text ∧ text.length ≤ 1

theorem ShortOutput.loaded (mem : Memory) : ShortOutput (loadedMtest mem) :=
  ⟨[], ⟨List.not_mem_nil, List.replicate 127 0, rfl⟩, Nat.zero_le 1⟩

/-- A command leaves `output` as it is or puts one byte there. -/
theorem execute_output {k : Kernel} {command : Command} (h : execute k s command = .ok t) :
    t.output = s.output ∨ ∃ b, t.output = showByte s.output b := by
  cases command with
  | read f =>
    obtain ⟨p, -, h⟩ := bind_eq_ok h
    rw [Buffer.write, if_pos (by decide), ok_bind, Buffer.write, if_pos (by decide), ok_bind] at h
    obtain rfl := Except.ok.inj h
    exact Or.inr ⟨_, rfl⟩
  | write f =>
    obtain ⟨p, -, h⟩ := bind_eq_ok h
    obtain ⟨content, -, h⟩ := bind_eq_ok h
    obtain rfl := Except.ok.inj h
    exact Or.inl rfl
  | unknown =>
    obtain rfl := Except.ok.inj h
    exact Or.inl rfl

theorem ShortOutput.execute {k : Kernel} {command : Command} (hs : ShortOutput s)
    (h : Mtest.execute k s command = .ok t) : ShortOutput t := by
  obtain heq | ⟨b, heq⟩ := execute_output h
  · obtain ⟨text, hholds, hlen⟩ := hs
    exact ⟨text, by rwa [heq], hlen⟩
  · refine ⟨_, heq ▸ showByte_holds s.output b, ?_⟩
    split
    · exact Nat.zero_le 1
    · exact Nat.le_refl 1

theorem ShortOutput.next {op : MtestOp} (hs : ShortOutput s) (hnext : nextMtest s op = some t) :
    ShortOutput t := by
  cases op with
  | write k userOk pos ubuf =>
    unfold nextMtest at hnext
    dsimp only at hnext
    split at hnext
    · next hcall =>
      obtain rfl := Option.some.inj hnext
      unfold Mtest.procWrite at hcall
      split at hcall
      · obtain ⟨-, rfl⟩ := Prod.mk.inj (Except.ok.inj hcall)
        exact hs
      · obtain ⟨command, -, hcall⟩ := bind_eq_ok hcall
        obtain ⟨after, hexecute, hcall⟩ := bind_eq_ok hcall
        obtain ⟨-, rfl⟩ := Prod.mk.inj (Except.ok.inj hcall)
        exact hs.execute hexecute
    · simp at hnext
  | memory mem =>
    obtain rfl := Option.some.inj hnext
    exact hs

/-- **/proc/mtest**, one read. At the start of the string, and at its end, the copy is from the
right place. -/
theorem readsMtest_iff (hs : ShortOutput s) (pos len : BitVec 64) :
    (∃ result, Mtest.procRead true s pos len = .ok result ∧
      ReadsPart (cstr s.output.bytes) pos len result) ↔
      CountRight (strlen s.output.bytes) pos len := by
  obtain ⟨text, hholds, hshort⟩ := hs
  rw [hholds.cstr_eq, hholds.strlen_eq]
  rcases Nat.lt_or_ge text.length pos.toNat with hpast | hpos
  · rw [← copy_past_iff s.output.bytes 0 hpast]
    unfold Mtest.procRead
    rw [hholds.strlen_eq]
    rfl
  · refine iff_of_true ?_ (Or.inl hpos)
    by_cases hend : pos.toNat = text.length
    · refine ⟨_, procRead_end hholds hend len, pos, ?_, ?_⟩
      · rw [hend, List.drop_length, List.take_nil]
      · rw [hend, List.drop_length, List.take_nil]
        rfl
    · -- a string of one character, from its start
      have hzero : pos.toNat = 0 := by omega
      obtain rfl : pos = 0 := BitVec.eq_of_toNat_eq hzero
      refine ⟨_, ?_, 0 + (readCount text.length 0 len).signExtend 64, rfl, ?_⟩
      · unfold Mtest.procRead
        dsimp only
        rw [hholds.strlen_eq, copyToUser_holds hholds hpos, ok_bind]
        rfl
      · rw [toNat_add_readCount hpos (by omega), List.length_take, List.length_drop]

end Mtest

/-! ## Both files -/

/-- **Reads stay inside the report.** In every state /proc/watch and /proc/mtest get into, for every
position and every length: a read copies the bytes of the current report from the position on, up to
`len` of them and none behind the end, returns their number and advances the position by it, iff the
position is not behind the end of the report or the lower half of what is taken for the length is 0;
a new read of /proc/watch must have something to report as well. -/
theorem reads_inside_iff (userHz : Nat) (w : Watch.World) (u : Watch.System)
    (hu : Reachable (Watch.System.next userHz) ⟨w, Watch.State.init⟩ u) (mem : Memory)
    (s : Mtest.State)
    (hs : Reachable nextMtest (loadedMtest mem) s) (pos len : BitVec 64) :
    (ReadsWatch userHz u pos len ↔ CountRight u.watch.outLen pos len ∧ (pos = 0 → CanReport u)) ∧
    ((∃ result, Mtest.procRead true s pos len = .ok result ∧
      ReadsPart (cstr s.output.bytes) pos len result) ↔
      CountRight (strlen s.output.bytes) pos len) := by
  have hreport : HasReport u.watch :=
    hu.invariant (fun _ _ _ hprev hnext => HasReport.next hprev hnext) HasReport.init
  have hshort : ShortOutput s :=
    hs.invariant (fun _ _ _ hprev hnext => ShortOutput.next hprev hnext) (ShortOutput.loaded mem)
  exact ⟨readsWatch_iff userHz hreport pos len, readsMtest_iff hshort pos len⟩

/-- Both as they are loaded, at the start of the files. -/
theorem reads_inside_loaded :
    ReadsWatch 100 ⟨Watch.sampleWorld, Watch.State.init⟩ 0 20 ∧
    ∃ result, Mtest.procRead true (loadedMtest fun _ => 0) 0 20 = .ok result ∧
      ReadsPart (cstr (loadedMtest fun _ => 0).output.bytes) 0 20 result := by
  have h :=
    reads_inside_iff 100 Watch.sampleWorld _ (Reachable.init _) (fun _ => 0) _
      (Reachable.init _) 0 20
  exact ⟨h.1.mpr ⟨Or.inl (Nat.zero_le _), fun _ => Or.inl rfl⟩, h.2.mpr (Or.inl (Nat.zero_le _))⟩

/-- Behind the end. After a report of 15 characters a read of 20 bytes at position 16 gets 20 bytes,
and one at position 120 reads behind the array; /proc/mtest, which has nothing to show, gives a byte
at position 1. -/
theorem reads_inside_fails :
    let s : Watch.System := ⟨Watch.sampleWorld, Watch.State.init⟩
    let bytes : Except Fault (Option (List Byte × BitVec 64) × Watch.World × Watch.State) →
      Except Fault (Option (List Byte)) := fun call => call.map fun result => result.1.map Prod.fst
    (∃ t, run (Watch.System.next 100) s [.read true 0 20] = some t ∧ t.watch.outLen = 15 ∧
      bytes (Watch.procRead 100 true 16 20 t.world t.watch) = .ok (some (List.replicate 20 0)) ∧
      ¬ ReadsWatch 100 t 16 20 ∧
      bytes (Watch.procRead 100 true 120 20 t.world t.watch) = .error .overrun) ∧
    strlen (loadedMtest fun _ => 0).output.bytes = 0 ∧
    Mtest.procRead true (loadedMtest fun _ => 0) 1 1 = .ok (some ([0], 2)) := by
  intro s bytes
  let gone : Watch.State := { Watch.State.init with
    output := Watch.writeGone Watch.State.init.output, outLen := Watch.goneText.length }
  have hnext : s.next 100 (.read true 0 20) = some ⟨Watch.sampleWorld, gone⟩ :=
    Watch.System.next_read_new true 20 (Watch.updateStatus_gone rfl)
  refine ⟨⟨⟨Watch.sampleWorld, gone⟩, ?_, rfl, by decide +kernel, ?_, by decide +kernel⟩, by decide,
    by decide +kernel⟩
  · rw [run, hnext]
    rfl
  · rw [readsWatch_iff 100 (HasReport.init.next hnext)]
    rintro ⟨hle | hzero, -⟩
    · exact absurd hle (by decide)
    · exact absurd hzero (by decide)

end LinuxKernel.Proc
