import LinuxKernel.Watch.Pages
import Mathlib.Data.BitVec

/-!
# /proc/watch — the loops of the measurements

What `ram_measure` visits and what `cpu_measure` adds up.

* **Pages.** The number of pages of an area is kept in an `int`. An area of 2^31 pages or more is
  visited in part or not at all.
* **Times.** A pass of the loop in `cpu_measure` that was disturbed is made again, and `*utime` and
  `*stime` keep what it added.

## Results

* `visit_zero`             — the inner loop of `ram_measure`, with its index, visits `virtAddrs`.
* `ramMeasure_visits_iff`  — every page is visited iff no area has 2^31 pages.
* `cpuMeasure_eq`          — `cpu_measure` adds up all passes.
* `cpuMeasure_once_iff`    — only the last pass counts iff the others add nothing.
-/

namespace LinuxKernel.Watch

open LinuxKernel.Lib LinuxKernel.Proc

/-! ## The pages of an area -/

/-- An int below another one can be counted up. -/
theorem toInt_succ_of_slt {i n : BitVec 32} (h : i.slt n) : (i + 1).toInt = i.toInt + 1 := by
  have hlt : i.toInt < n.toInt := BitVec.slt_iff_toInt_lt.mp h
  have hmin := i.le_toInt
  have hmax := n.toInt_lt
  rw [BitVec.toInt_add]
  change (i.toInt + 1).bmod (2 ^ 32) = _
  rw [Int.bmod_eq_of_le (by omega) (by omega)]

/-- The inner loop of `ram_measure` from `i` on: the values `virt_addr` takes. -/
def Vma.visit (vma : Vma) (i : BitVec 32) : List (BitVec 64) :=
  if _h : i.slt vma.pageNumber then
    (vma.vmStart + i.signExtend 64 * pageSize) :: vma.visit (i + 1)
  else []
termination_by (vma.pageNumber.toInt - i.toInt).toNat
decreasing_by
  have hlt : i.toInt < vma.pageNumber.toInt := BitVec.slt_iff_toInt_lt.mp _h
  rw [toInt_succ_of_slt _h]
  omega

/-- An area of whole pages of a process with 47 bits of addresses. -/
structure Vma.WholePages (vma : Vma) : Prop where
  start_aligned : vma.vmStart.toNat % 4096 = 0
  end_aligned   : vma.vmEnd.toNat % 4096 = 0
  ordered       : vma.vmStart ≤ vma.vmEnd
  low           : vma.vmEnd.toNat ≤ 2 ^ 47

def Vma.pageCount (vma : Vma) : Nat := (vma.vmEnd.toNat - vma.vmStart.toNat) / 4096

/-- The addresses of the pages: `vm_start`, `vm_start + PAGE_SIZE` and so on up to `vm_end`. -/
def Vma.pageAddrs (vma : Vma) : List Nat :=
  (List.range vma.pageCount).map fun i => vma.vmStart.toNat + i * 4096

section Pages

variable {vma : Vma}

/-- The index counts up to `page_number` and stays an int. -/
theorem Vma.visit_eq (vma : Vma) (i : BitVec 32) (hi : 0 ≤ i.toInt) :
    vma.visit i = (List.range' i.toNat (vma.pageNumber.toInt.toNat - i.toNat)).map fun j =>
      vma.vmStart + BitVec.ofNat 64 j * pageSize := by
  fun_induction vma.visit i with
  | case1 i hslt ih =>
    have hsucc := toInt_succ_of_slt hslt
    have hlt := BitVec.slt_iff_toInt_lt.mp hslt
    have hmsb : i.msb = false := by rw [BitVec.msb_eq_toInt, decide_eq_false (by omega)]
    have hsucc' : (i + 1).msb = false := by rw [BitVec.msb_eq_toInt, decide_eq_false (by omega)]
    rw [ih (by omega)]
    rw [BitVec.toInt_eq_toNat_of_msb hmsb] at hsucc hlt
    rw [BitVec.toInt_eq_toNat_of_msb hsucc'] at hsucc
    have hrange : vma.pageNumber.toInt.toNat - i.toNat =
        vma.pageNumber.toInt.toNat - (i + 1).toNat + 1 := by omega
    rw [hrange, List.range'_succ, List.map_cons,
      BitVec.signExtend_eq_setWidth_of_msb_false hmsb, ← BitVec.ofNat_toNat]
    rw [show (i + 1).toNat = i.toNat + 1 by omega]
  | case2 i hnot =>
    have hle : vma.pageNumber.toInt ≤ i.toInt := by
      rw [BitVec.slt_iff_toInt_lt] at hnot
      omega
    have hmsb : i.msb = false := by rw [BitVec.msb_eq_toInt, decide_eq_false (by omega)]
    rw [BitVec.toInt_eq_toNat_of_msb hmsb] at hle
    rw [show vma.pageNumber.toInt.toNat - i.toNat = 0 by omega, List.range'_zero, List.map_nil]

theorem Vma.visit_zero (vma : Vma) : vma.visit 0 = vma.virtAddrs := by
  rw [vma.visit_eq 0 (by decide), Vma.virtAddrs, List.range_eq_range']
  rfl

/-- `page_number` is the low half of the number of pages. -/
theorem Vma.WholePages.pageNumber_toNat (h : vma.WholePages) :
    vma.pageNumber.toNat = vma.pageCount % 2 ^ 32 := by
  rw [Vma.pageNumber, BitVec.toNat_setWidth, BitVec.toNat_udiv, BitVec.toNat_sub_of_le h.ordered]
  rfl

/-- It is the number of pages if that is an `int`; otherwise it is smaller. -/
theorem Vma.WholePages.pageNumber_eq_iff (h : vma.WholePages) :
    vma.pageNumber.toInt.toNat = vma.pageCount ↔ vma.pageCount < 2 ^ 31 := by
  have hnat := h.pageNumber_toNat
  have hmax := vma.pageNumber.toInt_lt
  constructor
  · intro heq
    omega
  · intro hshort
    rw [BitVec.toInt_eq_toNat_of_lt (by omega), hnat]
    omega

theorem Vma.toNat_visit (vma : Vma) (hcount : vma.pageNumber.toInt.toNat = vma.pageCount) :
    (vma.visit 0).map BitVec.toNat = vma.pageAddrs := by
  rw [vma.visit_zero, Vma.virtAddrs, Vma.pageAddrs, List.map_map, hcount]
  refine List.map_congr_left ?_
  intro i hi
  exact Vma.toNat_virtAddr (List.mem_range.mp hi)

/-- **One area.** -/
theorem Vma.WholePages.visit_iff (h : vma.WholePages) :
    (vma.visit 0).map BitVec.toNat = vma.pageAddrs ↔ vma.pageCount < 2 ^ 31 := by
  rw [← h.pageNumber_eq_iff]
  constructor
  · intro heq
    have hlen := congrArg List.length heq
    rwa [List.length_map, vma.visit_zero, Vma.virtAddrs, List.length_map, List.length_range,
      Vma.pageAddrs, List.length_map, List.length_range] at hlen
  · exact vma.toNat_visit

end Pages

/-- **Every page is visited.** For a task whose areas are of whole pages, of any number and length:
`ram_measure` looks at the addresses its loops visit one after another, and these are, area by area,
the addresses of all pages in their order iff no area has 2^31 pages or more. -/
theorem ramMeasure_visits_iff (w : World) (task mm : Nat) (hmm : (w.tasks task).mm = some mm)
    (hareas : ∀ vma ∈ (w.mms mm).mmap, vma.WholePages) :
    let visited := (w.mms mm).mmap.flatMap fun vma => vma.visit 0
    ramMeasure w (some task) =
      .ok (w.setPgd mm (visited.foldl measurePage ((w.mms mm).pgd, 0)).1,
        (visited.foldl measurePage ((w.mms mm).pgd, 0)).2) ∧
    ((∀ vma ∈ (w.mms mm).mmap, (vma.visit 0).map BitVec.toNat = vma.pageAddrs) ↔
      ∀ vma ∈ (w.mms mm).mmap, vma.pageCount < 2 ^ 31) := by
  constructor
  · simp only [Vma.visit_zero]
    exact ramMeasure_addrs hmm
  · exact forall₂_congr fun vma hvma => (hareas vma hvma).visit_iff

/-- Two areas, of one page and of three. -/
theorem ramMeasure_visits_four :
    let w := mappedWorld [⟨0x1000, 0x2000⟩, ⟨0x8000, 0xb000⟩] 0x20
    (w.tasks 0).mm = some 0 ∧ (w.mms 0).mmap.length = 2 ∧
      (∀ vma ∈ (w.mms 0).mmap, vma.WholePages) ∧
      ∀ vma ∈ (w.mms 0).mmap, (vma.visit 0).map BitVec.toNat = vma.pageAddrs := by
  intro w
  have hareas : ∀ vma ∈ (w.mms 0).mmap, vma.WholePages := by
    simp only [w, mappedWorld, List.forall_mem_cons, List.not_mem_nil, false_imp_iff,
      implies_true, and_true]
    exact ⟨⟨by decide, by decide, by decide, by decide⟩,
      ⟨by decide, by decide, by decide, by decide⟩⟩
  have hshort : ∀ vma ∈ (w.mms 0).mmap, vma.pageCount < 2 ^ 31 := by decide
  exact ⟨rfl, rfl, hareas, (ramMeasure_visits_iff w 0 0 rfl hareas).2.mpr hshort⟩

/-- An area of 2^32 pages, 16 TiB, such as a process may reserve: `page_number` is 0, and none of
the pages is visited. -/
theorem ramMeasure_visits_none :
    let vma : Vma := ⟨0x10000000, 0x100010000000⟩
    vma.WholePages ∧ vma.pageCount = 2 ^ 32 ∧ vma.visit 0 = [] ∧
      (vma.visit 0).map BitVec.toNat ≠ vma.pageAddrs := by
  intro vma
  have hcount : vma.pageCount = 2 ^ 32 := by decide
  have hnone : vma.visit 0 = [] := by
    rw [vma.visit_zero, Vma.virtAddrs, show vma.pageNumber.toInt.toNat = 0 by decide]
    rfl
  refine ⟨⟨by decide, by decide, by decide, by decide⟩, hcount, hnone, ?_⟩
  rw [hnone, List.map_nil, Ne, eq_comm, Vma.pageAddrs, hcount, List.map_eq_nil_iff,
    List.range_eq_nil]
  decide

/-! ## The times of the threads -/

/-- What one pass of the loop in `cpu_measure` adds to `*utime`. -/
def Round.utimeSum (round : Round) : BitVec 64 := round.utime + (round.threads.map Prod.fst).sum

def Round.stimeSum (round : Round) : BitVec 64 := round.stime + (round.threads.map Prod.snd).sum

/-- All passes over the threads. -/
def Signal.rounds (sig : Signal) : List Round := sig.first :: sig.again
/-- Those that `need_seqretry` found disturbed. -/
def Signal.disturbed (sig : Signal) : List Round := sig.rounds.dropLast
/-- The last one. -/
def Signal.last (sig : Signal) : Round := sig.rounds.getLast (List.cons_ne_nil _ _)

theorem addRound_eq (s : BitVec 64 × BitVec 64) (round : Round) :
    addRound s round = (s.1 + round.utimeSum, s.2 + round.stimeSum) := by
  have hthreads : ∀ (threads : List (BitVec 64 × BitVec 64)) (s : BitVec 64 × BitVec 64),
      threads.foldl (fun s t => (s.1 + t.1, s.2 + t.2)) s =
        (s.1 + (threads.map Prod.fst).sum, s.2 + (threads.map Prod.snd).sum) := by
    intro threads
    induction threads with
    | nil => simp
    | cons t threads ih =>
      intro s
      rw [List.foldl_cons, ih, List.map_cons, List.map_cons, List.sum_cons, List.sum_cons,
        add_assoc, add_assoc]
  rw [addRound, hthreads, Round.utimeSum, Round.stimeSum, add_assoc, add_assoc]

/-- Pass after pass. -/
theorem foldl_addRound (rounds : List Round) (s : BitVec 64 × BitVec 64) :
    rounds.foldl addRound s =
      (s.1 + (rounds.map Round.utimeSum).sum, s.2 + (rounds.map Round.stimeSum).sum) := by
  induction rounds generalizing s with
  | nil => simp
  | cons round rounds ih =>
    rw [List.foldl_cons, addRound_eq, ih, List.map_cons, List.map_cons, List.sum_cons,
      List.sum_cons, add_assoc, add_assoc]

/-- **`cpu_measure` adds up all passes.** -/
theorem cpuMeasure_eq (w : World) (task : Nat) (utime stime : BitVec 64) :
    cpuMeasure w (some task) utime stime =
      let sig := (w.tasks task).signal
      .ok { utime := utime + ((sig.disturbed.map Round.utimeSum).sum + sig.last.utimeSum)
            stime := stime + ((sig.disturbed.map Round.stimeSum).sum + sig.last.stimeSum)
            cutime := sig.cutime
            cstime := sig.cstime } := by
  have hrounds : ∀ sig : Signal, sig.rounds = sig.disturbed ++ [sig.last] := fun sig =>
    (List.dropLast_append_getLast (List.cons_ne_nil _ _)).symm
  unfold cpuMeasure
  dsimp only
  rw [show (w.tasks task).signal.first :: (w.tasks task).signal.again =
    (w.tasks task).signal.rounds from rfl, foldl_addRound, hrounds, List.map_append,
    List.map_append,
    List.sum_append, List.sum_append, List.map_singleton, List.map_singleton, List.sum_singleton,
    List.sum_singleton]

/-- `cpu_measure`, from nothing, ends with the times of the last pass. -/
def CountsOnce (w : World) (task : Nat) : Prop :=
  ∃ times, cpuMeasure w (some task) 0 0 = .ok times ∧
    times.utime = (w.tasks task).signal.last.utimeSum ∧
    times.stime = (w.tasks task).signal.last.stimeSum

/-- **Each thread is counted once.** For any threads, any times and any number of passes:
`cpu_measure` ends with the times as read in the last pass iff the times read in the passes
before it add up to 0, as they do when there are none. -/
theorem cpuMeasure_once_iff (w : World) (task : Nat) :
    CountsOnce w task ↔
      ((w.tasks task).signal.disturbed.map Round.utimeSum).sum = 0 ∧
      ((w.tasks task).signal.disturbed.map Round.stimeSum).sum = 0 := by
  unfold CountsOnce
  rw [cpuMeasure_eq]
  simp only [Except.ok.injEq, exists_eq_left', zero_add, add_eq_right]

/-- Of two threads one exits during the first pass. The second pass reads 1500 in all, and 3000 is
the result. -/
theorem cpuMeasure_twice :
    let signal : Signal := ⟨0, 0, ⟨0, 0, [(1000, 0), (500, 0)]⟩, [⟨500, 0, [(1000, 0)]⟩]⟩
    let w : World := { sampleWorld with tasks := fun _ => ⟨.alive (some 0), signal⟩ }
    signal.last.utimeSum = 1500 ∧
    (cpuMeasure w (some 0) 0 0).map Times.utime = .ok 3000 ∧ ¬ CountsOnce w 0 := by
  intro signal w
  have hlast : signal.last.utimeSum = 1500 := by decide
  refine ⟨hlast, by decide, ?_⟩
  rintro ⟨times, hcall, hutime, -⟩
  have hutime' : (cpuMeasure w (some 0) 0 0).map Times.utime = .ok 1500 := by
    rw [hcall, ← hlast]
    exact congrArg Except.ok hutime
  exact absurd hutime' (by decide)

end LinuxKernel.Watch
