import LinuxKernel.Watch.Calls
import LinuxKernel.Lib.Run
import Mathlib.Data.Set.Card

/-!
# /proc/watch — the pages are counted once

A process accesses pages of its address space, which sets a mark in the entry of each page, and
`ram_measure` is called now and then. It counts the marks it finds in the areas and clears them.

* **Address spaces.** The areas are disjoint and consist of whole pages, fewer than 2^31 each, below
  the addresses of the kernel; no two pages share an entry (`Mm.Regular`).
* **Counting.** A call finds the pages accessed since the call before it; the first one also finds
  those that were marked from the start (`Mm.touched`).
* **Overflow.** The count is an `int`, and there can be more pages than it holds.

## Results

* `mem_addrs_iff`, `nodup_addrs` — the loops visit every page of the areas, and none twice.
* `foldl_measurePage`            — what the loops do to the tables and to the count.
* `run_pageNext`                 — the tables after accesses and calls.
* `page_count_iff`               — every call returns the number of pages accessed iff it is an
  `int`.
-/

namespace LinuxKernel.Watch

open LinuxKernel.Lib LinuxKernel.Proc

/-! ## Address spaces -/

def SamePage (a b : BitVec 64) : Prop := a.toNat / 4096 = b.toNat / 4096

def Vma.Contains (vma : Vma) (addr : BitVec 64) : Prop := vma.vmStart ≤ addr ∧ addr < vma.vmEnd

/-- The pages of the areas, each by its first address. -/
def Mm.pages (mm : Mm) : Set (BitVec 64) :=
  {p | p.toNat % 4096 = 0 ∧ ∃ vma ∈ mm.mmap, vma.Contains p}

structure Vma.Regular (vma : Vma) : Prop where
  start_aligned : vma.vmStart.toNat % 4096 = 0
  end_aligned   : vma.vmEnd.toNat % 4096 = 0
  ordered       : vma.vmStart ≤ vma.vmEnd
  short         : (vma.vmEnd.toNat - vma.vmStart.toNat) / 4096 < 2 ^ 31
  user          : vma.vmEnd ≤ kernelSpace

structure Mm.Regular (mm : Mm) : Prop where
  areas    : ∀ vma ∈ mm.mmap, vma.Regular
  disjoint : mm.mmap.Pairwise fun a b => ∀ addr, a.Contains addr → ¬ b.Contains addr
  leaves   : ∀ p ∈ mm.pages, ∀ q ∈ mm.pages, leafOf p = leafOf q → p = q

/-! ## What a process and the module do -/

/-- The processor sets the mark in the entry of the page, if there is one. -/
def accessPage (pgd : PgdTable) (addr : BitVec 64) : PgdTable :=
  match walk pgd addr with
  | none => pgd
  | some pte => setPte pgd addr (pte ||| accessMask)

def World.setPgd (w : World) (mm : Nat) (pgd : PgdTable) : World :=
  { w with mms := Function.update w.mms mm { w.mms mm with pgd := pgd } }

inductive PageOp
  | access (addr : BitVec 64)
  | measure
  deriving DecidableEq, Repr

/-- One access of the process, or one call of `ram_measure`. -/
def pageNext (task : Nat) (w : World) : PageOp → Option World
  | .access addr => (w.tasks task).mm.map fun mm => w.setPgd mm (accessPage (w.mms mm).pgd addr)
  | .measure =>
    match ramMeasure w (some task) with
    | .error _ => none
    | .ok (w, _) => some w

/-! ## The loops -/

section Loops

variable {vma : Vma} {mm : Mm}

theorem Vma.Regular.pageNumber_eq (h : vma.Regular) :
    vma.pageNumber.toInt.toNat = (vma.vmEnd.toNat - vma.vmStart.toNat) / 4096 := by
  have hshort := h.short
  have hordered := BitVec.le_def.mp h.ordered
  have hnat : vma.pageNumber.toNat = (vma.vmEnd.toNat - vma.vmStart.toNat) / 4096 := by
    rw [Vma.pageNumber, BitVec.toNat_setWidth, BitVec.toNat_udiv, BitVec.toNat_sub_of_le h.ordered]
    change (vma.vmEnd.toNat - vma.vmStart.toNat) / 4096 % 2 ^ 32 = _
    omega
  rw [BitVec.toInt_eq_toNat_of_lt (by omega), hnat]
  omega

theorem Vma.toNat_virtAddr {i : Nat}
    (hi : i < (vma.vmEnd.toNat - vma.vmStart.toNat) / 4096) :
    (vma.vmStart + BitVec.ofNat 64 i * pageSize).toNat = vma.vmStart.toNat + i * 4096 := by
  have hend := vma.vmEnd.isLt
  rw [BitVec.toNat_add, BitVec.toNat_mul, BitVec.toNat_ofNat]
  change (vma.vmStart.toNat + i % 2 ^ 64 * 4096 % 2 ^ 64) % 2 ^ 64 = _
  omega

/-- The inner loop visits the pages of the area. -/
theorem Vma.Regular.mem_virtAddrs_iff (h : vma.Regular) (p : BitVec 64) :
    p ∈ vma.virtAddrs ↔ p.toNat % 4096 = 0 ∧ vma.Contains p := by
  have hstart := h.start_aligned
  have hend := h.end_aligned
  simp only [Vma.virtAddrs, h.pageNumber_eq, List.mem_map, List.mem_range, Vma.Contains,
    BitVec.le_def, BitVec.lt_def]
  constructor
  · rintro ⟨i, hi, rfl⟩
    rw [Vma.toNat_virtAddr hi]
    omega
  · rintro ⟨hp, hle, hlt⟩
    have hi : (p.toNat - vma.vmStart.toNat) / 4096 <
        (vma.vmEnd.toNat - vma.vmStart.toNat) / 4096 := by
      omega
    refine ⟨_, hi, ?_⟩
    apply BitVec.eq_of_toNat_eq
    rw [Vma.toNat_virtAddr hi]
    omega

theorem Vma.Regular.nodup_virtAddrs (h : vma.Regular) : vma.virtAddrs.Nodup := by
  rw [Vma.virtAddrs, h.pageNumber_eq]
  refine List.Nodup.map_on ?_ List.nodup_range
  intro i hi j hj heq
  have heq := congrArg BitVec.toNat heq
  rw [Vma.toNat_virtAddr (List.mem_range.mp hi), Vma.toNat_virtAddr (List.mem_range.mp hj)] at heq
  omega

/-- The addresses both loops visit, in their order. -/
def Mm.addrs (mm : Mm) : List (BitVec 64) := mm.mmap.flatMap Vma.virtAddrs

theorem Mm.Regular.mem_addrs_iff (h : mm.Regular) (p : BitVec 64) :
    p ∈ mm.addrs ↔ p ∈ mm.pages := by
  simp only [Mm.addrs, List.mem_flatMap, Mm.pages, Set.mem_ofPred_eq]
  constructor
  · rintro ⟨vma, hvma, hp⟩
    obtain ⟨haligned, hin⟩ := ((h.areas vma hvma).mem_virtAddrs_iff p).mp hp
    exact ⟨haligned, vma, hvma, hin⟩
  · rintro ⟨haligned, vma, hvma, hin⟩
    exact ⟨vma, hvma, ((h.areas vma hvma).mem_virtAddrs_iff p).mpr ⟨haligned, hin⟩⟩

theorem Mm.Regular.nodup_addrs (h : mm.Regular) : mm.addrs.Nodup := by
  refine List.nodup_flatMap.mpr ⟨fun vma hvma => (h.areas vma hvma).nodup_virtAddrs, ?_⟩
  refine h.disjoint.imp_of_mem ?_
  intro a b ha hb hdisjoint p hpa hpb
  have hina := (((h.areas a ha).mem_virtAddrs_iff p).mp hpa).2
  exact hdisjoint p hina (((h.areas b hb).mem_virtAddrs_iff p).mp hpb).2

end Loops

/-! ## The tables and the count -/

/-- Whether the entry for an address is marked. -/
def marked (pgd : PgdTable) (addr : BitVec 64) : Bool :=
  (walk pgd addr).any fun pte => pte &&& accessMask ≠ 0

theorem accessPage_eq (pgd : PgdTable) (addr : BitVec 64) :
    accessPage pgd addr =
      mapPtes (fun leaf pte => if leaf = leafOf addr then pte ||| accessMask else pte) pgd := by
  rw [← modifyPte_eq_mapPtes pgd addr (· ||| accessMask)]
  rfl

/-- One round of the inner loop. -/
theorem measurePage_eq {addr : BitVec 64} (huser : addr < kernelSpace) (pgd : PgdTable)
    (n : BitVec 32) :
    measurePage (pgd, n) addr =
      (mapPtes (fun leaf pte => if leaf = leafOf addr then pte &&& ~~~accessMask else pte) pgd,
        n + BitVec.ofNat 32 (marked pgd addr).toNat) := by
  rw [← modifyPte_eq_mapPtes pgd addr (· &&& ~~~accessMask)]
  unfold measurePage marked
  rw [if_neg (BitVec.not_le.mpr huser)]
  cases walk pgd addr with
  | none => simp
  | some pte =>
    by_cases hmark : pte &&& accessMask = 0#64
    · simp [hmark]
    · simp [hmark]

theorem marked_mapPtes_of_ne {pgd : PgdTable} {a b : BitVec 64} (hne : leafOf b ≠ leafOf a)
    (f : Pte → Pte) :
    marked (mapPtes (fun leaf pte => if leaf = leafOf a then f pte else pte) pgd) b =
      marked pgd b := by
  unfold marked
  rw [walk_mapPtes]
  simp [hne]

theorem and_clear_clear (pte : Pte) :
    pte &&& ~~~accessMask &&& ~~~accessMask = pte &&& ~~~accessMask := by
  rw [BitVec.and_assoc, BitVec.and_self]

/-- **The loops.** Over addresses with different entries they clear the marks of all of them, and
add the number of those that were marked. -/
theorem foldl_measurePage {addrs : List (BitVec 64)} (huser : ∀ a ∈ addrs, a < kernelSpace)
    (hleaves : addrs.Pairwise fun a b => leafOf b ≠ leafOf a) (pgd : PgdTable) (n : BitVec 32) :
    addrs.foldl measurePage (pgd, n) =
      (mapPtes (fun leaf pte => if leaf ∈ addrs.map leafOf then pte &&& ~~~accessMask else pte) pgd,
        n + BitVec.ofNat 32 (addrs.countP (marked pgd))) := by
  induction addrs generalizing pgd n with
  | nil => simp [mapPtes_id]
  | cons a addrs ih =>
    obtain ⟨hfirst, hrest⟩ := List.pairwise_cons.mp hleaves
    rw [List.foldl_cons, measurePage_eq (huser a (List.mem_cons_self ..)),
      ih (fun b hb => huser b (List.mem_cons_of_mem a hb)) hrest, mapPtes_mapPtes]
    rw [Prod.mk.injEq]
    constructor
    · -- an entry is cleared here or by the rounds after this one
      refine mapPtes_congr ?_
      intro b pte _
      by_cases hb : leafOf b = leafOf a
      · simp [hb, and_clear_clear]
      · simp [hb]
    · -- this round has left the marks of the others as they were
      have hcount : addrs.countP (marked (mapPtes (fun leaf pte =>
          if leaf = leafOf a then pte &&& ~~~accessMask else pte) pgd)) =
            addrs.countP (marked pgd) :=
        List.countP_congr fun b hb => by
          rw [marked_mapPtes_of_ne (hfirst b hb) (· &&& ~~~accessMask)]
      rw [hcount, List.countP_cons, BitVec.add_assoc, ← BitVec.ofNat_add, Nat.add_comm]
      cases marked pgd a <;> rfl

/-! ## Calls of `ram_measure` -/

open Classical in
/-- The tables with the marks of the pages in the areas cleared. -/
noncomputable def Mm.unmarked (mm : Mm) : PgdTable :=
  mapPtes (fun leaf pte => if ∃ p ∈ mm.pages, leafOf p = leaf then
    pte &&& ~~~accessMask else pte) mm.pgd

theorem Mm.Regular.unmarked_eq {mm : Mm} (h : mm.Regular) :
    mm.unmarked = mapPtes (fun leaf pte =>
      if leaf ∈ mm.addrs.map leafOf then pte &&& ~~~accessMask else pte) mm.pgd := by
  refine mapPtes_congr ?_
  intro addr pte _
  have hiff : (∃ p ∈ mm.pages, leafOf p = leafOf addr) ↔ leafOf addr ∈ mm.addrs.map leafOf := by
    simp only [List.mem_map, h.mem_addrs_iff]
  simp only [hiff]

/-- Being regular is a matter of the areas. -/
theorem Mm.Regular.withPgd {mm : Mm} (h : mm.Regular) (pgd : PgdTable) :
    ({ mm with pgd := pgd } : Mm).Regular :=
  ⟨h.areas, h.disjoint, h.leaves⟩

theorem Mm.Regular.lt_kernelSpace {mm : Mm} (h : mm.Regular) {addr : BitVec 64}
    (haddr : addr ∈ mm.addrs) : addr < kernelSpace := by
  obtain ⟨-, vma, hvma, -, hlt⟩ := (h.mem_addrs_iff addr).mp haddr
  have huser := (h.areas vma hvma).user
  rw [BitVec.lt_def] at hlt ⊢
  rw [BitVec.le_def] at huser
  omega

theorem Mm.Regular.pairwise_leafOf {mm : Mm} (h : mm.Regular) :
    mm.addrs.Pairwise fun a b => leafOf b ≠ leafOf a := by
  refine h.nodup_addrs.imp_of_mem ?_
  intro a b ha hb hne heq
  exact hne (h.leaves b ((h.mem_addrs_iff b).mp hb) a ((h.mem_addrs_iff a).mp ha) heq).symm

/-- `ram_measure`, address by address. -/
theorem ramMeasure_addrs {w : World} {task mm : Nat} (hmm : (w.tasks task).mm = some mm) :
    ramMeasure w (some task) =
      .ok (w.setPgd mm ((w.mms mm).addrs.foldl measurePage ((w.mms mm).pgd, 0)).1,
        ((w.mms mm).addrs.foldl measurePage ((w.mms mm).pgd, 0)).2) := by
  have hloops : (w.mms mm).mmap.foldl measureVma ((w.mms mm).pgd, 0) =
      (w.mms mm).addrs.foldl measurePage ((w.mms mm).pgd, 0) := by
    rw [Mm.addrs, List.foldl_flatMap]
    rfl
  unfold ramMeasure
  dsimp only
  rw [hmm]
  dsimp only
  rw [hloops]
  rfl

/-- **One call.** It clears the marks in the areas and returns how many there were. -/
theorem ramMeasure_eq {w : World} {task mm : Nat} (hmm : (w.tasks task).mm = some mm)
    (h : (w.mms mm).Regular) :
    ramMeasure w (some task) =
      .ok (w.setPgd mm (w.mms mm).unmarked,
        BitVec.ofNat 32 ((w.mms mm).addrs.countP (marked (w.mms mm).pgd))) := by
  rw [ramMeasure_addrs hmm, foldl_measurePage (fun a ha => h.lt_kernelSpace ha) h.pairwise_leafOf,
    h.unmarked_eq]
  dsimp only
  rw [BitVec.ofNat_eq_ofNat, BitVec.zero_add]

/-! ## Runs -/

section Runs

variable {w : World} {task mm : Nat}

@[simp] theorem World.setPgd_mms (w : World) (mm : Nat) (pgd : PgdTable) :
    (w.setPgd mm pgd).mms mm = { w.mms mm with pgd := pgd } := by
  simp [World.setPgd]

@[simp] theorem World.setPgd_setPgd (w : World) (mm : Nat) (pgd pgd' : PgdTable) :
    (w.setPgd mm pgd).setPgd mm pgd' = w.setPgd mm pgd' := by
  simp [World.setPgd]

theorem World.setPgd_regular (h : (w.mms mm).Regular) (pgd : PgdTable) :
    ((w.setPgd mm pgd).mms mm).Regular := by
  rw [World.setPgd_mms]
  exact h.withPgd pgd

theorem World.setPgd_self (w : World) (mm : Nat) : w.setPgd mm (w.mms mm).pgd = w := by
  simp [World.setPgd]

/-- What becomes of an entry, by what had become of it before. -/
def noteMarks (leaves : List Leaf) (h : Leaf → Pte → Pte) : PageOp → Leaf → Pte → Pte
  | .access addr => fun leaf pte =>
    if leaf = leafOf addr then h leaf pte ||| accessMask else h leaf pte
  | .measure => fun leaf pte => if leaf ∈ leaves then h leaf pte &&& ~~~accessMask else h leaf pte

theorem pageNext_eq (hmm : (w.tasks task).mm = some mm) (h : (w.mms mm).Regular)
    (f : Leaf → Pte → Pte)
    (op : PageOp) :
    pageNext task (w.setPgd mm (mapPtes f (w.mms mm).pgd)) op =
      some (w.setPgd mm
        (mapPtes (noteMarks ((w.mms mm).addrs.map leafOf) f op) (w.mms mm).pgd)) := by
  have hmm' : ((w.setPgd mm (mapPtes f (w.mms mm).pgd)).tasks task).mm = some mm := hmm
  cases op with
  | access addr =>
    simp only [pageNext, hmm', Option.map_some, World.setPgd_mms, World.setPgd_setPgd,
      accessPage_eq, mapPtes_mapPtes]
    rfl
  | measure =>
    have hreg := World.setPgd_regular h (mapPtes f (w.mms mm).pgd)
    have htables : ((w.setPgd mm (mapPtes f (w.mms mm).pgd)).mms mm).unmarked =
        mapPtes (noteMarks ((w.mms mm).addrs.map leafOf) f .measure) (w.mms mm).pgd := by
      rw [hreg.unmarked_eq, World.setPgd_mms]
      exact mapPtes_mapPtes ..
    unfold pageNext
    rw [ramMeasure_eq hmm' hreg, htables]
    dsimp only
    rw [World.setPgd_setPgd]

/-- **Runs.** The tables after any accesses and calls. -/
theorem run_pageNext (hmm : (w.tasks task).mm = some mm) (h : (w.mms mm).Regular)
    (ops : List PageOp) :
    run (pageNext task) w ops =
      some (w.setPgd mm (mapPtes
        (ops.foldl (noteMarks ((w.mms mm).addrs.map leafOf)) fun _ pte => pte)
        (w.mms mm).pgd)) := by
  suffices hgen : ∀ f, run (pageNext task) (w.setPgd mm (mapPtes f (w.mms mm).pgd)) ops =
      some (w.setPgd mm (mapPtes (ops.foldl (noteMarks ((w.mms mm).addrs.map leafOf)) f)
        (w.mms mm).pgd)) by
    have hid := hgen fun _ pte => pte
    rwa [mapPtes_id, World.setPgd_self] at hid
  induction ops with
  | nil => intro f; rfl
  | cons op ops ih =>
    intro f
    rw [run, pageNext_eq hmm h, Option.bind_some, ih]
    rfl

end Runs

/-! ## The pages a call finds -/

/-- The pages with an entry that were accessed by these operations; for the first call also those
that were marked from the start. -/
def Mm.touched (mm : Mm) (first : Prop) (since : List PageOp) : Set (BitVec 64) :=
  {p | p ∈ mm.pages ∧ ∃ pte, walk mm.pgd p = some pte ∧
    ((∃ addr, .access addr ∈ since ∧ SamePage addr p) ∨ (first ∧ pte &&& accessMask ≠ 0))}

/-- A call of `ram_measure` in a run, after `before` up to the call before it and `since`. -/
def IsCall (ops before since : List PageOp) : Prop :=
  (∃ after, ops = before ++ since ++ .measure :: after) ∧
    (before = [] ∨ before.getLast? = some .measure) ∧ .measure ∉ since

theorem and_accessMask_ne (pte : Pte) : pte &&& accessMask ≠ 0 ↔ pte.getLsbD 5 = true := by
  have hmask : accessMask = BitVec.twoPow 64 5 := by decide
  rw [hmask, BitVec.and_twoPow]
  cases pte.getLsbD 5 <;> decide

theorem SamePage.leafOf_eq {a b : BitVec 64} (h : SamePage a b) : leafOf a = leafOf b := by
  unfold SamePage at h
  simp only [leafOf, pgdIndex, p4dIndex, pudIndex, pmdIndex, pteIndex, Leaf.mk.injEq]
  refine ⟨?_, ?_, ?_, ?_, ?_⟩
  all_goals
    apply BitVec.eq_of_toNat_eq
    simp only [BitVec.extractLsb'_toNat, Nat.shiftRight_eq_div_pow]
    omega

/-- Accesses set the mark of an entry, and nothing else does. -/
theorem foldl_noteMarks_since {leaves : List Leaf} {since : List PageOp} (hsince : .measure ∉ since)
    (f : Leaf → Pte → Pte) (leaf : Leaf) (pte : Pte) :
    (since.foldl (noteMarks leaves) f leaf pte).getLsbD 5 = true ↔
      (∃ addr, .access addr ∈ since ∧ leafOf addr = leaf) ∨ (f leaf pte).getLsbD 5 = true := by
  induction since generalizing f with
  | nil => simp
  | cons op since ih =>
    obtain ⟨hop, hrest⟩ := not_or.mp (mt List.mem_cons.mpr hsince)
    rw [List.foldl_cons, ih hrest]
    cases op with
    | measure => exact absurd rfl hop
    | access addr =>
      by_cases hleaf : leaf = leafOf addr
      · simp [noteMarks, hleaf, accessMask]
      · simp [noteMarks, hleaf, Ne.symm hleaf]

section Count

variable {mm : Mm} {before since : List PageOp}

/-- The mark of a page at a call, by what was done since the call before it. -/
theorem foldl_noteMarks_call (h : mm.Regular)
    (hbefore : before = [] ∨ before.getLast? = some .measure)
    (hsince : .measure ∉ since) {p : BitVec 64} (hp : p ∈ mm.pages) (pte : Pte) :
    ((before ++ since).foldl (noteMarks (mm.addrs.map leafOf)) (fun _ pte => pte)
        (leafOf p) pte).getLsbD 5 = true ↔
      (∃ addr, .access addr ∈ since ∧ leafOf addr = leafOf p) ∨
        (before = [] ∧ pte.getLsbD 5 = true) := by
  rw [List.foldl_append, foldl_noteMarks_since hsince]
  rcases hbefore with rfl | hlast
  · simp
  · -- the call before has cleared it
    obtain ⟨earlier, rfl⟩ := List.getLast?_eq_some_iff.mp hlast
    have hleaf : leafOf p ∈ mm.addrs.map leafOf :=
      List.mem_map_of_mem ((h.mem_addrs_iff p).mpr hp)
    rw [List.foldl_append]
    simp only [List.foldl_cons, List.foldl_nil, noteMarks, if_pos hleaf]
    simp [accessMask]

theorem Mm.Regular.countP_eq_ncard (h : mm.Regular) (pgd : PgdTable) {pages : Set (BitVec 64)}
    (hpages : ∀ p, p ∈ pages ↔ p ∈ mm.pages ∧ marked pgd p = true) :
    mm.addrs.countP (marked pgd) = pages.ncard := by
  have hset : pages = ((mm.addrs.filter (marked pgd)).toFinset : Set (BitVec 64)) := by
    ext p
    rw [hpages]
    simp [h.mem_addrs_iff]
  rw [hset, Set.ncard_coe_finset, List.toFinset_card_of_nodup (h.nodup_addrs.filter _),
    List.countP_eq_length_filter]

end Count

section Calls

variable {w : World} {task mm : Nat} {before since : List PageOp}

/-- **A call in a run.** What it returns, as a number of 32 bits, and what it does. -/
theorem ramMeasure_call (hmm : (w.tasks task).mm = some mm) (h : (w.mms mm).Regular)
    (hbefore : before = [] ∨ before.getLast? = some .measure) (hsince : .measure ∉ since)
    (hdist : ∀ addr, .access addr ∈ since → ∀ p ∈ (w.mms mm).pages, leafOf addr = leafOf p →
      SamePage addr p) :
    ∃ u, run (pageNext task) w (before ++ since) = some u ∧
      ramMeasure u (some task) = .ok (u.setPgd mm (u.mms mm).unmarked,
        BitVec.ofNat 32 ((w.mms mm).touched (before = []) since).ncard) := by
  have hrun := run_pageNext hmm h (before ++ since)
  have hmark := fun p hp => foldl_noteMarks_call (p := p) h hbefore hsince hp
  generalize (before ++ since).foldl (noteMarks ((w.mms mm).addrs.map leafOf)) (fun _ pte => pte) =
    f
    at hrun hmark
  refine ⟨_, hrun, ?_⟩
  have hmm' : ((w.setPgd mm (mapPtes f (w.mms mm).pgd)).tasks task).mm = some mm := hmm
  rw [ramMeasure_eq hmm' (World.setPgd_regular h _)]
  refine congrArg (fun n => Except.ok (_, BitVec.ofNat 32 n)) ?_
  rw [World.setPgd_mms]
  refine h.countP_eq_ncard _ ?_
  intro p
  simp only [Mm.touched, Set.mem_ofPred_eq]
  refine and_congr_right fun hp => ?_
  -- an access of the page is one of its entry
  have hsame : (∃ addr, .access addr ∈ since ∧ leafOf addr = leafOf p) ↔
      ∃ addr, .access addr ∈ since ∧ SamePage addr p :=
    exists_congr fun addr => and_congr_right fun haddr =>
      ⟨hdist addr haddr p hp, SamePage.leafOf_eq⟩
  rw [marked, walk_mapPtes]
  cases walk (w.mms mm).pgd p with
  | none => simp
  | some pte =>
    have hbit := hmark p hp pte
    rw [hsame, ← and_accessMask_ne, ← and_accessMask_ne] at hbit
    simpa using hbit.symm

end Calls

theorem Mm.Regular.ncard_touched_le {mm : Mm} (h : mm.Regular) (first : Prop)
    (since : List PageOp) :
    (mm.touched first since).ncard ≤ mm.addrs.length := by
  have hsub : mm.touched first since ⊆ (mm.addrs.toFinset : Set (BitVec 64)) := by
    intro p hp
    simpa [h.mem_addrs_iff] using hp.1
  calc (mm.touched first since).ncard
      ≤ (mm.addrs.toFinset : Set (BitVec 64)).ncard :=
      Set.ncard_le_ncard hsub (Finset.finite_toSet _)
    _ = mm.addrs.toFinset.card := Set.ncard_coe_finset _
    _ ≤ mm.addrs.length := List.toFinset_card_le _

/-- A number as the value of an int. -/
theorem toInt_ofNat_eq_iff (n : Nat) : (BitVec.ofNat 32 n).toInt = n ↔ n < 2 ^ 31 := by
  rw [BitVec.toInt_ofNat', Int.bmod_def]
  omega

/-! ## Address spaces below 2^57 -/

/-- Five levels tell these pages apart. -/
theorem samePage_of_leafOf_eq {a b : BitVec 64} (ha : a.toNat < 2 ^ 57) (hb : b.toNat < 2 ^ 57)
    (h : leafOf a = leafOf b) : SamePage a b := by
  simp only [leafOf, pgdIndex, p4dIndex, pudIndex, pmdIndex, pteIndex, Leaf.mk.injEq] at h
  obtain ⟨h1, h2, h3, h4, h5⟩ := h
  have hnat : ∀ k, a.extractLsb' k 9 = b.extractLsb' k 9 →
      a.toNat / 2 ^ k % 512 = b.toNat / 2 ^ k % 512 := by
    intro k hk
    have hk := congrArg BitVec.toNat hk
    simpa only [BitVec.extractLsb'_toNat, Nat.shiftRight_eq_div_pow] using hk
  have h1 := hnat 48 h1
  have h2 := hnat 39 h2
  have h3 := hnat 30 h3
  have h4 := hnat 21 h4
  have h5 := hnat 12 h5
  unfold SamePage
  omega

section Low

variable {mm : Mm} (hlow : ∀ vma ∈ mm.mmap, vma.vmEnd.toNat ≤ 2 ^ 57)

include hlow

theorem Mm.toNat_page_lt {p : BitVec 64} (hp : p ∈ mm.pages) : p.toNat < 2 ^ 57 := by
  obtain ⟨-, vma, hvma, -, hlt⟩ := hp
  have hend := hlow vma hvma
  rw [BitVec.lt_def] at hlt
  omega

theorem Mm.Regular.of_low (hareas : ∀ vma ∈ mm.mmap, vma.Regular)
    (hdisjoint : mm.mmap.Pairwise fun a b => ∀ addr, a.Contains addr → ¬ b.Contains addr) :
    mm.Regular := by
  refine ⟨hareas, hdisjoint, ?_⟩
  intro p hp q hq hleaf
  have hsame := samePage_of_leafOf_eq (toNat_page_lt hlow hp) (toNat_page_lt hlow hq) hleaf
  have hp := hp.1
  have hq := hq.1
  unfold SamePage at hsame
  apply BitVec.eq_of_toNat_eq
  omega

end Low

/-- A process with these areas, and tables that map all pages in the same way. -/
def mappedWorld (mmap : List Vma) (pte : Pte) : World :=
  { sampleWorld with
    mms := fun _ =>
      ⟨mmap, fun _ => .table fun _ => .table fun _ => .table fun _ => .table fun _ => pte⟩ }

/-! ## The count -/

/-- **Pages are counted once.** In every run of accesses and calls, every call returns the number of
pages accessed since the call before it, clears the marks in the areas and nothing else, and returns
0 if there was no access, iff at every call fewer than 2^31 pages have been accessed. -/
theorem page_count_iff (w : World) (task mm : Nat) (hmm : (w.tasks task).mm = some mm)
    (h : (w.mms mm).Regular) (ops : List PageOp)
    (hdist : ∀ addr, .access addr ∈ ops → ∀ p ∈ (w.mms mm).pages, leafOf addr = leafOf p →
      SamePage addr p) :
    (∀ before since, IsCall ops before since → ∃ u v count,
      run (pageNext task) w (before ++ since) = some u ∧
      ramMeasure u (some task) = .ok (v, count) ∧
      count.toInt = ((w.mms mm).touched (before = []) since).ncard ∧
      v = u.setPgd mm (u.mms mm).unmarked ∧
      (before ≠ [] → since = [] → count = 0)) ↔
    ∀ before since, IsCall ops before since →
      ((w.mms mm).touched (before = []) since).ncard < 2 ^ 31 := by
  refine forall_congr' fun before => forall_congr' fun since => forall_congr' fun hcall => ?_
  obtain ⟨⟨after, rfl⟩, hbefore, hsince⟩ := hcall
  have hdist' : ∀ addr, .access addr ∈ since → ∀ p ∈ (w.mms mm).pages, leafOf addr = leafOf p →
      SamePage addr p :=
    fun addr haddr => hdist addr (by simp [haddr])
  obtain ⟨u, hrun, hcall⟩ := ramMeasure_call hmm h hbefore hsince hdist'
  constructor
  · rintro ⟨u', v, count, hrun', hcall', hcount, -⟩
    obtain rfl := Option.some.inj (hrun.symm.trans hrun')
    rw [hcall, Except.ok.injEq, Prod.mk.injEq] at hcall'
    rw [← hcall'.2] at hcount
    exact (toInt_ofNat_eq_iff _).mp hcount
  · intro hlt
    refine ⟨u, _, _, hrun, hcall, (toInt_ofNat_eq_iff _).mpr hlt, rfl, ?_⟩
    -- no page is left
    rintro hne rfl
    have hempty : (w.mms mm).touched (before = []) [] = ∅ := by
      simp [Mm.touched, hne]
    rw [hempty, Set.ncard_empty]
    rfl

theorem page_count_twice :
    ((mappedWorld [⟨0x1000, 0x3000⟩] 0x47).mms 0).Regular ∧
    ∀ before since, IsCall [.access 0x1234, .measure, .measure] before since → ∃ u v count,
      run (pageNext 0) (mappedWorld [⟨0x1000, 0x3000⟩] 0x47) (before ++ since) = some u ∧
      ramMeasure u (some 0) = .ok (v, count) ∧
      count.toInt =
        (((mappedWorld [⟨0x1000, 0x3000⟩] 0x47).mms 0).touched (before = []) since).ncard ∧
      v = u.setPgd 0 (u.mms 0).unmarked ∧ (before ≠ [] → since = [] → count = 0) := by
  have hlow : ∀ vma ∈ ((mappedWorld [⟨0x1000, 0x3000⟩] 0x47).mms 0).mmap,
      vma.vmEnd.toNat ≤ 2 ^ 57 := by
    simp [mappedWorld]
  have hreg : ((mappedWorld [⟨0x1000, 0x3000⟩] 0x47).mms 0).Regular := by
    refine .of_low hlow ?_ (List.pairwise_singleton ..)
    intro vma hvma
    obtain rfl := List.mem_singleton.mp hvma
    exact ⟨by decide, by decide, by decide, by decide, by decide⟩
  refine ⟨hreg, (page_count_iff _ 0 0 rfl hreg _ ?_).mpr ?_⟩
  · intro addr haddr p hp
    refine samePage_of_leafOf_eq ?_ (Mm.toNat_page_lt hlow hp)
    simp only [List.mem_cons, PageOp.access.injEq, reduceCtorEq, List.not_mem_nil, or_self,
      or_false] at haddr
    simp [haddr]
  · intro before since _
    have hle := hreg.ncard_touched_le (before = []) since
    have hlen : ((mappedWorld [⟨0x1000, 0x3000⟩] 0x47).mms 0).addrs.length = 2 := by decide
    omega

/-- Two areas of 2^30 pages each, all of them marked. -/
def fullWorld : World :=
  mappedWorld [⟨0, 0x40000000000⟩, ⟨0x40000000000, 0x80000000000⟩] 0x67

theorem fullWorld_regular : (fullWorld.mms 0).Regular := by
  refine .of_low ?_ ?_ ?_
  · intro vma hvma
    rcases List.mem_pair.mp hvma with rfl | rfl <;> decide
  · intro vma hvma
    rcases List.mem_pair.mp hvma with rfl | rfl
    · exact ⟨by decide, by decide, by decide, by decide, by decide⟩
    · exact ⟨by decide, by decide, by decide, by decide, by decide⟩
  · refine List.pairwise_pair.mpr ?_
    rintro addr ⟨-, hlt⟩ ⟨hle, -⟩
    exact BitVec.not_lt.mpr hle hlt

theorem fullWorld_countP :
    (fullWorld.mms 0).addrs.countP (marked (fullWorld.mms 0).pgd) = 2 ^ 31 := by
  have hall : ∀ a ∈ (fullWorld.mms 0).addrs, marked (fullWorld.mms 0).pgd a = true := by
    intro a _
    simp [marked, walk, fullWorld, mappedWorld, accessMask]
  have hareas := fullWorld_regular.areas
  have hlength : ∀ vma ∈ (fullWorld.mms 0).mmap, vma.virtAddrs.length = 2 ^ 30 := by
    intro vma hvma
    rw [Vma.virtAddrs, List.length_map, List.length_range, (hareas vma hvma).pageNumber_eq]
    rcases List.mem_pair.mp hvma with rfl | rfl <;> decide
  rw [List.countP_eq_length.mpr hall, Mm.addrs, List.length_flatMap, List.map_congr_left hlength]
  decide

theorem page_count_overflows :
    (fullWorld.mms 0).Regular ∧ ((fullWorld.mms 0).touched True []).ncard = 2 ^ 31 ∧
    ∃ v count, ramMeasure fullWorld (some 0) = .ok (v, count) ∧ count.toInt = - 2 ^ 31 := by
  refine ⟨fullWorld_regular, ?_, _, _, ramMeasure_eq rfl fullWorld_regular, ?_⟩
  · rw [← fullWorld_countP]
    refine (fullWorld_regular.countP_eq_ncard _ ?_).symm
    intro p
    simp only [Mm.touched, Set.mem_ofPred_eq, marked]
    refine and_congr_right fun _ => ?_
    cases walk (fullWorld.mms 0).pgd p <;> simp
  · rw [fullWorld_countP]
    decide

end LinuxKernel.Watch
