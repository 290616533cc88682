import LinuxKernel.Proc.Kernel
import LinuxKernel.Lib.Memory

/-!
# /proc/maptest — `maptest.c`

The module copies a text into a page of its own, and a process that maps `/proc/maptest` sees that
page.

* **The page.** It comes from `alloc_pages` without `__GFP_ZERO`: what it held before is still there
  behind the text, which is copied without its NUL.
* **The mapping.** `proc_mmap` maps as many frames as the process asks for, from the page on; the
  offset it asks for is not used.

## Results

* `readable_one_page`     — what a process sees of the page.
* `maptest_discloses_iff` — it sees the text and nothing of other memory exactly if it maps one page
  whose old contents do not show.
-/

namespace LinuxKernel.Maptest

open LinuxKernel.Lib LinuxKernel.Proc

/-! ## The module -/

/-- `content[]`, without the NUL at its end; nothing writes to it. -/
def content : List Byte :=
  ["I am Haonan Chen,\n",
    "Listen to me say thanks\n",
    "Thanks to you, I'm warm all the time\n",
    "I thank you\n",
    "For being there\n",
    "The world is sweeter\n",
    "I want to say thanks\n",
    "Thanks to you, love is in my heart\n",
    "I thank you, for being there\n",
    "To bring happiness\n"].flatMap fun line => line.toList.map fun c => BitVec.ofNat 8 c.toNat

/-- The memory, and the frame of `page`. -/
structure State where
  mem  : Memory
  page : Nat

/-- `PAGE_SIZE` -/
def pageSize : Nat := 4096

/-- `memcpy` of these bytes. -/
def memcpy (mem : Memory) (dst : Nat) (bytes : List Byte) : Memory := fun q =>
  if dst ≤ q then (bytes[q - dst]?).getD (mem q) else mem q

/-- `maptest_init`, nothing if it returns `-EFAULT`. `alloc` is the frame `alloc_pages` returns. -/
def maptestInit (procOk : Bool) (alloc : Option Nat) (mem : Memory) : Except Fault (Option State) :=
  if procOk = false then .ok none
  else
    match alloc with
    | none => .error .nullPointer
    | some frame => .ok (some { mem := memcpy mem (frame * pageSize) content, page := frame })

/-- `vm_area_struct`. -/
structure Vma where
  vmStart : BitVec 64
  vmEnd   : BitVec 64
  vmPgoff : BitVec 64

/-- The frames `remap_pfn_range` maps, one after another from `pfn` on; `ok` says that it
succeeds. -/
def remapPfnRange (ok : Bool) (pfn : Nat) (size : BitVec 64) : Option (List Nat) :=
  if ok then some ((List.range (size.toNat / pageSize)).map (pfn + ·)) else none

/-- `proc_mmap`: the value returned, and the frames that are mapped. -/
def procMmap (remapOk : Bool) (s : State) (vma : Vma) : Int × List Nat :=
  match remapPfnRange remapOk s.page (vma.vmEnd - vma.vmStart) with
  | none => (-1, [])
  | some frames => (0, frames)

/-! ## A process -/

/-- The area `mmap` makes at `start`: whole pages, at an offset of whole pages. -/
def mmapArea (start length offset : BitVec 64) : Option Vma :=
  let size := (length.toNat + (pageSize - 1)) / pageSize * pageSize
  if length = 0 ∨ 2 ^ 64 ≤ size ∨ offset.toNat % pageSize ≠ 0 then none
  else some { vmStart := start, vmEnd := start + BitVec.ofNat 64 size, vmPgoff := offset >>> 12 }

/-- A successful mapping of the file. -/
def mmap (remapOk : Bool) (s : State) (start length offset : BitVec 64) : Option (List Nat) :=
  (mmapArea start length offset).bind fun vma =>
    match procMmap remapOk s vma with
    | (0, frames) => some frames
    | _ => none

def frameBytes (mem : Memory) (frame : Nat) : List Byte :=
  (List.range pageSize).map fun i => mem (frame * pageSize + i)

/-- The bytes the process can read, from the start of the mapping on. -/
def readable (s : State) (frames : List Nat) : List Byte := frames.flatMap (frameBytes s.mem)

/-! ## What is mapped -/

theorem content_length_lt : content.length < pageSize := by decide +kernel

theorem nul_notMem_content : 0 ∉ content := by decide +kernel

theorem mmap_eq_some {remapOk : Bool} {s : State} {start length offset : BitVec 64}
    {frames : List Nat}
    (h : mmap remapOk s start length offset = some frames) :
    0 < length.toNat ∧
    frames = (List.range ((length.toNat + (pageSize - 1)) / pageSize)).map (s.page + ·) := by
  unfold mmap mmapArea at h
  dsimp only at h
  split at h
  · exact absurd h (by simp)
  · next hvalid =>
    simp only [not_or, not_le] at hvalid
    have hpos : 0 < length.toNat := by
      have hne := hvalid.1
      rw [← BitVec.toNat_inj] at hne
      exact Nat.pos_of_ne_zero hne
    refine ⟨hpos, ?_⟩
    -- The area is as long as the rounded request, wherever it starts.
    rw [Option.bind_some, procMmap, remapPfnRange, BitVec.add_comm, BitVec.add_sub_cancel,
      BitVec.toNat_ofNat, Nat.mod_eq_of_lt hvalid.2.1, Nat.mul_div_cancel _ (by decide)] at h
    cases remapOk with
    | false => exact absurd h (by simp)
    | true => simpa using h.symm

/-- All mapped frames are the page iff no more than a page is asked for. -/
theorem frames_eq_page_iff {length page : Nat} (hpos : 0 < length) :
    (∀ f ∈ (List.range ((length + (pageSize - 1)) / pageSize)).map (page + ·), f = page) ↔
      length ≤ pageSize := by
  simp only [List.mem_map, List.mem_range, forall_exists_index, and_imp, forall_apply_eq_imp_iff₂,
    pageSize]
  constructor
  · intro h
    by_contra hlong
    have := h 1 (by omega)
    omega
  · intro hshort i hi
    omega

theorem frames_one {length page : Nat} (hpos : 0 < length) (hshort : length ≤ pageSize) :
    (List.range ((length + (pageSize - 1)) / pageSize)).map (page + ·) = [page] := by
  have hone : (length + (pageSize - 1)) / pageSize = 1 := by
    unfold pageSize at *
    omega
  rw [hone]
  rfl

/-! ## What the page shows -/

/-- What the page held behind the text before it was copied there. -/
def oldBytes (mem : Memory) (frame : Nat) : List Byte :=
  (List.range (pageSize - content.length)).map fun i => mem (frame * pageSize + content.length + i)

theorem memcpy_content (mem : Memory) (dst i : Nat) :
    memcpy mem dst content (dst + i) = (content[i]?).getD (mem (dst + i)) := by
  rw [memcpy, if_pos (by omega), Nat.add_sub_cancel_left]

/-- The page shows the text, and then what it held before. -/
theorem readable_one_page (mem : Memory) (frame : Nat) :
    readable { mem := memcpy mem (frame * pageSize) content, page := frame } [frame] =
      content ++ oldBytes mem frame := by
  have hsplit : List.range pageSize =
      List.range content.length ++
        (List.range (pageSize - content.length)).map (content.length + ·) := by
    rw [← List.range_add, Nat.add_sub_cancel' (Nat.le_of_lt content_length_lt)]
  rw [readable, List.flatMap_cons, List.flatMap_nil, List.append_nil, frameBytes, hsplit,
    List.map_append, oldBytes, List.map_map]
  refine congrArg₂ (· ++ ·) ?_ ?_
  · -- the bytes that were copied
    apply List.ext_getElem
    · simp
    · intro i hi hi'
      simp only [List.getElem_map, List.getElem_range]
      rw [memcpy_content, List.getElem?_eq_getElem hi', Option.getD_some]
  · -- the bytes behind them
    apply List.map_congr_left
    intro i _
    simp only [Function.comp_apply]
    rw [memcpy_content, List.getElem?_eq_none (by omega), Option.getD_none, Nat.add_assoc]

theorem cstr_content_append_iff (rest : List Byte) :
    cstr (content ++ rest) = content ↔ cstr rest = [] := by
  have hall : ∀ c ∈ content, decide (c ≠ 0) = true := by
    intro c hc
    exact decide_eq_true fun hzero => nul_notMem_content (hzero ▸ hc)
  rw [cstr, List.takeWhile_append_of_pos hall, List.append_right_eq_self]
  rfl

theorem cstr_oldBytes_iff (mem : Memory) (frame : Nat) :
    cstr (oldBytes mem frame) = [] ↔ mem (frame * pageSize + content.length) = 0 := by
  have hcons : pageSize - content.length = (pageSize - content.length - 1) + 1 := by
    have := content_length_lt
    omega
  rw [oldBytes, hcons, List.range_succ_eq_map, List.map_cons, cstr, List.takeWhile_cons]
  simp

theorem oldBytes_eq_iff (m₁ m₂ : Memory) (frame : Nat) :
    oldBytes m₁ frame = oldBytes m₂ frame ↔
      ∀ i, content.length ≤ i → i < pageSize →
        m₁ (frame * pageSize + i) = m₂ (frame * pageSize + i) := by
  rw [oldBytes, oldBytes, List.map_inj_left]
  constructor
  · intro h i hle hlt
    have := h (i - content.length) (List.mem_range.mpr (by omega))
    rwa [Nat.add_assoc, Nat.add_sub_cancel' hle] at this
  · intro h i hi
    rw [List.mem_range] at hi
    rw [Nat.add_assoc]
    exact h _ (by omega) (by omega)

/-- **What `/proc/maptest` discloses.** The module is loaded over two memories, and a process maps
its file with the same request in both. It sees the same bytes, its string is the text, and no frame
but the page is mapped, exactly if it asks for no more than a page, the page held the same bytes
behind the text in both memories, and the first of these was zero. -/
theorem maptest_discloses_iff (m₁ m₂ : Memory) (frame : Nat) (procOk remapOk : Bool)
    (start length offset : BitVec 64) (s₁ s₂ : State) (frames₁ frames₂ : List Nat)
    (hload₁ : maptestInit procOk (some frame) m₁ = .ok (some s₁))
    (hload₂ : maptestInit procOk (some frame) m₂ = .ok (some s₂))
    (hmap₁ : mmap remapOk s₁ start length offset = some frames₁)
    (hmap₂ : mmap remapOk s₂ start length offset = some frames₂) :
    (readable s₁ frames₁ = readable s₂ frames₂ ∧
      cstr (readable s₁ frames₁) = content ∧ ∀ f ∈ frames₁, f = s₁.page) ↔
    (length.toNat ≤ pageSize ∧
      (∀ i, content.length ≤ i → i < pageSize →
        m₁ (frame * pageSize + i) = m₂ (frame * pageSize + i)) ∧
      m₁ (frame * pageSize + content.length) = 0) := by
  have hload : ∀ {m s}, maptestInit procOk (some frame) m = .ok (some s) →
      s = { mem := memcpy m (frame * pageSize) content, page := frame } := by
    intro m s h
    cases procOk with
    | false => exact absurd h (by simp [maptestInit])
    | true => simpa [maptestInit, eq_comm] using h
  obtain rfl := hload hload₁
  obtain rfl := hload hload₂
  obtain ⟨hpos, rfl⟩ := mmap_eq_some hmap₁
  obtain ⟨-, rfl⟩ := mmap_eq_some hmap₂
  rw [frames_eq_page_iff hpos]
  -- For one page both sides are about the bytes behind the text.
  have hone : length.toNat ≤ pageSize → ∀ m : Memory,
      readable { mem := memcpy m (frame * pageSize) content, page := frame }
        ((List.range ((length.toNat + (pageSize - 1)) / pageSize)).map (frame + ·)) =
      content ++ oldBytes m frame := by
    intro hshort m
    rw [frames_one hpos hshort, readable_one_page]
  constructor
  · rintro ⟨hsame, hstr, hshort⟩
    rw [hone hshort, hone hshort, List.append_cancel_left_eq, oldBytes_eq_iff] at hsame
    rw [hone hshort, cstr_content_append_iff, cstr_oldBytes_iff] at hstr
    exact ⟨hshort, hsame, hstr⟩
  · rintro ⟨hshort, hsame, hzero⟩
    refine ⟨?_, ?_, hshort⟩
    · rw [hone hshort, hone hshort, (oldBytes_eq_iff m₁ m₂ frame).mpr hsame]
    · rw [hone hshort, cstr_content_append_iff, cstr_oldBytes_iff]
      exact hzero

/-- A page that was zero, mapped as the test program maps it. -/
theorem maptest_discloses_zero_page :
    readable { mem := memcpy (fun _ => 0) (5 * pageSize) content, page := 5 } [5] =
      readable { mem := memcpy (fun q => if q = 0 then 1 else 0) (5 * pageSize) content, page := 5 }
        [5] :=
  ((maptest_discloses_iff (fun _ => 0) (fun q => if q = 0 then 1 else 0) 5 true true 0x10000 100 0
    _ _ [5] [5] rfl rfl rfl rfl).mpr
      ⟨by decide, fun i _ _ => (if_neg (by unfold pageSize; omega)).symm, rfl⟩).1

/-- The text is followed by what the page held before, and a mapping of two pages shows the frame
behind it. -/
theorem maptest_discloses_fails :
    (∃ m₁ m₂ : Memory, ∃ s₁ s₂ : State,
      maptestInit true (some 5) m₁ = .ok (some s₁) ∧ maptestInit true (some 5) m₂ = .ok (some s₂) ∧
      mmap true s₁ 0x10000 4096 0 = some [5] ∧ mmap true s₂ 0x10000 4096 0 = some [5] ∧
      readable s₁ [5] ≠ readable s₂ [5] ∧ cstr (readable s₁ [5]) ≠ content) ∧
    (∃ m : Memory, ∃ s : State, maptestInit true (some 5) m = .ok (some s) ∧
      mmap true s 0x10000 8192 0 = some [5, 6]) := by
  refine ⟨⟨fun _ => 1, fun _ => 0, _, _, rfl, rfl, rfl, rfl, ?_, ?_⟩, fun _ => 0, _, rfl, rfl⟩
  · rw [readable_one_page, readable_one_page, Ne, List.append_cancel_left_eq, oldBytes_eq_iff]
    intro h
    exact absurd (h content.length (Nat.le_refl _) content_length_lt) (by decide)
  · rw [readable_one_page, Ne, cstr_content_append_iff, cstr_oldBytes_iff]
    decide

end LinuxKernel.Maptest
