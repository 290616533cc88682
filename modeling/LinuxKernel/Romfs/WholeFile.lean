import LinuxKernel.Romfs.History

/-!
# romfs — reading a whole file

A regular file is read page by page. The pages together are the bytes of the image behind the
header, padded with zeros, and encrypted up to the end of the file under the name of the encrypted
file.

* `resolve_lt`         — a file lies below 4 GiB: no position wraps around.
* `pageBytes_eq_page`  — one page, as a window of the padded file.
* `flatMap_window`     — windows side by side.
* `read_whole_file`    — all pages of a file that is open.
-/

namespace LinuxKernel.Romfs

open LinuxKernel.Lib

/-! ## A file in an image -/

/-- What the device reads is what the image holds. -/
structure Backs (img : Image) (dev : Dev) : Prop where
  read    : ∀ pos n bytes, dev.read pos n = .ok bytes → bytes = img.bytes pos.toNat n
  strnlen : ∀ pos n len, dev.strnlen pos n = .ok len → len = (cstr (img.bytes pos.toNat n)).length

namespace Image

variable (img : Image) (pos : BitVec 64)

/-- The data comes after the name with its NUL, at the next multiple of 16. -/
def fileStart : Nat :=
  pos.toNat +
    (romfhSize + (cstr (img.bytes (pos.toNat + romfhSize) romfsMaxfn)).length + 1 + 15) / 16 * 16

def fileSize : Nat := (riSize (img.bytes pos.toNat romfhSize)).toNat

def file : List Byte := img.bytes (img.fileStart pos) (img.fileSize pos)

/-- Byte i of the file as it is read, zero past its end. -/
def fileByte (encrypted : Bool) (i : Nat) : Byte :=
  if i < img.fileSize pos then
    if encrypted then img (img.fileStart pos + i) + 1 else img (img.fileStart pos + i)
  else 0

/-- Page k of the file. -/
def filePage (encrypted : Bool) (k : Nat) : List Byte :=
  (List.range pageSize).map fun i => img.fileByte pos encrypted (k * pageSize + i)

end Image

/-! ## Where a file is -/

section Position

variable {img : Image} {dev : Dev} {pos : BitVec 64}

theorem setWidth_lt (v : BitVec 32) : (v.setWidth 64).toNat < 2 ^ 32 := by
  rw [BitVec.toNat_setWidth]
  exact Nat.lt_of_le_of_lt (Nat.mod_le _ _) v.isLt

theorem findEntry_lt {dev : LookupDev} {name : List Byte} {fuel : Nat} {off : BitVec 64}
    (hoff : off.toNat < 2 ^ 32) {ri : RomfsInode}
    (h : findEntry dev name fuel off = .done (.ok (some (pos, ri)))) : pos.toNat < 2 ^ 32 := by
  induction fuel generalizing off with
  | zero => simp [findEntry] at h
  | succ fuel ih =>
    rw [findEntry] at h
    split at h
    · simp at h
    · cases hread : dev.read off romfhSize with
      | error e => simp [hread] at h
      | ok bytes =>
        simp only [hread] at h
        cases hcmp : dev.strcmp (off + BitVec.ofNat 64 romfhSize) name with
        | error e => simp [hcmp] at h
        | ok ret =>
          simp only [hcmp] at h
          split at h
          · simp only [Exec.done.injEq, Except.ok.injEq, Option.some.injEq, Prod.mk.injEq] at h
            rwa [← h.1]
          · exact ih (setWidth_lt _) h

theorem followLinks_lt {fuel : Nat} {off : BitVec 64} (hoff : off.toNat < 2 ^ 32) {ri : List Byte}
    (h : followLinks dev fuel off = .done (.ok (pos, ri))) : pos.toNat < 2 ^ 32 := by
  induction fuel generalizing off with
  | zero => simp [followLinks] at h
  | succ fuel ih =>
    rw [followLinks] at h
    cases hread : dev.read off romfhSize with
    | error e => simp [hread] at h
    | ok bytes =>
      simp only [hread] at h
      split at h
      · simp only [Exec.done.injEq, Except.ok.injEq, Prod.mk.injEq] at h
        rwa [← h.1]
      · exact ih (setWidth_lt _) h

/-- Every position that is found is a field of a header. -/
theorem resolve_lt {dev : LookupDev} {fuel : Nat} {dir : BitVec 64} {name : List Byte}
    (h : resolve dev fuel dir name = some pos) : pos.toNat < 2 ^ 32 := by
  unfold resolve at h
  split at h
  · simp at h
  · split at h
    · next offset entry hfind =>
      split at h
      · next p ri hlinks =>
        obtain rfl := Option.some.inj h
        refine followLinks_lt ?_ hlinks
        unfold igetStart
        split
        · exact setWidth_lt _
        · exact findEntry_lt (setWidth_lt _) hfind
      · simp at h
    · simp at h

theorem metasize_toNat {nlen : Nat} (h : nlen ≤ romfsMaxfn) :
    (metasize nlen).toNat = (romfhSize + nlen + 1 + 15) / 16 * 16 := by
  have hall : ∀ n : Fin 129, (metasize n).toNat = (romfhSize + n + 1 + 15) / 16 * 16 := by
    decide +kernel
  exact hall ⟨nlen, Nat.lt_succ_of_le h⟩

theorem length_cstr_bytes_le (img : Image) (p n : Nat) : (cstr (img.bytes p n)).length ≤ n := by
  have hle := (List.takeWhile_prefix (l := img.bytes p n) (· ≠ 0)).length_le
  rwa [Image.bytes, List.length_map, List.length_range] at hle

theorem fileStart_lt (img : Image) (hpos : pos.toNat < 2 ^ 32) : img.fileStart pos < 2 ^ 33 := by
  have hle := length_cstr_bytes_le img (pos.toNat + romfhSize) romfsMaxfn
  unfold Image.fileStart
  unfold romfsMaxfn at hle ⊢
  unfold romfhSize at hle ⊢
  omega

theorem fileSize_lt (img : Image) (pos : BitVec 64) : img.fileSize pos < 2 ^ 32 := BitVec.isLt _

/-- The inode of a regular file has its size and its start. -/
theorem diskInode_file (hback : Backs img dev) (hpos : pos.toNat < 2 ^ 32) {d : Inode}
    (hdisk : diskInode dev pos = some d) (hreg : fileType (img.inode pos).next = .reg) :
    d.size.toNat = img.fileSize pos ∧ d.dataoffset.toNat = img.fileStart pos := by
  unfold diskInode at hdisk
  split at hdisk
  · next ri nlen hread hlen =>
    obtain rfl := Option.some.inj hdisk
    obtain rfl := hback.read _ _ _ hread
    have hadd : (pos + BitVec.ofNat 64 romfhSize).toNat = pos.toNat + romfhSize := by
      rw [BitVec.toNat_add, BitVec.toNat_ofNat, romfhSize]
      omega
    have hnlen := hback.strnlen _ _ _ hlen
    rw [hadd] at hnlen
    have hle := length_cstr_bytes_le img (pos.toNat + romfhSize) romfsMaxfn
    have hmeta := metasize_toNat (hnlen ▸ hle)
    have hreg : fileType (romfsInode (img.bytes pos.toNat romfhSize)).next = .reg := hreg
    unfold newInode
    simp only [hreg]
    refine ⟨?_, ?_⟩
    · rw [BitVec.toNat_setWidth, Image.fileSize]
      exact Nat.mod_eq_of_lt (Nat.lt_trans (BitVec.isLt _) (by decide))
    · have hlt := fileStart_lt img hpos
      rw [Image.fileStart, ← hnlen, ← hmeta] at hlt
      rw [BitVec.toNat_add, Nat.mod_eq_of_lt (by omega), Image.fileStart, ← hnlen, hmeta]
  · simp at hdisk

end Position

/-! ## Pages -/

/-- The device reads the part of the file that is on page k. -/
def readsPage (dev : Dev) (img : Image) (pos : BitVec 64) (k : Nat) : Except Int (List Byte) :=
  dev.read (BitVec.ofNat 64 (img.fileStart pos + k * pageSize))
    (min (img.fileSize pos - k * pageSize) pageSize)

section Pages

variable {img : Image} {dev : Dev} {pos : BitVec 64} {d : Inode} {k : Nat}

theorem pageOffset_toNat (hk : k < 2 ^ 51) :
    (pageOffset (BitVec.ofNat 64 k)).toNat = k * pageSize := by
  rw [pageOffset, BitVec.toNat_shiftLeft, BitVec.toNat_ofNat, Nat.shiftLeft_eq, pageSize]
  omega

theorem pageOffset_slt_iff (hsize : d.size.toNat = img.fileSize pos) (hk : k < 2 ^ 51) :
    (pageOffset (BitVec.ofNat 64 k)).slt d.size = true ↔ k * pageSize < img.fileSize pos := by
  have hlt := fileSize_lt img pos
  have hpage : k * pageSize < 2 ^ 63 := by
    unfold pageSize
    omega
  have hoff := pageOffset_toNat hk
  rw [BitVec.slt, decide_eq_true_eq, BitVec.toInt_eq_toNat_of_lt (by omega),
    BitVec.toInt_eq_toNat_of_lt (by omega), hoff, hsize]
  exact Int.ofNat_lt

/-- Where and how much `romfs_readpage` reads. -/
theorem read_eq_readsPage (hpos : pos.toNat < 2 ^ 32) (hsize : d.size.toNat = img.fileSize pos)
    (hstart : d.dataoffset.toNat = img.fileStart pos) (hk : k < 2 ^ 51)
    (hin : k * pageSize < img.fileSize pos) :
    dev.read (d.dataoffset + pageOffset (BitVec.ofNat 64 k))
      (fillsizeOf d.size (pageOffset (BitVec.ofNat 64 k))) = readsPage dev img pos k := by
  have hoff := pageOffset_toNat hk
  have hlt := fileSize_lt img pos
  have hstart' := fileStart_lt img hpos
  have hwhere : d.dataoffset + pageOffset (BitVec.ofNat 64 k) =
      BitVec.ofNat 64 (img.fileStart pos + k * pageSize) := by
    apply BitVec.eq_of_toNat_eq
    rw [BitVec.toNat_add, BitVec.toNat_ofNat, hoff, hstart]
  have hmuch : fillsizeOf d.size (pageOffset (BitVec.ofNat 64 k)) =
      min (img.fileSize pos - k * pageSize) pageSize := by
    unfold fillsizeOf
    rw [BitVec.toNat_sub, hoff, hsize]
    omega
  rw [hwhere, hmuch, readsPage]

theorem filePage_past (encrypted : Bool) (hout : img.fileSize pos ≤ k * pageSize) :
    img.filePage pos encrypted k = List.replicate pageSize 0 := by
  apply List.eq_replicate_iff.mpr
  refine ⟨by rw [Image.filePage, List.length_map, List.length_range], ?_⟩
  intro b hb
  obtain ⟨i, -, rfl⟩ := List.mem_map.mp hb
  exact if_neg (by omega)

/-- A page that holds a part of the file: its bytes, and then zeros. -/
theorem filePage_in (encrypted : Bool) (fillsize : Nat)
    (hfill : fillsize = min (img.fileSize pos - k * pageSize) pageSize) :
    img.filePage pos encrypted k =
      (if encrypted then (img.bytes (img.fileStart pos + k * pageSize) fillsize).map (· + 1)
        else img.bytes (img.fileStart pos + k * pageSize) fillsize) ++
      List.replicate (pageSize - fillsize) 0 := by
  have hsplit : List.range pageSize =
      List.range fillsize ++ (List.range (pageSize - fillsize)).map (fillsize + ·) := by
    rw [← List.range_add, Nat.add_sub_cancel' (by omega)]
  rw [Image.filePage, hsplit, List.map_append]
  refine congrArg₂ (· ++ ·) ?_ ?_
  · -- before the end of the file
    have hbyte : ∀ i ∈ List.range fillsize, img.fileByte pos encrypted (k * pageSize + i) =
        if encrypted then img (img.fileStart pos + k * pageSize + i) + 1
        else img (img.fileStart pos + k * pageSize + i) := by
      intro i hi
      rw [List.mem_range] at hi
      rw [Image.fileByte, if_pos (by omega), Nat.add_assoc]
    rw [List.map_congr_left hbyte]
    cases encrypted with
    | false => rfl
    | true =>
      rw [if_pos rfl, Image.bytes, List.map_map]
      rfl
  · -- past it
    apply List.eq_replicate_iff.mpr
    refine ⟨by simp, ?_⟩
    intro b hb
    simp only [List.map_map, List.mem_map, List.mem_range, Function.comp_apply] at hb
    obtain ⟨i, hi, rfl⟩ := hb
    exact if_neg (by omega)

/-- **A page** holds its window of the file, unless the device cannot read it. -/
theorem pageBytes_eq_page (hback : Backs img dev) (hpos : pos.toNat < 2 ^ 32)
    (hsize : d.size.toNat = img.fileSize pos) (hstart : d.dataoffset.toNat = img.fileStart pos)
    (encrypted : Bool) (hk : k < 2 ^ 51) :
    pageBytes dev d (BitVec.ofNat 64 k) encrypted =
      if k * pageSize < img.fileSize pos ∧ (readsPage dev img pos k).toOption = none then none
      else some (img.filePage pos encrypted k) := by
  unfold pageBytes
  by_cases hin : k * pageSize < img.fileSize pos
  · rw [if_pos ((pageOffset_slt_iff hsize hk).mpr hin)]
    dsimp only
    rw [read_eq_readsPage hpos hsize hstart hk hin]
    cases hread : readsPage dev img pos k with
    | error e => exact (if_pos ⟨hin, rfl⟩).symm
    | ok bytes =>
      have hbytes := hback.read _ _ _ hread
      have hlt := fileSize_lt img pos
      have hstart' := fileStart_lt img hpos
      rw [BitVec.toNat_ofNat, Nat.mod_eq_of_lt (by omega)] at hbytes
      have hmuch : fillsizeOf d.size (pageOffset (BitVec.ofNat 64 k)) =
          min (img.fileSize pos - k * pageSize) pageSize := by
        unfold fillsizeOf
        rw [BitVec.toNat_sub, pageOffset_toNat hk, hsize]
        omega
      rw [if_neg (by simp [Except.toOption]), hmuch, filePage_in encrypted _ rfl, ← hbytes]
  · rw [if_neg (fun h => hin ((pageOffset_slt_iff hsize hk).mp h)), if_neg (fun h => hin h.1),
      filePage_past encrypted (by omega)]

end Pages

/-! ## All pages -/

/-- Windows of length p side by side. -/
theorem flatMap_window {α : Type} (f : Nat → α) (p n : Nat) :
    ((List.range n).flatMap fun k => (List.range p).map fun i => f (k * p + i)) =
      (List.range (n * p)).map f := by
  induction n with
  | zero => simp
  | succ n ih =>
    rw [List.range_succ, List.flatMap_append, ih, List.flatMap_singleton, Nat.succ_mul,
      List.range_add, List.map_append, List.map_map]
    rfl

section Files

variable {img : Image} {pos : BitVec 64}

theorem length_filePage (encrypted : Bool) (k : Nat) :
    (img.filePage pos encrypted k).length = pageSize := by
  rw [Image.filePage, List.length_map, List.length_range]

theorem filePage_zero (encrypted : Bool) {k i : Nat} (hi : i < pageSize)
    (hout : img.fileSize pos ≤ k * pageSize + i) :
    (img.filePage pos encrypted k)[i]? = some 0 := by
  rw [Image.filePage, List.getElem?_map, List.getElem?_range hi, Option.map_some, Image.fileByte,
    if_neg (by omega)]

/-- The pages side by side, cut at the end of the file. -/
theorem take_filePages (encrypted : Bool) {n : Nat} (hn : img.fileSize pos ≤ n * pageSize) :
    ((List.range n).flatMap (img.filePage pos encrypted)).take (img.fileSize pos) =
      if encrypted then (img.file pos).map (· + 1) else img.file pos := by
  have hpages := flatMap_window (img.fileByte pos encrypted) pageSize n
  have hbytes : ∀ i ∈ List.range (img.fileSize pos), img.fileByte pos encrypted i =
      if encrypted then img (img.fileStart pos + i) + 1 else img (img.fileStart pos + i) := by
    intro i hi
    exact if_pos (List.mem_range.mp hi)
  show ((List.range n).flatMap fun k => (List.range pageSize).map fun i =>
    img.fileByte pos encrypted (k * pageSize + i)).take _ = _
  rw [hpages, ← List.map_take, List.take_range, Nat.min_eq_left hn, List.map_congr_left hbytes]
  cases encrypted with
  | false => rfl
  | true =>
    rw [if_pos rfl, Image.file, Image.bytes, List.map_map]
    rfl

theorem map_sub_map_add (bytes : List Byte) : (bytes.map (· + 1)).map (· - 1) = bytes := by
  rw [List.map_map]
  exact List.map_id'' (fun b => BitVec.add_sub_cancel b 1) bytes

end Files

/-- One call for an open file, which gives the page as the device reads it. -/
theorem romfsReadpage_file {m : Mount} {img : Image} {ino : BitVec 64} {d : Inode}
    (hback : Backs img m.dev.toDev) (hpos : ino.toNat < 2 ^ 32)
    (hsize : d.size.toNat = img.fileSize ino) (hstart : d.dataoffset.toNat = img.fileStart ino)
    (name : List Byte) (b : Bool) {k : Nat} (stale : StalePage) (err : Bool) (hk : k < 2 ^ 51) :
    romfsReadpage m.dev.toDev (some m.encrypted) true (some name) (d.withExec b)
        (BitVec.ofNat 64 k) ⟨stale.val, false, err⟩ =
      .done (if k * pageSize < img.fileSize ino ∧
          (readsPage m.dev.toDev img ino k).toOption = none then
        (eio, ⟨List.replicate pageSize 0, false, true⟩)
      else (0, ⟨img.filePage ino (strcmpEq name m.encrypted) k, true, err⟩)) := by
  have hread : ∀ pos n bytes, m.dev.read pos n = .ok bytes → bytes.length = n := by
    intro pos n bytes h
    rw [hback.read _ _ _ h, Image.bytes, List.length_map, List.length_range]
  rw [romfsReadpage_eq hread, pageBytes_withExec, pageBytes_eq_page hback hpos hsize hstart _ hk]
  by_cases hfail : k * pageSize < img.fileSize ino ∧
      (readsPage m.dev.toDev img ino k).toOption = none
  · rw [if_pos hfail, if_pos hfail, pageResult]
  · rw [if_neg hfail, if_neg hfail, pageResult]

/-- What `romfs_readpage` gives for the pages of an open file; `page_offset` is a `loff_t`, so that
there are no more than 2^51. Each page held anything before, and may have been in error. -/
structure ReadsWhole (m : Mount) (img : Image) (ino : BitVec 64) (inode : Inode)
    (name : List Byte) : Prop where
  whole : (∀ k, k * pageSize < inode.size.toNat →
      ∃ bytes, readsPage m.dev.toDev img ino k = .ok bytes) →
    ∀ (stale : Nat → StalePage) (err : Nat → Bool), ∃ page : Nat → Page,
      (∀ k, k < 2 ^ 51 →
        romfsReadpage m.dev.toDev (some m.encrypted) true (some name) inode (BitVec.ofNat 64 k)
          ⟨(stale k).val, false, err k⟩ = .done (0, page k) ∧
        (page k).buf.length = pageSize ∧ (page k).uptodate = true ∧
        ∀ i, i < pageSize → inode.size.toNat ≤ k * pageSize + i → (page k).buf[i]? = some 0) ∧
      ∀ n, n ≤ 2 ^ 51 → inode.size.toNat ≤ n * pageSize →
        (strcmpEq name m.encrypted = false →
          ((List.range n).flatMap fun k => (page k).buf).take inode.size.toNat = img.file ino) ∧
        (strcmpEq name m.encrypted = true →
          ((List.range n).flatMap fun k => (page k).buf).take inode.size.toNat =
            (img.file ino).map (· + 1) ∧
          (((List.range n).flatMap fun k => (page k).buf).take inode.size.toNat).map (· - 1) =
            img.file ino)
  failed : ∀ (k : Nat) (stale : StalePage) (err : Bool) (e : Int), k < 2 ^ 51 →
    k * pageSize < inode.size.toNat → readsPage m.dev.toDev img ino k = .error e →
    romfsReadpage m.dev.toDev (some m.encrypted) true (some name) inode (BitVec.ofNat 64 k)
      ⟨stale.val, false, err⟩ = .done (eio, ⟨List.replicate pageSize 0, false, true⟩)

/-- **A whole file.** Whatever was done with the file system before, a regular file that is opened
under a name, with a parameter for the encrypted file, has an inode whose pages are read as the
image has the file. -/
theorem read_whole_file (m : Mount) (img : Image) (hback : Backs img m.dev.toDev)
    (ops : List VfsOp) (s t : Vfs) (hrun : run m.next Vfs.init ops = some s) (dir ino : BitVec 64)
    (name : List Byte) (hopen : m.openFile s dir name = some (t, ino))
    (hreg : fileType (img.inode ino).next = .reg) :
    ∃ inode, t.icache ino = some inode ∧ inode.size.toNat = img.fileSize ino ∧
      ReadsWhole m img ino inode name := by
  -- the cached inode is the one on the image, with the exec bits lookups have added
  have hcoherent : InodesCoherent m s (ops.foldl m.note History.init) :=
    run_history (fun _ _ _ _ hc hnext => hc.next hnext) (Coherent.init m).toInodesCoherent hrun
  obtain ⟨hres, -, -, d, hdisk, hino⟩ := hcoherent.openFile hopen
  have hpos := resolve_lt hres
  obtain ⟨hsize, hstart⟩ := diskInode_file hback hpos hdisk hreg
  generalize ((ops.foldl m.note History.init).marked ino || strcmpEq m.exec name) = b at hino
  have hsize' : (d.withExec b).size.toNat = img.fileSize ino := by
    cases b <;> exact hsize
  -- what a call for one page gives, whether or not the device can read it
  have hcall := fun k stale err (hk : k < 2 ^ 51) =>
    romfsReadpage_file hback hpos hsize hstart name b stale err hk
  refine ⟨d.withExec b, hino, hsize', ?_, ?_⟩
  · intro hall stale err
    rw [hsize'] at hall ⊢
    refine ⟨fun k => ⟨img.filePage ino (strcmpEq name m.encrypted) k, true, err k⟩, ?_, ?_⟩
    · intro k hk
      dsimp only
      refine ⟨?_, length_filePage _ k, rfl, fun i hi hout => filePage_zero _ hi hout⟩
      rw [hcall k (stale k) (err k) hk, if_neg]
      rintro ⟨hin, hnone⟩
      obtain ⟨bytes, hbytes⟩ := hall k hin
      rw [hbytes] at hnone
      exact absurd hnone (by simp [Except.toOption])
    · -- the pages in sequence
      intro n _ hn
      have htake := take_filePages (strcmpEq name m.encrypted) hn
      dsimp only
      refine ⟨fun hkind => ?_, fun hkind => ?_⟩
      · rw [if_neg (by simp [hkind])] at htake
        exact htake
      · rw [if_pos hkind] at htake
        rw [htake]
        exact ⟨rfl, map_sub_map_add _⟩
  · intro k stale err e hk hin herr
    rw [hcall k stale err hk, if_pos ⟨hsize' ▸ hin, by rw [herr]; rfl⟩]

theorem linkImage_backs : Backs linkImage linkMount.dev.toDev where
  read := by
    intro pos n bytes h
    exact (Except.ok.inj h).symm
  strnlen := by
    intro pos n len h
    exact (Except.ok.inj h).symm

/-- The file of one byte, opened under the name of the encrypted file. -/
theorem read_whole_file_link : ∃ t inode, linkMount.openFile Vfs.init 32 [98] = some (t, 64) ∧
    t.icache 64 = some inode ∧ inode.size.toNat = 1 ∧
    ReadsWhole linkMount linkImage 64 inode [98] := by
  have hopen : (linkMount.openFile Vfs.init 32 [98]).map (·.2) = some 64 := by decide +kernel
  obtain ⟨⟨t, ino⟩, hopen, rfl⟩ := Option.map_eq_some_iff.mp hopen
  obtain ⟨inode, hino, hsize, hreads⟩ :=
    read_whole_file linkMount linkImage linkImage_backs [] _ t rfl
    32 64 [98] hopen (by decide +kernel)
  exact ⟨t, inode, hopen, hino, hsize.trans (by decide +kernel), hreads⟩

end LinuxKernel.Romfs
