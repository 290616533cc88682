import LinuxKernel.Romfs.History

/-!
# romfs — symbolic links

`romfs_iget` gives regular files and symbolic links the same `romfs_readpage`. A regular file is
read with the `struct file` of the open file, a symbolic link by `page_get_link`, without one.

* `newInode_aops`          — which inodes have `romfs_aops`.
* `fillsPage_iff`          — `romfs_readpage` fills a page unless it comes to the comparison of the
  names with one of them missing.
* `pageGetLink_symlink`    — no symbolic link of positive length can be followed.
* `aops_readable_iff`      — the inodes with `romfs_aops` and all calls.
-/

namespace LinuxKernel.Romfs

/-- The inodes with `romfs_aops` are the regular files and the symbolic links, with the size in
their header. -/
theorem newInode_aops (pos : BitVec 64) (ri : List Byte) (nlen : Nat) :
    (newInode pos ri nlen).aops = true ↔
      fileType (romfsInode ri).next = .reg ∨ fileType (romfsInode ri).next = .sym := by
  cases htype : fileType (romfsInode ri).next <;> simp [newInode, htype]

theorem newInode_size {pos : BitVec 64} {ri : List Byte} {nlen : Nat}
    (h : (newInode pos ri nlen).aops = true) :
    (newInode pos ri nlen).size = (riSize ri).setWidth 64 := by
  rcases (newInode_aops pos ri nlen).mp h with htype | htype <;> simp [newInode, htype]

/-- A page is encrypted for a file that is open under the name. -/
def isEncrypted : Option (List Byte) → Option (List Byte) → Bool
  | some name, some encrypted => strcmpEq name encrypted
  | _, _ => false

/-- The call returns, with the page as the device reads it. -/
def FillsPage (dev : Dev) (encryptedFileName file : Option (List Byte)) (inode : Inode)
    (index : BitVec 64) (stale : StalePage) (err : Bool) : Prop :=
  romfsReadpage dev encryptedFileName true file inode index ⟨stale.val, false, err⟩ =
    .done (pageResult err (pageBytes dev inode index (isEncrypted file encryptedFileName)))

/-- `nd_terminate_link`, and the string in front of the NUL. -/
def linkTarget (inode : Inode) (page : List Byte) : List Byte :=
  cstr (page.take (min inode.size.toNat (pageSize - 1)))

/-- `page_get_link`: the first page is read without a file. Nothing stands for an error. -/
def pageGetLink (dev : Dev) (encryptedFileName : Option (List Byte)) (inode : Inode)
    (stale : StalePage) (err : Bool) : Exec (Option (List Byte)) :=
  (romfsReadpage dev encryptedFileName true none inode 0 ⟨stale.val, false, err⟩).bind
    fun (_, page) => .done (if page.uptodate then some (linkTarget inode page.buf) else none)

/-- A call fills the page; if it is the one `page_get_link` makes, the target is returned. -/
structure ReadsData (dev : Dev) (encryptedFileName file : Option (List Byte)) (inode : Inode)
    (index : BitVec 64) (stale : StalePage) (err : Bool) : Prop where
  fills  : FillsPage dev encryptedFileName file inode index stale err
  target : file = none → index = 0 → pageGetLink dev encryptedFileName inode stale err =
    .done ((pageBytes dev inode 0 false).map (linkTarget inode))

section Calls

variable {dev : Dev} {inode : Inode} {index : BitVec 64} {stale : StalePage} {err : Bool}
  {file encryptedFileName : Option (List Byte)}

theorem fillsPage_past (hpast : ¬ (pageOffset index).slt inode.size) :
    FillsPage dev encryptedFileName file inode index stale err := by
  rw [FillsPage, romfsReadpage, if_pos rfl, if_neg hpast, pageBytes, if_neg hpast]
  exact congrArg Exec.done (finishPage_ok [] stale.val err (by rw [stale.property]; rfl))

theorem readpage_oops (hin : (pageOffset index).slt inode.size)
    (hnull : file = none ∨ encryptedFileName = none) (page : Page) :
    romfsReadpage dev encryptedFileName true file inode index page = .oops := by
  rw [romfsReadpage, if_pos rfl, if_pos hin]
  cases file with
  | none => rfl
  | some name =>
    obtain rfl := hnull.resolve_left (by simp)
    rfl

/-- `romfs_readpage` compares the names for every page with a part of the file on it. -/
theorem fillsPage_iff (hread : ∀ pos n bytes, dev.read pos n = .ok bytes → bytes.length = n) :
    FillsPage dev encryptedFileName file inode index stale err ↔
      ((pageOffset index).slt inode.size → file ≠ none ∧ encryptedFileName ≠ none) := by
  constructor
  · intro hfills hin
    by_contra hnot
    rw [FillsPage, readpage_oops hin (by tauto)] at hfills
    simp at hfills
  · intro hsome
    by_cases hin : (pageOffset index).slt inode.size
    · obtain ⟨hfile, henc⟩ := hsome hin
      obtain ⟨name, rfl⟩ := Option.ne_none_iff_exists'.mp hfile
      obtain ⟨encrypted, rfl⟩ := Option.ne_none_iff_exists'.mp henc
      exact romfsReadpage_eq hread encrypted name inode index stale err
    · exact fillsPage_past hin

theorem pageGetLink_of_fills (h : FillsPage dev encryptedFileName none inode 0 stale err) :
    pageGetLink dev encryptedFileName inode stale err =
      .done ((pageBytes dev inode 0 false).map (linkTarget inode)) := by
  have h : romfsReadpage dev encryptedFileName true none inode 0 ⟨stale.val, false, err⟩ =
      .done (pageResult err (pageBytes dev inode 0 false)) := h
  rw [pageGetLink, h, Exec.done_bind]
  cases pageBytes dev inode 0 false with
  | none => rfl
  | some bytes => rfl

end Calls

/-- Following a symbolic link of positive length ends in the `NULL` file. -/
theorem pageGetLink_symlink (dev : Dev) (encryptedFileName : Option (List Byte)) (pos : BitVec 64)
    (ri : List Byte) (nlen : Nat) (hsym : fileType (romfsInode ri).next = .sym)
    (hlen : 0 < (riSize ri).toNat) (stale : StalePage) (err : Bool) :
    pageGetLink dev encryptedFileName (newInode pos ri nlen) stale err = .oops := by
  have hin : (pageOffset 0).slt (newInode pos ri nlen).size := by
    rw [newInode_size ((newInode_aops pos ri nlen).mpr (Or.inr hsym))]
    have hlt := (riSize ri).isLt
    have hsize : ((riSize ri).setWidth 64).toNat = (riSize ri).toNat := by
      rw [BitVec.toNat_setWidth]
      omega
    have hzero : (pageOffset 0).toInt = 0 := by decide
    rw [BitVec.slt, decide_eq_true_eq, hzero, BitVec.toInt_eq_toNat_of_lt (by omega), hsize]
    omega
  rw [pageGetLink, readpage_oops hin (Or.inl rfl)]
  rfl

/-- **Regular files and symbolic links.** For the inodes with `romfs_aops` and every call of
`romfs_readpage`, the page is filled, and the target of a link is returned, exactly if the page is
past the end of the file, or there is a file and a name of the encrypted file. -/
theorem aops_readable_iff (dev : Dev)
    (hread : ∀ pos n bytes, dev.read pos n = .ok bytes → bytes.length = n) (pos : BitVec 64)
    (ri : List Byte) (nlen : Nat) (haops : (newInode pos ri nlen).aops = true)
    (encryptedFileName file : Option (List Byte)) (index : BitVec 64) (stale : StalePage)
    (err : Bool) :
    ReadsData dev encryptedFileName file (newInode pos ri nlen) index stale err ↔
      ((pageOffset index).slt ((riSize ri).setWidth 64) →
        file ≠ none ∧ encryptedFileName ≠ none) := by
  rw [← newInode_size haops, ← fillsPage_iff hread]
  refine ⟨fun h => h.fills, fun h => ⟨h, ?_⟩⟩
  rintro rfl rfl
  exact pageGetLink_of_fills h

/-- A regular file that is open under another name than the encrypted one. -/
theorem aops_readable_file : ReadsData linkMount.dev.toDev (some [98]) (some [97])
    (newInode 64 (linkImage.bytes 64 romfhSize) 1) 0 zeroPage false :=
  (aops_readable_iff linkMount.dev.toDev linkMount_read 64 (linkImage.bytes 64 romfhSize) 1
    (by decide +kernel) (some [98]) (some [97]) 0 zeroPage false).mpr fun _ => ⟨by simp, by simp⟩

/-- A symbolic link at 64 with the target x. -/
def symlinkImage : Image
  | 67 => 3
  | 75 => 1
  | 80 => 97
  | 96 => 120
  | _ => 0

/-- The link cannot be followed, with all parameters given. -/
theorem aops_readable_fails :
    diskInode (symlinkImage.dev 112) 64 = some ⟨0o120777#16, 1, 96, true⟩ ∧
    (symlinkImage.dev 112).read 96 1 = .ok [120] ∧
    pageGetLink (symlinkImage.dev 112) (some [98]) ⟨0o120777#16, 1, 96, true⟩ zeroPage false =
      .oops ∧
    ¬ ReadsData (symlinkImage.dev 112) (some [98]) none ⟨0o120777#16, 1, 96, true⟩ 0 zeroPage
      false := by
  have hin : (pageOffset 0).slt 1 = true := by decide
  refine ⟨by decide +kernel, rfl, ?_, fun h => ?_⟩
  · rw [pageGetLink, readpage_oops hin (Or.inl rfl)]
    rfl
  · have hfills := h.fills
    rw [FillsPage, readpage_oops hin (Or.inl rfl)] at hfills
    simp at hfills

end LinuxKernel.Romfs
