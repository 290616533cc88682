import LinuxKernel.Romfs.Lookup

/-!
# romfs — `romfs_readpage`

The page is mapped with `kmap`, filled from the device, encrypted if the file was opened
under `encrypted_file_name`, and padded with zeros.
-/

namespace LinuxKernel.Romfs

/-- `PAGE_SIZE` -/
def pageSize : Nat := 4096

/-- `struct page`: the mapped bytes and the two flags that are set here. -/
structure Page where
  buf      : List Byte
  uptodate : Bool
  error    : Bool
  deriving DecidableEq, Repr

/-- `page_offset(page)` -/
def pageOffset (index : BitVec 64) : BitVec 64 := index <<< 12

/-- `size > PAGE_SIZE ? PAGE_SIZE : size` -/
def fillsizeOf (size offset : BitVec 64) : Nat := min (size - offset).toNat pageSize

/-- The read from the device: the value of `ret`, `fillsize` and the page after it. -/
def fillPage (dev : Dev) (inode : Inode) (index : BitVec 64) (page : Page) : Int × Nat × Page :=
  let offset := pageOffset index
  let fillsize := fillsizeOf inode.size offset
  match dev.read (inode.dataoffset + offset) fillsize with
  | .error _ => (eio, 0, { page with error := true })
  | .ok bytes => (0, fillsize, { page with buf := bytes ++ page.buf.drop fillsize })

/-- `tmp_buf[tmp] += 1` for the first `fillsize` bytes. -/
def encrypt (fillsize : Nat) (page : Page) : Page :=
  { page with buf := (page.buf.take fillsize).map (· + 1) ++ page.buf.drop fillsize }

/-- The `memset`, and `SetPageUptodate` if nothing failed. -/
def finishPage (ret : Int) (fillsize : Nat) (page : Page) : Int × Page :=
  let page :=
    if fillsize < pageSize then
      { page with buf := page.buf.take fillsize ++ List.replicate (pageSize - fillsize) 0 }
    else page
  (ret, if ret = 0 then { page with uptodate := true } else page)

/-- `romfs_readpage` for page `index` of `inode`. `file` is the name the file was opened
under, nothing for a `NULL` pointer; `kmapOk` says that `kmap` maps the page. -/
def romfsReadpage (dev : Dev) (encryptedFileName : Option (List Byte)) (kmapOk : Bool)
    (file : Option (List Byte)) (inode : Inode) (index : BitVec 64) (page : Page) :
    Exec (Int × Page) :=
  if kmapOk then
    if (pageOffset index).slt inode.size then
      let (ret, fillsize, page) := fillPage dev inode index page
      match file with
      | none => .oops
      | some name =>
        match encryptedFileName with
        | none => .oops
        | some encrypted =>
          if strcmpEq name encrypted ∧ fillsize ≠ 0 then
            .done (finishPage ret fillsize (encrypt fillsize page))
          else .done (finishPage ret fillsize page)
    else .done (finishPage 0 0 page)
  else .done (enomem, page)

end LinuxKernel.Romfs
