import Mathlib.Data.List.Basic

/-!
# romfs — `super.c`

`romfs_readdir`, on a 64-bit kernel: `unsigned long` and `loff_t` have 64 bits, `int`
has 32.

* **The device.** `romfs_dev_read` and `romfs_dev_strnlen` are in `storage.c`, which is
  not in the tree; they are the fields of `Dev`.
* **The reader.** `dir_emit` hands an entry to the caller of `readdir`, which takes a
  number of entries and then refuses.
* **Endless loops.** The loop over the headers of a directory runs for at most `fuel`
  rounds here; `Exec.running` says that it needs more.
-/

namespace LinuxKernel.Romfs

abbrev Byte := BitVec 8

/-! ## On-disk format, `linux/romfs_fs.h` -/

/-- `ROMFH_SIZE` -/
def romfhSize : Nat := 16
/-- `ROMFS_MAXFN` -/
def romfsMaxfn : Nat := 128

/-- `ROMFH_MASK`, as wide as the other operand. -/
def romfhMask (w : Nat) : BitVec w := ~~~(BitVec.ofNat w 15)

/-- `nextfh & ROMFH_TYPE` -/
inductive FileType
  | hrd | dir | reg | sym | blk | chr | sck | fif
  deriving DecidableEq, Repr

def fileType (nextfh : BitVec 32) : FileType :=
  match (nextfh &&& 7#32).toNat with
  | 0 => .hrd
  | 1 => .dir
  | 2 => .reg
  | 3 => .sym
  | 4 => .blk
  | 5 => .chr
  | 6 => .sck
  | _ => .fif

/-- `DT_UNKNOWN` and so on. -/
inductive DType
  | unknown | dir | reg | lnk | blk | chr | sock | fifo
  deriving DecidableEq, Repr

def romfsDtypeTable : FileType → DType
  | .hrd => .unknown
  | .dir => .dir
  | .reg => .reg
  | .sym => .lnk
  | .blk => .blk
  | .chr => .chr
  | .sck => .sock
  | .fif => .fifo

/-- `be32_to_cpu` of the four bytes at i. -/
def be32 (buf : List Byte) (i : Nat) : BitVec 32 :=
  buf.getD i 0 ++ buf.getD (i + 1) 0 ++ buf.getD (i + 2) 0 ++ buf.getD (i + 3) 0

/-- `struct romfs_inode` in the byte order of the cpu, without `size` and
`checksum`, which `romfs_readdir` does not look at. -/
structure RomfsInode where
  next : BitVec 32
  spec : BitVec 32
  deriving DecidableEq, Repr

def romfsInode (buf : List Byte) : RomfsInode := { next := be32 buf 0, spec := be32 buf 4 }

/-- The string in a buffer. -/
def cstr (buf : List Byte) : List Byte := buf.takeWhile (· ≠ 0)

/-- `strcmp(a, b) == 0` -/
def strcmpEq (a b : List Byte) : Bool := cstr a == cstr b

/-! ## The surroundings -/

/-- The device of a super block; errors are the negative values returned. -/
structure Dev where
  -- romfs_maxsize
  maxsize : BitVec 64
  read    : BitVec 64 → Nat → Except Int (List Byte)
  strnlen : BitVec 64 → Nat → Except Int Nat

/-- How a call ends: with a value, in a `NULL` pointer, or not within the rounds
looked at. -/
inductive Exec (α : Type)
  | done (a : α)
  | oops
  | running
  deriving DecidableEq, Repr

/-- What `dir_emit` passes on, the offset in `ctx->pos` included. -/
structure Dirent where
  name : List Byte
  pos  : BitVec 64
  ino  : BitVec 64
  type : DType
  deriving DecidableEq, Repr

/-- `struct dir_context` with its actor: the entries it has taken, and how many more
it takes. -/
structure DirContext where
  pos     : BitVec 64
  room    : Nat
  entries : List Dirent
  deriving DecidableEq, Repr

/-- The actor takes the entry, or nothing is returned. -/
def dirEmit (ctx : DirContext) (name : List Byte) (ino : BitVec 64) (type : DType) :
    Option DirContext :=
  match ctx.room with
  | 0 => none
  | n + 1 => some { ctx with room := n, entries := ctx.entries ++ [⟨name, ctx.pos, ino, type⟩] }

/-! ## `romfs_readdir` -/

/-- The part "Fetch inode info": the header at an offset and the name behind it. -/
def fetchEntry (dev : Dev) (offset : BitVec 64) : Except Int (RomfsInode × List Byte) :=
  match dev.read offset romfhSize with
  | .error e => .error e
  | .ok ri =>
    match dev.strnlen (offset + BitVec.ofNat 64 romfhSize) (romfsMaxfn - 1) with
    | .error e => .error e
    | .ok j =>
      match dev.read (offset + BitVec.ofNat 64 romfhSize) j with
      | .error e => .error e
      | .ok fsname => .ok (romfsInode ri, fsname)

/-- `nextfh` is an `int`: its upper half is extended with the sign. -/
def readdirLoop (dev : Dev) (hidedFileName : Option (List Byte)) :
    Nat → BitVec 64 → DirContext → Exec DirContext
  | 0, _, _ => .running
  | fuel + 1, offset, ctx =>
    if offset = 0 ∨ dev.maxsize ≤ offset then .done { ctx with pos := dev.maxsize }
    else
      let ctx := { ctx with pos := offset }
      match fetchEntry dev offset with
      | .error _ => .done ctx
      | .ok (ri, fsname) =>
        let nextfh := ri.next
        match hidedFileName with
        | none => .oops
        | some hided =>
          if strcmpEq fsname hided then
            readdirLoop dev hidedFileName fuel ((nextfh &&& romfhMask 32).signExtend 64) ctx
          else
            let ino := if fileType nextfh = .hrd then ri.spec else offset.setWidth 32
            match dirEmit ctx fsname (ino.signExtend 64) (romfsDtypeTable (fileType nextfh)) with
            | none => .done ctx
            | some ctx =>
              readdirLoop dev hidedFileName fuel ((nextfh &&& romfhMask 32).signExtend 64) ctx

/-- Where a call starts: at `ctx->pos`, or at the first header of the directory. -/
def startOffset (dev : Dev) (ino pos : BitVec 64) : Except Int (BitVec 64) :=
  if pos = 0 then
    match dev.read (ino &&& romfhMask 64) romfhSize with
    | .error e => .error e
    | .ok ri => .ok (((romfsInode ri).spec &&& romfhMask 32).setWidth 64)
  else .ok pos

/-- `romfs_readdir` for the directory with number `ino`. It returns 0 in all cases,
failed reads included. -/
def romfsReaddir (dev : Dev) (hidedFileName : Option (List Byte)) (fuel : Nat)
    (ino : BitVec 64) (ctx : DirContext) : Exec DirContext :=
  match startOffset dev ino ctx.pos with
  | .error _ => .done ctx
  | .ok offset => readdirLoop dev hidedFileName fuel offset ctx

end LinuxKernel.Romfs
