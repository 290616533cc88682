import LinuxKernel.Romfs.Super
import Mathlib.Logic.Function.Basic

/-!
# romfs — `romfs_iget` and `romfs_lookup`

* **The inode cache.** `iget_locked` returns one inode for a position as long as the
  inode is alive. An inode is therefore named by its number, the position of its header,
  and `Icache` holds what is stored in it.
* **Memory.** A new inode is allocated unless `alloc` is false.
* **Error pointers.** `romfs_iget` returns `ERR_PTR`s; a write through one ends in
  `Exec.oops`, as a `NULL` pointer does.
-/

namespace LinuxKernel.Romfs

def Exec.bind {α β : Type} (x : Exec α) (f : α → Exec β) : Exec β :=
  match x with
  | .done a => f a
  | .oops => .oops
  | .running => .running

@[simp] theorem Exec.done_bind {α β : Type} (a : α) (f : α → Exec β) : (Exec.done a).bind f = f a :=
  rfl
@[simp] theorem Exec.oops_bind {α β : Type} (f : α → Exec β) :
    (Exec.oops : Exec α).bind f = .oops :=
  rfl
@[simp] theorem Exec.running_bind {α β : Type} (f : α → Exec β) :
    (Exec.running : Exec α).bind f = .running := rfl

/-- A call that ends with a value got one from the call it makes. -/
theorem Exec.bind_eq_done {α β : Type} {x : Exec α} {f : α → Exec β} {b : β}
    (h : x.bind f = .done b) : ∃ a, x = .done a ∧ f a = .done b := by
  cases x with
  | done a => exact ⟨a, rfl, h⟩
  | oops => simp at h
  | running => simp at h

theorem Exec.eq_oops_of_bind {α β : Type} {x : Exec α} {f : α → β}
    (h : (x.bind fun a => .done (f a)) = .oops) : x = .oops := by
  cases x with
  | done a => simp at h
  | oops => rfl
  | running => simp at h

/-- `-EIO` -/
def eio : Int := -5
/-- `-ENOMEM` -/
def enomem : Int := -12

/-! ## Inodes -/

/-- `nextfh & ROMFH_EXEC` -/
def romfhExec (nextfh : BitVec 32) : Bool := nextfh &&& 8#32 ≠ 0

/-- `S_IXUGO` -/
def sIxugo : BitVec 16 := 0o111#16
/-- `S_IRWXUGO` -/
def sIrwxugo : BitVec 16 := 0o777#16

def romfsModemap : FileType → BitVec 16
  | .hrd => 0
  | .dir => 0o040644#16
  | .reg => 0o100644#16
  | .sym => 0o120777#16
  | .blk => 0o060600#16
  | .chr => 0o020600#16
  | .sck => 0o140644#16
  | .fif => 0o010644#16

/-- `struct inode` with the `struct romfs_inode_info` around it, as far as
`romfs_lookup` and `romfs_readpage` look at it. -/
structure Inode where
  mode       : BitVec 16
  size       : BitVec 64
  dataoffset : BitVec 64
  -- i_data.a_ops is romfs_aops
  aops       : Bool
  deriving DecidableEq, Repr

/-- The inodes that are alive, by number. -/
abbrev Icache := BitVec 64 → Option Inode

/-- `be32_to_cpu(ri.size)` -/
def riSize (ri : List Byte) : BitVec 32 := be32 ri 8

/-- `i_metasize`; 15 is `ROMFH_PAD`. -/
def metasize (nlen : Nat) : BitVec 64 :=
  BitVec.ofNat 64 (romfhSize + nlen + 1 + 15) &&& romfhMask 64

/-- The part "set up mode and ops" of `romfs_iget`. -/
def newInode (pos : BitVec 64) (ri : List Byte) (nlen : Nat) : Inode :=
  let nextfh := (romfsInode ri).next
  let mode := romfsModemap (fileType nextfh)
  let inode : Inode :=
    { mode := mode
      size := (riSize ri).setWidth 64
      dataoffset := pos + metasize nlen
      aops := false }
  match fileType nextfh with
  | .dir =>
    { inode with
      size := metasize nlen
      mode := if romfhExec nextfh then mode ||| sIxugo else mode }
  | .reg =>
    { inode with
      aops := true
      mode := if romfhExec nextfh then mode ||| sIxugo else mode }
  | .sym => { inode with aops := true, mode := mode ||| sIrwxugo }
  -- init_special_inode
  | _ => inode

/-! ## `romfs_iget` -/

/-- The loop over hard links ends with the first header that is not one. -/
def followLinks (dev : Dev) : Nat → BitVec 64 → Exec (Except Int (BitVec 64 × List Byte))
  | 0, _ => .running
  | fuel + 1, pos =>
    match dev.read pos romfhSize with
    | .error e => .done (.error e)
    | .ok ri =>
      if fileType (romfsInode ri).next ≠ .hrd then .done (.ok (pos, ri))
      else followLinks dev fuel (((romfsInode ri).spec &&& romfhMask 32).setWidth 64)

/-- `iget_locked`, and the new inode filled in. -/
def igetLocked (alloc : Bool) (cache : Icache) (pos : BitVec 64) (ri : List Byte) (nlen : Nat) :
    Icache × Except Int (BitVec 64) :=
  match cache pos with
  | some _ => (cache, .ok pos)
  | none =>
    if alloc then (Function.update cache pos (some (newInode pos ri nlen)), .ok pos)
    else (cache, .error enomem)

def romfsIget (dev : Dev) (alloc : Bool) (fuel : Nat) (cache : Icache) (pos : BitVec 64) :
    Exec (Icache × Except Int (BitVec 64)) :=
  (followLinks dev fuel pos).bind fun
    | .error e => .done (cache, .error e)
    | .ok (pos, ri) =>
      match dev.strnlen (pos + BitVec.ofNat 64 romfhSize) romfsMaxfn with
      | .error _ => .done (cache, .error eio)
      | .ok nlen => .done (igetLocked alloc cache pos ri nlen)

/-! ## `romfs_lookup` -/

/-- The device with the comparison that only `romfs_lookup` uses. -/
structure LookupDev extends Dev where
  -- romfs_dev_strcmp: 1 if the name at a position is the given one
  strcmp : BitVec 64 → List Byte → Except Int Nat

/-- An error pointer, or what `d_splice_alias` is called with. -/
inductive LookupResult
  | error (e : Int)
  | negative
  | inode (ino : BitVec 64)
  deriving DecidableEq, Repr

def LookupResult.ofIget : Except Int (BitVec 64) → LookupResult
  | .error e => .error e
  | .ok ino => .inode ino

/-- `inode->i_mode |= S_IXUGO` -/
def Icache.addExec (cache : Icache) (ino : BitVec 64) : Icache :=
  Function.update cache ino ((cache ino).map fun i => { i with mode := i.mode ||| sIxugo })

/-- The header at offset has the name; "Hard link handling" comes first. -/
def lookupMatched (dev : LookupDev) (execFileName : Option (List Byte)) (alloc : Bool) (links : Nat)
    (name : List Byte) (offset : BitVec 64) (ri : RomfsInode) (cache : Icache) :
    Exec (Icache × LookupResult) :=
  let offset :=
    if fileType ri.next = .hrd then (ri.spec &&& romfhMask 32).setWidth 64 else offset
  (romfsIget dev.toDev alloc links cache offset).bind fun (cache, inode) =>
    match execFileName with
    | none => .oops
    | some exec =>
      if strcmpEq exec name then
        match inode with
        | .error _ => .oops
        | .ok ino => .done (cache.addExec ino, .inode ino)
      else .done (cache, .ofIget inode)

def lookupLoop (dev : LookupDev) (execFileName : Option (List Byte)) (alloc : Bool) (links : Nat)
    (name : List Byte) (cache : Icache) : Nat → BitVec 64 → Exec (Icache × LookupResult)
  | 0, _ => .running
  | fuel + 1, offset =>
    if offset = 0 ∨ dev.maxsize ≤ offset then .done (cache, .negative)
    else
      match dev.read offset romfhSize with
      | .error e => .done (cache, .error e)
      | .ok ri =>
        match dev.strcmp (offset + BitVec.ofNat 64 romfhSize) name with
        | .error e => .done (cache, .error e)
        | .ok ret =>
          if ret = 1 then
            lookupMatched dev execFileName alloc links name offset (romfsInode ri) cache
          else
            lookupLoop dev execFileName alloc links name cache fuel
              (((romfsInode ri).next &&& romfhMask 32).setWidth 64)

/-- `romfs_lookup` of `name` in the directory with number `dir`. The loop over the
headers and the one over hard links make at most `fuel` rounds each. -/
def romfsLookup (dev : LookupDev) (execFileName : Option (List Byte)) (alloc : Bool) (fuel : Nat)
    (cache : Icache) (dir : BitVec 64) (name : List Byte) : Exec (Icache × LookupResult) :=
  match dev.read (dir &&& romfhMask 64) romfhSize with
  | .error e => .done (cache, .error e)
  | .ok ri =>
    lookupLoop dev execFileName alloc fuel name cache fuel
      (((romfsInode ri).spec &&& romfhMask 32).setWidth 64)

/-! ## The walk and what is done at its end -/

/-- The loop of `romfs_lookup` up to the header with the name. -/
def findEntry (dev : LookupDev) (name : List Byte) :
    Nat → BitVec 64 → Exec (Except Int (Option (BitVec 64 × RomfsInode)))
  | 0, _ => .running
  | fuel + 1, offset =>
    if offset = 0 ∨ dev.maxsize ≤ offset then .done (.ok none)
    else
      match dev.read offset romfhSize with
      | .error e => .done (.error e)
      | .ok ri =>
        match dev.strcmp (offset + BitVec.ofNat 64 romfhSize) name with
        | .error e => .done (.error e)
        | .ok ret =>
          if ret = 1 then .done (.ok (some (offset, romfsInode ri)))
          else findEntry dev name fuel (((romfsInode ri).next &&& romfhMask 32).setWidth 64)

theorem lookupLoop_eq (dev : LookupDev) (execFileName : Option (List Byte)) (alloc : Bool)
    (links : Nat) (name : List Byte) (cache : Icache) (fuel : Nat) (offset : BitVec 64) :
    lookupLoop dev execFileName alloc links name cache fuel offset =
      (findEntry dev name fuel offset).bind fun
        | .error e => .done (cache, .error e)
        | .ok none => .done (cache, .negative)
        | .ok (some (offset, ri)) =>
          lookupMatched dev execFileName alloc links name offset ri cache := by
  induction fuel generalizing offset with
  | zero => rfl
  | succ fuel ih =>
    rw [lookupLoop, findEntry]
    split
    · rfl
    · cases dev.read offset romfhSize with
      | error e => rfl
      | ok ri =>
        dsimp only
        cases dev.strcmp (offset + BitVec.ofNat 64 romfhSize) name with
        | error e => rfl
        | ok ret =>
          dsimp only
          split
          · rfl
          · exact ih _

end LinuxKernel.Romfs
