import LinuxKernel.Romfs.Params
import LinuxKernel.Lib.Run

/-!
# romfs — a mounted file system

What the VFS keeps between calls: one inode for each position, and one page cache for each
inode. A file is opened with `romfs_lookup`, and a page is read with `romfs_readpage` unless the
cache has it up to date. Inodes and pages can be given up at any time.

* `next`      — one operation on the mounted file system.
* `History`   — what the operations made so far were, told by names only.
* `InodesCoherent`, `Coherent` — the caches hold what the history says.
-/

namespace LinuxKernel.Romfs

open LinuxKernel.Lib

/-- The file system as it is mounted, with the parameters that matter here. -/
structure Mount where
  dev       : LookupDev
  encrypted : List Byte
  exec      : List Byte
  fuel      : Nat

/-- The caches: inodes, and the pages that are up to date by inode and index. -/
structure Vfs where
  icache : Icache
  pages  : BitVec 64 → BitVec 64 → Option (List Byte)

def Vfs.init : Vfs := { icache := fun _ => none, pages := fun _ _ => none }

/-- A page before it is read: it holds anything. -/
abbrev StalePage := { buf : List Byte // buf.length = pageSize }

inductive VfsOp
  | lookup (dir : BitVec 64) (name : List Byte)
  -- open the file and read one page of it
  | read (dir : BitVec 64) (name : List Byte) (index : BitVec 64) (stale : StalePage)
  -- give up an inode with its pages, or one page
  | evict (ino : BitVec 64)
  | reclaim (ino index : BitVec 64)

namespace Mount

variable (m : Mount)

/-- A successful lookup. -/
def openFile (s : Vfs) (dir : BitVec 64) (name : List Byte) : Option (Vfs × BitVec 64) :=
  match romfsLookup m.dev (some m.exec) true m.fuel s.icache dir name with
  | .done (cache, .inode ino) => some ({ s with icache := cache }, ino)
  | _ => none

/-- Only a page that is not up to date is read. -/
def readCached (s : Vfs) (ino : BitVec 64) (name : List Byte) (index : BitVec 64)
    (stale : StalePage) : Option Vfs :=
  match s.pages ino index, s.icache ino with
  | some _, _ => some s
  | none, none => none
  | none, some inode =>
    match romfsReadpage m.dev.toDev (some m.encrypted) true (some name) inode index
        ⟨stale.val, false, false⟩ with
    | .done (_, page) =>
      if page.uptodate then
        some { s with pages :=
          Function.update s.pages ino (Function.update (s.pages ino) index (some page.buf)) }
      else some s
    | _ => none

def next (s : Vfs) : VfsOp → Option Vfs
  | .lookup dir name => (m.openFile s dir name).map (·.1)
  | .read dir name index stale =>
    (m.openFile s dir name).bind fun (s, ino) => m.readCached s ino name index stale
  | .evict ino =>
    some { icache := Function.update s.icache ino none
           pages := Function.update s.pages ino fun _ => none }
  | .reclaim ino index =>
    some { s with pages :=
      Function.update s.pages ino (Function.update (s.pages ino) index none) }

theorem readCached_icache {s t : Vfs} {ino : BitVec 64} {name : List Byte} {index : BitVec 64}
    {stale : StalePage} (h : m.readCached s ino name index stale = some t) :
    t.icache = s.icache := by
  rw [readCached] at h
  split at h
  · rw [← Option.some.inj h]
  · simp at h
  · split at h
    · split at h
      · rw [← Option.some.inj h]
      · rw [← Option.some.inj h]
    · simp at h

end Mount

/-! ## What the image says -/

/-- The inode that `romfs_iget` makes for the header at a position. -/
def diskInode (dev : Dev) (pos : BitVec 64) : Option Inode :=
  match dev.read pos romfhSize, dev.strnlen (pos + BitVec.ofNat 64 romfhSize) romfsMaxfn with
  | .ok ri, .ok nlen => some (newInode pos ri nlen)
  | _, _ => none

/-- The position a name in a directory stands for. -/
def resolve (dev : LookupDev) (fuel : Nat) (dir : BitVec 64) (name : List Byte) :
    Option (BitVec 64) :=
  match dev.read (dir &&& romfhMask 64) romfhSize with
  | .error _ => none
  | .ok ri =>
    match findEntry dev name fuel (((romfsInode ri).spec &&& romfhMask 32).setWidth 64) with
    | .done (.ok (some (offset, entry))) =>
      match followLinks dev.toDev fuel (igetStart offset entry) with
      | .done (.ok (pos, _)) => some pos
      | _ => none
    | _ => none

/-- `i_mode` with or without `S_IXUGO` added. -/
def Inode.withExec (i : Inode) (b : Bool) : Inode :=
  if b then { i with mode := i.mode ||| sIxugo } else i

/-- What page `index` of an inode should hold: the bytes of the file, encrypted or not, and
zeros. Nothing if the device cannot read it. -/
def pageBytes (dev : Dev) (inode : Inode) (index : BitVec 64) (encrypted : Bool) :
    Option (List Byte) :=
  if (pageOffset index).slt inode.size then
    let fillsize := fillsizeOf inode.size (pageOffset index)
    match dev.read (inode.dataoffset + pageOffset index) fillsize with
    | .error _ => none
    | .ok bytes =>
      some ((if encrypted then bytes.map (· + 1) else bytes) ++
        List.replicate (pageSize - fillsize) 0)
  else some (List.replicate pageSize 0)

/-- How `romfs_readpage` leaves a page for which the device reads these bytes, or nothing. -/
def pageResult (err : Bool) : Option (List Byte) → Int × Page
  | some bytes => (0, ⟨bytes, true, err⟩)
  | none => (eio, ⟨List.replicate pageSize 0, false, true⟩)

/-! ## What a call does to the caches -/

section Calls

theorem followLinks_eq_ok {dev : Dev} {fuel : Nat} {off pos : BitVec 64} {ri : List Byte}
    (h : followLinks dev fuel off = .done (.ok (pos, ri))) : dev.read pos romfhSize = .ok ri := by
  induction fuel generalizing off with
  | zero => simp [followLinks] at h
  | succ fuel ih =>
    rw [followLinks] at h
    cases hread : dev.read off romfhSize with
    | error e =>
      rw [hread] at h
      simp at h
    | ok ri' =>
      rw [hread] at h
      dsimp only at h
      split at h
      · simp only [Exec.done.injEq, Except.ok.injEq, Prod.mk.injEq] at h
        obtain ⟨rfl, rfl⟩ := h
        exact hread
      · exact ih h

/-- **`romfs_iget`.** It returns the position the links lead to; the inode there is as it
was, or as it is on disk. -/
theorem romfsIget_eq_ok {dev : Dev} {alloc : Bool} {fuel : Nat} {cache cache' : Icache}
    {pos ino : BitVec 64} (h : romfsIget dev alloc fuel cache pos = .done (cache', .ok ino)) :
    ∃ d ri, followLinks dev fuel pos = .done (.ok (ino, ri)) ∧ diskInode dev ino = some d ∧
      cache' = Function.update cache ino (some ((cache ino).getD d)) := by
  obtain ⟨last, hlast, h⟩ := Exec.bind_eq_done h
  rcases last with e | ⟨p, ri⟩
  · simp at h
  · dsimp only at h
    cases hlen : dev.strnlen (p + BitVec.ofNat 64 romfhSize) romfsMaxfn with
    | error e =>
      rw [hlen] at h
      simp at h
    | ok nlen =>
      rw [hlen] at h
      simp only [igetLocked, Exec.done.injEq] at h
      have hdisk : diskInode dev p = some (newInode p ri nlen) := by
        rw [diskInode, followLinks_eq_ok hlast, hlen]
      cases hcache : cache p with
      | some i =>
        rw [hcache] at h
        simp only [Prod.mk.injEq, Except.ok.injEq] at h
        obtain ⟨rfl, rfl⟩ := h
        refine ⟨_, ri, hlast, hdisk, ?_⟩
        rw [hcache, Option.getD_some, ← hcache, Function.update_eq_self]
      | none =>
        rw [hcache] at h
        cases alloc with
        | false => simp at h
        | true =>
          simp only [if_true, Prod.mk.injEq, Except.ok.injEq] at h
          obtain ⟨rfl, rfl⟩ := h
          refine ⟨_, ri, hlast, hdisk, ?_⟩
          rw [hcache, Option.getD_none]

/-- **`romfs_lookup`.** A successful one returns the position of the name, and leaves
there the inode as it was or is on disk, with the execute bits added if the name is that of
the executable file. -/
theorem romfsLookup_eq_inode {dev : LookupDev} {exec : List Byte} {alloc : Bool} {fuel : Nat}
    {cache cache' : Icache} {dir ino : BitVec 64} {name : List Byte}
    (h : romfsLookup dev (some exec) alloc fuel cache dir name = .done (cache', .inode ino)) :
    resolve dev fuel dir name = some ino ∧ ∃ d, diskInode dev.toDev ino = some d ∧
      cache' = Function.update cache ino
        (some (((cache ino).getD d).withExec (strcmpEq exec name))) := by
  rw [romfsLookup] at h
  rw [resolve]
  cases hdir : dev.read (dir &&& romfhMask 64) romfhSize with
  | error e =>
    rw [hdir] at h
    simp at h
  | ok ri =>
    rw [hdir] at h
    dsimp only at h ⊢
    rw [lookupLoop_eq] at h
    -- the walk over the entries has ended, at an error, at the end of the chain or at a match
    obtain ⟨found, hfound, h⟩ := Exec.bind_eq_done h
    rw [hfound]
    rcases found with e | _ | ⟨offset, entry⟩
    · simp at h
    · simp at h
    · obtain ⟨⟨cache₁, inode⟩, higet, h⟩ := Exec.bind_eq_done (h : lookupMatched .. = _)
      cases inode with
      | error e =>
        dsimp only at h
        split at h <;> simp [LookupResult.ofIget] at h
      | ok ino' =>
        -- `romfs_iget` has followed the hard links to `ino'`
        obtain ⟨d, ri', hlinks, hdisk, rfl⟩ := romfsIget_eq_ok higet
        have hlinks : followLinks dev.toDev fuel (igetStart offset entry) =
            .done (.ok (ino', ri')) :=
          hlinks
        dsimp only at h ⊢
        rw [hlinks]
        cases hexec : strcmpEq exec name with
        | true =>
          rw [hexec] at h
          simp only [if_true, Exec.done.injEq, Prod.mk.injEq, LookupResult.inode.injEq] at h
          obtain ⟨rfl, rfl⟩ := h
          refine ⟨rfl, d, hdisk, ?_⟩
          rw [Icache.addExec, Function.update_self, Function.update_idem, Option.map_some]
          rfl
        | false =>
          rw [hexec] at h
          simp only [Bool.false_eq_true, if_false, LookupResult.ofIget, Exec.done.injEq,
            Prod.mk.injEq, LookupResult.inode.injEq] at h
          obtain ⟨rfl, rfl⟩ := h
          exact ⟨rfl, d, hdisk, rfl⟩

theorem finishPage_ok (bytes rest : List Byte) (err : Bool)
    (hlen : bytes.length + rest.length = pageSize) :
    finishPage 0 bytes.length ⟨bytes ++ rest, false, err⟩ =
      (0, ⟨bytes ++ List.replicate (pageSize - bytes.length) 0, true, err⟩) := by
  rw [finishPage, if_pos rfl]
  split
  · rw [List.take_left']
    rfl
  · -- a whole page
    have hnil : rest = [] := List.length_eq_zero_iff.mp (by omega)
    rw [hnil, show pageSize - bytes.length = 0 by omega]
    rfl

theorem encrypt_append (bytes rest : List Byte) (err : Bool) :
    encrypt bytes.length ⟨bytes ++ rest, false, err⟩ = ⟨bytes.map (· + 1) ++ rest, false, err⟩ := by
  rw [encrypt, List.take_left', List.drop_left']
  · rfl
  · rfl

/-- **`romfs_readpage`.** On a device that reads as much as it is asked for, the page is up
to date with the bytes of the file; or it is in error, and zero. What it held before is gone. -/
theorem romfsReadpage_eq {dev : Dev}
    (hread : ∀ pos n bytes, dev.read pos n = .ok bytes → bytes.length = n)
    (encrypted name : List Byte) (inode : Inode) (index : BitVec 64) (stale : StalePage)
    (err : Bool) :
    romfsReadpage dev (some encrypted) true (some name) inode index ⟨stale.val, false, err⟩ =
      .done (pageResult err (pageBytes dev inode index (strcmpEq name encrypted))) := by
  rw [romfsReadpage, pageBytes, if_pos rfl]
  split
  · rw [fillPage]
    dsimp only
    cases hdev : dev.read (inode.dataoffset + pageOffset index)
        (fillsizeOf inode.size (pageOffset index)) with
    | error e =>
      dsimp only
      rw [if_neg (by simp)]
      rfl
    | ok bytes =>
      dsimp only
      have hlen := hread _ _ _ hdev
      have hle : fillsizeOf inode.size (pageOffset index) ≤ pageSize := Nat.min_le_right ..
      have hrest : (stale.val.drop bytes.length).length = pageSize - bytes.length := by
        rw [List.length_drop, stale.property]
      rw [← hlen] at hle ⊢
      -- the bytes of the file are shifted or kept, what lies behind them becomes zero
      cases hkind : strcmpEq name encrypted with
      | false =>
        rw [if_neg (by simp), finishPage_ok _ _ _ (by omega)]
        rfl
      | true =>
        split
        · rw [encrypt_append]
          have hfin := finishPage_ok (bytes.map (· + 1)) (stale.val.drop bytes.length) err
            (by rw [List.length_map]; omega)
          rw [List.length_map] at hfin
          rw [hfin]
          rfl
        · next hzero =>
          -- nothing was read, so there is nothing to shift
          have hnil : bytes = [] := List.length_eq_zero_iff.mp (by simpa using hzero)
          rw [finishPage_ok _ _ _ (by omega)]
          subst hnil
          rfl
  · -- past the end of the file
    exact congrArg Exec.done (finishPage_ok [] stale.val err (by rw [stale.property]; rfl))

end Calls

/-! ## History -/

/-- What the operations made so far were: whether a live inode was looked up as the executable
file, and whether the first read of a page, since it was last given up, was one of the
encrypted file. -/
structure History where
  marked : BitVec 64 → Bool
  filled : BitVec 64 → BitVec 64 → Option Bool

namespace History

def init : History := { marked := fun _ => false, filled := fun _ _ => none }

variable (h : History)

def looked (ino : BitVec 64) (isExec : Bool) : History :=
  { h with marked := Function.update h.marked ino (h.marked ino || isExec) }

def wasRead (ino index : BitVec 64) (isEncrypted : Bool) : History :=
  { h with
    filled := Function.update h.filled ino
      (Function.update (h.filled ino) index (some ((h.filled ino index).getD isEncrypted))) }

@[simp] theorem looked_marked (ino : BitVec 64) (b : Bool) :
    (h.looked ino b).marked = Function.update h.marked ino (h.marked ino || b) := rfl

@[simp] theorem looked_filled (ino : BitVec 64) (b : Bool) : (h.looked ino b).filled = h.filled :=
  rfl

@[simp] theorem wasRead_filled (ino index : BitVec 64) (b : Bool) :
    (h.wasRead ino index b).filled = Function.update h.filled ino
      (Function.update (h.filled ino) index (some ((h.filled ino index).getD b))) := rfl

end History

def Mount.note (m : Mount) (h : History) : VfsOp → History
  | .lookup dir name =>
    match resolve m.dev m.fuel dir name with
    | none => h
    | some ino => h.looked ino (strcmpEq m.exec name)
  | .read dir name index _ =>
    match resolve m.dev m.fuel dir name with
    | none => h
    | some ino =>
      (h.looked ino (strcmpEq m.exec name)).wasRead ino index (strcmpEq name m.encrypted)
  | .evict ino =>
    { marked := Function.update h.marked ino false
      filled := Function.update h.filled ino fun _ => none }
  | .reclaim ino index =>
    { h with filled := Function.update h.filled ino (Function.update (h.filled ino) index none) }

/-- The inodes that are alive are those on disk, with the execute bits the history says. -/
structure InodesCoherent (m : Mount) (s : Vfs) (h : History) : Prop where
  inodes : ∀ ino inode, s.icache ino = some inode →
    ∃ d, diskInode m.dev.toDev ino = some d ∧ inode = d.withExec (h.marked ino)
  dead   : ∀ ino, s.icache ino = none → h.marked ino = false

/-- And the pages hold what was read first. -/
structure Coherent (m : Mount) (s : Vfs) (h : History) : Prop extends InodesCoherent m s h where
  pages : ∀ ino index, s.pages ino index = (h.filled ino index).bind fun b =>
    (diskInode m.dev.toDev ino).bind fun d => pageBytes m.dev.toDev d index b

section Coherence

variable {m : Mount} {s t : Vfs} {h : History} {dir ino : BitVec 64} {name : List Byte}
  {index : BitVec 64} {d : Inode}

theorem Coherent.init (m : Mount) : Coherent m Vfs.init History.init where
  inodes := by simp [Vfs.init]
  dead := fun _ _ => rfl
  pages := fun _ _ => rfl

theorem Inode.withExec_withExec (i : Inode) (a b : Bool) :
    (i.withExec a).withExec b = i.withExec (a || b) := by
  cases a with
  | false => rfl
  | true =>
    cases b with
    | false => rfl
    | true =>
      unfold Inode.withExec
      simp [BitVec.or_assoc]

theorem pageBytes_withExec (dev : Dev) (i : Inode) (b : Bool) (index : BitVec 64) (e : Bool) :
    pageBytes dev (i.withExec b) index e = pageBytes dev i index e := by
  cases b with
  | false => rfl
  | true => rfl

/-- A device that cannot read a page cannot read it for anyone. -/
theorem pageBytes_eq_none {dev : Dev} {b : Bool} (h : pageBytes dev d index b = none) (b' : Bool) :
    pageBytes dev d index b' = none := by
  unfold pageBytes at h ⊢
  split at h
  · next hin =>
    rw [if_pos hin]
    dsimp only at h ⊢
    cases hdev : dev.read (d.dataoffset + pageOffset index)
        (fillsizeOf d.size (pageOffset index)) with
    | error e => rfl
    | ok bytes =>
      rw [hdev] at h
      simp at h
  · simp at h

/-- Opening a file leaves its inode with the execute bits the history gives it. -/
theorem InodesCoherent.openFile (hc : InodesCoherent m s h)
    (hopen : m.openFile s dir name = some (t, ino)) :
    resolve m.dev m.fuel dir name = some ino ∧
    InodesCoherent m t (h.looked ino (strcmpEq m.exec name)) ∧ t.pages = s.pages ∧
    ∃ d, diskInode m.dev.toDev ino = some d ∧
      t.icache ino = some (d.withExec (h.marked ino || strcmpEq m.exec name)) := by
  rw [Mount.openFile] at hopen
  split at hopen
  · next cache ino' hlookup =>
    simp only [Option.some.injEq, Prod.mk.injEq] at hopen
    obtain ⟨rfl, rfl⟩ := hopen
    obtain ⟨hres, d, hdisk, rfl⟩ := romfsLookup_eq_inode hlookup
    -- a cached inode has the marks of earlier lookups, a fresh one has none
    have hino : ((s.icache ino').getD d).withExec (strcmpEq m.exec name) =
        d.withExec (h.marked ino' || strcmpEq m.exec name) := by
      cases hcache : s.icache ino' with
      | none => rw [Option.getD_none, hc.dead _ hcache, Bool.false_or]
      | some i =>
        obtain ⟨d', hdisk', rfl⟩ := hc.inodes _ _ hcache
        obtain rfl := Option.some.inj (hdisk.symm.trans hdisk')
        rw [Option.getD_some, Inode.withExec_withExec]
    refine ⟨hres, ⟨fun i inode hi => ?_, fun i hi => ?_⟩, rfl, d, hdisk, ?_⟩
    · rcases eq_or_ne i ino' with rfl | hne
      · simp only [Function.update_self, Option.some.injEq] at hi
        refine ⟨d, hdisk, ?_⟩
        rw [← hi, hino, History.looked_marked, Function.update_self]
      · simp only [Function.update_of_ne hne] at hi
        rw [History.looked_marked, Function.update_of_ne hne]
        exact hc.inodes i inode hi
    · rcases eq_or_ne i ino' with rfl | hne
      · simp only [Function.update_self, reduceCtorEq] at hi
      · simp only [Function.update_of_ne hne] at hi
        rw [History.looked_marked, Function.update_of_ne hne]
        exact hc.dead i hi
    · rw [← hino]
      exact Function.update_self ..
  · simp at hopen

/-- A page that is not in the cache is read for the first time, or holds nothing. -/
theorem Coherent.pageBytes_missing (hc : Coherent m s h)
    (hdisk : diskInode m.dev.toDev ino = some d)
    (hmissing : s.pages ino index = none) (kind : Bool) :
    pageBytes m.dev.toDev d index kind =
      pageBytes m.dev.toDev d index ((h.filled ino index).getD kind) := by
  have hold := hc.pages ino index
  rw [hdisk, hmissing] at hold
  cases hfill : h.filled ino index with
  | none => rfl
  | some b =>
    rw [hfill, Option.bind_some, Option.bind_some] at hold
    rw [Option.getD_some, ← hold, pageBytes_eq_none hold.symm]

/-- A page is served as it was read first, and the caches apart from it do not change. -/
theorem Coherent.readCached_page
    (hread : ∀ pos n bytes, m.dev.read pos n = .ok bytes → bytes.length = n)
    (hc : Coherent m s h) {b : Bool} (hdisk : diskInode m.dev.toDev ino = some d)
    (hino : s.icache ino = some (d.withExec b)) {stale : StalePage}
    (hcached : m.readCached s ino name index stale = some t) :
    t.icache = s.icache ∧
    t.pages ino index =
      pageBytes m.dev.toDev d index ((h.filled ino index).getD (strcmpEq name m.encrypted)) ∧
    ∀ i k, i ≠ ino ∨ k ≠ index → t.pages i k = s.pages i k := by
  rw [Mount.readCached] at hcached
  cases hpages : s.pages ino index with
  | some p =>
    -- a page in the cache is served as it is
    have hold := hc.pages ino index
    rw [hdisk, hpages] at hold
    rw [hpages] at hcached
    obtain rfl := Option.some.inj hcached
    refine ⟨rfl, ?_, fun _ _ _ => rfl⟩
    cases hfill : h.filled ino index with
    | none =>
      rw [hfill] at hold
      simp at hold
    | some b => rw [hpages, hold, hfill, Option.bind_some, Option.bind_some, Option.getD_some]
  | none =>
    -- a missing page is filled under the name this read uses
    rw [hpages, hino] at hcached
    dsimp only at hcached
    rw [romfsReadpage_eq hread, pageBytes_withExec] at hcached
    rw [← hc.pageBytes_missing hdisk hpages]
    cases hbytes : pageBytes m.dev.toDev d index (strcmpEq name m.encrypted) with
    | some bytes =>
      rw [hbytes] at hcached
      obtain rfl := Option.some.inj hcached
      refine ⟨rfl, ?_, fun i k hne => ?_⟩
      · dsimp only
        rw [Function.update_self, Function.update_self]
      · dsimp only
        rcases eq_or_ne i ino with rfl | hi
        · rw [Function.update_self, Function.update_of_ne (hne.resolve_left (not_not.mpr rfl))]
        · rw [Function.update_of_ne hi]
    | none =>
      rw [hbytes] at hcached
      obtain rfl := Option.some.inj hcached
      exact ⟨rfl, hpages, fun _ _ _ => rfl⟩

theorem Coherent.readCached
    (hread : ∀ pos n bytes, m.dev.read pos n = .ok bytes → bytes.length = n)
    (hc : Coherent m s h) {b : Bool} (hdisk : diskInode m.dev.toDev ino = some d)
    (hino : s.icache ino = some (d.withExec b)) {stale : StalePage}
    (hcached : m.readCached s ino name index stale = some t) :
    Coherent m t (h.wasRead ino index (strcmpEq name m.encrypted)) ∧
    t.pages ino index =
      pageBytes m.dev.toDev d index ((h.filled ino index).getD (strcmpEq name m.encrypted)) := by
  obtain ⟨hicache, hpage, hother⟩ := hc.readCached_page hread hdisk hino hcached
  refine ⟨⟨⟨hicache ▸ hc.inodes, hicache ▸ hc.dead⟩, fun i k => ?_⟩, hpage⟩
  rw [History.wasRead_filled]
  rcases eq_or_ne i ino with rfl | hi
  · rw [Function.update_self]
    rcases eq_or_ne k index with rfl | hk
    · rw [Function.update_self, hpage, Option.bind_some, hdisk, Option.bind_some]
    · rw [Function.update_of_ne hk, hother _ _ (Or.inr hk), hc.pages]
  · rw [Function.update_of_ne hi, hother _ _ (Or.inl hi), hc.pages]

/-- **Every operation** keeps the inodes coherent with the history. -/
theorem InodesCoherent.next (hc : InodesCoherent m s h) {op : VfsOp}
    (hnext : m.next s op = some t) :
    InodesCoherent m t (m.note h op) := by
  cases op with
  | lookup dir name =>
    obtain ⟨⟨s', ino⟩, hopen, rfl⟩ := Option.map_eq_some_iff.mp hnext
    obtain ⟨hres, hc', -⟩ := hc.openFile hopen
    rw [Mount.note, hres]
    exact hc'
  | read dir name index stale =>
    obtain ⟨⟨s', ino⟩, hopen, hcached⟩ := Option.bind_eq_some_iff.mp hnext
    obtain ⟨hres, hc', -⟩ := hc.openFile hopen
    rw [Mount.note, hres]
    have hicache := m.readCached_icache hcached
    exact ⟨hicache ▸ hc'.inodes, hicache ▸ hc'.dead⟩
  | evict ino =>
    obtain rfl := Option.some.inj hnext
    refine ⟨fun i inode hi => ?_, fun i hi => ?_⟩
    · rcases eq_or_ne i ino with rfl | hne
      · simp only [Function.update_self, reduceCtorEq] at hi
      · simp only [Function.update_of_ne hne] at hi
        simp only [Mount.note, Function.update_of_ne hne]
        exact hc.inodes i inode hi
    · rcases eq_or_ne i ino with rfl | hne
      · simp only [Mount.note, Function.update_self]
      · simp only [Function.update_of_ne hne] at hi
        simp only [Mount.note, Function.update_of_ne hne]
        exact hc.dead i hi
  | reclaim ino index =>
    obtain rfl := Option.some.inj hnext
    exact ⟨hc.inodes, hc.dead⟩

/-- Opening a file reads no page. -/
theorem Coherent.openFile (hc : Coherent m s h) (hopen : m.openFile s dir name = some (t, ino)) :
    Coherent m t (h.looked ino (strcmpEq m.exec name)) := by
  obtain ⟨-, hc', hpages, -⟩ := hc.toInodesCoherent.openFile hopen
  exact ⟨hc', fun i k => by rw [hpages, History.looked_filled, hc.pages]⟩

/-- **Every operation** keeps the pages coherent, on a device that reads as much as it is
asked for. -/
theorem Coherent.next
    (hread : ∀ pos n bytes, m.dev.read pos n = .ok bytes → bytes.length = n)
    (hc : Coherent m s h) {op : VfsOp} (hnext : m.next s op = some t) :
    Coherent m t (m.note h op) := by
  cases op with
  | lookup dir name =>
    obtain ⟨⟨s', ino⟩, hopen, rfl⟩ := Option.map_eq_some_iff.mp hnext
    rw [Mount.note, (hc.toInodesCoherent.openFile hopen).1]
    exact hc.openFile hopen
  | read dir name index stale =>
    obtain ⟨⟨s', ino⟩, hopen, hcached⟩ := Option.bind_eq_some_iff.mp hnext
    obtain ⟨hres, -, -, d, hdisk, hino⟩ := hc.toInodesCoherent.openFile hopen
    rw [Mount.note, hres]
    exact ((hc.openFile hopen).readCached hread hdisk hino hcached).1
  | evict ino =>
    refine ⟨hc.toInodesCoherent.next hnext, fun i k => ?_⟩
    obtain rfl := Option.some.inj hnext
    rcases eq_or_ne i ino with rfl | hne
    · simp only [Mount.note, Function.update_self, Option.bind_none]
    · simp only [Mount.note, Function.update_of_ne hne]
      exact hc.pages i k
  | reclaim ino index =>
    refine ⟨hc.toInodesCoherent.next hnext, fun i k => ?_⟩
    obtain rfl := Option.some.inj hnext
    rcases eq_or_ne i ino with rfl | hne
    · rcases eq_or_ne k index with rfl | hk
      · simp only [Mount.note, Function.update_self, Option.bind_none]
      · simp only [Mount.note, Function.update_self, Function.update_of_ne hk]
        exact hc.pages i k
    · simp only [Mount.note, Function.update_of_ne hne]
      exact hc.pages i k

end Coherence

end LinuxKernel.Romfs
