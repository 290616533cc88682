import LinuxKernel.Romfs.Vfs

/-!
# romfs — what earlier operations change

`romfs_readpage` encrypts by the name of the file that is open, and the page goes into the
cache of the inode; `romfs_lookup` adds the execute bits to the inode it found. Both are
kept for the other names of the inode.

* `page_contents_iff`  — a page has the contents for the name it is read under, in all
  reads of a run, iff no read finds a page that a name of the other kind has read first.
* `execute_bits_iff`   — the execute bits follow from the header and the name, in all
  lookups of a run, iff no name finds an inode that the name of the executable file has
  marked.
-/

namespace LinuxKernel.Romfs

open LinuxKernel.Lib

/-! ## Contents -/

/-- The device reads a part of the file for this page. -/
def HoldsBytes (dev : Dev) (inode : Inode) (index : BitVec 64) : Prop :=
  (pageOffset index).slt inode.size ∧
  ∃ bytes, dev.read (inode.dataoffset + pageOffset index)
    (fillsizeOf inode.size (pageOffset index)) = .ok bytes

/-- The reader obtains what the image says for the page and the name. -/
def ContentsRight (m : Mount) (op : VfsOp) (t : Vfs) : Prop :=
  match op with
  | .read dir name index _ => ∀ ino d, resolve m.dev m.fuel dir name = some ino →
    diskInode m.dev.toDev ino = some d →
    t.pages ino index = pageBytes m.dev.toDev d index (strcmpEq name m.encrypted)
  | _ => True

/-- The page was not first read under a name of the other kind, or has nothing of the file. -/
def NotMixed (m : Mount) (h : History) (op : VfsOp) : Prop :=
  match op with
  | .read dir name index _ => ∀ ino d first, resolve m.dev m.fuel dir name = some ino →
    diskInode m.dev.toDev ino = some d → HoldsBytes m.dev.toDev d index →
    h.filled ino index = some first → first = strcmpEq name m.encrypted
  | _ => True

section Contents

variable {m : Mount} {s t : Vfs} {h : History}

theorem fillsizeOf_pos {size offset : BitVec 64} (h : offset.slt size) :
    0 < fillsizeOf size offset := by
  have hne : size ≠ offset := by
    rintro rfl
    simp [BitVec.slt] at h
  have hsub : (size - offset).toNat ≠ 0 := by
    have hs := size.isLt
    have ho := offset.isLt
    rw [ne_eq, ← BitVec.toNat_inj] at hne
    rw [BitVec.toNat_sub]
    omega
  exact Nat.lt_min.mpr ⟨Nat.pos_of_ne_zero hsub, by decide⟩

/-- Encryption changes a page exactly if there is something to encrypt. -/
theorem pageBytes_eq_iff {dev : Dev}
    (hread : ∀ pos n bytes, dev.read pos n = .ok bytes → bytes.length = n)
    {d : Inode} {index : BitVec 64} {a b : Bool} :
    pageBytes dev d index a = pageBytes dev d index b ↔ (HoldsBytes dev d index → a = b) := by
  constructor
  · rintro heq ⟨hin, bytes, hbytes⟩
    have hlen := hread _ _ _ hbytes
    have hpos := fillsizeOf_pos hin
    unfold pageBytes at heq
    rw [if_pos hin, if_pos hin] at heq
    dsimp only at heq
    rw [hbytes] at heq
    cases bytes with
    | nil =>
      rw [List.length_nil] at hlen
      omega
    | cons x xs =>
      -- the first byte tells
      have hhead := congrArg (fun p => p.bind List.head?) heq
      cases a <;> cases b <;> simp at hhead ⊢
  · intro himp
    by_cases hh : HoldsBytes dev d index
    · rw [himp hh]
    · unfold pageBytes
      split
      · next hin =>
        dsimp only
        cases hdev : dev.read (d.dataoffset + pageOffset index)
            (fillsizeOf d.size (pageOffset index)) with
        | error e => rfl
        | ok bytes => exact absurd ⟨hin, bytes, hdev⟩ hh
      · rfl

theorem Coherent.contents_iff
    (hread : ∀ pos n bytes, m.dev.read pos n = .ok bytes → bytes.length = n)
    (hc : Coherent m s h) {op : VfsOp} (hnext : m.next s op = some t) :
    ContentsRight m op t ↔ NotMixed m h op := by
  cases op with
  | read dir name index stale =>
    obtain ⟨⟨s', ino⟩, hopen, hcached⟩ := Option.bind_eq_some_iff.mp hnext
    obtain ⟨hres, -, -, d, hdisk, hino⟩ := hc.toInodesCoherent.openFile hopen
    have hpage := ((hc.openFile hopen).readCached hread hdisk hino hcached).2
    rw [History.looked_filled] at hpage
    -- the name stands for this inode and no other
    have hright : ContentsRight m (.read dir name index stale) t ↔
        t.pages ino index = pageBytes m.dev.toDev d index (strcmpEq name m.encrypted) := by
      refine ⟨fun hall => hall ino d hres hdisk, fun heq ino' d' hres' hdisk' => ?_⟩
      obtain rfl := Option.some.inj (hres.symm.trans hres')
      obtain rfl := Option.some.inj (hdisk.symm.trans hdisk')
      exact heq
    have hmixed : NotMixed m h (.read dir name index stale) ↔
        (HoldsBytes m.dev.toDev d index →
          (h.filled ino index).getD (strcmpEq name m.encrypted) = strcmpEq name m.encrypted) := by
      constructor
      · intro hall hbytes
        cases hfill : h.filled ino index with
        | none => rfl
        | some first => exact hall ino d first hres hdisk hbytes hfill
      · intro hall ino' d' first hres' hdisk' hbytes hfill
        obtain rfl := Option.some.inj (hres.symm.trans hres')
        obtain rfl := Option.some.inj (hdisk.symm.trans hdisk')
        rw [hfill] at hall
        exact hall hbytes
    rw [hright, hmixed, hpage, pageBytes_eq_iff hread]
  | lookup dir name => exact Iff.rfl
  | evict ino => exact Iff.rfl
  | reclaim ino index => exact Iff.rfl

end Contents

/-- **Contents and history.** On a device that reads as much as it is asked for, every read
of a run obtains the bytes that follow from the image, the page and the name, iff no read finds a
page, with bytes of the file, that was first read under a name of the other kind since it
came into the cache. -/
theorem page_contents_iff (m : Mount)
    (hread : ∀ pos n bytes, m.dev.read pos n = .ok bytes → bytes.length = n)
    (ops : List VfsOp) (u : Vfs) (hrun : run m.next Vfs.init ops = some u) :
    (∀ before op after t, ops = before ++ op :: after →
      run m.next Vfs.init (before ++ [op]) = some t → ContentsRight m op t) ↔
    ∀ before op after, ops = before ++ op :: after →
      NotMixed m (before.foldl m.note History.init) op :=
  run_each_iff (fun _ _ _ _ hc hnext => hc.next hread hnext)
    (fun _ _ _ _ hc hnext => hc.contents_iff hread hnext) (Coherent.init m) hrun

/-- A directory at 32 with the file a at 64, which holds an x, and a hard link b to it. -/
def linkImage : Image
  | 35 => 1
  | 39 => 64
  | 67 => 114
  | 75 => 1
  | 80 => 97
  | 96 => 120
  | 119 => 64
  | 128 => 98
  | _ => 0

/-- b is the name of the encrypted file and of the executable file. -/
def linkMount : Mount :=
  { dev := linkImage.lookupDev 144, encrypted := [98], exec := [98], fuel := 4 }

def zeroPage : StalePage := ⟨List.replicate pageSize 0, List.length_replicate ..⟩

theorem linkMount_read (pos : BitVec 64) (n : Nat) (bytes : List Byte)
    (h : linkMount.dev.read pos n = .ok bytes) : bytes.length = n := by
  have h : Except.ok (linkImage.bytes pos.toNat n) = .ok bytes := h
  injection h with h
  rw [← h, Image.bytes, List.length_map, List.length_range]

/-- a is read twice. -/
theorem page_contents_twice : ∃ u, run linkMount.next Vfs.init
      [.read 32 [97] 0 zeroPage, .read 32 [97] 0 zeroPage] = some u ∧
    ∀ before op after t,
      [.read 32 [97] 0 zeroPage, .read 32 [97] 0 zeroPage] = before ++ op :: after →
      run linkMount.next Vfs.init (before ++ [op]) = some t → ContentsRight linkMount op t := by
  obtain ⟨u, hu⟩ := Option.isSome_iff_exists.mp (show (run linkMount.next Vfs.init
    [.read 32 [97] 0 zeroPage, .read 32 [97] 0 zeroPage]).isSome by decide +kernel)
  refine ⟨u, hu, (page_contents_iff linkMount linkMount_read _ u hu).mpr ?_⟩
  intro before op after hsplit
  rcases before with _ | ⟨first, _ | ⟨second, rest⟩⟩
  · simp only [List.nil_append, List.cons.injEq] at hsplit
    rw [← hsplit.1]
    intro _ _ _ _ _ _ hfill
    cases hfill
  · simp only [List.cons_append, List.nil_append, List.cons.injEq] at hsplit
    obtain ⟨rfl, rfl, -⟩ := hsplit
    intro ino d b hres _ _ hfill
    obtain rfl : 64 = ino := Option.some.inj
      ((show resolve linkMount.dev 4 32 [97] = some 64 by decide +kernel).symm.trans hres)
    have hfirst : (linkMount.note History.init (.read 32 [97] 0 zeroPage)).filled 64 0 =
      some false := by decide +kernel
    exact (Option.some.inj (hfirst.symm.trans hfill)).symm
  · simp at hsplit

/-- The page that was read under `a` is served to the reader of `b`, not encrypted. -/
theorem page_contents_fails : ∃ t,
    run linkMount.next Vfs.init [.read 32 [97] 0 zeroPage, .read 32 [98] 0 zeroPage] = some t ∧
    ((t.pages 64 0).bind List.head?) = some 120 ∧
    ¬ ContentsRight linkMount (.read 32 [98] 0 zeroPage) t := by
  have hany : (run linkMount.next Vfs.init
      [.read 32 [97] 0 zeroPage, .read 32 [98] 0 zeroPage]).any
        (fun t => (t.pages 64 0).bind List.head? = some 120) = true := by decide +kernel
  obtain ⟨t, ht, hbyte⟩ := (Option.any_eq_true _ _).mp hany
  have hbyte := of_decide_eq_true hbyte
  refine ⟨t, ht, hbyte, fun hright => ?_⟩
  have hres : resolve linkMount.dev linkMount.fuel 32 [98] = some 64 := by decide +kernel
  have hdisk : diskInode linkMount.dev.toDev 64 = some ⟨0o100644#16, 1, 96, true⟩ := by
    decide +kernel
  have hpage : t.pages 64 0 = _ := hright 64 _ hres hdisk
  have hfirst : (pageBytes linkMount.dev.toDev ⟨0o100644#16, 1, 96, true⟩ 0
      (strcmpEq [98] linkMount.encrypted)).bind List.head? = some 121 := by decide +kernel
  rw [hpage, hfirst] at hbyte
  exact absurd hbyte (by decide)

/-! ## Execute permission -/

/-- The name that an operation looks up, with its directory. -/
def VfsOp.path : VfsOp → Option (BitVec 64 × List Byte)
  | .lookup dir name => some (dir, name)
  | .read dir name _ _ => some (dir, name)
  | _ => none

/-- A regular file is executable if its header says so or the name is that of the
executable file. -/
def ExecRight (m : Mount) (op : VfsOp) (t : Vfs) : Prop :=
  ∀ dir name ino ri, op.path = some (dir, name) → resolve m.dev m.fuel dir name = some ino →
    m.dev.read ino romfhSize = .ok ri → fileType (romfsInode ri).next = .reg →
    ∃ inode, t.icache ino = some inode ∧
      (inode.mode &&& sIxugo = sIxugo ↔ romfhExec (romfsInode ri).next ∨ strcmpEq m.exec name)

/-- The inode was not looked up as the executable file, unless that makes no difference. -/
def NotMarked (m : Mount) (h : History) (op : VfsOp) : Prop :=
  ∀ dir name ino ri, op.path = some (dir, name) → resolve m.dev m.fuel dir name = some ino →
    m.dev.read ino romfhSize = .ok ri → fileType (romfsInode ri).next = .reg →
    h.marked ino → romfhExec (romfsInode ri).next ∨ strcmpEq m.exec name

section Exec

variable {m : Mount} {s t : Vfs} {h : History}

/-- The execute bits of a regular file with some added. -/
theorem newInode_exec {pos : BitVec 64} {ri : List Byte} {nlen : Nat}
    (hreg : fileType (romfsInode ri).next = .reg) (b : Bool) :
    ((newInode pos ri nlen).withExec b).mode &&& sIxugo = sIxugo ↔
      romfhExec (romfsInode ri).next ∨ b = true := by
  have hmode : (newInode pos ri nlen).mode =
      if romfhExec (romfsInode ri).next then 0o100755#16 else 0o100644#16 := by
    unfold newInode
    dsimp only
    rw [hreg]
    cases romfhExec (romfsInode ri).next <;> rfl
  unfold Inode.withExec
  cases hexec : romfhExec (romfsInode ri).next <;> cases b <;>
    simp [hmode, hexec, sIxugo]

/-- After an operation that looks up a name the inode is marked by the names so far. -/
theorem InodesCoherent.icache_next (hc : InodesCoherent m s h) {op : VfsOp}
    (hnext : m.next s op = some t) {dir : BitVec 64} {name : List Byte}
    (hpath : op.path = some (dir, name)) {ino : BitVec 64}
    (hres : resolve m.dev m.fuel dir name = some ino) :
    ∃ d, diskInode m.dev.toDev ino = some d ∧
      t.icache ino = some (d.withExec (h.marked ino || strcmpEq m.exec name)) := by
  cases op with
  | lookup dir' name' =>
    cases hpath
    obtain ⟨⟨s', ino'⟩, hopen, rfl⟩ := Option.map_eq_some_iff.mp hnext
    obtain ⟨hres', -, -, hino⟩ := hc.openFile hopen
    obtain rfl := Option.some.inj (hres.symm.trans hres')
    exact hino
  | read dir' name' index stale =>
    cases hpath
    obtain ⟨⟨s', ino'⟩, hopen, hcached⟩ := Option.bind_eq_some_iff.mp hnext
    obtain ⟨hres', -, -, d, hdisk, hino⟩ := hc.openFile hopen
    obtain rfl := Option.some.inj (hres.symm.trans hres')
    refine ⟨d, hdisk, ?_⟩
    rw [m.readCached_icache hcached]
    exact hino
  | evict ino' => cases hpath
  | reclaim ino' index => cases hpath

theorem InodesCoherent.exec_iff (hc : InodesCoherent m s h) {op : VfsOp}
    (hnext : m.next s op = some t) :
    ExecRight m op t ↔ NotMarked m h op := by
  refine forall_congr' fun dir => forall_congr' fun name => forall_congr' fun ino =>
    forall_congr' fun ri => forall_congr' fun hpath => forall_congr' fun hres =>
    forall_congr' fun hri => forall_congr' fun hreg => ?_
  obtain ⟨d, hdisk, hino⟩ := hc.icache_next hnext hpath hres
  rw [hino]
  have hmode : (d.withExec (h.marked ino || strcmpEq m.exec name)).mode &&& sIxugo = sIxugo ↔
      romfhExec (romfsInode ri).next ∨ (h.marked ino || strcmpEq m.exec name) = true := by
    rw [diskInode, hri] at hdisk
    split at hdisk
    · next ri' nlen hri' hlen =>
      cases hri'
      obtain rfl := Option.some.inj hdisk
      exact newInode_exec hreg _
    · simp at hdisk
  simp only [Option.some.injEq, exists_eq_left', hmode, Bool.or_eq_true]
  constructor
  · intro hiff hmarked
    exact hiff.mp (Or.inr (Or.inl hmarked))
  · intro hmarked
    refine ⟨?_, fun hor => hor.imp_right Or.inr⟩
    rintro (hexec | hmark | hname)
    · exact Or.inl hexec
    · exact hmarked hmark
    · exact Or.inr hname

end Exec

/-- **Execute permission and history.** Every lookup of a run returns a regular file with
the execute bits set exactly if its header has `ROMFH_EXEC` or the name is that of the
executable file, iff no other name finds an inode, without `ROMFH_EXEC`, that was looked up
as the executable file since it is alive. -/
theorem execute_bits_iff (m : Mount) (ops : List VfsOp) (u : Vfs)
    (hrun : run m.next Vfs.init ops = some u) :
    (∀ before op after t, ops = before ++ op :: after →
      run m.next Vfs.init (before ++ [op]) = some t → ExecRight m op t) ↔
    ∀ before op after, ops = before ++ op :: after →
      NotMarked m (before.foldl m.note History.init) op :=
  run_each_iff (fun _ _ _ _ hc hnext => hc.next hnext)
    (fun _ _ _ _ hc hnext => hc.exec_iff hnext) (Coherent.init m).toInodesCoherent hrun

/-- b is looked up twice. -/
theorem execute_bits_twice : ∃ u, run linkMount.next Vfs.init
      [.lookup 32 [98], .lookup 32 [98]] = some u ∧
    ∀ before op after t, [.lookup 32 [98], .lookup 32 [98]] = before ++ op :: after →
      run linkMount.next Vfs.init (before ++ [op]) = some t → ExecRight linkMount op t := by
  obtain ⟨u, hu⟩ := Option.isSome_iff_exists.mp (show (run linkMount.next Vfs.init
    [.lookup 32 [98], .lookup 32 [98]]).isSome by decide +kernel)
  refine ⟨u, hu, (execute_bits_iff linkMount _ u hu).mpr ?_⟩
  intro before op after hsplit dir name ino ri hpath _ _ _ _
  -- b is the executable file in both
  have hname : some (dir, name) = some (32, [98]) := by
    rw [← hpath]
    rcases before with _ | ⟨first, _ | ⟨second, rest⟩⟩
    · simp only [List.nil_append, List.cons.injEq] at hsplit
      rw [← hsplit.1]
      rfl
    · simp only [List.cons_append, List.nil_append, List.cons.injEq] at hsplit
      rw [← hsplit.2.1]
      rfl
    · simp at hsplit
  cases hname
  exact Or.inr (by decide)

/-- After a lookup of `b` the file is executable as `a` too. -/
theorem execute_bits_fails : ∃ t,
    run linkMount.next Vfs.init [.lookup 32 [98], .lookup 32 [97]] = some t ∧
    (t.icache 64).map (·.mode) = some 0o100755#16 ∧
    ¬ ExecRight linkMount (.lookup 32 [97]) t := by
  have hany : (run linkMount.next Vfs.init [.lookup 32 [98], .lookup 32 [97]]).any
      (fun t => (t.icache 64).map (·.mode) = some 0o100755#16) = true := by decide +kernel
  obtain ⟨t, ht, hmode⟩ := (Option.any_eq_true _ _).mp hany
  have hmode := of_decide_eq_true hmode
  refine ⟨t, ht, hmode, fun hright => ?_⟩
  have hres : resolve linkMount.dev linkMount.fuel 32 [97] = some 64 := by decide +kernel
  obtain ⟨inode, hino, hiff⟩ := hright 32 [97] 64 (linkImage.bytes 64 romfhSize) rfl hres rfl
    (by decide +kernel)
  rw [hino, Option.map_some, Option.some.injEq] at hmode
  rw [hmode] at hiff
  exact absurd (hiff.mp (by decide)) (by decide +kernel)

end LinuxKernel.Romfs
