import LinuxKernel.Romfs.Agree
import LinuxKernel.Romfs.Readpage

/-!
# romfs — parameters that are not given

The three module parameters are `NULL` unless they are given, and each function compares
a name with its parameter without looking whether there is one.

* `readdirPlain`, `lookupPlain`, `readpagePlain` — the three functions without their
  comparison.
* `params_conservative_iff` — the functions do the same without the parameter exactly
  where they do not come to the comparison.
-/

namespace LinuxKernel.Romfs

/-- The module parameters. -/
structure Params where
  hidedFileName     : Option (List Byte)
  encryptedFileName : Option (List Byte)
  execFileName      : Option (List Byte)

/-! ## The functions without the comparison -/

def readdirLoopPlain (dev : Dev) : Nat → BitVec 64 → DirContext → Exec DirContext
  | 0, _, _ => .running
  | fuel + 1, offset, ctx =>
    if offset = 0 ∨ dev.maxsize ≤ offset then .done { ctx with pos := dev.maxsize }
    else
      let ctx := { ctx with pos := offset }
      match fetchEntry dev offset with
      | .error _ => .done ctx
      | .ok (ri, fsname) =>
        let ino := if fileType ri.next = .hrd then ri.spec else offset.setWidth 32
        match dirEmit ctx fsname (ino.signExtend 64) (romfsDtypeTable (fileType ri.next)) with
        | none => .done ctx
        | some ctx => readdirLoopPlain dev fuel ((ri.next &&& romfhMask 32).signExtend 64) ctx

def readdirPlain (dev : Dev) (fuel : Nat) (ino : BitVec 64) (ctx : DirContext) : Exec DirContext :=
  match startOffset dev ino ctx.pos with
  | .error _ => .done ctx
  | .ok offset => readdirLoopPlain dev fuel offset ctx

/-- Where `romfs_iget` starts for a header with the name. -/
def igetStart (offset : BitVec 64) (ri : RomfsInode) : BitVec 64 :=
  if fileType ri.next = .hrd then (ri.spec &&& romfhMask 32).setWidth 64 else offset

def lookupPlain (dev : LookupDev) (alloc : Bool) (fuel : Nat) (cache : Icache) (dir : BitVec 64)
    (name : List Byte) : Exec (Icache × LookupResult) :=
  match dev.read (dir &&& romfhMask 64) romfhSize with
  | .error e => .done (cache, .error e)
  | .ok ri =>
    (findEntry dev name fuel (((romfsInode ri).spec &&& romfhMask 32).setWidth 64)).bind fun
      | .error e => .done (cache, .error e)
      | .ok none => .done (cache, .negative)
      | .ok (some (offset, ri)) =>
        (romfsIget dev.toDev alloc fuel cache (igetStart offset ri)).bind fun (cache, inode) =>
          .done (cache, .ofIget inode)

def readpagePlain (dev : Dev) (kmapOk : Bool) (inode : Inode) (index : BitVec 64) (page : Page) :
    Int × Page :=
  if kmapOk then
    if (pageOffset index).slt inode.size then
      let (ret, fillsize, page) := fillPage dev inode index page
      finishPage ret fillsize page
    else finishPage 0 0 page
  else (enomem, page)

/-! ## Where a comparison is made -/

/-- `romfs_readdir` comes to a header, and reads it with its name. -/
def ComesToEntry (dev : Dev) (ino pos : BitVec 64) : Prop :=
  ∃ offset entry, startOffset dev ino pos = .ok offset ∧ offset ≠ 0 ∧ offset < dev.maxsize ∧
    fetchEntry dev offset = .ok entry

/-- `romfs_lookup` comes to a header with the name, and the links from it end. -/
def ComesToMatch (dev : LookupDev) (dir : BitVec 64) (name : List Byte) : Prop :=
  ∃ ri fuel offset entry end', dev.read (dir &&& romfhMask 64) romfhSize = .ok ri ∧
    findEntry dev name fuel (((romfsInode ri).spec &&& romfhMask 32).setWidth 64) =
      .done (.ok (some (offset, entry))) ∧
    followLinks dev.toDev fuel (igetStart offset entry) = .done end'

/-- Without its parameter each function does what it does without the comparison, and does
not compare with `NULL`. -/
structure Conservative (params : Params) (dev : LookupDev) (alloc kmapOk : Bool) (cache : Icache)
    (dir : BitVec 64) (ctx : DirContext) (name opened : List Byte) (inode : Inode)
    (index : BitVec 64) (page : Page) : Prop where
  readdir : params.hidedFileName = none → ∀ fuel,
    romfsReaddir dev.toDev params.hidedFileName fuel dir ctx = readdirPlain dev.toDev fuel dir ctx ∧
    romfsReaddir dev.toDev params.hidedFileName fuel dir ctx ≠ .oops
  lookup : params.execFileName = none → ∀ fuel,
    romfsLookup dev params.execFileName alloc fuel cache dir name =
      lookupPlain dev alloc fuel cache dir name ∧
    romfsLookup dev params.execFileName alloc fuel cache dir name ≠ .oops
  readpage : params.encryptedFileName = none →
    romfsReadpage dev.toDev params.encryptedFileName kmapOk (some opened) inode index page =
      .done (readpagePlain dev.toDev kmapOk inode index page) ∧
    romfsReadpage dev.toDev params.encryptedFileName kmapOk (some opened) inode index page ≠ .oops

section Facts

theorem readdirLoopPlain_ne_oops (dev : Dev) (fuel : Nat) (offset : BitVec 64) (ctx : DirContext) :
    readdirLoopPlain dev fuel offset ctx ≠ .oops := by
  induction fuel generalizing offset ctx with
  | zero => simp [readdirLoopPlain]
  | succ fuel ih =>
    rw [readdirLoopPlain]
    split
    · simp
    · cases fetchEntry dev offset with
      | error e => simp
      | ok entry =>
        dsimp only
        split
        · simp
        · exact ih _ _

/-- Without a hidden name `romfs_readdir` faults at the first header it reads. -/
theorem readdir_conservative_iff (dev : Dev) (ino : BitVec 64) (ctx : DirContext) :
    (∀ fuel, romfsReaddir dev none fuel ino ctx = readdirPlain dev fuel ino ctx ∧
      romfsReaddir dev none fuel ino ctx ≠ .oops) ↔ ¬ ComesToEntry dev ino ctx.pos := by
  constructor
  · rintro h ⟨offset, ⟨ri, fsname⟩, hstart, hne, hlt, hentry⟩
    refine (h 1).2 ?_
    rw [romfsReaddir, hstart]
    dsimp only
    rw [readdirLoop, if_neg (not_or.mpr ⟨hne, BitVec.not_le.mpr hlt⟩), hentry]
  · intro h fuel
    have heq : romfsReaddir dev none fuel ino ctx = readdirPlain dev fuel ino ctx := by
      rw [romfsReaddir, readdirPlain]
      cases hstart : startOffset dev ino ctx.pos with
      | error e => rfl
      | ok offset =>
        cases fuel with
        | zero => rfl
        | succ fuel =>
          dsimp only
          rw [readdirLoop, readdirLoopPlain]
          split
          · rfl
          · next hin =>
            rw [not_or, BitVec.not_le] at hin
            cases hentry : fetchEntry dev offset with
            | error e => rfl
            | ok entry => exact absurd ⟨offset, entry, hstart, hin.1, hin.2, hentry⟩ h
    refine ⟨heq, ?_⟩
    rw [heq, readdirPlain]
    cases startOffset dev ino ctx.pos with
    | error e => simp
    | ok offset => exact readdirLoopPlain_ne_oops dev fuel offset ctx

theorem findEntry_ne_oops (dev : LookupDev) (name : List Byte) (fuel : Nat) (offset : BitVec 64) :
    findEntry dev name fuel offset ≠ .oops := by
  induction fuel generalizing offset with
  | zero => simp [findEntry]
  | succ fuel ih =>
    rw [findEntry]
    split
    · simp
    · cases dev.read offset romfhSize with
      | error e => simp
      | ok ri =>
        dsimp only
        cases dev.strcmp (offset + BitVec.ofNat 64 romfhSize) name with
        | error e => simp
        | ok ret =>
          dsimp only
          split
          · simp
          · exact ih _

theorem followLinks_ne_oops (dev : Dev) (fuel : Nat) (pos : BitVec 64) :
    followLinks dev fuel pos ≠ .oops := by
  induction fuel generalizing pos with
  | zero => simp [followLinks]
  | succ fuel ih =>
    rw [followLinks]
    cases dev.read pos romfhSize with
    | error e => simp
    | ok ri =>
      dsimp only
      split
      · simp
      · exact ih _

/-- `romfs_iget` returns if the links end. -/
theorem romfsIget_eq_done {dev : Dev} {fuel : Nat} {pos : BitVec 64}
    {last : Except Int (BitVec 64 × List Byte)} (h : followLinks dev fuel pos = .done last)
    (alloc : Bool) (cache : Icache) : ∃ r, romfsIget dev alloc fuel cache pos = .done r := by
  rw [romfsIget, h, Exec.done_bind]
  cases last with
  | error e => exact ⟨_, rfl⟩
  | ok p =>
    dsimp only
    cases dev.strnlen (p.1 + BitVec.ofNat 64 romfhSize) romfsMaxfn with
    | error e => exact ⟨_, rfl⟩
    | ok nlen => exact ⟨_, rfl⟩

/-- Without the name of an executable file `romfs_lookup` faults when it has found a file. -/
theorem lookup_conservative_iff (dev : LookupDev) (alloc : Bool) (cache : Icache) (dir : BitVec 64)
    (name : List Byte) :
    (∀ fuel, romfsLookup dev none alloc fuel cache dir name =
        lookupPlain dev alloc fuel cache dir name ∧
      romfsLookup dev none alloc fuel cache dir name ≠ .oops) ↔ ¬ ComesToMatch dev dir name := by
  constructor
  · rintro h ⟨ri, fuel, offset, entry, last, hdir, hfind, hlast⟩
    refine (h fuel).2 ?_
    obtain ⟨r, higet⟩ := romfsIget_eq_done hlast alloc cache
    rw [romfsLookup, hdir]
    dsimp only
    rw [lookupLoop_eq, hfind, Exec.done_bind]
    show (romfsIget dev.toDev alloc fuel cache (igetStart offset entry)).bind _ = _
    rw [higet, Exec.done_bind]
  · intro h fuel
    -- both ends at once: the walks do not fault
    suffices hboth : romfsLookup dev none alloc fuel cache dir name =
        lookupPlain dev alloc fuel cache dir name ∧
        lookupPlain dev alloc fuel cache dir name ≠ .oops from
      ⟨hboth.1, hboth.1 ▸ hboth.2⟩
    rw [romfsLookup, lookupPlain]
    cases hdir : dev.read (dir &&& romfhMask 64) romfhSize with
    | error e => exact ⟨rfl, by simp⟩
    | ok ri =>
      dsimp only
      rw [lookupLoop_eq]
      cases hfind : findEntry dev name fuel
        (((romfsInode ri).spec &&& romfhMask 32).setWidth 64) with
      | oops => exact absurd hfind (findEntry_ne_oops dev name fuel _)
      | running => exact ⟨rfl, by simp⟩
      | done found =>
        rcases found with e | _ | ⟨offset, entry⟩
        · exact ⟨rfl, by simp⟩
        · exact ⟨rfl, by simp⟩
        · cases hlinks : followLinks dev.toDev fuel (igetStart offset entry) with
          | oops => exact absurd hlinks (followLinks_ne_oops dev.toDev fuel _)
          | done last => exact absurd ⟨ri, fuel, offset, entry, last, hdir, hfind, hlinks⟩ h
          | running =>
            have higet : romfsIget dev.toDev alloc fuel cache (igetStart offset entry) =
                .running := by
              rw [romfsIget, hlinks]
              rfl
            simp only [Exec.done_bind]
            show (romfsIget dev.toDev alloc fuel cache (igetStart offset entry)).bind _ =
              (romfsIget dev.toDev alloc fuel cache (igetStart offset entry)).bind _ ∧ _
            rw [higet]
            exact ⟨rfl, by simp⟩

/-- Without the name of an encrypted file `romfs_readpage` faults on every page that holds
a part of the file. -/
theorem readpage_conservative_iff (dev : Dev) (kmapOk : Bool) (name : List Byte) (inode : Inode)
    (index : BitVec 64) (page : Page) :
    (romfsReadpage dev none kmapOk (some name) inode index page =
        .done (readpagePlain dev kmapOk inode index page) ∧
      romfsReadpage dev none kmapOk (some name) inode index page ≠ .oops) ↔
      ¬ (kmapOk ∧ (pageOffset index).slt inode.size) := by
  rw [romfsReadpage, readpagePlain]
  by_cases hmap : kmapOk
  · by_cases hin : (pageOffset index).slt inode.size
    · simp [hmap, hin]
    · simp [hmap, hin]
  · simp [hmap]

end Facts

/-- **Parameters that are not given.** Whichever of them are given, the functions are
conservative exactly if those without their parameter do not come to the comparison:
`romfs_readdir` reads no header, `romfs_lookup` finds none with the name (or goes round a
cycle of links), `romfs_readpage` is called for a page past the end of the file (or cannot map
it). -/
theorem params_conservative_iff (params : Params) (dev : LookupDev) (alloc kmapOk : Bool)
    (cache : Icache) (dir : BitVec 64) (ctx : DirContext) (name opened : List Byte) (inode : Inode)
    (index : BitVec 64) (page : Page) :
    Conservative params dev alloc kmapOk cache dir ctx name opened inode index page ↔
      (params.hidedFileName = none → ¬ ComesToEntry dev.toDev dir ctx.pos) ∧
      (params.execFileName = none → ¬ ComesToMatch dev dir name) ∧
      (params.encryptedFileName = none → ¬ (kmapOk ∧ (pageOffset index).slt inode.size)) := by
  constructor
  · rintro ⟨hreaddir, hlookup, hreadpage⟩
    refine ⟨fun hn => ?_, fun hn => ?_, fun hn => ?_⟩
    · rw [hn] at hreaddir
      exact (readdir_conservative_iff ..).mp (hreaddir rfl)
    · rw [hn] at hlookup
      exact (lookup_conservative_iff ..).mp (hlookup rfl)
    · rw [hn] at hreadpage
      exact (readpage_conservative_iff ..).mp (hreadpage rfl)
  · rintro ⟨hreaddir, hlookup, hreadpage⟩
    refine ⟨fun hn => ?_, fun hn => ?_, fun hn => ?_⟩
    · rw [hn]
      exact (readdir_conservative_iff ..).mpr (hreaddir hn)
    · rw [hn]
      exact (lookup_conservative_iff ..).mpr (hlookup hn)
    · rw [hn]
      exact (readpage_conservative_iff ..).mpr (hreadpage hn)

/-- An inode of one page. -/
def sampleInode : Inode := { mode := 0o100644#16, size := 1, dataoffset := 96, aops := true }

/-- Without parameters the sample directory can be listed and searched only by the functions
without the comparison. -/
theorem params_conservative_fails :
    romfsReaddir (sampleImage.dev 160) none 4 32 ⟨0, 3, []⟩ = .oops ∧
    (∃ ctx, readdirPlain (sampleImage.dev 160) 4 32 ⟨0, 3, []⟩ = .done ctx ∧
      ctx.entries.map (·.name) = [[97], [98], [99]]) ∧
    romfsLookup (sampleImage.lookupDev 160) none true 4 (fun _ => none) 32 [97] = .oops ∧
    (∃ cache, lookupPlain (sampleImage.lookupDev 160) true 4 (fun _ => none) 32 [97] =
      .done (cache, .inode 64)) ∧
    romfsReadpage (sampleImage.dev 160) none true (some [97]) sampleInode 0 ⟨[], false, false⟩ =
      .oops := by
  have hlist : readdirPlain (sampleImage.dev 160) 4 32 ⟨0, 3, []⟩ =
      .done ⟨160, 0, [⟨[97], 64, 64, .reg⟩, ⟨[98], 96, 96, .reg⟩, ⟨[99], 128, 128, .reg⟩]⟩ := by
    decide +kernel
  have hlookup : (romfsLookup (sampleImage.lookupDev 160) none true 4 (fun _ => none)
      32 [97]).bind (fun r => .done r.2) = .oops := by decide +kernel
  have hplain : (lookupPlain (sampleImage.lookupDev 160) true 4 (fun _ => none) 32 [97]).bind
      (fun r => .done r.2) = .done (.inode 64) := by decide +kernel
  refine ⟨by decide +kernel, ⟨_, hlist, rfl⟩, Exec.eq_oops_of_bind hlookup, ?_,
    by decide +kernel⟩
  obtain ⟨⟨cache, res⟩, hres, heq⟩ := Exec.bind_eq_done hplain
  obtain rfl : res = .inode 64 := by injection heq
  exact ⟨cache, hres⟩

end LinuxKernel.Romfs
