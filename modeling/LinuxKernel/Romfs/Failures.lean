import LinuxKernel.Romfs.Params
import LinuxKernel.Lib.Walk

/-!
# romfs — what `romfs_lookup` does when something fails

`romfs_lookup` follows the headers of a directory to the first one with the name, and `romfs_iget`
follows the hard links from there. A device read can fail at each of them, the comparison of the
names too, and `romfs_iget` itself. The inode is marked as executable before it is known to be one.

* `findEntry_eq`, `romfsIget_eq` — both loops as walks, and what is done at their end.
* `LookupOutcome`                — what a lookup should return.
* `lookup_propagates_iff`        — it returns that unless it goes round a cycle, or `romfs_iget`
  fails for the name of the executable file.
-/

namespace LinuxKernel.Romfs

open LinuxKernel.Lib StateTransition

/-! ## The walk along the headers -/

/-- The header after one that has another name. -/
def entryStep (dev : LookupDev) (name : List Byte) (offset : BitVec 64) : Option (BitVec 64) :=
  if offset = 0 ∨ dev.maxsize ≤ offset then none
  else
    match dev.read offset romfhSize, dev.strcmp (offset + BitVec.ofNat 64 romfhSize) name with
    | .ok ri, .ok ret =>
      if ret = 1 then none else some (((romfsInode ri).next &&& romfhMask 32).setWidth 64)
    | _, _ => none

/-- What the walk finds at the offset where it ends. -/
def entryAt (dev : LookupDev) (name : List Byte) (offset : BitVec 64) :
    Except Int (Option (BitVec 64 × RomfsInode)) :=
  if offset = 0 ∨ dev.maxsize ≤ offset then .ok none
  else
    match dev.read offset romfhSize, dev.strcmp (offset + BitVec.ofNat 64 romfhSize) name with
    | .error e, _ => .error e
    | .ok _, .error e => .error e
    | .ok ri, .ok _ => .ok (some (offset, romfsInode ri))

/-- A walk as a loop with fuel. -/
def Exec.ofWalk {α β : Type} (result : α → β) : Option α → Exec β
  | none => .running
  | some last => .done (result last)

theorem findEntry_eq (dev : LookupDev) (name : List Byte) (fuel : Nat) (offset : BitVec 64) :
    findEntry dev name fuel offset =
      .ofWalk (entryAt dev name) (walkEnd (entryStep dev name) fuel offset) := by
  induction fuel generalizing offset with
  | zero => rfl
  | succ fuel ih =>
    rw [findEntry, walkEnd]
    by_cases hout : offset = 0 ∨ dev.maxsize ≤ offset
    · simp only [entryStep, if_pos hout, Exec.ofWalk, entryAt]
    · simp only [entryStep, if_neg hout]
      cases hread : dev.read offset romfhSize with
      | error e => simp only [Exec.ofWalk, entryAt, if_neg hout, hread]
      | ok ri =>
        cases hcmp : dev.strcmp (offset + BitVec.ofNat 64 romfhSize) name with
        | error e => simp only [Exec.ofWalk, entryAt, if_neg hout, hread, hcmp]
        | ok ret =>
          dsimp only
          by_cases hret : ret = 1
          · simp only [if_pos hret, Exec.ofWalk, entryAt, if_neg hout, hread, hcmp]
          · simp only [if_neg hret]
            exact ih _

/-! ## The walk along hard links -/

def linkStep (dev : Dev) (pos : BitVec 64) : Option (BitVec 64) :=
  match dev.read pos romfhSize with
  | .error _ => none
  | .ok ri =>
    if fileType (romfsInode ri).next ≠ .hrd then none
    else some (((romfsInode ri).spec &&& romfhMask 32).setWidth 64)

/-- `romfs_iget` after the loop. -/
def igetAt (dev : Dev) (alloc : Bool) (cache : Icache) (pos : BitVec 64) :
    Icache × Except Int (BitVec 64) :=
  match dev.read pos romfhSize with
  | .error e => (cache, .error e)
  | .ok ri =>
    match dev.strnlen (pos + BitVec.ofNat 64 romfhSize) romfsMaxfn with
    | .error _ => (cache, .error eio)
    | .ok nlen => igetLocked alloc cache pos ri nlen

theorem romfsIget_eq (dev : Dev) (alloc : Bool) (fuel : Nat) (cache : Icache) (pos : BitVec 64) :
    romfsIget dev alloc fuel cache pos =
      .ofWalk (igetAt dev alloc cache) (walkEnd (linkStep dev) fuel pos) := by
  induction fuel generalizing pos with
  | zero => rfl
  | succ fuel ih =>
    rw [romfsIget, followLinks, walkEnd]
    unfold linkStep
    cases hread : dev.read pos romfhSize with
    | error e => simp only [Exec.done_bind, Exec.ofWalk, igetAt, hread]
    | ok ri =>
      dsimp only
      by_cases htype : fileType (romfsInode ri).next ≠ .hrd
      · rw [if_pos htype, if_pos htype, Exec.done_bind]
        dsimp only
        rw [Exec.ofWalk, igetAt, hread]
        dsimp only
        cases dev.strnlen (pos + BitVec.ofNat 64 romfhSize) romfsMaxfn <;> rfl
      · rw [if_neg htype, if_neg htype]
        exact ih _

/-- Nothing is written if `romfs_iget` fails. -/
theorem igetAt_error {dev : Dev} {alloc : Bool} {cache cache' : Icache} {pos : BitVec 64} {e : Int}
    (h : igetAt dev alloc cache pos = (cache', .error e)) : cache' = cache := by
  unfold igetAt at h
  cases hread : dev.read pos romfhSize with
  | error e' => simp_all
  | ok ri =>
    rw [hread] at h
    dsimp only at h
    cases hlen : dev.strnlen (pos + BitVec.ofNat 64 romfhSize) romfsMaxfn with
    | error e' => simp_all
    | ok nlen =>
      rw [hlen] at h
      dsimp only at h
      unfold igetLocked at h
      cases hcache : cache pos with
      | some i => simp_all
      | none => cases alloc <;> simp_all

/-! ## What a lookup should return -/

/-- `last` is the first header with the name from `start` on. -/
structure FirstMatch (dev : LookupDev) (name : List Byte) (start last : BitVec 64)
    (entry : RomfsInode) : Prop where
  reach  : Reaches (entryStep dev name) start last
  inside : ¬ (last = 0 ∨ dev.maxsize ≤ last)
  header : ∃ ri, dev.read last romfhSize = .ok ri ∧ entry = romfsInode ri
  named  : dev.strcmp (last + BitVec.ofNat 64 romfhSize) name = .ok 1

/-- The first header of a directory. -/
def firstEntry (ri : List Byte) : BitVec 64 := ((romfsInode ri).spec &&& romfhMask 32).setWidth 64

/-- The result of a lookup, with the inodes as they are after it: errors are passed on and nothing
is written; a name that is not there is a negative result; otherwise the inode of the first header
with the name is returned, executable if the name is that of the executable file. -/
inductive LookupOutcome (dev : LookupDev) (exec : List Byte) (alloc : Bool) (cache : Icache)
    (dir : BitVec 64) (name : List Byte) : Icache × LookupResult → Prop
  | dirFails {e : Int} (h : dev.read (dir &&& romfhMask 64) romfhSize = .error e) :
      LookupOutcome dev exec alloc cache dir name (cache, .error e)
  | readFails {ri : List Byte} {last : BitVec 64} {e : Int}
      (hdir : dev.read (dir &&& romfhMask 64) romfhSize = .ok ri)
      (hreach : Reaches (entryStep dev name) (firstEntry ri) last)
      (hin : ¬ (last = 0 ∨ dev.maxsize ≤ last)) (h : dev.read last romfhSize = .error e) :
      LookupOutcome dev exec alloc cache dir name (cache, .error e)
  | strcmpFails {ri ri' : List Byte} {last : BitVec 64} {e : Int}
      (hdir : dev.read (dir &&& romfhMask 64) romfhSize = .ok ri)
      (hreach : Reaches (entryStep dev name) (firstEntry ri) last)
      (hin : ¬ (last = 0 ∨ dev.maxsize ≤ last)) (hread : dev.read last romfhSize = .ok ri')
      (h : dev.strcmp (last + BitVec.ofNat 64 romfhSize) name = .error e) :
      LookupOutcome dev exec alloc cache dir name (cache, .error e)
  | negative {ri : List Byte} {last : BitVec 64}
      (hdir : dev.read (dir &&& romfhMask 64) romfhSize = .ok ri)
      (hreach : Reaches (entryStep dev name) (firstEntry ri) last)
      (hout : last = 0 ∨ dev.maxsize ≤ last) :
      LookupOutcome dev exec alloc cache dir name (cache, .negative)
  | igetFails {ri : List Byte} {last : BitVec 64} {entry : RomfsInode} {fuel : Nat}
      {cache' : Icache} {e : Int} (hdir : dev.read (dir &&& romfhMask 64) romfhSize = .ok ri)
      (hmatch : FirstMatch dev name (firstEntry ri) last entry)
      (h : romfsIget dev.toDev alloc fuel cache (igetStart last entry) = .done (cache', .error e)) :
      LookupOutcome dev exec alloc cache dir name (cache, .error e)
  | positive {ri : List Byte} {last : BitVec 64} {entry : RomfsInode} {fuel : Nat}
      {cache' : Icache} {ino : BitVec 64}
      (hdir : dev.read (dir &&& romfhMask 64) romfhSize = .ok ri)
      (hmatch : FirstMatch dev name (firstEntry ri) last entry)
      (h : romfsIget dev.toDev alloc fuel cache (igetStart last entry) = .done (cache', .ok ino)) :
      LookupOutcome dev exec alloc cache dir name
        (if strcmpEq exec name then cache'.addExec ino else cache', .inode ino)

/-- The lookup returns what it should. -/
def Propagates (dev : LookupDev) (exec : List Byte) (alloc : Bool) (cache : Icache)
    (dir : BitVec 64) (name : List Byte) : Prop :=
  ∃ res, LookupOutcome dev exec alloc cache dir name res ∧
    ∃ n, ∀ fuel, n ≤ fuel → romfsLookup dev (some exec) alloc fuel cache dir name = .done res

/-- `romfs_lookup` after `romfs_iget`, and after the walk. -/
def afterIget (exec name : List Byte) :
    Icache × Except Int (BitVec 64) → Exec (Icache × LookupResult)
  | (cache, .error e) => if strcmpEq exec name then .oops else .done (cache, .error e)
  | (cache, .ok ino) =>
    .done (if strcmpEq exec name then cache.addExec ino else cache, .inode ino)

def afterWalk (dev : LookupDev) (exec : List Byte) (alloc : Bool) (fuel : Nat) (cache : Icache)
    (name : List Byte) :
    Except Int (Option (BitVec 64 × RomfsInode)) → Exec (Icache × LookupResult)
  | .error e => .done (cache, .error e)
  | .ok none => .done (cache, .negative)
  | .ok (some (offset, entry)) =>
    (romfsIget dev.toDev alloc fuel cache (igetStart offset entry)).bind (afterIget exec name)

section Lookup

variable {dev : LookupDev} {exec : List Byte} {alloc : Bool} {cache : Icache} {dir : BitVec 64}
  {name ri : List Byte} {last : BitVec 64} {entry : RomfsInode}

theorem FirstMatch.entryStep_eq {start : BitVec 64} (h : FirstMatch dev name start last entry) :
    entryStep dev name last = none := by
  obtain ⟨ri, hread, -⟩ := h.header
  simp [entryStep, hread, h.named]

theorem FirstMatch.entryAt_eq {start : BitVec 64} (h : FirstMatch dev name start last entry) :
    entryAt dev name last = .ok (some (last, entry)) := by
  obtain ⟨ri, hread, rfl⟩ := h.header
  rw [entryAt, if_neg h.inside, hread, h.named]

/-- The lookup after the directory was read. -/
theorem romfsLookup_eq (hdir : dev.read (dir &&& romfhMask 64) romfhSize = .ok ri) (fuel : Nat) :
    romfsLookup dev (some exec) alloc fuel cache dir name =
      (Exec.ofWalk (entryAt dev name) (walkEnd (entryStep dev name) fuel (firstEntry ri))).bind
        (afterWalk dev exec alloc fuel cache name) := by
  rw [romfsLookup, hdir]
  dsimp only
  rw [lookupLoop_eq, findEntry_eq, firstEntry]
  congr 1
  funext found
  rcases found with e | _ | ⟨offset, entry⟩
  · rfl
  · rfl
  · show (romfsIget dev.toDev alloc fuel cache (igetStart offset entry)).bind _ = _
    rw [afterWalk]
    congr 1
    funext r
    obtain ⟨cache, inode⟩ := r
    cases inode with
    | error e => rfl
    | ok ino => cases hexec : strcmpEq exec name <;> simp [hexec, LookupResult.ofIget, afterIget]

theorem romfsIget_mono {dev : Dev} {pos : BitVec 64} {m n : Nat}
    {r : Icache × Except Int (BitVec 64)}
    (h : romfsIget dev alloc n cache pos = .done r) (hle : n ≤ m) :
    romfsIget dev alloc m cache pos = .done r := by
  rw [romfsIget_eq] at h ⊢
  cases hend : walkEnd (linkStep dev) n pos with
  | none =>
    simp [hend, Exec.ofWalk] at h
  | some last =>
    rw [hend] at h
    rwa [walkEnd_mono hend hle]

/-- From the first header with the name on, with enough rounds. -/
theorem FirstMatch.romfsLookup_eq (hmatch : FirstMatch dev name (firstEntry ri) last entry)
    (hdir : dev.read (dir &&& romfhMask 64) romfhSize = .ok ri) (exec : List Byte) (alloc : Bool)
    (cache : Icache) :
    ∃ k, ∀ fuel, k ≤ fuel → romfsLookup dev (some exec) alloc fuel cache dir name =
      (romfsIget dev.toDev alloc fuel cache (igetStart last entry)).bind (afterIget exec name) := by
  obtain ⟨k, hk⟩ := walkEnd_of_reaches hmatch.reach hmatch.entryStep_eq
  refine ⟨k, fun fuel hle => ?_⟩
  rw [Romfs.romfsLookup_eq hdir, walkEnd_mono hk hle, Exec.ofWalk, Exec.done_bind,
    hmatch.entryAt_eq, afterWalk]

/-- At the end of the walk: the offset is not in the image, a read or a comparison fails, or the
header has the name. -/
theorem entryStep_eq_none (hend : entryStep dev name last = none) :
    (last = 0 ∨ dev.maxsize ≤ last) ∨ ¬ (last = 0 ∨ dev.maxsize ≤ last) ∧
      ((∃ e, dev.read last romfhSize = .error e) ∨
        (∃ ri e, dev.read last romfhSize = .ok ri ∧
          dev.strcmp (last + BitVec.ofNat 64 romfhSize) name = .error e) ∨
        ∃ ri, dev.read last romfhSize = .ok ri ∧
          dev.strcmp (last + BitVec.ofNat 64 romfhSize) name = .ok 1) := by
  by_cases hout : last = 0 ∨ dev.maxsize ≤ last
  · exact Or.inl hout
  · refine Or.inr ⟨hout, ?_⟩
    rw [entryStep, if_neg hout] at hend
    cases hread : dev.read last romfhSize with
    | error e => exact Or.inl ⟨e, rfl⟩
    | ok ri =>
      rw [hread] at hend
      cases hcmp : dev.strcmp (last + BitVec.ofNat 64 romfhSize) name with
      | error e => exact Or.inr (Or.inl ⟨ri, e, rfl, rfl⟩)
      | ok ret =>
        rw [hcmp] at hend
        dsimp only at hend
        split at hend
        · next hret => exact Or.inr (Or.inr ⟨ri, rfl, by rw [hret]⟩)
        · simp at hend

/-- The mode of an error pointer is changed. -/
theorem FirstMatch.not_propagates (hmatch : FirstMatch dev name (firstEntry ri) last entry)
    (hdir : dev.read (dir &&& romfhMask 64) romfhSize = .ok ri) (hexec : strcmpEq exec name = true)
    {fuel : Nat} {cache' : Icache} {e : Int}
    (higet : romfsIget dev.toDev alloc fuel cache (igetStart last entry) =
      .done (cache', .error e)) :
    ¬ Propagates dev exec alloc cache dir name := by
  rintro ⟨res, -, n, hret⟩
  obtain ⟨k, hk⟩ := hmatch.romfsLookup_eq hdir exec alloc cache
  have hn := hret (max n (max k fuel)) (Nat.le_max_left _ _)
  rw [hk _ (by omega), romfsIget_mono higet (by omega), Exec.done_bind] at hn
  simp [afterIget, hexec] at hn

/-- The lookup of a name that is found. -/
theorem FirstMatch.propagates (hmatch : FirstMatch dev name (firstEntry ri) last entry)
    (hdir : dev.read (dir &&& romfhMask 64) romfhSize = .ok ri)
    (hlinks : ¬ Cycles (linkStep dev.toDev) (igetStart last entry))
    (hexec : strcmpEq exec name = true → ∀ fuel cache' e,
      romfsIget dev.toDev alloc fuel cache (igetStart last entry) ≠ .done (cache', .error e)) :
    Propagates dev exec alloc cache dir name := by
  obtain ⟨m, pos, hpos⟩ := (walk_ends_iff (Set.toFinite _)).mpr hlinks
  obtain ⟨k, hk⟩ := hmatch.romfsLookup_eq hdir exec alloc cache
  have higet : romfsIget dev.toDev alloc m cache (igetStart last entry) =
      .done (igetAt dev.toDev alloc cache pos) := by
    rw [romfsIget_eq, hpos, Exec.ofWalk]
  cases hres : igetAt dev.toDev alloc cache pos with
  | mk cache' res =>
    rw [hres] at higet
    have hret : ∀ fuel, max k m ≤ fuel → romfsLookup dev (some exec) alloc fuel cache dir name =
        afterIget exec name (cache', res) := by
      intro fuel hle
      rw [hk fuel (by omega), romfsIget_mono higet (by omega), Exec.done_bind]
    cases res with
    | error e =>
      have hother : strcmpEq exec name = false :=
        Bool.eq_false_iff.mpr fun heq => hexec heq m cache' e higet
      refine ⟨_, .igetFails hdir hmatch higet, max k m, fun fuel hle => ?_⟩
      rw [hret fuel hle, igetAt_error hres]
      simp [afterIget, hother]
    | ok ino => exact ⟨_, .positive hdir hmatch higet, max k m, hret⟩

end Lookup

/-- **Failures of a lookup.** With the parameter for the executable file given, a lookup returns
what it should exactly if the headers do not go round before the name is found, and, once it is
found, the hard links do not go round, and `romfs_iget` does not fail for the name of the executable
file. -/
theorem lookup_propagates_iff (dev : LookupDev) (exec : List Byte) (alloc : Bool) (cache : Icache)
    (dir : BitVec 64) (name : List Byte) :
    Propagates dev exec alloc cache dir name ↔
      ∀ ri, dev.read (dir &&& romfhMask 64) romfhSize = .ok ri →
        ¬ Cycles (entryStep dev name) (firstEntry ri) ∧
        ∀ last entry, FirstMatch dev name (firstEntry ri) last entry →
          ¬ Cycles (linkStep dev.toDev) (igetStart last entry) ∧
          (strcmpEq exec name = true → ∀ fuel cache' e,
            romfsIget dev.toDev alloc fuel cache (igetStart last entry) ≠
              .done (cache', .error e)) := by
  constructor
  · intro hprop ri hdir
    have ⟨res, _, n, hret⟩ := hprop
    refine ⟨fun hcycle => ?_, fun last entry hmatch => ?_⟩
    · -- an endless walk over the entries never returns
      have hn := hret n (Nat.le_refl n)
      simp [romfsLookup_eq hdir, walkEnd_of_cycles hcycle, Exec.ofWalk] at hn
    · -- nor does an endless walk over hard links
      refine ⟨fun hcycle => ?_, fun hexec fuel cache' e higet =>
        hmatch.not_propagates hdir hexec higet hprop⟩
      obtain ⟨k, hk⟩ := hmatch.romfsLookup_eq hdir exec alloc cache
      have hn := hret (max n k) (Nat.le_max_left n k)
      rw [hk _ (Nat.le_max_right n k), romfsIget_eq, walkEnd_of_cycles hcycle] at hn
      simp [Exec.ofWalk] at hn
  · intro hgood
    cases hdir : dev.read (dir &&& romfhMask 64) romfhSize with
    | error e =>
      refine ⟨_, .dirFails hdir, 0, fun fuel _ => ?_⟩
      rw [romfsLookup, hdir]
    | ok ri =>
      obtain ⟨hwalk, hmatched⟩ := hgood ri hdir
      -- the walk ends at `last`, and there in one of four ways
      obtain ⟨n, last, hlast⟩ := (walk_ends_iff (Set.toFinite _)).mpr hwalk
      obtain ⟨hreach, hend⟩ := reaches_of_walkEnd hlast
      have hret : ∀ fuel, n ≤ fuel → romfsLookup dev (some exec) alloc fuel cache dir name =
          afterWalk dev exec alloc fuel cache name (entryAt dev name last) := by
        intro fuel hle
        rw [romfsLookup_eq hdir, walkEnd_mono hlast hle, Exec.ofWalk, Exec.done_bind]
      rcases entryStep_eq_none hend with hout | ⟨hin, ⟨e, hread⟩ | ⟨ri', e, hread, hcmp⟩ |
        ⟨ri', hread, hcmp⟩⟩
      · refine ⟨_, .negative hdir hreach hout, n, fun fuel hle => ?_⟩
        rw [hret fuel hle, entryAt, if_pos hout, afterWalk]
      · refine ⟨_, .readFails hdir hreach hin hread, n, fun fuel hle => ?_⟩
        rw [hret fuel hle, entryAt, if_neg hin, hread, afterWalk]
      · refine ⟨_, .strcmpFails hdir hreach hin hread hcmp, n, fun fuel hle => ?_⟩
        rw [hret fuel hle, entryAt, if_neg hin, hread, hcmp, afterWalk]
      · have hmatch : FirstMatch dev name (firstEntry ri) last (romfsInode ri') :=
          ⟨hreach, hin, ⟨ri', hread, rfl⟩, hcmp⟩
        obtain ⟨hlinks, hexec⟩ := hmatched last _ hmatch
        exact hmatch.propagates hdir hlinks hexec

/-- A directory at 32 with a hard link a to a position where nothing can be read. -/
def brokenImage : Image
  | 35 => 1
  | 39 => 64
  | 70 => 16
  | 80 => 97
  | _ => 0

def brokenDev : LookupDev :=
  { brokenImage.lookupDev 112 with
    read := fun pos len =>
      if pos.toNat + len ≤ 112 then .ok (brokenImage.bytes pos.toNat len) else .error eio }

/-- The error is passed on, unless the link is the executable file. -/
theorem lookup_propagates_fails :
    (∃ cache, romfsLookup brokenDev (some [98]) true 4 (fun _ => none) 32 [97] =
      .done (cache, .error eio)) ∧
    romfsLookup brokenDev (some [97]) true 4 (fun _ => none) 32 [97] = .oops ∧
    ¬ Propagates brokenDev [97] true (fun _ => none) 32 [97] := by
  have hother : (romfsLookup brokenDev (some [98]) true 4 (fun _ => none) 32 [97]).bind
      (fun r => .done r.2) = .done (.error eio) := by decide +kernel
  have hexec : (romfsLookup brokenDev (some [97]) true 4 (fun _ => none) 32 [97]).bind
      (fun r => .done r.2) = .oops := by decide +kernel
  have hmatch : FirstMatch brokenDev [97] (firstEntry (brokenImage.bytes 32 romfhSize)) 64
      ⟨0, 4096⟩ :=
    ⟨.refl, by decide +kernel,
      ⟨brokenImage.bytes 64 romfhSize, by decide +kernel, by decide +kernel⟩, by decide +kernel⟩
  have higet : romfsIget brokenDev.toDev true 1 (fun _ => none) (igetStart 64 ⟨0, 4096⟩) =
    .done (fun _ => none, .error eio) := rfl
  obtain ⟨⟨cache, res⟩, hres, heq⟩ := Exec.bind_eq_done hother
  obtain rfl : res = .error eio := by injection heq
  exact ⟨⟨cache, hres⟩, Exec.eq_oops_of_bind hexec,
    hmatch.not_propagates (by decide +kernel) rfl higet⟩

end LinuxKernel.Romfs
