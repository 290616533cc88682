import LinuxKernel.Romfs.Super
import LinuxKernel.Lib.Run
import Mathlib.Data.List.TakeWhile
import Mathlib.Data.List.Nodup

/-!
# romfs — listing a directory

A reader lists a directory with several calls of `romfs_readdir`, each of which stops
when the reader takes no more entries. The next call resumes at `ctx->pos`.

* `Chain`                 — the headers of a directory, as the image links them.
* `visible`               — the entries of a chain that are not hidden.
* `readdirLoop_chain`     — one call: it emits as many visible entries as the reader
  takes, and stops at the first one that is refused.
* `romfs_readdir_listing` — any sequence of calls.
-/

namespace LinuxKernel.Romfs

open LinuxKernel.Lib

/-! ## What an image says -/

/-- The bytes of a file system image. -/
abbrev Image := Nat → Byte

namespace Image

variable (img : Image)

def bytes (pos len : Nat) : List Byte := (List.range len).map fun i => img (pos + i)

def inode (off : BitVec 64) : RomfsInode := romfsInode (img.bytes off.toNat romfhSize)

/-- The name behind a header, cut at `ROMFS_MAXFN` - 1 bytes. -/
def name (off : BitVec 64) : List Byte := cstr (img.bytes (off.toNat + romfhSize) (romfsMaxfn - 1))

/-- The first header of the directory at an offset. -/
def firstOffset (off : BitVec 64) : BitVec 64 := ((img.inode off).spec &&& romfhMask 32).setWidth 64
/-- The header after the one at an offset. -/
def nextOffset (off : BitVec 64) : BitVec 64 := ((img.inode off).next &&& romfhMask 32).setWidth 64

/-- A hard link has the number in its spec field. -/
def dirent (off : BitVec 64) : Dirent :=
  { name := img.name off
    pos := off
    ino := if fileType (img.inode off).next = .hrd then (img.inode off).spec.signExtend 64 else off
    type := romfsDtypeTable (fileType (img.inode off).next) }

/-- The entry as `romfs_readdir` emits it: its number goes through an int. -/
def shown (off : BitVec 64) : Dirent :=
  { img.dirent off with
    ino := (if fileType (img.inode off).next = .hrd then (img.inode off).spec
      else off.setWidth 32).signExtend 64 }

end Image

/-- The headers from `off` on: they end with an offset that is 0 or not in the image. -/
inductive Chain (img : Image) (maxoff : BitVec 64) : BitVec 64 → List (BitVec 64) → Prop
  | nil {off : BitVec 64} (h : off = 0 ∨ maxoff ≤ off) : Chain img maxoff off []
  | cons {off : BitVec 64} {offs : List (BitVec 64)} (hne : off ≠ 0) (hlt : off < maxoff)
      (rest : Chain img maxoff (img.nextOffset off) offs) : Chain img maxoff off (off :: offs)

/-- The entries of the chain whose name is not the hidden one. -/
def visible (img : Image) (hided : List Byte) (offs : List (BitVec 64)) : List Dirent :=
  (offs.filter fun off => img.name off ≠ cstr hided).map img.dirent

/-- The device reads the header and the name at `off` as they are in the image. -/
structure Serves (dev : Dev) (img : Image) (off : BitVec 64) : Prop where
  inode : dev.read off romfhSize = .ok (img.bytes off.toNat romfhSize)
  len   : dev.strnlen (off + BitVec.ofNat 64 romfhSize) (romfsMaxfn - 1) =
    .ok (img.name off).length
  name  : dev.read (off + BitVec.ofNat 64 romfhSize) (img.name off).length = .ok (img.name off)

section Chains

variable {img : Image} {maxoff off : BitVec 64} {offs : List (BitVec 64)}

theorem Chain.unique {offs' : List (BitVec 64)} (h : Chain img maxoff off offs)
    (h' : Chain img maxoff off offs') : offs = offs' := by
  induction h generalizing offs' with
  | nil hend =>
    cases h' with
    | nil _ => rfl
    | cons hne hlt _ => exact absurd hend (not_or.mpr ⟨hne, BitVec.not_le.mpr hlt⟩)
  | cons hne hlt _ ih =>
    cases h' with
    | nil hend => exact absurd hend (not_or.mpr ⟨hne, BitVec.not_le.mpr hlt⟩)
    | cons _ _ hrest => rw [ih hrest]

/-- The chain from a header on is the end of the whole chain. -/
theorem Chain.suffix {x : BitVec 64} (h : Chain img maxoff off offs) (hx : x ∈ offs) :
    ∃ rest, Chain img maxoff x (x :: rest) ∧ (x :: rest) <:+ offs := by
  induction h with
  | nil _ => cases hx
  | @cons off offs hne hlt hrest ih =>
    rcases List.mem_cons.mp hx with rfl | hx
    · exact ⟨offs, .cons hne hlt hrest, List.suffix_rfl⟩
    · obtain ⟨rest, hc, hsuf⟩ := ih hx
      exact ⟨rest, hc, hsuf.trans (List.suffix_cons _ _)⟩

/-- A finite chain does not come back to a header. -/
theorem Chain.nodup (h : Chain img maxoff off offs) : offs.Nodup := by
  induction h with
  | nil _ => exact List.nodup_nil
  | @cons off offs hne hlt hrest ih =>
    refine List.nodup_cons.mpr ⟨fun hmem => ?_, ih⟩
    obtain ⟨rest, hc, hsuf⟩ := hrest.suffix hmem
    have heq := hc.unique (.cons hne hlt hrest)
    rw [heq] at hsuf
    have hle := hsuf.length_le
    rw [List.length_cons] at hle
    omega

theorem visible_nodup (hided : List Byte) (h : offs.Nodup) : (visible img hided offs).Nodup := by
  refine (h.filter _).map fun x y hxy => ?_
  exact congrArg Dirent.pos hxy

/-- The offset of the loop is extended with the sign, that of the image is not. This
makes no difference for a chain below 2^31. -/
theorem Chain.signExtend {v : BitVec 32} (h : Chain img maxoff (v.setWidth 64) offs)
    (hsmall : ∀ o ∈ offs, o < 0x80000000#64) : Chain img maxoff (v.signExtend 64) offs := by
  by_cases hmsb : v.msb = false
  · rwa [BitVec.signExtend_eq_setWidth_of_msb_false hmsb]
  · rw [Bool.not_eq_false] at hmsb
    have hbig : 0x80000000#64 ≤ v.setWidth 64 := by
      rw [BitVec.msb_eq_decide, decide_eq_true_eq] at hmsb
      rw [BitVec.le_def, BitVec.toNat_setWidth]
      simp only [BitVec.toNat_ofNat]
      omega
    cases h with
    | nil hend =>
      refine .nil (Or.inr ?_)
      have hle : maxoff ≤ v.setWidth 64 := by
        refine hend.resolve_left fun hzero => ?_
        rw [hzero] at hbig
        exact absurd hbig (by decide)
      rw [BitVec.le_def] at hle ⊢
      rw [BitVec.toNat_signExtend]
      omega
    | cons hne hlt hrest =>
      have := hsmall _ (List.mem_cons_self ..)
      exact absurd hbig (BitVec.not_le.mpr this)

end Chains

/-! ## One call -/

section Call

variable {dev : Dev} {img : Image} {hided : List Byte} {off : BitVec 64}
  {offs : List (BitVec 64)}

theorem Serves.fetchEntry (h : Serves dev img off) :
    fetchEntry dev off = .ok (img.inode off, img.name off) := by
  unfold Romfs.fetchEntry
  rw [h.inode]
  dsimp only
  rw [h.len]
  dsimp only
  rw [h.name]
  rfl

theorem cstr_name (img : Image) (off : BitVec 64) : cstr (img.name off) = img.name off :=
  List.takeWhile_idem ..

/-- The number of an entry goes through an int. -/
theorem setWidth_signExtend_of_lt (h : off < 0x80000000#64) :
    (off.setWidth 32).signExtend 64 = off := by
  have hlt : off.toNat < 2 ^ 31 := h
  have hmsb : (off.setWidth 32).msb = false := by
    rw [BitVec.msb_eq_false_iff_two_mul_lt, BitVec.toNat_setWidth]
    omega
  rw [BitVec.signExtend_eq_setWidth_of_msb_false hmsb]
  apply BitVec.eq_of_toNat_eq
  simp only [BitVec.toNat_setWidth]
  omega

theorem Image.shown_eq_dirent (img : Image) (h : off < 0x80000000#64) :
    img.shown off = img.dirent off := by
  unfold Image.shown Image.dirent
  split
  · rfl
  · rw [setWidth_signExtend_of_lt h]

theorem visible_cons_hidden (h : img.name off = cstr hided) :
    visible img hided (off :: offs) = visible img hided offs := by
  unfold visible
  rw [List.filter_cons_of_neg (by simpa using h)]

theorem visible_cons_shown (h : img.name off ≠ cstr hided) :
    visible img hided (off :: offs) = img.dirent off :: visible img hided offs := by
  unfold visible
  rw [List.filter_cons_of_pos (by simpa using h), List.map_cons]

/-- One round of the loop at a header of the image. -/
theorem readdirLoop_cons (hs : Serves dev img off) (hne : off ≠ 0) (hlt : off < dev.maxsize)
    (fuel : Nat) (ctx : DirContext) :
    readdirLoop dev (some hided) (fuel + 1) off ctx =
      if img.name off = cstr hided then
        readdirLoop dev (some hided) fuel (((img.inode off).next &&& romfhMask 32).signExtend 64)
          { ctx with pos := off }
      else
        match ctx.room with
        | 0 => .done { ctx with pos := off }
        | n + 1 =>
          readdirLoop dev (some hided) fuel (((img.inode off).next &&& romfhMask 32).signExtend 64)
            { pos := off, room := n, entries := ctx.entries ++ [img.shown off] } := by
  rw [readdirLoop, if_neg (not_or.mpr ⟨hne, BitVec.not_le.mpr hlt⟩), hs.fetchEntry]
  dsimp only
  rw [strcmpEq, cstr_name]
  by_cases hhid : img.name off = cstr hided
  · rw [if_pos hhid, if_pos (beq_iff_eq.mpr hhid)]
  · rw [if_neg hhid, if_neg (fun h => hhid (beq_iff_eq.mp h)), dirEmit]
    dsimp only
    cases ctx.room with
    | zero => rfl
    | succ n => rfl

/-- **One call.** From a chain with enough rounds, the loop emits the visible entries
the reader has room for, and leaves `ctx->pos` at the chain of the others. -/
theorem readdirLoop_chain (hided : List Byte) (hc : Chain img dev.maxsize off offs)
    (hserve : ∀ o ∈ offs, Serves dev img o) (hsmall : ∀ o ∈ offs, o < 0x80000000#64)
    {fuel : Nat} (hfuel : offs.length < fuel) (ctx : DirContext) :
    ∃ ctx' rest, readdirLoop dev (some hided) fuel off ctx = .done ctx' ∧
      ctx'.entries = ctx.entries ++ (visible img hided offs).take ctx.room ∧
      rest <:+ offs ∧ Chain img dev.maxsize ctx'.pos rest ∧
      visible img hided rest = (visible img hided offs).drop ctx.room ∧
      (visible img hided rest = [] → ctx'.pos = dev.maxsize) ∧
      (ctx'.pos = 0 → dev.maxsize = 0) := by
  -- along the chain; a hidden entry uses no room
  induction offs generalizing off fuel ctx with
  | nil =>
    cases hc with
    | nil hend =>
      obtain ⟨fuel, rfl⟩ := Nat.exists_eq_add_of_lt hfuel
      refine ⟨{ ctx with pos := dev.maxsize }, [], ?_, ?_, List.suffix_rfl,
        .nil (Or.inr (BitVec.le_refl _)), ?_, fun _ => rfl, fun h => h⟩
      · rw [readdirLoop, if_pos hend]
      · simp [visible]
      · simp [visible]
  | cons o offs ih =>
    cases hc with
    | cons hne hlt hrest =>
      obtain ⟨fuel, rfl⟩ : ∃ n, fuel = n + 1 := Nat.exists_eq_add_one_of_ne_zero (by omega)
      have hmem : o ∈ o :: offs := List.mem_cons_self ..
      have hserve' : ∀ x ∈ offs, Serves dev img x :=
        fun x hx => hserve x (List.mem_cons_of_mem o hx)
      have hsmall' : ∀ x ∈ offs, x < 0x80000000#64 :=
        fun x hx => hsmall x (List.mem_cons_of_mem o hx)
      have hnext : Chain img dev.maxsize
          (((img.inode o).next &&& romfhMask 32).signExtend 64) offs :=
        Chain.signExtend hrest hsmall'
      have hfuel' : offs.length < fuel := by
        rw [List.length_cons] at hfuel
        omega
      rw [readdirLoop_cons (hserve o hmem) hne hlt, img.shown_eq_dirent (hsmall o hmem)]
      by_cases hhid : img.name o = cstr hided
      · rw [if_pos hhid, visible_cons_hidden hhid]
        obtain ⟨ctx', rest, hloop, hent, hsuf, hrest'⟩ :=
          ih hnext hserve' hsmall' hfuel' { ctx with pos := o }
        exact ⟨ctx', rest, hloop, hent, hsuf.trans (List.suffix_cons ..), hrest'⟩
      · rw [if_neg hhid, visible_cons_shown hhid]
        cases hroom : ctx.room with
        | zero =>
          -- refused: the next call starts with this entry
          refine ⟨{ ctx with pos := o, room := 0 }, o :: offs, rfl, ?_, List.suffix_rfl,
            .cons hne hlt hrest, ?_, ?_, fun h => absurd h hne⟩
          · rw [List.take_zero, List.append_nil]
          · rw [visible_cons_shown hhid, List.drop_zero]
          · rw [visible_cons_shown hhid]
            simp
        | succ n =>
          obtain ⟨ctx', rest, hloop, hent, hsuf, hrest'⟩ := ih hnext hserve' hsmall' hfuel'
            { pos := o, room := n, entries := ctx.entries ++ [img.dirent o] }
          refine ⟨ctx', rest, hloop, ?_, hsuf.trans (List.suffix_cons ..), hrest'⟩
          rw [hent, List.take_succ_cons, List.append_assoc]
          rfl

end Call

/-! ## Any sequence of calls -/

/-- One call of `romfs_readdir` by a reader with room for so many entries. -/
def readdirCall (dev : Dev) (hidedFileName : Option (List Byte)) (fuel : Nat) (ino : BitVec 64)
    (ctx : DirContext) (room : Nat) : Option DirContext :=
  match romfsReaddir dev hidedFileName fuel ino { ctx with room := room } with
  | .done ctx => some ctx
  | .oops => none
  | .running => none

/-- `vs` are the entries that are still to come when a call starts with `ctx`. -/
structure Pending (dev : Dev) (img : Image) (hided : List Byte) (fuel : Nat) (ino : BitVec 64)
    (ctx : DirContext) (vs : List Dirent) : Prop where
  dir   : dev.read (ino &&& romfhMask 64) romfhSize =
    .ok (img.bytes (ino &&& romfhMask 64).toNat romfhSize)
  chain : ∃ off offs, startOffset dev ino ctx.pos = .ok off ∧ Chain img dev.maxsize off offs ∧
    (∀ o ∈ offs, Serves dev img o) ∧ (∀ o ∈ offs, o < 0x80000000#64) ∧ offs.length < fuel ∧
    visible img hided offs = vs

section Calls

variable {dev : Dev} {img : Image} {hided : List Byte} {fuel : Nat} {ino : BitVec 64}
  {ctx : DirContext} {vs : List Dirent}

/-- A call emits the next entries, as many as there is room for. It ends at
`maxoff` exactly if none is left. -/
theorem Pending.call (h : Pending dev img hided fuel ino ctx vs) (room : Nat) :
    ∃ ctx', readdirCall dev (some hided) fuel ino ctx room = some ctx' ∧
      ctx'.entries = ctx.entries ++ vs.take room ∧
      Pending dev img hided fuel ino ctx' (vs.drop room) ∧
      (ctx'.pos = dev.maxsize ↔ vs.drop room = []) := by
  obtain ⟨hdir, off, offs, hstart, hchain, hserve, hsmall, hfuel, hvs⟩ := h
  obtain ⟨ctx', rest, hloop, hent, hsuf, hrest, hvis, hend, hzero⟩ :=
    readdirLoop_chain hided hchain hserve hsmall hfuel { ctx with room := room }
  rw [hvs] at hent hvis
  refine ⟨ctx', ?_, hent, ⟨hdir, ?_⟩, fun hpos => ?_, fun hnil => hend (hvis.trans hnil)⟩
  · -- the call itself
    rw [readdirCall, romfsReaddir, hstart]
    dsimp only
    rw [hloop]
  · -- what is left is again a chain, from where the position points
    have hmem : ∀ o ∈ rest, o ∈ offs := fun o ho => hsuf.subset ho
    have hlen := hsuf.length_le
    refine ⟨if ctx'.pos = 0 then img.firstOffset (ino &&& romfhMask 64) else ctx'.pos, rest,
      ?_, ?_, fun o ho => hserve o (hmem o ho), fun o ho => hsmall o (hmem o ho), by omega, hvis⟩
    · rw [startOffset, hdir]
      split
      · rfl
      · rfl
    · split
      · -- position 0 is the end of an empty image
        next h0 =>
        have hmax := hzero h0
        rw [h0] at hrest
        cases hrest with
        | nil _ =>
          refine .nil (Or.inr ?_)
          rw [hmax, BitVec.le_def]
          exact Nat.zero_le _
        | cons hne _ _ => exact absurd rfl hne
      · exact hrest
  · -- a chain with something left starts below maxoff
    rw [← hvis]
    cases hrest with
    | nil _ => rfl
    | cons _ hlt _ =>
      rw [hpos] at hlt
      exact absurd hlt (BitVec.lt_irrefl _)

/-- Call after call. -/
theorem Pending.calls (h : Pending dev img hided fuel ino ctx vs) (rooms : List Nat) :
    ∃ ctx', run (readdirCall dev (some hided) fuel ino) ctx rooms = some ctx' ∧
      ctx'.entries = ctx.entries ++ vs.take rooms.sum ∧
      Pending dev img hided fuel ino ctx' (vs.drop rooms.sum) ∧
      (rooms ≠ [] → (ctx'.pos = dev.maxsize ↔ vs.drop rooms.sum = [])) := by
  induction rooms generalizing ctx vs with
  | nil =>
    refine ⟨ctx, rfl, ?_, h, fun hne => absurd rfl hne⟩
    rw [List.sum_nil, List.take_zero, List.append_nil]
  | cons room rooms ih =>
    obtain ⟨ctx₁, hcall, hent₁, hpend₁, hpos₁⟩ := h.call room
    obtain ⟨ctx₂, hrun, hent₂, hpend₂, hpos₂⟩ := ih hpend₁
    rw [List.drop_drop] at hpend₂ hpos₂
    refine ⟨ctx₂, ?_, ?_, ?_, fun _ => ?_⟩
    · rw [run, hcall]
      exact hrun
    · rw [hent₂, hent₁, List.append_assoc, List.sum_cons, List.take_add]
    · rwa [List.sum_cons]
    · rw [List.sum_cons]
      cases rooms with
      | nil =>
        obtain rfl := Option.some.inj hrun
        exact hpos₁
      | cons r rs => exact hpos₂ (List.cons_ne_nil r rs)

end Calls

/-- **Listing a directory.** Let the chain of a directory be finite, below 2^31, and
read without errors, and let the reader start at position 0 and make a call with room
for `room` entries and then calls with room for `rooms` entries, at least one each.
All calls return, and together they emit the first entries of the chain that are not
hidden, in order and without repetition, as many as there was room for. The reader is
at `maxoff` exactly when these are all; it is there after at most as many more calls
as there are entries; and no call after that emits anything. -/
theorem romfs_readdir_listing (dev : Dev) (img : Image) (hided : List Byte) (ino : BitVec 64)
    (hdir : dev.read (ino &&& romfhMask 64) romfhSize =
      .ok (img.bytes (ino &&& romfhMask 64).toNat romfhSize))
    (offs : List (BitVec 64))
    (hchain : Chain img dev.maxsize (img.firstOffset (ino &&& romfhMask 64)) offs)
    (hserve : ∀ o ∈ offs, Serves dev img o) (hsmall : ∀ o ∈ offs, o < 0x80000000#64)
    (fuel : Nat) (hfuel : offs.length < fuel) (room : Nat) (rooms : List Nat)
    (hrooms : ∀ r ∈ rooms, 1 ≤ r) :
    ∃ ctx, run (readdirCall dev (some hided) fuel ino) ⟨0, 0, []⟩ (room :: rooms) = some ctx ∧
      ctx.entries = (visible img hided offs).take (room + rooms.sum) ∧
      (visible img hided offs).Nodup ∧
      (ctx.pos = dev.maxsize ↔ ctx.entries = visible img hided offs) ∧
      ((visible img hided offs).length ≤ rooms.length → ctx.pos = dev.maxsize) ∧
      (ctx.pos = dev.maxsize → ∀ more, ∃ ctx',
        run (readdirCall dev (some hided) fuel ino) ctx more = some ctx' ∧
        ctx'.entries = ctx.entries ∧ ctx'.pos = dev.maxsize) := by
  -- nothing is emitted yet: the whole listing is pending
  have hstart : Pending dev img hided fuel ino ⟨0, 0, []⟩ (visible img hided offs) := by
    refine ⟨hdir, _, offs, ?_, hchain, hserve, hsmall, hfuel, rfl⟩
    rw [startOffset, if_pos rfl, hdir]
    rfl
  obtain ⟨ctx, hrun, hent, hpend, hpos⟩ := hstart.calls (room :: rooms)
  have hpos := hpos (List.cons_ne_nil room rooms)
  rw [List.sum_cons] at hent hpend hpos
  rw [List.nil_append] at hent
  refine ⟨ctx, hrun, hent, visible_nodup hided hchain.nodup, ?_, fun hlen => ?_,
    fun hend more => ?_⟩
  · rw [hpos, hent, List.drop_eq_nil_iff, List.take_eq_self_iff]
  · -- each further call takes at least one entry
    have hsum : rooms.length ≤ rooms.sum := List.length_le_sum_of_one_le rooms hrooms
    rw [hpos, List.drop_eq_nil_iff]
    omega
  · -- at the end nothing is pending, and further calls emit nothing
    rw [hpos.mp hend] at hpend
    obtain ⟨ctx', hrun', hent', -, hpos'⟩ := hpend.calls more
    refine ⟨ctx', hrun', ?_, ?_⟩
    · rw [hent', List.take_nil, List.append_nil]
    · cases more with
      | nil =>
        obtain rfl := Option.some.inj hrun'
        exact hend
      | cons r rs => exact (hpos' (List.cons_ne_nil r rs)).mpr List.drop_nil

/-- A device that reads from an image. -/
def Image.dev (img : Image) (maxsize : BitVec 64) : Dev where
  maxsize := maxsize
  read pos len := .ok (img.bytes pos.toNat len)
  strnlen pos len := .ok (cstr (img.bytes pos.toNat len)).length

theorem Image.dev_serves (img : Image) (maxsize : BitVec 64) {off : BitVec 64}
    (h : off < 0x80000000#64) : Serves (img.dev maxsize) img off := by
  have hlt : off.toNat < 2 ^ 31 := h
  have hadd : (off + BitVec.ofNat 64 romfhSize).toNat = off.toNat + romfhSize := by
    rw [BitVec.toNat_add, BitVec.toNat_ofNat, romfhSize]
    omega
  refine ⟨rfl, ?_, ?_⟩
  · show Except.ok (cstr (img.bytes (off + BitVec.ofNat 64 romfhSize).toNat _)).length = _
    rw [hadd]
    rfl
  · show Except.ok (img.bytes (off + BitVec.ofNat 64 romfhSize).toNat _) = _
    rw [hadd]
    -- a name is the beginning of what is read with the largest length
    have hpre : img.name off <+: img.bytes (off.toNat + romfhSize) (romfsMaxfn - 1) :=
      List.takeWhile_prefix _
    have hle := hpre.length_le
    conv_rhs => rw [List.prefix_iff_eq_take.mp hpre]
    unfold Image.bytes at hle ⊢
    rw [List.length_map, List.length_range] at hle
    rw [← List.map_take, List.take_range, Nat.min_eq_left hle]

/-- A directory at 32 that holds the regular files a, b and c. -/
def sampleImage : Image
  | 35 => 1
  | 39 => 64
  | 67 => 98
  | 80 => 97
  | 99 => 130
  | 112 => 98
  | 131 => 2
  | 144 => 99
  | _ => 0

theorem sampleImage_chain :
    Chain sampleImage 160 (sampleImage.firstOffset (32 &&& romfhMask 64)) [64, 96, 128] := by
  have h0 : sampleImage.firstOffset (32 &&& romfhMask 64) = 64 := by decide +kernel
  have h1 : sampleImage.nextOffset 64 = 96 := by decide +kernel
  have h2 : sampleImage.nextOffset 96 = 128 := by decide +kernel
  have h3 : sampleImage.nextOffset 128 = 0 := by decide +kernel
  rw [h0]
  refine .cons (by decide) (by decide) ?_
  rw [h1]
  refine .cons (by decide) (by decide) ?_
  rw [h2]
  refine .cons (by decide) (by decide) ?_
  rw [h3]
  exact .nil (Or.inl rfl)

theorem sampleImage_small : ∀ o ∈ ([64, 96, 128] : List (BitVec 64)), o < 0x80000000#64 := by
  intro o ho
  simp only [List.mem_cons, List.not_mem_nil, or_false] at ho
  rcases ho with rfl | rfl | rfl <;> decide

/-- b is hidden, and the reader takes one entry at a time. -/
theorem romfs_readdir_listing_sample : ∃ ctx,
    run (readdirCall (sampleImage.dev 160) (some [98]) 4 32) ⟨0, 0, []⟩ [1, 1] = some ctx ∧
    ctx.entries.map (·.name) = [[97], [99]] ∧ ctx.pos = 160 := by
  obtain ⟨ctx, hrun, hent, -, hpos, -⟩ := romfs_readdir_listing (sampleImage.dev 160) sampleImage
    [98] 32 rfl [64, 96, 128] sampleImage_chain
    (fun o ho => sampleImage.dev_serves 160 (sampleImage_small o ho)) sampleImage_small
    4 (by decide) 1 [1] (by decide)
  have hvis : (visible sampleImage [98] [64, 96, 128]).take 2 =
      visible sampleImage [98] [64, 96, 128] :=
    by decide +kernel
  refine ⟨ctx, hrun, ?_, hpos.mpr (hent.trans hvis)⟩
  rw [hent]
  decide +kernel

end LinuxKernel.Romfs
