import LinuxKernel.Romfs.Lookup
import LinuxKernel.Romfs.Listing
import Mathlib.Data.List.Find

/-!
# romfs — `romfs_readdir` and `romfs_lookup`

Both functions go along the headers of a directory. `romfs_lookup` keeps an offset as
an `unsigned long` all along. `romfs_readdir` keeps the next offset and the number of an
entry in an `int`, cuts names at `ROMFS_MAXFN - 1` bytes, and does not follow the hard
links it lists.

* `reach`                      — the headers `romfs_readdir` comes to.
* `Settles`                    — where the hard links from a header end.
* `Image.Consistent`           — the images and names for which the two agree.
* `readdir_agrees_with_lookup` — they agree for these and for no others.
-/

namespace LinuxKernel.Romfs

/-! ## What an image says -/

namespace Image

variable (img : Image)

/-- The name behind the header is n, up to and with its NUL. -/
def Named (off : BitVec 64) (n : List Byte) : Prop :=
  img.bytes (off.toNat + romfhSize) (n.length + 1) = n ++ [0]

instance (off : BitVec 64) (n : List Byte) : Decidable (img.Named off n) :=
  inferInstanceAs (Decidable (_ = _))

/-- The header an entry stands for: the one a hard link names, or its own. -/
def number (off : BitVec 64) : BitVec 64 :=
  if fileType (img.inode off).next = .hrd then (img.inode off).spec.setWidth 64 else off

end Image

/-- The hard links from `off`, which are read without errors, end at `p`. -/
inductive Settles (dev : Dev) (img : Image) : BitVec 64 → BitVec 64 → Prop
  | file {off : BitVec 64} (hread : dev.read off romfhSize = .ok (img.bytes off.toNat romfhSize))
      (htype : fileType (img.inode off).next ≠ .hrd) {nlen : Nat}
      (hlen : dev.strnlen (off + BitVec.ofNat 64 romfhSize) romfsMaxfn = .ok nlen) :
      Settles dev img off off
  | link {off p : BitVec 64} (hread : dev.read off romfhSize = .ok (img.bytes off.toNat romfhSize))
      (htype : fileType (img.inode off).next = .hrd)
      (rest : Settles dev img (img.firstOffset off) p) : Settles dev img off p

/-- The part of a chain `romfs_readdir` lists: its first header, and the others up to the
first one at or above 2^31, where the next offset turns negative. -/
def reach : List (BitVec 64) → List (BitVec 64)
  | [] => []
  | off :: offs => off :: offs.takeWhile (· < 0x80000000#64)

/-- The two functions agree on `n` in a directory with the headers `offs`: no header is
listed as `n`; or the first one that would be is out of reach, and none has the
name; or it is in reach and stands for a position below 2^31, which is where the first
header with the name leads. -/
def Image.Consistent (img : Image) (dev : Dev) (offs : List (BitVec 64)) (n : List Byte) : Prop :=
  match offs.find? (fun o => img.name o = n), offs.find? (fun o => img.Named o n) with
  | none, _ => True
  | some e, none => e ∉ reach offs
  | some e, some f =>
    e ∈ reach offs ∧ img.number e < 0x80000000#64 ∧ Settles dev img f (img.number e)

/-- `n` is listed exactly if it is found, and with the number of what is found. -/
def ListedAsFound (entries : List Dirent) (res : LookupResult) (n : List Byte) : Prop :=
  ((∃ d ∈ entries, d.name = n) ↔ ∃ i, res = .inode i) ∧
  ∀ d i, entries.find? (fun d => d.name = n) = some d → res = .inode i → d.ino = i

section Facts

variable {dev : Dev} {img : Image} {off p : BitVec 64} {offs : List (BitVec 64)} {n : List Byte}

theorem Settles.unique {q : BitVec 64} (h : Settles dev img off p) (h' : Settles dev img off q) :
    p = q := by
  induction h with
  | file _ htype _ =>
    cases h' with
    | file _ _ _ => rfl
    | link _ hhrd _ => exact absurd hhrd htype
  | link _ hhrd _ ih =>
    cases h' with
    | file _ htype _ => exact absurd hhrd htype
    | link _ _ hrest => exact ih hrest

/-- A link field has 32 bits. -/
theorem Settles.lt (h : Settles dev img off p) (hoff : off.toNat < 2 ^ 32) : p.toNat < 2 ^ 32 := by
  induction h with
  | file _ _ _ => exact hoff
  | @link off p _ _ _ ih =>
    refine ih ?_
    rw [Image.firstOffset, BitVec.toNat_setWidth]
    exact Nat.lt_of_le_of_lt (Nat.mod_le _ _) (BitVec.isLt _)

theorem reach_initial (offs : List (BitVec 64)) : reach offs <+: offs := by
  cases offs with
  | nil => exact List.prefix_rfl
  | cons off offs => exact (List.prefix_cons_inj off).mpr (List.takeWhile_prefix _)

/-- The first header of the part is the first one of the whole chain, if that is in reach. -/
theorem find?_reach (q : BitVec 64 → Bool) :
    (reach offs).find? q = (offs.find? q).filter (· ∈ reach offs) := by
  cases hpart : (reach offs).find? q with
  | some e =>
    have hmem : e ∈ reach offs := List.mem_of_find?_eq_some hpart
    rw [(reach_initial offs).find?_eq_some hpart, Option.filter_some, if_pos (decide_eq_true hmem)]
  | none =>
    cases hall : offs.find? q with
    | none => rfl
    | some e =>
      have hmem : e ∉ reach offs := fun hmem =>
        List.find?_eq_none.mp hpart e hmem (List.find?_some hall)
      rw [Option.filter_some, if_neg (by simpa using hmem)]

theorem cstr_eq_self (hnul : 0 ∉ n) : cstr n = n :=
  List.takeWhile_eq_self_iff.mpr fun _ hb => decide_eq_true fun hb0 => hnul (hb0 ▸ hb)

theorem cstr_append_nul (hnul : 0 ∉ n) (rest : List Byte) : cstr (n ++ 0 :: rest) = n := by
  rw [cstr, List.takeWhile_append_of_pos, List.takeWhile_cons_of_neg, List.append_nil]
  · decide
  · exact fun b hb => decide_eq_true fun hb0 => hnul (hb0 ▸ hb)

theorem Image.bytes_add (img : Image) (pos a b : Nat) :
    img.bytes pos (a + b) = img.bytes pos a ++ img.bytes (pos + a) b := by
  unfold Image.bytes
  rw [List.range_add, List.map_append, List.map_map]
  congr 1
  exact List.map_congr_left fun i _ => by rw [Function.comp_apply, Nat.add_assoc]

/-- A name that fits is listed as it is. -/
theorem Image.Named.name (h : img.Named off n) (hlen : n.length ≤ romfsMaxfn - 1) (hnul : 0 ∉ n) :
    img.name off = n := by
  unfold Image.Named at h
  unfold Image.name
  rcases Nat.lt_or_eq_of_le hlen with hlt | heq
  · -- the NUL is read as well
    obtain ⟨k, hk⟩ : ∃ k, romfsMaxfn - 1 = (n.length + 1) + k :=
      ⟨romfsMaxfn - 1 - (n.length + 1), by omega⟩
    rw [hk, img.bytes_add, h, List.append_assoc]
    exact cstr_append_nul hnul _
  · rw [img.bytes_add] at h
    obtain ⟨hn, -⟩ := List.append_inj' h rfl
    rw [← heq, hn, cstr_eq_self hnul]

theorem listedAsFound_negative {entries : List Dirent} :
    ListedAsFound entries .negative n ↔ entries.find? (fun d => d.name = n) = none := by
  unfold ListedAsFound
  rw [List.find?_eq_none]
  constructor
  · rintro ⟨hiff, -⟩ d hd hname
    obtain ⟨i, hi⟩ := hiff.mp ⟨d, hd, of_decide_eq_true hname⟩
    cases hi
  · refine fun hnone => ⟨⟨?_, by simp⟩, by simp⟩
    rintro ⟨d, hd, hname⟩
    exact absurd (decide_eq_true hname) (hnone d hd)

theorem listedAsFound_inode {entries : List Dirent} {i : BitVec 64} :
    ListedAsFound entries (.inode i) n ↔
      ∃ d, entries.find? (fun d => d.name = n) = some d ∧ d.ino = i := by
  unfold ListedAsFound
  constructor
  · rintro ⟨hiff, hino⟩
    obtain ⟨d, hd, hname⟩ := hiff.mpr ⟨i, rfl⟩
    obtain ⟨d', hd'⟩ := Option.isSome_iff_exists.mp
      ((List.find?_isSome (p := fun d => d.name = n)).mpr ⟨d, hd, decide_eq_true hname⟩)
    exact ⟨d', hd', hino d' i hd' rfl⟩
  · rintro ⟨d, hd, hino⟩
    refine ⟨⟨fun _ => ⟨i, rfl⟩, fun _ => ?_⟩, fun d' i' hd' hi' => ?_⟩
    · exact ⟨d, List.mem_of_find?_eq_some hd, by simpa using List.find?_some hd⟩
    · cases hi'
      rw [hd, Option.some.injEq] at hd'
      rw [← hd', hino]

/-- A 32-bit value that is extended with the sign is a 32-bit number exactly below 2^31. -/
theorem signExtend_eq_iff {v : BitVec 32} (hp : p.toNat < 2 ^ 32) :
    v.signExtend 64 = p ↔ v.setWidth 64 < 0x80000000#64 ∧ v.setWidth 64 = p := by
  have hv := v.isLt
  rw [← BitVec.toNat_inj, ← BitVec.toNat_inj, BitVec.lt_def, BitVec.toNat_signExtend,
    BitVec.toNat_setWidth, BitVec.msb_eq_decide]
  simp only [BitVec.toNat_ofNat, decide_eq_true_eq]
  split <;> omega

theorem shown_ino_eq_iff (hoff : off.toNat < 2 ^ 32) (hp : p.toNat < 2 ^ 32) :
    (img.shown off).ino = p ↔ img.number off < 0x80000000#64 ∧ img.number off = p := by
  unfold Image.shown Image.number
  dsimp only
  split
  · exact signExtend_eq_iff hp
  · rw [signExtend_eq_iff hp]
    have hoff' : (off.setWidth 32).setWidth 64 = off := by
      apply BitVec.eq_of_toNat_eq
      simp only [BitVec.toNat_setWidth]
      omega
    rw [hoff']

end Facts

/-! ## A full listing -/

section Readdir

variable {dev : Dev} {img : Image} {hided : List Byte} {off : BitVec 64}
  {offs : List (BitVec 64)} {n : List Byte}

/-- The entries `romfs_readdir` emits for headers. -/
def listed (img : Image) (hided : List Byte) (offs : List (BitVec 64)) : List Dirent :=
  (offs.filter fun off => img.name off ≠ cstr hided).map img.shown

/-- The next round starts at the next header of the chain, or ends the loop if that is
at or above 2^31. -/
theorem Chain.reach_next {v : BitVec 32} (h : Chain img dev.maxsize (v.setWidth 64) offs)
    (hmax : dev.maxsize.toNat < 2 ^ 32) :
    (v.signExtend 64 = v.setWidth 64 ∧ offs.takeWhile (· < 0x80000000#64) = reach offs) ∨
    (dev.maxsize ≤ v.signExtend 64 ∧ offs.takeWhile (· < 0x80000000#64) = []) := by
  by_cases hv : v.setWidth 64 < 0x80000000#64
  · refine Or.inl ⟨(signExtend_eq_iff ?_).mpr ⟨hv, rfl⟩, ?_⟩
    · exact Nat.lt_trans hv (by decide)
    · cases h with
      | nil _ => rfl
      | cons _ _ _ => rw [List.takeWhile_cons_of_pos (by simpa using hv), reach]
  · refine Or.inr ⟨?_, ?_⟩
    · have hv' := v.isLt
      rw [BitVec.lt_def, BitVec.toNat_setWidth] at hv
      rw [BitVec.le_def, BitVec.toNat_signExtend, BitVec.toNat_setWidth, BitVec.msb_eq_decide]
      simp only [BitVec.toNat_ofNat, decide_eq_true_eq] at hv ⊢
      split <;> omega
    · cases h with
      | nil _ => rfl
      | cons _ _ _ => rw [List.takeWhile_cons_of_neg (by simpa using hv)]

/-- **A full call.** A reader with room for all headers gets an entry for each one in reach
that is not hidden. -/
theorem readdirLoop_full (hided : List Byte) (hmax : dev.maxsize.toNat < 2 ^ 32)
    (hc : Chain img dev.maxsize off offs) (hserve : ∀ o ∈ offs, Serves dev img o) {fuel : Nat}
    (hfuel : offs.length < fuel) (ctx : DirContext) (hroom : offs.length ≤ ctx.room) :
    ∃ ctx', readdirLoop dev (some hided) fuel off ctx = .done ctx' ∧
      ctx'.entries = ctx.entries ++ listed img hided (reach offs) := by
  induction offs generalizing off fuel ctx with
  | nil =>
    cases hc with
    | nil hend =>
      obtain ⟨fuel, rfl⟩ := Nat.exists_eq_add_of_lt hfuel
      refine ⟨{ ctx with pos := dev.maxsize }, ?_, ?_⟩
      · rw [readdirLoop, if_pos hend]
      · exact (List.append_nil _).symm
  | cons o offs ih =>
    cases hc with
    | cons hne hlt hrest =>
      obtain ⟨fuel, rfl⟩ : ∃ n, fuel = n + 1 := Nat.exists_eq_add_one_of_ne_zero (by omega)
      obtain ⟨room, hroom'⟩ : ∃ n, ctx.room = n + 1 :=
        Nat.exists_eq_add_one_of_ne_zero (by rw [List.length_cons] at hroom; omega)
      rw [List.length_cons] at hfuel hroom
      -- what follows this header, with or without an entry for it
      have hnext : ∀ ctx₁ : DirContext, offs.length ≤ ctx₁.room → ∃ ctx',
          readdirLoop dev (some hided) fuel (((img.inode o).next &&& romfhMask 32).signExtend 64)
            ctx₁ = .done ctx' ∧
          ctx'.entries = ctx₁.entries ++ listed img hided (offs.takeWhile (· < 0x80000000#64)) := by
        intro ctx₁ hroom₁
        rcases Chain.reach_next hrest hmax with ⟨hsign, htake⟩ | ⟨hend, htake⟩
        · rw [hsign, htake]
          exact ih hrest (fun x hx => hserve x (List.mem_cons_of_mem o hx)) (by omega) ctx₁ hroom₁
        · obtain ⟨fuel, rfl⟩ : ∃ n, fuel = n + 1 := Nat.exists_eq_add_one_of_ne_zero (by omega)
          refine ⟨{ ctx₁ with pos := dev.maxsize }, ?_, ?_⟩
          · rw [readdirLoop, if_pos (Or.inr hend)]
          · rw [htake]
            exact (List.append_nil _).symm
      rw [readdirLoop_cons (hserve o (List.mem_cons_self ..)) hne hlt, hroom']
      by_cases hhid : img.name o = cstr hided
      · rw [if_pos hhid]
        obtain ⟨ctx', hloop, hent⟩ := hnext { ctx with pos := o } (by dsimp only; omega)
        refine ⟨ctx', by rw [← hloop, hroom'], ?_⟩
        rw [hent, reach, listed, listed, List.filter_cons_of_neg (by simpa using hhid)]
      · rw [if_neg hhid]
        obtain ⟨ctx', hloop, hent⟩ := hnext
          { pos := o, room := room, entries := ctx.entries ++ [img.shown o] } (by dsimp only; omega)
        refine ⟨ctx', hloop, ?_⟩
        rw [hent, reach, listed, listed, List.filter_cons_of_pos (by simpa using hhid),
          List.map_cons, List.append_assoc, List.singleton_append]

/-- The first entry with a name that is not hidden is that of the first header. -/
theorem find?_listed (hn : cstr hided ≠ n) :
    (listed img hided offs).find? (fun d => d.name = n) =
      (offs.find? fun o => img.name o = n).map img.shown := by
  unfold listed
  rw [List.find?_map, List.find?_filter]
  congr 1
  refine List.find?_congr fun o _ => ?_
  show decide (decide (img.name o ≠ cstr hided) = true ∧ decide (img.name o = n) = true) =
    decide (img.name o = n)
  rw [decide_eq_decide, decide_eq_true_eq, decide_eq_true_eq]
  exact ⟨fun h => h.2, fun h => ⟨fun h' => hn (h'.symm.trans h), h⟩⟩

end Readdir

/-! ## A lookup -/

section Lookup

variable {dev : LookupDev} {img : Image} {off p : BitVec 64} {offs : List (BitVec 64)}
  {n : List Byte}

/-- The loop of `romfs_lookup` stops at the first header with the name. -/
theorem findEntry_chain (hc : Chain img dev.maxsize off offs)
    (hread : ∀ o ∈ offs, dev.read o romfhSize = .ok (img.bytes o.toNat romfhSize))
    (hcmp : ∀ o ∈ offs, dev.strcmp (o + BitVec.ofNat 64 romfhSize) n =
      .ok (if img.Named o n then 1 else 0)) {fuel : Nat} (hfuel : offs.length < fuel) :
    findEntry dev n fuel off =
      .done (.ok ((offs.find? fun o => img.Named o n).map fun o => (o, img.inode o))) := by
  induction offs generalizing off fuel with
  | nil =>
    cases hc with
    | nil hend =>
      obtain ⟨fuel, rfl⟩ := Nat.exists_eq_add_of_lt hfuel
      rw [findEntry, if_pos hend]
      rfl
  | cons o offs ih =>
    cases hc with
    | cons hne hlt hrest =>
      obtain ⟨fuel, rfl⟩ : ∃ n, fuel = n + 1 := Nat.exists_eq_add_one_of_ne_zero (by omega)
      have hmem : o ∈ o :: offs := List.mem_cons_self ..
      rw [findEntry, if_neg (not_or.mpr ⟨hne, BitVec.not_le.mpr hlt⟩), hread o hmem]
      dsimp only
      rw [hcmp o hmem]
      dsimp only
      -- the entry is compared before the walk goes on
      by_cases hnamed : img.Named o n
      · rw [if_pos hnamed, if_pos rfl, List.find?_cons_of_pos (by simpa using hnamed)]
        rfl
      · rw [if_neg hnamed, if_neg Nat.zero_ne_one, List.find?_cons_of_neg (by simpa using hnamed)]
        exact ih hrest (fun x hx => hread x (List.mem_cons_of_mem o hx))
          (fun x hx => hcmp x (List.mem_cons_of_mem o hx))
          (by rw [List.length_cons] at hfuel; omega)

/-- `romfs_iget` gives the inode with the number of the header it settles on. -/
theorem Settles.romfsIget {dev : Dev} (h : Settles dev img off p) :
    ∃ rounds, ∀ fuel, rounds ≤ fuel → ∀ cache, ∃ cache',
      romfsIget dev true fuel cache off = .done (cache', .ok p) := by
  suffices hlinks : ∃ rounds, ∀ fuel, rounds ≤ fuel → ∃ nlen,
      followLinks dev fuel off = .done (.ok (p, img.bytes p.toNat romfhSize)) ∧
      dev.strnlen (p + BitVec.ofNat 64 romfhSize) romfsMaxfn = .ok nlen by
    obtain ⟨rounds, hrounds⟩ := hlinks
    refine ⟨rounds, fun fuel hfuel cache => ?_⟩
    obtain ⟨nlen, hfollow, hlen⟩ := hrounds fuel hfuel
    unfold Romfs.romfsIget igetLocked
    rw [hfollow, Exec.done_bind]
    dsimp only
    rw [hlen]
    dsimp only
    cases cache p with
    | some i => exact ⟨cache, rfl⟩
    | none => exact ⟨_, rfl⟩
  induction h with
  | @file off hread htype nlen hlen =>
    refine ⟨1, fun fuel hfuel => ⟨nlen, ?_, hlen⟩⟩
    obtain ⟨fuel, rfl⟩ : ∃ k, fuel = k + 1 := Nat.exists_eq_add_one_of_ne_zero (by omega)
    rw [followLinks, hread]
    exact if_pos htype
  | @link off p hread htype _ ih =>
    obtain ⟨rounds, hrounds⟩ := ih
    refine ⟨rounds + 1, fun fuel hfuel => ?_⟩
    obtain ⟨fuel, rfl⟩ : ∃ k, fuel = k + 1 := Nat.exists_eq_add_one_of_ne_zero (by omega)
    obtain ⟨nlen, hfollow, hlen⟩ := hrounds fuel (by omega)
    refine ⟨nlen, ?_, hlen⟩
    rw [followLinks, hread]
    exact (if_neg (not_not.mpr htype)).trans hfollow

theorem Settles.lookupMatched (h : Settles dev.toDev img off p) (exec n : List Byte) :
    ∃ rounds, ∀ fuel, rounds ≤ fuel → ∀ cache, ∃ cache',
      lookupMatched dev (some exec) true fuel n off (img.inode off) cache =
        .done (cache', .inode p) := by
  -- a link of the directory is followed before romfs_iget is called
  have hstart : Settles dev.toDev img (if fileType (img.inode off).next = .hrd then
      ((img.inode off).spec &&& romfhMask 32).setWidth 64 else off) p := by
    cases h with
    | file hread htype hlen =>
      rw [if_neg htype]
      exact .file hread htype hlen
    | link _ htype hrest =>
      rw [if_pos htype]
      exact hrest
  obtain ⟨rounds, hrounds⟩ := hstart.romfsIget
  refine ⟨rounds, fun fuel hfuel cache => ?_⟩
  obtain ⟨cache₁, higet⟩ := hrounds fuel hfuel cache
  unfold Romfs.lookupMatched
  dsimp only
  rw [higet, Exec.done_bind]
  dsimp only
  split
  · exact ⟨_, rfl⟩
  · exact ⟨_, rfl⟩

/-- **A lookup.** It finds the inode where the first header with the name leads. -/
theorem romfsLookup_chain (exec : List Byte) {dir : BitVec 64}
    (hdir : dev.read (dir &&& romfhMask 64) romfhSize =
      .ok (img.bytes (dir &&& romfhMask 64).toNat romfhSize))
    (hc : Chain img dev.maxsize (img.firstOffset (dir &&& romfhMask 64)) offs)
    (hread : ∀ o ∈ offs, dev.read o romfhSize = .ok (img.bytes o.toNat romfhSize))
    (hcmp : ∀ o ∈ offs, dev.strcmp (o + BitVec.ofNat 64 romfhSize) n =
      .ok (if img.Named o n then 1 else 0))
    (hlinks : ∀ o ∈ offs, ∃ p, Settles dev.toDev img o p) :
    ∃ rounds, ∀ fuel, rounds ≤ fuel → ∀ cache, ∃ cache' res,
      romfsLookup dev (some exec) true fuel cache dir n = .done (cache', res) ∧
      match offs.find? (fun o => img.Named o n) with
      | none => res = .negative
      | some f => ∃ p, Settles dev.toDev img f p ∧ res = .inode p := by
  -- the walk over the entries, after which only the match has to be resolved
  have hwalk : ∀ fuel cache, offs.length < fuel →
      romfsLookup dev (some exec) true fuel cache dir n =
        match offs.find? (fun o => img.Named o n) with
        | none => .done (cache, .negative)
        | some f => lookupMatched dev (some exec) true fuel n f (img.inode f) cache := by
    intro fuel cache hfuel
    have hfind := findEntry_chain hc hread hcmp hfuel
    rw [romfsLookup, hdir]
    dsimp only
    rw [lookupLoop_eq]
    unfold Image.firstOffset Image.inode at hfind
    rw [hfind, Exec.done_bind]
    cases offs.find? (fun o => img.Named o n) with
    | none => rfl
    | some f => rfl
  cases hf : offs.find? (fun o => img.Named o n) with
  | none =>
    refine ⟨offs.length + 1, fun fuel hfuel cache => ⟨cache, .negative, ?_, rfl⟩⟩
    rw [hwalk fuel cache hfuel, hf]
  | some f =>
    obtain ⟨p, hp⟩ := hlinks f (List.mem_of_find?_eq_some hf)
    obtain ⟨rounds, hrounds⟩ := hp.lookupMatched exec n
    refine ⟨max rounds (offs.length + 1), fun fuel hfuel cache => ?_⟩
    obtain ⟨cache', hmatched⟩ := hrounds fuel (le_trans (le_max_left ..) hfuel) cache
    refine ⟨cache', .inode p, ?_, p, hp, rfl⟩
    rw [hwalk fuel cache (le_trans (le_max_right ..) hfuel), hf]
    exact hmatched

end Lookup

/-! ## Both -/

/-- **`romfs_readdir` and `romfs_lookup`.** Take a directory of an image of less than 2^32
bytes with a finite chain, from which finite links lead on, all read without errors, and
a name that fits and is not hidden. A full listing and a lookup both return, and they agree
on the name exactly if the image is consistent there. -/
theorem readdir_agrees_with_lookup (dev : LookupDev) (img : Image) (hided exec : List Byte)
    (dir : BitVec 64) (offs : List (BitVec 64)) (hmax : dev.maxsize.toNat < 2 ^ 32)
    (hdir : dev.read (dir &&& romfhMask 64) romfhSize =
      .ok (img.bytes (dir &&& romfhMask 64).toNat romfhSize))
    (hchain : Chain img dev.maxsize (img.firstOffset (dir &&& romfhMask 64)) offs)
    (hserve : ∀ o ∈ offs, Serves dev.toDev img o)
    (hlinks : ∀ o ∈ offs, ∃ p, Settles dev.toDev img o p)
    (n : List Byte) (hlen : n.length ≤ romfsMaxfn - 1) (hnul : 0 ∉ n) (hhid : cstr hided ≠ n)
    (hcmp : ∀ o ∈ offs, dev.strcmp (o + BitVec.ofNat 64 romfhSize) n =
      .ok (if img.Named o n then 1 else 0)) :
    ∃ rounds, ∀ fuel, rounds ≤ fuel → ∀ room, offs.length ≤ room → ∀ cache,
      ∃ ctx cache' res,
        romfsReaddir dev.toDev (some hided) fuel dir ⟨0, room, []⟩ = .done ctx ∧
        romfsLookup dev (some exec) true fuel cache dir n = .done (cache', res) ∧
        (ListedAsFound ctx.entries res n ↔ img.Consistent dev.toDev offs n) := by
  obtain ⟨rounds, hlookup⟩ := romfsLookup_chain exec hdir hchain
    (fun o ho => (hserve o ho).inode) hcmp hlinks
  refine ⟨max rounds (offs.length + 1), fun fuel hfuel room hroom cache => ?_⟩
  obtain ⟨ctx, hloop, hent⟩ := readdirLoop_full hided hmax hchain hserve
    (le_trans (le_max_right ..) hfuel) ⟨0, room, []⟩ hroom
  obtain ⟨cache', res, hres, hfound⟩ := hlookup fuel (le_trans (le_max_left ..) hfuel) cache
  refine ⟨ctx, cache', res, ?_, hres, ?_⟩
  · rw [romfsReaddir, startOffset, if_pos rfl, hdir]
    exact hloop
  have hfirst : ctx.entries.find? (fun d => d.name = n) =
      ((offs.find? fun o => img.name o = n).filter (· ∈ reach offs)).map img.shown := by
    rw [hent, List.nil_append, find?_listed hhid, find?_reach]
  have hsmall : ∀ o ∈ offs, o.toNat < 2 ^ 32 := by
    intro o ho
    obtain ⟨rest, hc, -⟩ := hchain.suffix ho
    cases hc with
    | cons _ hlt _ => exact Nat.lt_trans hlt hmax
  unfold Image.Consistent
  cases he : offs.find? (fun o => img.name o = n) with
  | none =>
    rw [he] at hfirst
    -- a header with the name would be listed
    have hnone : offs.find? (fun o => img.Named o n) = none := by
      rw [List.find?_eq_none] at he ⊢
      intro o ho hnamed
      exact he o ho (decide_eq_true ((of_decide_eq_true hnamed : img.Named o n).name hlen hnul))
    rw [hnone] at hfound
    rw [hfound, listedAsFound_negative]
    exact iff_of_true hfirst trivial
  | some e =>
    rw [he, Option.filter_some] at hfirst
    cases hf : offs.find? (fun o => img.Named o n) with
    | none =>
      rw [hf] at hfound
      rw [hfound, listedAsFound_negative, hfirst]
      by_cases hreach : e ∈ reach offs <;> simp [hreach]
    | some f =>
      rw [hf] at hfound
      obtain ⟨p, hp, rfl⟩ := hfound
      have hp32 := hp.lt (hsmall f (List.mem_of_find?_eq_some hf))
      rw [listedAsFound_inode, hfirst]
      by_cases hreach : e ∈ reach offs
      · have hino : (img.shown e).ino = p ↔
            img.number e < 0x80000000#64 ∧ Settles dev.toDev img f (img.number e) := by
          rw [shown_ino_eq_iff (hsmall e (List.mem_of_find?_eq_some he)) hp32]
          exact and_congr_right fun _ => ⟨fun h => h ▸ hp, fun h => h.unique hp⟩
        simp [hreach, hino]
      · simp [hreach]

/-- A device that reads from an image and compares names with it. -/
def Image.lookupDev (img : Image) (maxsize : BitVec 64) : LookupDev :=
  { img.dev maxsize with
    strcmp := fun pos n => .ok (if img.bytes pos.toNat (n.length + 1) = n ++ [0] then 1 else 0) }

/-- The directory with `a`, and `b` hidden. -/
theorem readdir_agrees_with_lookup_sample : ∃ fuel ctx cache res,
    romfsReaddir (sampleImage.dev 160) (some [98]) fuel 32 ⟨0, 3, []⟩ = .done ctx ∧
    romfsLookup (sampleImage.lookupDev 160) (some [99]) true fuel (fun _ => none) 32 [97] =
      .done (cache, res) ∧
    ListedAsFound ctx.entries res [97] := by
  have hsettle : ∀ o ∈ ([64, 96, 128] : List (BitVec 64)),
      Settles (sampleImage.dev 160) sampleImage o o := by
    intro o ho
    simp only [List.mem_cons, List.not_mem_nil, or_false] at ho
    rcases ho with rfl | rfl | rfl <;> exact .file rfl (by decide +kernel) rfl
  have hcmp : ∀ o ∈ ([64, 96, 128] : List (BitVec 64)),
      (sampleImage.lookupDev 160).strcmp (o + BitVec.ofNat 64 romfhSize) [97] =
        .ok (if sampleImage.Named o [97] then 1 else 0) := by
    intro o ho
    simp only [List.mem_cons, List.not_mem_nil, or_false] at ho
    rcases ho with rfl | rfl | rfl <;> rfl
  obtain ⟨rounds, hrounds⟩ := readdir_agrees_with_lookup (sampleImage.lookupDev 160) sampleImage
    [98] [99] 32 [64, 96, 128] (by decide) rfl sampleImage_chain
    (fun o ho => sampleImage.dev_serves 160 (sampleImage_small o ho))
    (fun o ho => ⟨o, hsettle o ho⟩) [97] (by decide) (by decide) (by decide) hcmp
  obtain ⟨ctx, cache, res, hreaddir, hlookup, hiff⟩ :=
    hrounds rounds (le_refl _) 3 (by decide) (fun _ => none)
  refine ⟨rounds, ctx, cache, res, hreaddir, hlookup, hiff.mpr ?_⟩
  have hname : ([64, 96, 128] : List (BitVec 64)).find? (fun o => sampleImage.name o = [97]) =
    some 64 := by decide +kernel
  have hnamed : ([64, 96, 128] : List (BitVec 64)).find? (fun o => sampleImage.Named o [97]) =
    some 64 := by decide +kernel
  have hnumber : sampleImage.number 64 = 64 := by decide +kernel
  unfold Image.Consistent
  rw [hname, hnamed]
  dsimp only
  rw [hnumber]
  exact ⟨by decide, by decide, hsettle 64 (by decide)⟩

/-- A directory at 32 with a at 64 and b at 2^31. -/
def bigImage : Image := fun i =>
  if i = 35 then 1 else if i = 39 then 64
  else if i = 64 then 0x80 else if i = 67 then 2 else if i = 80 then 97
  else if i = 0x80000003 then 2 else if i = 0x80000010 then 98
  else 0

/-- The next offset of `a` is negative as an `int`: the listing ends before `b`,
which a lookup finds. -/
theorem readdir_agrees_with_lookup_fails : ∃ ctx cache,
    romfsReaddir (bigImage.dev 0x80000020) (some [99]) 4 32 ⟨0, 4, []⟩ = .done ctx ∧
    romfsLookup (bigImage.lookupDev 0x80000020) (some [99]) true 4 (fun _ => none) 32 [98] =
      .done (cache, .inode 0x80000000) ∧
    ctx.entries.map (·.name) = [[97]] ∧
    ¬ ListedAsFound ctx.entries (.inode 0x80000000) [98] := by
  have hreaddir : romfsReaddir (bigImage.dev 0x80000020) (some [99]) 4 32 ⟨0, 4, []⟩ =
      .done ⟨0x80000020, 3, [⟨[97], 64, 64, .reg⟩]⟩ := by decide +kernel
  have hlookup : (romfsLookup (bigImage.lookupDev 0x80000020) (some [99]) true 4 (fun _ => none)
      32 [98]).bind (fun r => .done r.2) = .done (.inode 0x80000000) := by decide +kernel
  obtain ⟨⟨cache, res⟩, hres, heq⟩ := Exec.bind_eq_done hlookup
  obtain rfl : res = .inode 0x80000000 := by
    injection heq
  refine ⟨_, cache, hreaddir, hres, rfl, fun h => ?_⟩
  obtain ⟨d, hd, -⟩ := listedAsFound_inode.mp h
  have hnone : ([⟨[97], 64, 64, .reg⟩] : List Dirent).find? (fun d => d.name = [98]) = none := by
    decide
  rw [hnone] at hd
  cases hd

end LinuxKernel.Romfs
