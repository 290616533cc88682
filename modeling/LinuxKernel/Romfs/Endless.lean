import LinuxKernel.Romfs.Listing
import LinuxKernel.Lib.Walk
import Mathlib.Data.Finite.Prod
import Mathlib.Order.Interval.Finset.Nat

/-!
# romfs — whether `romfs_readdir` returns

The loop of `romfs_readdir` goes to the header that the last one names. A header that is listed uses
room in the buffer of the caller, and a hidden one does not.

* `readdirStep`              — one round of the loop, as far as the next round depends on it.
* `readdirLoop_running_iff`  — the loop makes all its rounds iff these steps do not end.
* `cycle_iff_hidden`         — only hidden headers can be gone round.
* `readdir_returns_iff`      — a call returns iff it does not come to a cycle of hidden headers.
-/

namespace LinuxKernel.Romfs

open LinuxKernel.Lib Relation StateTransition

/-! ## Rounds of the loop -/

/-- The next offset, if the loop gets as far as the comparison of the names. -/
def headerAt (dev : Dev) (offset : BitVec 64) : Option (BitVec 64 × List Byte) :=
  if offset = 0 ∨ dev.maxsize ≤ offset then none
  else
    match fetchEntry dev offset with
    | .error _ => none
    | .ok (ri, fsname) => some ((ri.next &&& romfhMask 32).signExtend 64, fsname)

/-- One round with room for so many entries: the offset and the room of the next one. -/
def readdirStep (dev : Dev) (hided : List Byte) (s : BitVec 64 × Nat) : Option (BitVec 64 × Nat) :=
  match headerAt dev s.1 with
  | none => none
  | some (next, fsname) =>
    if strcmpEq fsname hided then some (next, s.2)
    else
      match s.2 with
      | 0 => none
      | room + 1 => some (next, room)

/-- The header after a hidden one. -/
def hiddenStep (dev : Dev) (hided : List Byte) (offset : BitVec 64) : Option (BitVec 64) :=
  match headerAt dev offset with
  | none => none
  | some (next, fsname) => if strcmpEq fsname hided then some next else none

section Steps

variable {dev : Dev} {hided : List Byte} {offset next : BitVec 64} {fsname : List Byte}

theorem readdirStep_hidden (hheader : headerAt dev offset = some (next, fsname))
    (hhid : strcmpEq fsname hided = true) (room : Nat) :
    readdirStep dev hided (offset, room) = some (next, room) := by
  simp [readdirStep, hheader, hhid]

theorem readdirStep_shown (hheader : headerAt dev offset = some (next, fsname))
    (hhid : strcmpEq fsname hided = false) (room : Nat) :
    readdirStep dev hided (offset, room + 1) = some (next, room) := by
  simp [readdirStep, hheader, hhid]

/-- What a step does: the room is the same after a hidden header, and smaller after another. -/
theorem mem_readdirStep {s t : BitVec 64 × Nat} (h : t ∈ readdirStep dev hided s) :
    t.2 ≤ s.2 ∧ (t.2 = s.2 → t.1 ∈ hiddenStep dev hided s.1) := by
  obtain ⟨offset, room⟩ := s
  rw [Option.mem_def] at h
  cases hheader : headerAt dev offset with
  | none => simp [readdirStep, hheader] at h
  | some header =>
    obtain ⟨next, fsname⟩ := header
    cases hhid : strcmpEq fsname hided with
    | true =>
      rw [readdirStep_hidden hheader hhid] at h
      obtain rfl := Option.some.inj h
      exact ⟨Nat.le_refl _, fun _ => by simp [hiddenStep, hheader, hhid]⟩
    | false =>
      cases room with
      | zero => simp [readdirStep, hheader, hhid] at h
      | succ room =>
        rw [readdirStep_shown hheader hhid] at h
        obtain rfl := Option.some.inj h
        exact ⟨Nat.le_succ room, fun heq => absurd heq (Nat.ne_of_lt (Nat.lt_succ_self room))⟩

theorem hiddenStep_readdirStep {a b : BitVec 64} (h : b ∈ hiddenStep dev hided a) (room : Nat) :
    (b, room) ∈ readdirStep dev hided (a, room) := by
  rw [Option.mem_def, hiddenStep] at h
  cases hheader : headerAt dev a with
  | none => simp [hheader] at h
  | some header =>
    obtain ⟨next, fsname⟩ := header
    cases hhid : strcmpEq fsname hided with
    | true =>
      obtain rfl : next = b := by simpa [hheader, hhid] using h
      exact readdirStep_hidden hheader hhid room
    | false => simp [hheader, hhid] at h

/-! ## The loop and its steps -/

/-- The loop makes all its rounds as long as the steps do not end. -/
theorem readdirLoop_running_iff (fuel : Nat) (offset : BitVec 64) (ctx : DirContext) :
    readdirLoop dev (some hided) fuel offset ctx = .running ↔
      walkEnd (readdirStep dev hided) fuel (offset, ctx.room) = none := by
  induction fuel generalizing offset ctx with
  | zero => simp [readdirLoop, walkEnd]
  | succ fuel ih =>
    rw [readdirLoop, walkEnd]
    by_cases hout : offset = 0 ∨ dev.maxsize ≤ offset
    · have hheader : headerAt dev offset = none := if_pos hout
      rw [if_pos hout]
      simp [readdirStep, hheader]
    · rw [if_neg hout]
      cases hfetch : fetchEntry dev offset with
      | error e =>
        have hheader : headerAt dev offset = none := by rw [headerAt, if_neg hout, hfetch]
        simp [readdirStep, hheader]
      | ok entry =>
        obtain ⟨ri, fsname⟩ := entry
        have hheader : headerAt dev offset =
            some ((ri.next &&& romfhMask 32).signExtend 64, fsname) := by
          rw [headerAt, if_neg hout, hfetch]
        dsimp only
        -- a hidden entry is skipped, a shown one needs room
        cases hhid : strcmpEq fsname hided with
        | true =>
          rw [readdirStep_hidden hheader hhid]
          exact ih _ { ctx with pos := offset }
        | false =>
          rw [dirEmit]
          cases hroom : ctx.room with
          | zero => simp [readdirStep, hheader, hhid]
          | succ room =>
            rw [readdirStep_shown hheader hhid]
            dsimp only
            rw [if_neg Bool.false_ne_true]
            exact ih _ _

/-! ## Cycles -/

/-- The room never grows, and if it stays the same then all headers were hidden. -/
theorem reaches₁_hidden {s t : BitVec 64 × Nat} (h : Reaches₁ (readdirStep dev hided) s t) :
    t.2 ≤ s.2 ∧ (t.2 = s.2 → Reaches₁ (hiddenStep dev hided) s.1 t.1) := by
  induction h with
  | single hstep =>
    obtain ⟨hle, hhid⟩ := mem_readdirStep hstep
    exact ⟨hle, fun heq => .single (hhid heq)⟩
  | tail _ hstep ih =>
    obtain ⟨hle, hhid⟩ := mem_readdirStep hstep
    exact ⟨by omega, fun heq => .tail (ih.2 (by omega)) (hhid (by omega))⟩

theorem cycle_iff_hidden (room : Nat) :
    Reaches₁ (readdirStep dev hided) (offset, room) (offset, room) ↔
      Reaches₁ (hiddenStep dev hided) offset offset := by
  constructor
  · intro h
    exact (reaches₁_hidden h).2 rfl
  · intro h
    exact TransGen.lift (·, room) (fun _ _ hstep => hiddenStep_readdirStep hstep room) _ _ h

/-- There are no more than 2^64 offsets, and the room is bounded. -/
theorem finite_reaches (s : BitVec 64 × Nat) :
    {t | Reaches (readdirStep dev hided) s t}.Finite := by
  refine (Set.finite_univ.prod (Set.finite_Iic s.2)).subset ?_
  intro t ht
  refine ⟨Set.mem_univ _, ?_⟩
  rcases reflTransGen_iff_eq_or_transGen.mp ht with rfl | ht
  · exact Nat.le_refl _
  · exact (reaches₁_hidden ht).1

end Steps

/-- **Whether a call returns.** For every image, hidden name, position and room in the buffer, the
call makes finitely many rounds iff it does not come, with room for the entries before it, to a
cycle of hidden headers. -/
theorem readdir_returns_iff (dev : Dev) (hidedFileName : Option (List Byte)) (ino : BitVec 64)
    (ctx : DirContext) :
    (∃ fuel, romfsReaddir dev hidedFileName fuel ino ctx ≠ .running) ↔
      ¬ ∃ hided start offset room, hidedFileName = some hided ∧
        startOffset dev ino ctx.pos = .ok start ∧
        Reaches (readdirStep dev hided) (start, ctx.room) (offset, room) ∧
        Reaches₁ (hiddenStep dev hided) offset offset := by
  cases hstart : startOffset dev ino ctx.pos with
  | error e =>
    have hcall : romfsReaddir dev hidedFileName 0 ino ctx = .done ctx := by
      rw [romfsReaddir, hstart]
    simp only [reduceCtorEq, false_and, and_false, exists_false, not_false_eq_true, iff_true]
    exact ⟨0, by rw [hcall]; simp⟩
  | ok start =>
    have hcall : ∀ fuel, romfsReaddir dev hidedFileName fuel ino ctx =
        readdirLoop dev hidedFileName fuel start ctx := by
      intro fuel
      rw [romfsReaddir, hstart]
    simp only [hcall]
    cases hidedFileName with
    | none =>
      -- the first header that is read is compared with NULL
      simp only [reduceCtorEq, false_and, exists_false, not_false_eq_true, iff_true]
      refine ⟨1, ?_⟩
      rw [readdirLoop]
      split
      · simp
      · cases fetchEntry dev start with
        | error e => simp
        | ok entry => simp
    | some hided =>
      simp only [ne_eq, readdirLoop_running_iff, Option.ne_none_iff_exists', walk_ends_iff
        (finite_reaches _)]
      refine not_congr ⟨?_, ?_⟩
      · rintro ⟨⟨offset, room⟩, hreach, hcycle⟩
        exact ⟨hided, start, offset, room, rfl, rfl, hreach, (cycle_iff_hidden room).mp hcycle⟩
      · rintro ⟨_, _, offset, room, hhid, hstart, hreach, hcycle⟩
        obtain rfl := Option.some.inj hhid
        obtain rfl := Except.ok.inj hstart
        exact ⟨(offset, room), hreach, (cycle_iff_hidden room).mpr hcycle⟩

/-- A directory at 32 with the file a at 64, which is followed by itself. -/
def loopImage : Image
  | 35 => 1
  | 39 => 64
  | 67 => 66
  | 80 => 97
  | _ => 0

/-- The file is hidden and followed by itself, and the loop never ends, for whatever buffer. -/
theorem readdir_returns_fails :
    startOffset (loopImage.dev 112) 32 0 = .ok 64 ∧
    hiddenStep (loopImage.dev 112) [97] 64 = some 64 ∧
    ¬ ∃ room fuel,
      romfsReaddir (loopImage.dev 112) (some [97]) fuel 32 ⟨0, room, []⟩ ≠ .running := by
  have hstep : hiddenStep (loopImage.dev 112) [97] 64 = some 64 := by decide +kernel
  have hstart : startOffset (loopImage.dev 112) 32 0 = .ok 64 := by decide +kernel
  refine ⟨hstart, hstep, ?_⟩
  rintro ⟨room, fuel, hreturns⟩
  refine hreturns ?_
  rw [romfsReaddir, hstart]
  dsimp only
  rw [readdirLoop_running_iff]
  exact walkEnd_of_cycles ⟨(64, room), .refl, (cycle_iff_hidden room).mpr (.single hstep)⟩ fuel

end LinuxKernel.Romfs
