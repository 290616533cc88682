import LinuxKernel.Mtest.Errors
import LinuxKernel.Proc.Strings

/-!
# /proc/mtest — the buffers of `proc_write`

`proc_write` with its arrays: `tmp_buffer` and `phase_buffer`, which hold anything before it, and
`tmp` for the address. The model of `Mtest/Mtest.lean` keeps texts in their place.

* `tokenLoop_eq`        — the loop over the tokens of `phase_buffer`.
* `parseIn_eq`          — with the arrays, a command is taken apart as without them.
* `parseCommand_ok_iff` — no line of 1 to 127 characters overruns an array: behind the letter, the
  address has 125 characters at most.
* `mtest_buffers_iff`   — when the arrays are kept to, and when all the rest is right too.
-/

namespace LinuxKernel.Mtest

open LinuxKernel.Lib LinuxKernel.Proc

/-! ## The code -/

/-- `char tmp[MAX_SIZE] = "0x"` -/
def addrPrefix : Buffer := ⟨48 :: 120 :: List.replicate 126 0, rfl⟩

/-- One round of the loop, on the token `strsep` has returned. -/
def parseTokenIn (hasContent : Bool) (f : Fields) (token : List Byte) : Except Fault Fields :=
  if token = [] then .ok f
  else if f.count = 0 then
    .ok { f with targetPid := (kstrtoul token).or f.targetPid, count := 1 }
  else if f.count = 1 then
    (strcat addrPrefix token).bind fun tmp =>
    (tmp.stringAt 0).bind fun text =>
    .ok { f with addr := (kstrtoul text).or f.addr, count := 2 }
  else if hasContent ∧ f.count = 2 then
    .ok { f with content := (kstrtoul token).or f.content, count := 3 }
  else .ok f

/-- The loop over the tokens, with `iter` at index `i` of `phase_buffer`. -/
def tokenLoop (hasContent : Bool) (phaseBuffer : Buffer) (i : Nat) (f : Fields) :
    Except Fault Fields :=
  match _h : strsep phaseBuffer i 32 with
  | .error e => .error e
  | .ok (phaseBuffer, none) => (phaseBuffer.stringAt i).bind (parseTokenIn hasContent f)
  | .ok (phaseBuffer, some j) =>
    (phaseBuffer.stringAt i).bind fun token =>
    (parseTokenIn hasContent f token).bind (tokenLoop hasContent phaseBuffer j)
termination_by maxSize + 1 - i
decreasing_by
  have := strsep_lt _h
  omega

/-- The fields behind the letter; `iter` is NULL if there are none. -/
def fieldsIn (hasContent : Bool) (phaseBuffer : Buffer) (iter : Option Nat) : Except Fault Fields :=
  match iter with
  | none => .ok Fields.start
  | some i => tokenLoop hasContent phaseBuffer i Fields.start

/-- From `copy_from_user` to the end of the loop. -/
def parseIn (tmpBuffer phaseBuffer : Buffer) (ubuf : List Byte) : Except Fault Command :=
  (copyFromUser tmpBuffer ubuf).bind fun tmpBuffer =>
  (tmpBuffer.store (ubuf.length - 1) 32).bind fun tmpBuffer =>
  (tmpBuffer.store ubuf.length 0).bind fun tmpBuffer =>
  (strcpy phaseBuffer tmpBuffer).bind fun phaseBuffer =>
  (strsep phaseBuffer 0 32).bind fun (phaseBuffer, iter) =>
  (phaseBuffer.stringAt 0).bind fun token =>
  if token = [114] then (fieldsIn false phaseBuffer iter).map .read
  else if token = [119] then (fieldsIn true phaseBuffer iter).map .write
  else .ok .unknown

/-- `proc_write` with its arrays. -/
def procWriteIn (k : Kernel) (userOk : Bool) (pos : BitVec 64) (tmpBuffer phaseBuffer : Buffer)
    (ubuf : List Byte) (s : State) : Except Fault (Int × State) :=
  if (0#64).slt pos ∨ maxSize < ubuf.length ∨ ¬ userOk then .ok (efault, s)
  else
    (parseIn tmpBuffer phaseBuffer ubuf).bind fun command =>
    (execute k s command).bind fun s =>
    .ok (ubuf.length + 1, s)

/-! ## With and without the arrays -/

section Loop

variable {hasContent : Bool} {phaseBuffer : Buffer} {token text : List Byte}

theorem addrPrefix_holds : addrPrefix.Holds [48, 120] :=
  ⟨by decide, List.replicate 125 0, rfl⟩

theorem parseTokenIn_eq (hnul : 0 ∉ token) (f : Fields) :
    parseTokenIn hasContent f token = parseToken hasContent f token := by
  have haddr : ((strcat addrPrefix token).bind fun tmp => (tmp.stringAt 0).bind fun text =>
      .ok { f with addr := (kstrtoul text).or f.addr, count := 2 }) =
      if 2 + token.length < maxSize then
        .ok { f with addr := (kstrtoul (48 :: 120 :: token)).or f.addr, count := 2 }
      else .error .overrun := by
    split
    · next hfits =>
      obtain ⟨tmp, hcat, hholds⟩ := strcat_holds addrPrefix_holds hnul hfits
      rw [hcat, ok_bind, hholds.holdsAt.stringAt_eq, ok_bind]
      rfl
    · next hlong =>
      rw [strcat_overrun addrPrefix_holds (Nat.le_of_not_lt hlong)]
      rfl
  rw [parseTokenIn, parseToken, haddr]

theorem tokenLoop_none {i : Nat} {after : Buffer} (h : strsep phaseBuffer i 32 = .ok (after, none))
    (f : Fields) :
    tokenLoop hasContent phaseBuffer i f = (after.stringAt i).bind (parseTokenIn hasContent f) := by
  rw [tokenLoop]
  split
  · next heq =>
    rw [h] at heq
    simp at heq
  · next heq =>
    rw [h] at heq
    obtain rfl : after = _ := by simpa using heq
    rfl
  · next heq =>
    rw [h] at heq
    simp at heq

theorem tokenLoop_some {i j : Nat} {after : Buffer}
    (h : strsep phaseBuffer i 32 = .ok (after, some j))
    (f : Fields) :
    tokenLoop hasContent phaseBuffer i f = (after.stringAt i).bind fun token =>
      (parseTokenIn hasContent f token).bind (tokenLoop hasContent after j) := by
  rw [tokenLoop]
  split
  · next heq =>
    rw [h] at heq
    simp at heq
  · next heq =>
    rw [h] at heq
    simp at heq
  · next heq =>
    rw [h] at heq
    obtain ⟨rfl, rfl⟩ : after = _ ∧ j = _ := by simpa using heq
    rfl

/-- **The loop over the tokens.** -/
theorem tokenLoop_eq {i : Nat} (h : phaseBuffer.HoldsAt i text) (f : Fields) :
    tokenLoop hasContent phaseBuffer i f = (tokens 32 text).foldlM (parseToken hasContent) f := by
  -- by induction on the text that is left, of which each round takes a token and a space
  induction hn : text.length using Nat.strong_induction_on generalizing text i phaseBuffer f with
  | _ n ih =>
    subst hn
    obtain ⟨hspace, heq⟩ | ⟨token, rest, rfl, hspace, heq⟩ := tokens_cases 32 text
    · rw [tokenLoop_none (strsep_none h hspace), h.stringAt_eq, ok_bind, parseTokenIn_eq h.1, heq,
        List.foldlM_cons]
      exact (bind_pure _).symm
    · obtain ⟨after, hsep, htoken, hrest⟩ := strsep_some h hspace
      have hlen : rest.length < (token ++ 32 :: rest).length := by simp; omega
      rw [tokenLoop_some hsep, htoken.stringAt_eq, ok_bind, parseTokenIn_eq htoken.1, heq,
        List.foldlM_cons]
      exact congrArg _ (funext fun f => ih rest.length hlen hrest f rfl)

end Loop

section Parse

variable {ubuf text : List Byte}

/-- From the string in `phase_buffer` on. -/
theorem parse_phaseBuffer {phaseBuffer : Buffer} (h : phaseBuffer.Holds text) :
    ((strsep phaseBuffer 0 32).bind fun (phaseBuffer, iter) =>
      (phaseBuffer.stringAt 0).bind fun token =>
      if token = [114] then (fieldsIn false phaseBuffer iter).map .read
      else if token = [119] then (fieldsIn true phaseBuffer iter).map .write
      else .ok .unknown) = parseText text := by
  rw [parseText]
  obtain ⟨hspace, heq⟩ | ⟨token, rest, rfl, hspace, heq⟩ := tokens_cases 32 text
  · rw [strsep_none h.holdsAt hspace, ok_bind]
    dsimp only
    rw [h.holdsAt.stringAt_eq, ok_bind, heq]
    rfl
  · obtain ⟨after, hsep, htoken, hrest⟩ := strsep_some h.holdsAt hspace
    rw [hsep, ok_bind]
    dsimp only
    rw [htoken.stringAt_eq, ok_bind, heq]
    dsimp only [fieldsIn]
    rw [tokenLoop_eq hrest, tokenLoop_eq hrest]

/-- `tmp_buffer` with a space for the last character. -/
theorem tmpBuffer_space (tmpBuffer : Buffer) (hpos : 0 < ubuf.length)
    (hlen : ubuf.length ≤ maxSize) :
    ∃ copied spaced, copyFromUser tmpBuffer ubuf = .ok copied ∧
      copied.store (ubuf.length - 1) 32 = .ok spaced ∧ ubuf.dropLast ++ [32] <+: spaced.bytes := by
  have hlast : ubuf.dropLast.length = ubuf.length - 1 := List.length_dropLast
  obtain ⟨copied, hcopy, hpre⟩ := copyLoop_ok ubuf (List.nil_prefix : [] <+: tmpBuffer.bytes)
    (by rw [List.length_nil]; omega)
  obtain ⟨spaced, hspace, hpre'⟩ :=
    Buffer.write_end ((List.dropLast_prefix ubuf).trans hpre) (by omega) 32
  refine ⟨copied, spaced, hcopy, ?_, hpre'⟩
  rw [Buffer.store, if_pos (by omega), ← hspace, hlast]
  congr 1
  omega

/-- **The arrays change nothing.** Whatever stands in them before, a line is taken apart as it is
without them, or overruns an array. -/
theorem parseIn_eq (tmpBuffer phaseBuffer : Buffer) (hlen : ubuf.length ≤ maxSize) :
    parseIn tmpBuffer phaseBuffer ubuf = parseCommand ubuf := by
  rcases Nat.eq_zero_or_pos ubuf.length with hzero | hpos
  · -- tmp_buffer[-1]
    obtain rfl := List.length_eq_zero_iff.mp hzero
    rw [parseCommand_overrun (Or.inl rfl)]
    rfl
  · obtain ⟨copied, spaced, hcopy, hspace, hpre⟩ := tmpBuffer_space tmpBuffer hpos hlen
    rw [parseIn, hcopy, ok_bind, hspace, ok_bind]
    rcases Nat.lt_or_ge ubuf.length maxSize with hlt | hge
    · have hlength : (ubuf.dropLast ++ [32]).length = ubuf.length := by
        rw [List.length_append, List.length_dropLast, List.length_singleton]
        omega
      obtain ⟨ended, hnul, hpre⟩ := Buffer.write_end hpre (by omega) 0
      rw [hlength] at hnul
      have hstore : spaced.store ubuf.length 0 = .ok ended := by
        rw [Buffer.store, if_pos (by omega), Int.toNat_natCast, hnul]
      obtain ⟨phase, hstrcpy, hholds⟩ := strcpy_holds (holds_cstr hpre)
      rw [hstore, ok_bind, hstrcpy, ok_bind, parse_phaseBuffer hholds, parseCommand, commandText,
        if_neg (by omega), ok_bind]
    · -- tmp_buffer[MAX_SIZE]
      have hstore : spaced.store ubuf.length 0 = .error .overrun := by
        rw [Buffer.store, if_pos (by omega), Int.toNat_natCast, Buffer.write, if_neg (by omega)]
      rw [hstore, parseCommand_overrun (Or.inr (by omega))]
      rfl

theorem procWriteIn_eq (k : Kernel) (userOk : Bool) (pos : BitVec 64)
    (tmpBuffer phaseBuffer : Buffer)
    (ubuf : List Byte) (s : State) :
    procWriteIn k userOk pos tmpBuffer phaseBuffer ubuf s = procWrite k userOk pos ubuf s := by
  unfold procWriteIn procWrite
  split
  · rfl
  · rw [parseIn_eq tmpBuffer phaseBuffer (by omega)]

end Parse

/-! ## Bounds -/

section Bounds

variable {hasContent : Bool} {ubuf text token : List Byte}

theorem parseToken_ok (hshort : 2 + token.length < maxSize) (f : Fields) :
    ∃ f', parseToken hasContent f token = .ok f' := by
  unfold parseToken
  rw [if_pos hshort]
  split
  · exact ⟨_, rfl⟩
  · split
    · exact ⟨_, rfl⟩
    · split
      · exact ⟨_, rfl⟩
      · split
        · exact ⟨_, rfl⟩
        · exact ⟨_, rfl⟩

theorem foldlM_parseToken_ok {ts : List (List Byte)} (hshort : ∀ t ∈ ts, 2 + t.length < maxSize)
    (f : Fields) : ∃ f', ts.foldlM (parseToken hasContent) f = .ok f' := by
  induction ts generalizing f with
  | nil => exact ⟨f, rfl⟩
  | cons t ts ih =>
    obtain ⟨f', hf'⟩ : ∃ f', parseToken hasContent f t = .ok f' :=
      parseToken_ok (hshort t (List.mem_cons_self ..)) f
    rw [List.foldlM_cons, hf']
    exact ih (fun u hu => hshort u (List.mem_cons_of_mem t hu)) f'

/-- The letter and the space behind it leave too little room for a token that overruns `tmp`. -/
theorem parseText_ok (hlen : text.length < maxSize) : ∃ command, parseText text = .ok command := by
  rw [parseText]
  obtain ⟨-, heq⟩ | ⟨letter, rest, rfl, -, heq⟩ := tokens_cases 32 text
  · rw [heq]
    dsimp only
    split
    · exact ⟨_, rfl⟩
    · split
      · exact ⟨_, rfl⟩
      · exact ⟨_, rfl⟩
  · rw [heq]
    dsimp only
    have hshort : letter.length = 1 → ∀ t ∈ tokens 32 rest, 2 + t.length < maxSize := by
      intro hone t ht
      have hle := (infix_of_mem_tokens ht).length_le
      rw [List.length_append, List.length_cons, hone] at hlen
      omega
    split
    · next hr =>
      obtain ⟨f, hf⟩ := foldlM_parseToken_ok (hshort (by rw [hr]; rfl)) Fields.start
      exact ⟨.read f, by rw [hf]; rfl⟩
    · split
      · next hw =>
        obtain ⟨f, hf⟩ := foldlM_parseToken_ok (hshort (by rw [hw]; rfl)) Fields.start
        exact ⟨.write f, by rw [hf]; rfl⟩
      · exact ⟨_, rfl⟩

/-- A line is taken apart exactly if it has 1 to 127 characters. -/
theorem parseCommand_ok_iff (hlen : ubuf.length ≤ maxSize) :
    (∃ command, parseCommand ubuf = .ok command) ↔ 0 < ubuf.length ∧ ubuf.length < maxSize := by
  by_cases hsize : ubuf.length = 0 ∨ ubuf.length = maxSize
  · rw [parseCommand_overrun hsize]
    refine iff_of_false (by simp) ?_
    omega
  · refine iff_of_true ?_ (by omega)
    rw [parseCommand, commandText, if_neg hsize, ok_bind]
    apply parseText_ok
    have hle : (cstr (ubuf.dropLast ++ [32])).length ≤ (ubuf.dropLast ++ [32]).length :=
      (List.takeWhile_sublist _).length_le
    rw [List.length_append, List.length_dropLast, List.length_singleton] at hle
    omega

end Bounds

/-- Every index is inside its array, and every string ends inside its own. -/
def KeepsBuffers (userOk : Bool) (tmpBuffer phaseBuffer : Buffer) (ubuf : List Byte) : Prop :=
  userOk = true → ∃ command, parseIn tmpBuffer phaseBuffer ubuf = .ok command

/-- The value returned is negative or at most the length. -/
def ReturnsLength (k : Kernel) (userOk : Bool) (pos : BitVec 64) (tmpBuffer phaseBuffer : Buffer)
    (ubuf : List Byte) (s : State) : Prop :=
  ∃ ret s', procWriteIn k userOk pos tmpBuffer phaseBuffer ubuf s = .ok (ret, s') ∧
    (ret < 0 ∨ ret ≤ ubuf.length)

/-- **The buffers of `proc_write`.** For every line that is not too long, and whatever the arrays
hold before: they are kept to iff the line cannot be copied from the user or has 1 to `MAX_SIZE - 1`
characters. The value returned is that of the length plus one, so all is right iff the line cannot
be copied. -/
theorem mtest_buffers_iff (k : Kernel) (userOk : Bool) (pos : BitVec 64)
    (tmpBuffer phaseBuffer : Buffer)
    (ubuf : List Byte) (s : State) (hpos : pos.toInt ≤ 0) (hlen : ubuf.length ≤ maxSize) :
    (KeepsBuffers userOk tmpBuffer phaseBuffer ubuf ↔
      userOk = false ∨ 0 < ubuf.length ∧ ubuf.length < maxSize) ∧
    (KeepsBuffers userOk tmpBuffer phaseBuffer ubuf ∧
      ReturnsLength k userOk pos tmpBuffer phaseBuffer ubuf s ↔ userOk = false) := by
  have hslt : ¬ (0#64).slt pos = true := by
    rw [BitVec.slt_iff_toInt_lt]
    simpa using hpos
  unfold KeepsBuffers ReturnsLength
  rw [parseIn_eq tmpBuffer phaseBuffer hlen, parseCommand_ok_iff hlen, procWriteIn_eq, procWrite]
  cases userOk with
  | false =>
    refine ⟨by simp, iff_of_true ⟨by simp, efault, s, ?_, Or.inl (by decide)⟩ rfl⟩
    rw [if_pos (by simp)]
  | true =>
    rw [if_neg (by rintro (h | h | h); exacts [hslt h, absurd h (by omega), h rfl])]
    refine ⟨by simp, iff_of_false ?_ (by simp)⟩
    rintro ⟨-, ret, s', hcall, hret⟩
    obtain ⟨command, -, hcall⟩ := bind_eq_ok hcall
    obtain ⟨after, -, hcall⟩ := bind_eq_ok hcall
    obtain ⟨rfl, -⟩ := Prod.mk.inj (Except.ok.inj hcall)
    omega

/-- A line that cannot be copied. -/
theorem mtest_buffers_unreadable :
    KeepsBuffers false sampleState.output sampleState.output [114] ∧
      ReturnsLength sampleKernel false 0 sampleState.output sampleState.output [114] sampleState :=
  (mtest_buffers_iff sampleKernel false 0 sampleState.output sampleState.output [114] sampleState
    (by decide) (by decide)).2.mpr rfl

/-- An empty line is ended before the start of `tmp_buffer`, and one of 128 characters behind its
end. For a line of two characters 3 is returned. -/
theorem mtest_buffers_fail :
    let buffer := sampleState.output
    parseIn buffer buffer [] = .error .overrun ∧
    parseIn buffer buffer (List.replicate 128 114) = .error .overrun ∧
    (∃ s', procWriteIn sampleKernel true 0 buffer buffer [120, 10] sampleState = .ok (3, s')) ∧
    ¬ ReturnsLength sampleKernel true 0 buffer buffer [120, 10] sampleState := by
  intro buffer
  have hcall : procWriteIn sampleKernel true 0 buffer buffer [120, 10] sampleState =
      .ok (3, sampleState) := by
    rw [procWriteIn_eq]
    rfl
  refine ⟨rfl, ?_, ⟨_, hcall⟩, ?_⟩
  · have hlen : (List.replicate 128 (114 : Byte)).length = maxSize := List.length_replicate
    rw [parseIn_eq _ _ (Nat.le_of_eq hlen), parseCommand_overrun (Or.inr hlen)]
  · rintro ⟨ret, s', hcall', hret⟩
    rw [hcall] at hcall'
    obtain ⟨rfl, -⟩ := Prod.mk.inj (Except.ok.inj hcall')
    exact absurd hret (by decide)

end LinuxKernel.Mtest
