import LinuxKernel.Proc.Kernel

/-!
# Files in /proc — strings in arrays

`copy_from_user`, `strcpy`, `strcat` and `strsep` on arrays of `MAX_SIZE` characters. Every index is
checked: a character that is stored outside of its array, or a string that does not end inside it,
is a `Fault.overrun`.

* `copyLoop_ok`, `copyLoop_overrun`  — characters that are stored one after another.
* `strcpy_holds`, `strcat_holds`     — a copy of a string, and a string behind another one.
* `strsep_some`, `strsep_none`       — one token, and what is left for the next one.
-/

namespace LinuxKernel.Proc

/-! ## The functions -/

/-- `buf[i] = c`, for an index that is computed. -/
def Buffer.store (buf : Buffer) (i : Int) (c : Byte) : Except Fault Buffer :=
  if 0 ≤ i then buf.write i.toNat c else .error .overrun

/-- The string that starts at `i`. -/
def Buffer.stringAt (buf : Buffer) (i : Nat) : Except Fault (List Byte) :=
  if 0 ∈ buf.bytes.drop i then .ok (cstr (buf.bytes.drop i)) else .error .overrun

/-- Characters are stored at `i` and behind it. -/
def copyLoop (dst : Buffer) (i : Nat) : List Byte → Except Fault Buffer
  | [] => .ok dst
  | c :: cs => (dst.write i c).bind fun dst => copyLoop dst (i + 1) cs

def copyFromUser (dst : Buffer) (ubuf : List Byte) : Except Fault Buffer := copyLoop dst 0 ubuf

def strcpy (dst src : Buffer) : Except Fault Buffer :=
  (src.stringAt 0).bind fun text => copyLoop dst 0 (text ++ [0])

/-- The second string is read where it stands. -/
def strcat (dst : Buffer) (text : List Byte) : Except Fault Buffer :=
  (dst.stringAt 0).bind fun front => copyLoop dst front.length (text ++ [0])

/-- `strsep` for one delimiter, with `*s` at index `i`: the array after it, and what becomes of
`*s`. -/
def strsep (buf : Buffer) (i : Nat) (delim : Byte) : Except Fault (Buffer × Option Nat) :=
  (buf.stringAt i).bind fun text =>
  if delim ∈ text then
    (buf.write (i + text.idxOf delim) 0).map fun buf => (buf, some (i + text.idxOf delim + 1))
  else .ok (buf, none)

/-! ## Strings -/

/-- A string stands at `i`, with its NUL. -/
def Buffer.HoldsAt (buf : Buffer) (i : Nat) (text : List Byte) : Prop :=
  0 ∉ text ∧ text ++ [0] <+: buf.bytes.drop i

section Strings

variable {buf dst src : Buffer} {i : Nat} {text front pre cs : List Byte}

theorem Buffer.HoldsAt.stringAt_eq (h : buf.HoldsAt i text) : buf.stringAt i = .ok text := by
  obtain ⟨hnul, rest, hrest⟩ := h
  have hall : ∀ c ∈ text, decide (c ≠ 0) = true := by
    intro c hc
    exact decide_eq_true fun hzero => hnul (hzero ▸ hc)
  rw [Buffer.stringAt, ← hrest, if_pos (by simp), cstr, List.append_assoc,
    List.takeWhile_append_of_pos hall, List.singleton_append, List.takeWhile_cons_of_neg (by simp),
    List.append_nil]

theorem Buffer.Holds.holdsAt (h : buf.Holds text) : buf.HoldsAt 0 text := h

/-- What stands behind a NUL does not belong to the string. -/
theorem cstr_append_nul (pre rest : List Byte) : cstr (pre ++ 0 :: rest) = cstr pre := by
  induction pre with
  | nil => rfl
  | cons c pre ih =>
    by_cases hc : c = 0
    · rw [cstr, cstr, List.cons_append, List.takeWhile_cons_of_neg (by simp [hc]),
        List.takeWhile_cons_of_neg (by simp [hc])]
    · rw [cstr, cstr, List.cons_append, List.takeWhile_cons_of_pos (by simpa using hc),
        List.takeWhile_cons_of_pos (by simpa using hc)]
      exact congrArg _ ih

/-- The string in an array that starts with these characters and a NUL. -/
theorem holds_cstr (hpre : pre ++ [0] <+: buf.bytes) : buf.Holds (cstr pre) := by
  obtain ⟨text, after, hsplit, hnul⟩ :=
    List.eq_append_cons_of_mem (List.mem_append_right pre (List.mem_singleton_self 0))
  have hholds : buf.Holds text := by
    refine ⟨hnul, List.IsPrefix.trans ?_ hpre⟩
    rw [hsplit]
    exact ⟨after, by rw [List.append_assoc, List.singleton_append]⟩
  obtain ⟨rest, hrest⟩ := hpre
  rw [List.append_assoc, List.singleton_append] at hrest
  rwa [← cstr_append_nul pre rest, hrest, hholds.cstr_eq]

/-- Characters that fit are stored. -/
theorem copyLoop_ok (cs : List Byte) (hpre : pre <+: dst.bytes)
    (hfits : pre.length + cs.length ≤ maxSize) :
    ∃ dst', copyLoop dst pre.length cs = .ok dst' ∧ pre ++ cs <+: dst'.bytes := by
  induction cs generalizing pre dst with
  | nil => exact ⟨dst, rfl, by rwa [List.append_nil]⟩
  | cons c cs ih =>
    rw [List.length_cons] at hfits
    obtain ⟨next, hwrite, hnext⟩ := Buffer.write_end hpre (by omega) c
    obtain ⟨dst', hloop, hdst'⟩ :=
      ih hnext (by rw [List.length_append, List.length_singleton]; omega)
    rw [List.length_append, List.length_singleton] at hloop
    refine ⟨dst', ?_, by rwa [List.append_assoc] at hdst'⟩
    rw [copyLoop, hwrite, ok_bind, hloop]

/-- Characters that do not fit overrun the array. -/
theorem copyLoop_overrun (hlong : maxSize < i + cs.length) (hi : i ≤ maxSize) :
    copyLoop dst i cs = .error .overrun := by
  induction cs generalizing dst i with
  | nil =>
    rw [List.length_nil] at hlong
    omega
  | cons c cs ih =>
    rw [copyLoop, Buffer.write]
    split
    · next hlt =>
      rw [ok_bind]
      exact ih (by rw [List.length_cons] at hlong; omega) hlt
    · rfl

theorem strcpy_holds (hsrc : src.Holds text) :
    ∃ dst', strcpy dst src = .ok dst' ∧ dst'.Holds text := by
  have hlt := hsrc.length_lt
  obtain ⟨dst', hloop, hpre⟩ := copyLoop_ok (text ++ [0]) (List.nil_prefix : [] <+: dst.bytes)
    (by rw [List.length_nil, List.length_append, List.length_singleton]; omega)
  refine ⟨dst', ?_, hsrc.1, hpre⟩
  rw [strcpy, hsrc.holdsAt.stringAt_eq, ok_bind]
  exact hloop

/-- A string behind another one, if there is room for both. -/
theorem strcat_holds (hdst : dst.Holds front) (hnul : 0 ∉ text)
    (hfits : front.length + text.length < maxSize) :
    ∃ dst', strcat dst text = .ok dst' ∧ dst'.Holds (front ++ text) := by
  have hpre : front <+: dst.bytes := (List.prefix_append front [0]).trans hdst.2
  obtain ⟨dst', hloop, hpre'⟩ := copyLoop_ok (text ++ [0]) hpre
    (by rw [List.length_append, List.length_singleton]; omega)
  refine ⟨dst', ?_, ?_, by rwa [List.append_assoc]⟩
  · rw [strcat, hdst.holdsAt.stringAt_eq, ok_bind, hloop]
  · rw [List.mem_append, not_or]
    exact ⟨hdst.1, hnul⟩

theorem strcat_overrun (hdst : dst.Holds front) (hlong : maxSize ≤ front.length + text.length) :
    strcat dst text = .error .overrun := by
  have hlt := hdst.length_lt
  rw [strcat, hdst.holdsAt.stringAt_eq, ok_bind]
  exact copyLoop_overrun (by rw [List.length_append, List.length_singleton]; omega) (by omega)

end Strings

/-! ## Tokens -/

section Tokens

variable {buf buf' : Buffer} {i j : Nat} {delim : Byte} {token rest : List Byte}

/-- `*s` moves on, and not out of the array. -/
theorem strsep_lt (h : strsep buf i delim = .ok (buf', some j)) : i < j ∧ j ≤ maxSize := by
  obtain ⟨text, -, h⟩ := bind_eq_ok h
  split at h
  · obtain ⟨written, hwrite, heq⟩ := map_eq_ok h
    obtain ⟨-, rfl⟩ : written = buf' ∧ i + text.idxOf delim + 1 = j := by simpa using heq
    rw [Buffer.write] at hwrite
    split at hwrite
    · omega
    · simp at hwrite
  · simp at h

theorem strsep_none (h : buf.HoldsAt i token) (hdelim : delim ∉ token) :
    strsep buf i delim = .ok (buf, none) := by
  rw [strsep, h.stringAt_eq, ok_bind, if_neg hdelim]

/-- The delimiter behind the token becomes its NUL. -/
theorem strsep_some (h : buf.HoldsAt i (token ++ delim :: rest)) (hdelim : delim ∉ token) :
    ∃ buf', strsep buf i delim = .ok (buf', some (i + token.length + 1)) ∧ buf'.HoldsAt i token ∧
      buf'.HoldsAt (i + token.length + 1) rest := by
  have hidx : (token ++ delim :: rest).idxOf delim = token.length := by
    rw [List.idxOf_append_of_notMem hdelim, List.idxOf_cons_self, Nat.add_zero]
  obtain ⟨hnul, after, hafter⟩ := id h
  rw [List.mem_append, List.mem_cons, not_or, not_or] at hnul
  obtain ⟨htoken, -, hrest⟩ := hnul
  have hlen : i + token.length < maxSize := by
    have := congrArg List.length hafter
    simp only [List.length_append, List.length_cons, List.length_drop, buf.length] at this
    omega
  obtain ⟨buf', hwrite, hbytes⟩ : ∃ buf', buf.write (i + token.length) 0 = .ok buf' ∧
      buf'.bytes = buf.bytes.set (i + token.length) 0 := ⟨_, if_pos hlen, rfl⟩
  -- what stands from i on, after the delimiter is replaced
  have hset : buf'.bytes.drop i = token ++ 0 :: (rest ++ [0] ++ after) := by
    rw [hbytes, List.drop_set, if_neg (by omega), Nat.add_sub_cancel_left, ← hafter]
    simp
  refine ⟨buf', ?_, ⟨htoken, ?_⟩, hrest, ?_⟩
  · rw [strsep, Buffer.HoldsAt.stringAt_eq h, ok_bind, if_pos (by simp), hidx, hwrite]
    rfl
  · rw [hset]
    exact ⟨rest ++ [0] ++ after, by rw [List.append_assoc, List.singleton_append]⟩
  · rw [Nat.add_assoc, ← List.drop_drop, hset, List.drop_append, List.drop_of_length_le (by omega)]
    simp

end Tokens

end LinuxKernel.Proc
