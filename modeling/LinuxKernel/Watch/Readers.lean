import LinuxKernel.Watch.Calls
import LinuxKernel.Lib.Run

/-!
# /proc/watch — several readers

The report is in `output`, one array for all readers, and a read at position 0 writes a new one
there.

* `Session`              — a client that reads the file from its start to its end.
* `SessionOk`            — what it has received is a part of its report, and the rest is in
  `output`.
* `watch_readers`        — every client receives its report, if no read at position 0 comes while
  another client is in the middle of its own.
* `watch_readers_mixed`  — it may receive a mixture if one does.
-/

namespace LinuxKernel.Watch

open LinuxKernel.Lib LinuxKernel.Proc

/-! ## Clients -/

/-- An open file: its position, the report that was computed at its first read, the bytes received,
and whether a read has returned nothing. -/
structure Session where
  pos      : BitVec 64
  report   : List Byte
  received : List Byte
  ended    : Bool
  deriving DecidableEq, Repr

def Session.start : Session := { pos := 0, report := [], received := [], ended := false }

/-- The client has read a part of the file and not come to its end. -/
def Session.Reading (σ : Session) : Prop := σ.pos ≠ 0 ∧ σ.ended = false

instance (σ : Session) : Decidable σ.Reading := inferInstanceAs (Decidable (_ ∧ _))

structure Readers (Client : Type) where
  world    : World
  watch    : State
  sessions : Client → Session

inductive ReaderOp (Client : Type)
  | openFile (c : Client)
  | read (c : Client) (len : BitVec 64)
  | write (ubuf : List Byte)
  | process (op : ProcessOp)

variable {Client : Type} [DecidableEq Client]

/-- One call, or a step of a process. A client reads with positive sizes until it is at the end. -/
def Readers.next (userHz : Nat) (s : Readers Client) : ReaderOp Client → Option (Readers Client)
  | .openFile c => some { s with sessions := Function.update s.sessions c Session.start }
  | .read c len =>
    let σ := s.sessions c
    if len = 0 ∨ σ.ended = true then none
    else
      match procRead userHz true σ.pos len s.world s.watch with
      | .ok (some (bytes, pos), world, watch) =>
        let report := if σ.pos = 0 then cstr watch.output.bytes else σ.report
        let session := ⟨pos, report, σ.received ++ bytes, bytes = []⟩
        some { world, watch, sessions := Function.update s.sessions c session }
      | _ => none
  | .write ubuf =>
    match procWrite true 0 ubuf s.world s.watch with
    | .ok (_, world, watch) => some { s with world, watch }
    | .error _ => none
  | .process op => some { s with world := s.world.next op }

/-- No client starts to read while another one is in the middle of its report. -/
def Exclusive (s : Readers Client) : ReaderOp Client → Prop
  | .read c _ => (s.sessions c).pos = 0 → ∀ d, (s.sessions d).Reading → d = c
  | _ => True

instance [Fintype Client] (s : Readers Client) : (op : ReaderOp Client) → Decidable (Exclusive s op)
  | .read c _ =>
    inferInstanceAs (Decidable ((s.sessions c).pos = 0 → ∀ d, (s.sessions d).Reading → d = c))
  | .openFile _ => inferInstanceAs (Decidable True)
  | .write _ => inferInstanceAs (Decidable True)
  | .process _ => inferInstanceAs (Decidable True)

/-! ## One session -/

/-- What a client has received is a part of its report, all of it at the end of the file; until
then the report is the one in `output`. -/
structure SessionOk (watch : State) (σ : Session) : Prop where
  position : σ.pos.toNat = σ.received.length
  part     : σ.received <+: σ.report
  complete : σ.ended = true → σ.received = σ.report
  current  : σ.Reading → watch.output.Holds σ.report ∧ watch.outLen = σ.report.length

section Session

variable {watch watch' : State} {σ : Session} {text : List Byte} {len : BitVec 64}

theorem SessionOk.start (watch : State) : SessionOk watch Session.start where
  position := rfl
  part := List.nil_prefix
  complete := by simp [Session.start]
  current := fun h => absurd rfl h.1

theorem SessionOk.congr (h : SessionOk watch σ) (houtput : watch'.output = watch.output)
    (hout : watch'.outLen = watch.outLen) : SessionOk watch' σ where
  position := h.position
  part := h.part
  complete := h.complete
  current := by
    rw [houtput, hout]
    exact h.current

/-- A client that is not in the middle of its report does not need the output. -/
theorem SessionOk.of_not_reading (h : SessionOk watch σ) (hnot : ¬ σ.Reading) :
    SessionOk watch' σ where
  position := h.position
  part := h.part
  complete := h.complete
  current := fun hreading => absurd hreading hnot

/-- **One chunk.** While the output holds the report, a read returns the next part of it. -/
theorem SessionOk.deliver {pos : BitVec 64} {received : List Byte}
    (hholds : watch.output.Holds text)
    (hout : watch.outLen = text.length) (hpos : pos.toNat = received.length)
    (hpart : received <+: text) (hlen : len ≠ 0) :
    ∃ bytes pos', copyReport true watch pos len = .ok (some (bytes, pos')) ∧
      bytes = (text.drop received.length).take len.toNat ∧
      SessionOk watch ⟨pos', text, received ++ bytes, bytes = []⟩ := by
  have hle := hpart.length_le
  have hlen : len.toNat ≠ 0 := fun h => hlen (BitVec.eq_of_toNat_eq h)
  obtain ⟨rest, rfl⟩ := hpart
  obtain ⟨pos', hcopy, hpos'⟩ := copyReport_ok hholds hout (by omega : pos.toNat ≤ _) len
  rw [hpos, List.drop_left] at hcopy hpos'
  refine ⟨_, pos', hcopy, by rw [List.drop_left], ?_⟩
  constructor
  · rw [hpos', List.length_append]
  · exact (List.prefix_append_right_inj received).mpr (List.take_prefix _ _)
  · -- nothing is returned only if there is nothing left
    intro hended
    have hnil : rest.take len.toNat = [] := of_decide_eq_true hended
    rw [List.take_eq_nil_iff] at hnil
    rw [hnil.resolve_left hlen, List.take_nil]
  · exact fun _ => ⟨hholds, hout⟩

end Session

/-! ## Runs -/

section Runs

variable {userHz : Nat} {s t : Readers Client}

/-- A read in the middle of a report leaves everything but the session as it is. -/
theorem Readers.next_read_later {c : Client} {len : BitVec 64} (hlen : len ≠ 0)
    (hreading : (s.sessions c).Reading) {bytes : List Byte} {pos : BitVec 64}
    (hcopy : copyReport true s.watch (s.sessions c).pos len = .ok (some (bytes, pos))) :
    s.next userHz (.read c len) = some { s with
      sessions := Function.update s.sessions c
        ⟨pos, (s.sessions c).report, (s.sessions c).received ++ bytes, bytes = []⟩ } := by
  have hcall : procRead userHz true (s.sessions c).pos len s.world s.watch =
      .ok (some (bytes, pos), s.world, s.watch) := by
    rw [procRead, if_neg hreading.1, ok_bind]
    dsimp only
    rw [hcopy, ok_bind]
  unfold Readers.next
  dsimp only
  rw [if_neg (by rw [hreading.2]; simpa using hlen), hcall]
  dsimp only
  rw [if_neg hreading.1]

/-- The next read of a client that is in the middle of its report. -/
theorem SessionOk.next_read (userHz : Nat) {c : Client} (hok : SessionOk s.watch (s.sessions c))
    (hreading : (s.sessions c).Reading) {len : BitVec 64} (hlen : len ≠ 0) :
    ∃ bytes session, bytes = ((s.sessions c).report.drop (s.sessions c).received.length).take
      len.toNat ∧
      session.report = (s.sessions c).report ∧
      session.received = (s.sessions c).received ++ bytes ∧
      session.ended = decide (bytes = []) ∧ SessionOk s.watch session ∧
      s.next userHz (.read c len) =
        some { s with sessions := Function.update s.sessions c session } := by
  obtain ⟨hholds, hout⟩ := hok.current hreading
  obtain ⟨bytes, pos, hcopy, hbytes, hsession⟩ :=
    SessionOk.deliver hholds hout hok.position hok.part hlen
  exact ⟨bytes, ⟨pos, _, _, _⟩, hbytes, rfl, rfl, rfl, hsession,
    Readers.next_read_later hlen hreading hcopy⟩

/-- The first read of a client: it has a report of its own, which is in the output. -/
theorem SessionOk.next_first {c : Client} (hok : SessionOk s.watch (s.sessions c))
    (hpos : (s.sessions c).pos = 0) {len : BitVec 64} (hlen : len ≠ 0)
    (hnext : s.next userHz (.read c len) = some t) :
    ∃ session, t.sessions = Function.update s.sessions c session ∧ SessionOk t.watch session := by
  have hreceived : (s.sessions c).received = [] := by
    rw [← List.length_eq_zero_iff, ← hok.position, hpos]
    rfl
  unfold Readers.next at hnext
  dsimp only at hnext
  rw [hpos, procRead, if_pos rfl] at hnext
  split at hnext
  · simp at hnext
  · cases hstatus : updateStatus userHz s.world s.watch with
    | error fault =>
      rw [hstatus] at hnext
      simp at hnext
    | ok new =>
      obtain ⟨world, watch⟩ := new
      obtain ⟨text, hholds, hout, -⟩ := updateStatus_holds hstatus
      obtain ⟨bytes, pos', hcopy, -, hsession⟩ :=
        SessionOk.deliver hholds hout (rfl : BitVec.toNat 0 = [].length) List.nil_prefix hlen
      rw [hstatus, ok_bind] at hnext
      dsimp only at hnext
      rw [hcopy, ok_bind] at hnext
      dsimp only at hnext
      rw [if_pos rfl, hholds.cstr_eq, hreceived] at hnext
      obtain rfl := Option.some.inj hnext
      exact ⟨_, rfl, hsession⟩

/-- **One step.** -/
theorem SessionOk.next (hok : ∀ c, SessionOk s.watch (s.sessions c)) {op : ReaderOp Client}
    (hexcl : Exclusive s op) (hnext : s.next userHz op = some t) (c : Client) :
    SessionOk t.watch (t.sessions c) := by
  cases op with
  | openFile d =>
    obtain rfl := Option.some.inj hnext
    show SessionOk s.watch (Function.update s.sessions d Session.start c)
    rw [Function.update_apply]
    split
    · exact SessionOk.start s.watch
    · exact hok c
  | read d len =>
    have hlen : len ≠ 0 := by
      rintro rfl
      unfold Readers.next at hnext
      simp at hnext
    have hended : (s.sessions d).ended = false := by
      by_contra h
      rw [Bool.not_eq_false] at h
      unfold Readers.next at hnext
      simp [h] at hnext
    -- a read at the start writes the report anew, any later one copies from it
    by_cases hpos : (s.sessions d).pos = 0
    · obtain ⟨session, hsessions, hsession⟩ := (hok d).next_first hpos hlen hnext
      rw [hsessions, Function.update_apply]
      split
      · exact hsession
      · next hne => exact (hok c).of_not_reading fun hreading => hne (hexcl hpos c hreading)
    · obtain ⟨bytes, session, -, -, -, -, hsession, hstep⟩ :=
        (hok d).next_read userHz ⟨hpos, hended⟩ hlen
      rw [hstep] at hnext
      obtain rfl := Option.some.inj hnext
      show SessionOk s.watch (Function.update s.sessions d session c)
      rw [Function.update_apply]
      split
      · exact hsession
      · exact hok c
  | write ubuf =>
    unfold Readers.next at hnext
    dsimp only at hnext
    split at hnext
    · next result world watch hcall =>
      obtain ⟨houtput, hout⟩ := procWrite_output hcall
      obtain rfl := Option.some.inj hnext
      exact (hok c).congr houtput hout
    · simp at hnext
  | process op =>
    obtain rfl := Option.some.inj hnext
    exact hok c

end Runs

/-- **Readers.** Let clients open the file and read it in chunks of any positive sizes, pids be
written and processes go on, in any order; but let no client make a read at position 0 while another
one is in the middle of its report. Then what a client has received is a part of the report computed
at its own first read, and all of it if it has come to the end of the file; and a client in the
middle of its report receives the next bytes of it, as many as it asks for, or the end if there are
none. -/
theorem watch_readers (userHz : Nat) (s t : Readers Client)
    (hstart : ∀ c, s.sessions c = Session.start) (ops : List (ReaderOp Client))
    (hrun : run (Readers.next userHz) s ops = some t)
    (hexcl : ∀ r ∈ trace (Readers.next userHz) s ops, Exclusive r.pre r.op) (c : Client) :
    (t.sessions c).received <+: (t.sessions c).report ∧
    ((t.sessions c).ended = true → (t.sessions c).received = (t.sessions c).report) ∧
    ((t.sessions c).Reading → ∀ len, len ≠ 0 → ∃ bytes u,
      bytes = ((t.sessions c).report.drop (t.sessions c).received.length).take len.toNat ∧
      t.next userHz (.read c len) = some u ∧ (u.sessions c).report = (t.sessions c).report ∧
      (u.sessions c).received = (t.sessions c).received ++ bytes ∧
      (u.sessions c).ended = decide (bytes = [])) := by
  have hok : ∀ c, SessionOk t.watch (t.sessions c) := by
    refine ((run_steps hrun).invariant (P := fun s => ∀ c, SessionOk s.watch (s.sessions c))
      (fun r hr hstep hok => SessionOk.next hok (hexcl r hr) hstep) fun c => ?_).1
    rw [hstart c]
    exact SessionOk.start s.watch
  refine ⟨(hok c).part, (hok c).complete, fun hreading len hlen => ?_⟩
  obtain ⟨bytes, session, hbytes, hreport, hreceived, hended, -, hstep⟩ :=
    (hok c).next_read userHz hreading hlen
  refine ⟨bytes, _, hbytes, hstep, ?_⟩
  dsimp only
  rw [Function.update_self]
  exact ⟨hreport, hreceived, hended⟩

/-- Two clients, before they read. -/
def sampleReaders : Readers Bool := ⟨sampleWorld, State.init, fun _ => Session.start⟩

/-- One client reads before "42" is written, the other one after it. -/
theorem watch_readers_in_turn : ∃ t,
    run (Readers.next 100) sampleReaders
      [.read false 20, .read false 1, .write [52, 50, 10], .read true 3, .read true 20,
        .read true 1] =
        some t ∧
    ∀ c, (t.sessions c).received = (t.sessions c).report := by
  have hrun : (run (Readers.next 100) sampleReaders
      [.read false 20, .read false 1, .write [52, 50, 10], .read true 3, .read true 20,
        .read true 1]).any
        (fun t => ∀ c, (t.sessions c).ended = true) = true := by decide +kernel
  obtain ⟨t, ht, hended⟩ := (Option.any_eq_true _ _).mp hrun
  refine ⟨t, ht, fun c => ?_⟩
  exact (watch_readers 100 sampleReaders t (fun _ => rfl) _ ht (by decide +kernel) c).2.1
    (of_decide_eq_true hended c)

/-- A client reads one byte of "-1 -1 -1 -1 -1 "; "42" is written and another client reads its
report, "0 0 0 0 0 ". The rest the first client receives is that of the second report. -/
theorem watch_readers_mixed :
    (run (Readers.next 100) sampleReaders
      [.read false 1, .write [52, 50, 10], .read true 20, .read false 20, .read false 20]).any
        (fun t => (t.sessions false).ended = true ∧ (t.sessions false).report = goneText ∧
          (t.sessions false).received = [45, 32, 48, 32, 48, 32, 48, 32, 48, 32]) = true := by
  decide +kernel

end LinuxKernel.Watch
