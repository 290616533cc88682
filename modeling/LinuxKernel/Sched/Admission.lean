import LinuxKernel.Lib.Run
import LinuxKernel.Sched.Core
import LinuxKernel.Sched.Groups

/-!
# Android scheduler — admission of real-time bandwidth

What the cgroup files `rt_runtime_us` and `rt_period_us` and the two sysctls do to the bandwidth of
the task groups, while groups come and go. Numbers are those of the 32-bit kernel: times are `u64`
nanoseconds, ratios are `unsigned long`.

* `rtSchedulable_eq_zero_iff` — a request is admitted iff every group passes `tg_rt_schedulable`.
* `BandwidthInv`              — what holds of the groups at all times.
* `rt_bandwidth_admitted`     — in every reachable state the children of a group are promised no
  more than the group, and all groups without children together no more than the global limit.
* `rt_zero_runtime_guard`     — the test for real-time tasks only ever finds those of the root
  group.
-/

namespace LinuxKernel.Sched

open LinuxKernel.Lib

/-! ## The model -/

/-- `EBUSY` -/
def eBusy : Int := 16
/-- `ENOMEM` -/
def eNomem : Int := 12

/-- `NSEC_PER_USEC` -/
def nsecPerUsec : Nat := 1000

/-- `struct rt_bandwidth` without its timer. -/
structure RtBandwidth where
  rtPeriod  : Nat
  rtRuntime : Nat
  deriving DecidableEq, Repr

/-- The task groups. `list` is `task_groups`, `rqRuntime` is `tg->rt_rq[0]->rt_runtime`; `rtTasks`
has the group of every task of real-time priority. The two sysctls are of type `unsigned int` and
`int`. -/
structure Groups where
  list          : List TaskGroup
  children      : TaskGroup → List TaskGroup
  bandwidth     : TaskGroup → RtBandwidth
  rqRuntime     : TaskGroup → Nat
  defBandwidth  : RtBandwidth
  sysctlPeriod  : BitVec 32
  sysctlRuntime : BitVec 32
  rtTasks       : List TaskGroup

namespace Groups

def globalRtPeriod (G : Groups) : Nat := G.sysctlPeriod.toNat * nsecPerUsec

def globalRtRuntime (G : Groups) : Nat :=
  if G.sysctlRuntime.toInt < 0 then runtimeInf else G.sysctlRuntime.toNat * nsecPerUsec

def rtBandwidthEnabled (G : Groups) : Bool := 0 ≤ G.sysctlRuntime.toInt

/-- `tg_has_rt_tasks`: it compares the group with `task_rq(p)->rt.tg`, the group of the run queue of
the cpu. -/
def tgHasRtTasks (G : Groups) (tg : TaskGroup) : Bool := G.rtTasks.any fun _ => decide (tg = [])

end Groups

/-- The shift is made in 64 bits, the result is an unsigned long. -/
def toRatio (period runtime : Nat) : Nat :=
  if runtime = runtimeInf then 2 ^ 20 else (runtime * 2 ^ 20 % 2 ^ 64 / period) % 2 ^ 32

/-- `struct rt_schedulable_data`: the bandwidth `tg` is to have; `tg` may be `NULL`. -/
structure RtSchedulableData where
  tg        : Option TaskGroup
  rtPeriod  : Nat
  rtRuntime : Nat
  deriving DecidableEq, Repr

namespace Groups

/-- The bandwidth of a group, as it is or as it is to be. -/
def bandwidthWith (G : Groups) (d : RtSchedulableData) (tg : TaskGroup) : RtBandwidth :=
  if d.tg = some tg then ⟨d.rtPeriod, d.rtRuntime⟩ else G.bandwidth tg

def ratioWith (G : Groups) (d : RtSchedulableData) (tg : TaskGroup) : Nat :=
  toRatio (G.bandwidthWith d tg).rtPeriod (G.bandwidthWith d tg).rtRuntime

/-- The sum of the loop over the children, an unsigned long. -/
def childrenRatio (G : Groups) (d : RtSchedulableData) (children : List TaskGroup) : Nat :=
  children.foldl (fun sum child => (sum + G.ratioWith d child) % 2 ^ 32) 0

def tgRtSchedulable (G : Groups) (d : RtSchedulableData) (tg : TaskGroup) : Int :=
  let b := G.bandwidthWith d tg
  if b.rtRuntime > b.rtPeriod ∧ b.rtRuntime ≠ runtimeInf then -eInval
  else if G.rtBandwidthEnabled ∧ b.rtRuntime = 0 ∧ G.tgHasRtTasks tg then -eBusy
  else if G.ratioWith d tg > toRatio G.globalRtPeriod G.globalRtRuntime then -eInval
  else if G.childrenRatio d (G.children tg) > G.ratioWith d tg then -eInval
  else 0

/-- `__rt_schedulable`; the walk has three steps for every group. -/
def rtSchedulable (G : Groups) (d : RtSchedulableData) : Option Int :=
  (walkTgTreeFrom G.children [] (fun tg (u : Unit) => (G.tgRtSchedulable d tg, u)) tgNop
    (3 * G.list.length) ()).map (·.1)

def tgSetRtBandwidth (G : Groups) (tg : TaskGroup) (rtPeriod rtRuntime : Nat) :
    Option (Int × Groups) :=
  (G.rtSchedulable ⟨some tg, rtPeriod, rtRuntime⟩).map fun err =>
    if err ≠ 0 then (err, G)
    else (0, { G with
      bandwidth := Function.update G.bandwidth tg ⟨rtPeriod, rtRuntime⟩
      rqRuntime := Function.update G.rqRuntime tg rtRuntime })

def schedGroupSetRtRuntime (G : Groups) (tg : TaskGroup) (rtRuntimeUs : BitVec 32) :
    Option (Int × Groups) :=
  let rtRuntime := if rtRuntimeUs.toInt < 0 then runtimeInf else rtRuntimeUs.toNat * nsecPerUsec
  G.tgSetRtBandwidth tg (G.bandwidth tg).rtPeriod rtRuntime

def schedGroupSetRtPeriod (G : Groups) (tg : TaskGroup) (rtPeriodUs : BitVec 32) :
    Option (Int × Groups) :=
  let rtPeriod := (rtPeriodUs.signExtend 64 * BitVec.ofNat 64 nsecPerUsec).toNat
  if rtPeriod = 0 then some (-eInval, G)
  else G.tgSetRtBandwidth tg rtPeriod (G.bandwidth tg).rtRuntime

def schedRtGlobalConstraints (G : Groups) : Option Int :=
  if G.sysctlPeriod = 0 then some (-eInval)
  else if G.globalRtRuntime > G.globalRtPeriod ∧ G.globalRtRuntime ≠ runtimeInf then some (-eInval)
  else G.rtSchedulable ⟨none, 0, 0⟩

/-- A write of `sched_rt_handler`; `new` has the value that `proc_dointvec` has stored. -/
def schedRtHandler (G new : Groups) : Option (Int × Groups) :=
  new.schedRtGlobalConstraints.map fun ret =>
    if ret ≠ 0 then (ret, G)
    else (0, { new with defBandwidth := ⟨new.globalRtPeriod, new.globalRtRuntime⟩ })

/-- The group of `sched_create_group` is a new one. -/
def schedCreateGroup (G : Groups) (parent : TaskGroup) (n : Nat) : Groups :=
  { G with
    list := (n :: parent) :: G.list
    children := Function.update (Function.update G.children (n :: parent) []) parent
      ((n :: parent) :: G.children parent)
    bandwidth := Function.update G.bandwidth (n :: parent) ⟨G.defBandwidth.rtPeriod, 0⟩
    rqRuntime := Function.update G.rqRuntime (n :: parent) 0 }

def schedDestroyGroup (G : Groups) (tg : TaskGroup) : Groups :=
  { G with
    list := G.list.erase tg
    children := Function.update G.children tg.tail ((G.children tg.tail).erase tg) }

end Groups

/-- What happens to the task groups: `mkdir`, which may find no memory, and `rmdir` of a group
without children; a write to one of the two files, which hand on the low half of the number; a write
to one of the sysctls; and any change of the real-time tasks. -/
inductive GroupOp
  | create (parent : TaskGroup) (n : Nat) (memory : Bool)
  | destroy (tg : TaskGroup)
  | writeRuntime (tg : TaskGroup) (val : BitVec 64)
  | writePeriod (tg : TaskGroup) (val : BitVec 64)
  | sysctlPeriod (val : BitVec 32)
  | sysctlRuntime (val : BitVec 32)
  | rtTasks (tasks : List TaskGroup)
  deriving DecidableEq, Repr

/-- The result and the new state. -/
def Groups.exec (G : Groups) : GroupOp → Option (Int × Groups)
  | .create parent n memory =>
    if parent ∈ G.list ∧ n :: parent ∉ G.list then
      some (if memory then (0, G.schedCreateGroup parent n) else (-eNomem, G))
    else none
  | .destroy tg =>
    if tg ∈ G.list ∧ tg ≠ [] ∧ G.children tg = [] then some (0, G.schedDestroyGroup tg) else none
  | .writeRuntime tg val =>
    if tg ∈ G.list then G.schedGroupSetRtRuntime tg (val.setWidth 32) else none
  | .writePeriod tg val =>
    if tg ∈ G.list then G.schedGroupSetRtPeriod tg (val.setWidth 32) else none
  | .sysctlPeriod val => G.schedRtHandler { G with sysctlPeriod := val }
  | .sysctlRuntime val => G.schedRtHandler { G with sysctlRuntime := val }
  | .rtTasks tasks => some (0, { G with rtTasks := tasks })

def Groups.next (G : Groups) (op : GroupOp) : Option Groups := (G.exec op).map (·.2)

/-- The defaults of the sysctls: 0.95 s of every second. -/
def bootGroups : Groups :=
  let b : RtBandwidth := ⟨1000000 * nsecPerUsec, 950000 * nsecPerUsec⟩
  { list := [[]], children := fun _ => [], bandwidth := fun _ => b,
    rqRuntime := fun _ => b.rtRuntime
    defBandwidth := b, sysctlPeriod := 1000000, sysctlRuntime := 950000, rtTasks := [] }

/-! ## Ratios -/

/-- The share of the cpu a bandwidth stands for, in units of `2^-20`, without any overflow. -/
def share (b : RtBandwidth) : Nat :=
  if b.rtRuntime = runtimeInf then 2 ^ 20 else b.rtRuntime * 2 ^ 20 / b.rtPeriod

/-- A bandwidth that is set to something. -/
structure BandwidthOk (b : RtBandwidth) : Prop where
  period  : 0 < b.rtPeriod
  fits    : b.rtRuntime ≤ b.rtPeriod ∨ b.rtRuntime = runtimeInf
  small   : b.rtRuntime < 2 ^ 44 ∨ b.rtRuntime = runtimeInf

theorem BandwidthOk.share_le {b : RtBandwidth} (h : BandwidthOk b) : share b ≤ 2 ^ 20 := by
  unfold share
  split
  · exact Nat.le_refl _
  · next hinf =>
    refine Nat.div_le_of_le_mul ?_
    exact Nat.mul_le_mul_right _ (h.fits.resolve_right hinf)

/-- For such a bandwidth nothing overflows. -/
theorem BandwidthOk.toRatio_eq {b : RtBandwidth} (h : BandwidthOk b) :
    toRatio b.rtPeriod b.rtRuntime = share b := by
  have hle := h.share_le
  unfold share at hle ⊢
  unfold toRatio
  split
  · rfl
  · next hinf =>
    rw [if_neg hinf] at hle
    have hsmall := h.small.resolve_right hinf
    have hshift : b.rtRuntime * 2 ^ 20 % 2 ^ 64 = b.rtRuntime * 2 ^ 20 :=
      Nat.mod_eq_of_lt (by omega)
    rw [hshift]
    exact Nat.mod_eq_of_lt (by omega)

/-! ## One request -/

section Request

variable {G : Groups} {d : RtSchedulableData} {g tg : TaskGroup}

theorem tgRtSchedulable_eq_zero_iff : G.tgRtSchedulable d g = 0 ↔
    ((G.bandwidthWith d g).rtRuntime ≤ (G.bandwidthWith d g).rtPeriod ∨
      (G.bandwidthWith d g).rtRuntime = runtimeInf) ∧
    ¬ (G.rtBandwidthEnabled = true ∧ (G.bandwidthWith d g).rtRuntime = 0 ∧
      G.tgHasRtTasks g = true) ∧
    G.ratioWith d g ≤ toRatio G.globalRtPeriod G.globalRtRuntime ∧
    G.childrenRatio d (G.children g) ≤ G.ratioWith d g := by
  have hinval : -eInval ≠ 0 := by decide
  have hbusy : -eBusy ≠ 0 := by decide
  unfold Groups.tgRtSchedulable
  dsimp only
  split
  · next h =>
    refine iff_of_false hinval fun h' => ?_
    rcases h'.1 with hle | hinf
    · omega
    · exact h.2 hinf
  · next hfits =>
    have hfits' : (G.bandwidthWith d g).rtRuntime ≤ (G.bandwidthWith d g).rtPeriod ∨
        (G.bandwidthWith d g).rtRuntime = runtimeInf := by
      by_contra hor
      rw [not_or, not_le] at hor
      exact hfits hor
    split
    · next h => exact iff_of_false hbusy fun h' => h'.2.1 h
    · next hbusy' =>
      split
      · next h => exact iff_of_false hinval fun h' => absurd h'.2.2.1 (not_le.mpr h)
      · next hlimit =>
        split
        · next h => exact iff_of_false hinval fun h' => absurd h'.2.2.2 (not_le.mpr h)
        · next hsum => exact iff_of_true rfl ⟨hfits', hbusy', not_lt.mp hlimit, not_lt.mp hsum⟩

/-- The sum of the loop is the real one if that fits. -/
theorem childrenRatio_eq {cs : List TaskGroup} (h : (cs.map (G.ratioWith d)).sum < 2 ^ 32) :
    G.childrenRatio d cs = (cs.map (G.ratioWith d)).sum := by
  have hgen : ∀ acc, acc + (cs.map (G.ratioWith d)).sum < 2 ^ 32 →
      cs.foldl (fun sum child => (sum + G.ratioWith d child) % 2 ^ 32) acc =
        acc + (cs.map (G.ratioWith d)).sum := by
    induction cs with
    | nil => intro acc _; rfl
    | cons c cs ih =>
      intro acc hlt
      rw [List.map_cons, List.sum_cons] at hlt h
      rw [List.foldl_cons, Nat.mod_eq_of_lt (by omega), ih (by omega) _ (by omega), List.map_cons,
        List.sum_cons, Nat.add_assoc]
  rw [Groups.childrenRatio, hgen 0 (by rwa [Nat.zero_add]), Nat.zero_add]

end Request

/-! ## The tree of groups -/

/-- The list of all groups and the lists of children agree. -/
structure GroupTree (list : List TaskGroup) (children : TaskGroup → List TaskGroup) : Prop where
  nodup  : list.Nodup
  root   : [] ∈ list
  parent : ∀ {n g}, n :: g ∈ list → g ∈ list
  child  : ∀ {g c}, c ∈ children g ↔ c ∈ list ∧ ∃ n, c = n :: g
  kids   : ∀ g, (children g).Nodup

namespace GroupTree

variable {list : List TaskGroup} {children : TaskGroup → List TaskGroup} {g : TaskGroup} {n : Nat}

theorem treeOk (h : GroupTree list children) : TreeOk children :=
  ⟨fun hc => (h.child.mp hc).2, h.kids⟩

theorem below_iff (h : GroupTree list children) : Below children [] g ↔ g ∈ list := by
  constructor
  · intro hb
    induction hb with
    | refl => exact h.root
    | tail _ hc _ => exact (h.child.mp hc).1
  · intro hg
    induction g with
    | nil => exact .refl _
    | cons n g ih => exact (ih (h.parent hg)).tail (h.child.mpr ⟨hg, n, rfl⟩)

/-- The tree is as high as the longest path is long. -/
theorem heightLt (h : GroupTree list children) : ∃ n, HeightLt children n [] := by
  obtain ⟨D, hD⟩ : ∃ D, ∀ g ∈ list, g.length ≤ D := by
    refine ⟨(list.map List.length).sum, fun g hg => ?_⟩
    exact List.le_sum_of_mem (List.mem_map_of_mem hg)
  have hgen : ∀ m g, g ∈ list → D < g.length + m → HeightLt children m g := by
    intro m
    induction m with
    | zero =>
      intro g hg hlt
      have := hD g hg
      omega
    | succ m ih =>
      intro g _ hlt c hc
      obtain ⟨hmem, n, rfl⟩ := h.child.mp hc
      exact ih _ hmem (by rw [List.length_cons]; omega)
  exact ⟨D + 1, hgen (D + 1) [] h.root (by simp)⟩

/-- The groups of a subtree have its root in their path. -/
theorem suffix_of_mem_preorder (h : TreeOk children) {u : TaskGroup}
    (hu : u ∈ preorder children n g) :
    g <:+ u := by
  induction n generalizing g with
  | zero => cases hu
  | succ n ih =>
    rw [preorder, List.mem_cons, List.mem_flatMap] at hu
    rcases hu with rfl | ⟨c, hc, hu⟩
    · exact List.suffix_refl _
    · obtain ⟨i, rfl⟩ := h.child hc
      exact (List.suffix_cons i g).trans (ih hu)

theorem nodup_preorder (h : TreeOk children) (n : Nat) (g : TaskGroup) :
    (preorder children n g).Nodup := by
  induction n generalizing g with
  | zero => exact List.nodup_nil
  | succ n ih =>
    rw [preorder, List.nodup_cons, List.nodup_flatMap]
    refine ⟨?_, fun c _ => ih c, ?_⟩
    · -- the subtrees of the children are below g
      rw [List.mem_flatMap]
      rintro ⟨c, hc, hg⟩
      obtain ⟨i, rfl⟩ := h.child hc
      have := (suffix_of_mem_preorder h hg).length_le
      simp at this
    · refine (h.nodup g).imp_of_mem ?_
      intro a b ha hb hne u hua hub
      obtain ⟨i, rfl⟩ := h.child ha
      obtain ⟨j, rfl⟩ := h.child hb
      have ha' := suffix_of_mem_preorder h hua
      have hb' := suffix_of_mem_preorder h hub
      exact hne (List.IsSuffix.eq_of_length
        (List.suffix_of_suffix_length_le ha' hb' (by simp)) (by simp))

/-- The visit in preorder meets every group once. -/
theorem preorder_perm (h : GroupTree list children) (hn : HeightLt children n []) :
    (preorder children n []).Perm list := by
  refine (List.perm_ext_iff_of_nodup (nodup_preorder h.treeOk n []) h.nodup).mpr fun g => ?_
  rw [mem_preorder hn, h.below_iff]

theorem create (h : GroupTree list children) {parent : TaskGroup} (hp : parent ∈ list)
    (hn : n :: parent ∉ list) :
    GroupTree ((n :: parent) :: list)
      (Function.update (Function.update children (n :: parent) []) parent
        ((n :: parent) :: children parent)) := by
  have hne : parent ≠ n :: parent := by simp
  refine ⟨List.nodup_cons.mpr ⟨hn, h.nodup⟩, List.mem_cons_of_mem _ h.root, ?_, ?_, ?_⟩
  · -- parents are listed
    intro m g hg
    rcases List.mem_cons.mp hg with heq | hg
    · obtain ⟨-, rfl⟩ := List.cons.inj heq
      exact List.mem_cons_of_mem _ hp
    · exact List.mem_cons_of_mem _ (h.parent hg)
  · -- the children of a group are those listed right below it
    intro g c
    by_cases hg : g = parent
    · subst hg
      rw [Function.update_self, List.mem_cons, List.mem_cons, h.child]
      constructor
      · rintro (rfl | ⟨hc, hpath⟩)
        · exact ⟨Or.inl rfl, n, rfl⟩
        · exact ⟨Or.inr hc, hpath⟩
      · rintro ⟨rfl | hc, hpath⟩
        · exact Or.inl rfl
        · exact Or.inr ⟨hc, hpath⟩
    · rw [Function.update_of_ne hg]
      by_cases hg' : g = n :: parent
      · -- the new group has no children, since its descendants would need it
        subst hg'
        rw [Function.update_self]
        refine iff_of_false (by simp) ?_
        rintro ⟨hc, m, rfl⟩
        rcases List.mem_cons.mp hc with heq | hc
        · simp at heq
        · exact hn (h.parent hc)
      · rw [Function.update_of_ne hg', h.child, List.mem_cons]
        refine and_congr_left ?_
        rintro ⟨m, rfl⟩
        have hneq : m :: g ≠ n :: parent := fun heq => hg (List.cons.inj heq).2
        simp [hneq]
  · -- no child is listed twice
    intro g
    by_cases hg : g = parent
    · subst hg
      rw [Function.update_self, List.nodup_cons]
      exact ⟨fun hc => hn (h.child.mp hc).1, h.kids _⟩
    · rw [Function.update_of_ne hg]
      by_cases hg' : g = n :: parent
      · rw [hg', Function.update_self]
        exact List.nodup_nil
      · rw [Function.update_of_ne hg']
        exact h.kids g

theorem destroy (h : GroupTree list children) {tg : TaskGroup} (hroot : tg ≠ [])
    (hleaf : children tg = []) :
    GroupTree (list.erase tg) (Function.update children tg.tail ((children tg.tail).erase tg)) := by
  have hmem : ∀ g, g ∈ list.erase tg ↔ g ≠ tg ∧ g ∈ list := fun g => h.nodup.mem_erase_iff
  refine ⟨h.nodup.erase tg, (hmem []).mpr ⟨hroot.symm, h.root⟩, ?_, ?_, ?_⟩
  · -- the removed group is nobody's parent
    intro m g hg
    have hin := ((hmem _).mp hg).2
    refine (hmem g).mpr ⟨?_, h.parent hin⟩
    rintro rfl
    have hc : m :: g ∈ children g := h.child.mpr ⟨hin, m, rfl⟩
    rw [hleaf] at hc
    cases hc
  · -- only the parent loses a child
    intro g c
    by_cases hg : g = tg.tail
    · subst hg
      rw [Function.update_self, (h.kids _).mem_erase_iff, h.child, hmem, and_assoc]
    · rw [Function.update_of_ne hg, h.child, hmem, and_assoc]
      refine ⟨fun hc => ⟨?_, hc⟩, fun hc => hc.2⟩
      obtain ⟨-, m, rfl⟩ := hc
      rintro rfl
      exact hg rfl
  · intro g
    by_cases hg : g = tg.tail
    · subst hg
      rw [Function.update_self]
      exact (h.kids _).erase tg
    · rw [Function.update_of_ne hg]
      exact h.kids g

end GroupTree

/-! ## The invariant -/

/-- The bandwidth of all real-time tasks. -/
def Groups.global (G : Groups) : RtBandwidth := ⟨G.globalRtPeriod, G.globalRtRuntime⟩

/-- **Walk.** The check returns, and it is passed iff every group passes. -/
theorem rtSchedulable_eq_zero_iff {G : Groups} (h : GroupTree G.list G.children)
    (d : RtSchedulableData) : ∃ ret, G.rtSchedulable d = some ret ∧
      (ret = 0 ↔ ∀ g ∈ G.list, G.tgRtSchedulable d g = 0) := by
  obtain ⟨n, hn⟩ := h.heightLt
  have hlen := (h.preorder_perm hn).length_eq
  have hwalk := walk_visits h.treeOk [] (fun tg (u : Unit) => (G.tgRtSchedulable d tg, u)) tgNop hn
    (Nat.mul_le_mul_left 3 hlen.le) ()
  refine ⟨_, ?_, (visitTree_check_iff (G.tgRtSchedulable d) hn ()).2.trans ?_⟩
  · rw [Groups.rtSchedulable, hwalk]
    rfl
  · exact forall_congr' fun g => by rw [h.below_iff]

/-- What holds of the task groups at all times. -/
structure BandwidthInv (G : Groups) : Prop where
  tree    : GroupTree G.list G.children
  ok      : ∀ g ∈ G.list, BandwidthOk (G.bandwidth g)
  global  : BandwidthOk G.global
  default : 0 < G.defBandwidth.rtPeriod
  limit   : ∀ g ∈ G.list, share (G.bandwidth g) ≤ share G.global
  sum     : ∀ g ∈ G.list,
    ((G.children g).map fun c => share (G.bandwidth c)).sum ≤ share (G.bandwidth g)

namespace BandwidthInv

variable {G : Groups} {d : RtSchedulableData} {tg : TaskGroup}

/-- One summand of a list without duplicates is replaced. -/
theorem sum_le_of_replaced {l : List TaskGroup} {f f' : TaskGroup → Nat} (hl : l.Nodup)
    (hf : ∀ c ∈ l, c ≠ tg → f' c = f c) : (l.map f').sum ≤ (l.map f).sum + f' tg := by
  induction l with
  | nil => exact Nat.zero_le _
  | cons c l ih =>
    obtain ⟨hc, hl⟩ := List.nodup_cons.mp hl
    rw [List.map_cons, List.sum_cons, List.map_cons, List.sum_cons]
    have hrest := ih hl fun x hx => hf x (List.mem_cons_of_mem _ hx)
    by_cases heq : c = tg
    · -- then the rest stays
      have hsame : l.map f' = l.map f := List.map_congr_left fun x hx =>
        hf x (List.mem_cons_of_mem _ hx) fun hxt => hc (by rwa [heq, ← hxt])
      rw [hsame, heq]
      omega
    · rw [hf c (List.mem_cons_self ..) heq]
      omega

/-- **Passed checks.** If all groups pass with what they have or are to have, and the numbers are
such that the sums do not overflow, the shares are as they should be. -/
theorem of_checks (hT : GroupTree G.list G.children) (hglobal : BandwidthOk G.global)
    (hnew : ∀ g ∈ G.list, 0 < (G.bandwidthWith d g).rtPeriod ∧
      ((G.bandwidthWith d g).rtRuntime < 2 ^ 44 ∨ (G.bandwidthWith d g).rtRuntime = runtimeInf))
    (hold : ∀ g ∈ G.list, (∀ c ∈ G.children g, share (G.bandwidthWith d c) ≤ 2 ^ 20) →
      ((G.children g).map fun c => share (G.bandwidthWith d c)).sum < 2 ^ 32)
    (hpass : ∀ g ∈ G.list, G.tgRtSchedulable d g = 0) :
    ∀ g ∈ G.list, BandwidthOk (G.bandwidthWith d g) ∧
      share (G.bandwidthWith d g) ≤ share G.global ∧
      ((G.children g).map fun c => share (G.bandwidthWith d c)).sum ≤
        share (G.bandwidthWith d g) := by
  have hok : ∀ g ∈ G.list, BandwidthOk (G.bandwidthWith d g) := fun g hg =>
    ⟨(hnew g hg).1, (tgRtSchedulable_eq_zero_iff.mp (hpass g hg)).1, (hnew g hg).2⟩
  have hratio : ∀ g ∈ G.list, G.ratioWith d g = share (G.bandwidthWith d g) :=
    fun g hg => (hok g hg).toRatio_eq
  intro g hg
  obtain ⟨-, -, hlimit, hsum⟩ := tgRtSchedulable_eq_zero_iff.mp (hpass g hg)
  have hmap : (G.children g).map (G.ratioWith d) =
      (G.children g).map fun c => share (G.bandwidthWith d c) :=
    List.map_congr_left fun c hc => hratio c (hT.child.mp hc).1
  -- the 32-bit sum of `tg_rt_schedulable` is the sum of the shares
  have hlt : ((G.children g).map (G.ratioWith d)).sum < 2 ^ 32 := by
    rw [hmap]
    exact hold g hg fun c hc => (hok c (hT.child.mp hc).1).share_le
  have hlim : toRatio G.globalRtPeriod G.globalRtRuntime = share G.global := hglobal.toRatio_eq
  rw [childrenRatio_eq hlt, hmap, hratio g hg] at hsum
  rw [hratio g hg, hlim] at hlimit
  exact ⟨hok g hg, hlimit, hsum⟩

theorem sum_lt (h : BandwidthInv G) {g : TaskGroup} (hg : g ∈ G.list) :
    ((G.children g).map fun c => share (G.bandwidth c)).sum ≤ 2 ^ 20 :=
  (h.sum g hg).trans (h.ok g hg).share_le

/-- A request for one group. -/
theorem tgSetRtBandwidth {period runtime : Nat} {ret : Int} {G' : Groups} (h : BandwidthInv G)
    (hperiod : 0 < period) (hruntime : runtime < 2 ^ 44 ∨ runtime = runtimeInf)
    (hset : G.tgSetRtBandwidth tg period runtime = some (ret, G')) : BandwidthInv G' := by
  obtain ⟨err, herr, heq⟩ := Option.map_eq_some_iff.mp hset
  obtain ⟨err', herr', hiff⟩ := rtSchedulable_eq_zero_iff h.tree ⟨some tg, period, runtime⟩
  obtain rfl := Option.some.inj (herr.symm.trans herr')
  split at heq
  · obtain ⟨-, rfl⟩ := Prod.mk.inj heq
    exact h
  · next hzero =>
    obtain ⟨-, rfl⟩ := Prod.mk.inj heq
    have hwith : ∀ g, G.bandwidthWith ⟨some tg, period, runtime⟩ g =
        Function.update G.bandwidth tg ⟨period, runtime⟩ g := by
      intro g
      unfold Groups.bandwidthWith
      by_cases hg : g = tg
      · simp [hg]
      · have hne : some tg ≠ some g := fun heq => hg (Option.some.inj heq).symm
        rw [Function.update_of_ne hg]
        exact if_neg hne
    have hchecks := of_checks (d := ⟨some tg, period, runtime⟩) h.tree h.global ?_ ?_
      (hiff.mp (not_not.mp hzero))
    · simp only [hwith] at hchecks
      exact ⟨h.tree, fun g hg => (hchecks g hg).1, h.global, h.default,
        fun g hg => (hchecks g hg).2.1, fun g hg => (hchecks g hg).2.2⟩
    · intro g hg
      rw [hwith]
      by_cases heq : g = tg
      · rw [heq, Function.update_self]
        exact ⟨hperiod, hruntime⟩
      · rw [Function.update_of_ne heq]
        exact ⟨(h.ok g hg).period, (h.ok g hg).small⟩
    · -- at most one summand is new
      intro g hg hle
      by_cases hmem : tg ∈ G.children g
      · have hsum : ((G.children g).map fun c =>
            share (G.bandwidthWith ⟨some tg, period, runtime⟩ c)).sum ≤
            ((G.children g).map fun c => share (G.bandwidth c)).sum +
              share (G.bandwidthWith ⟨some tg, period, runtime⟩ tg) :=
          sum_le_of_replaced (h.tree.kids g) fun c _ hne => by rw [hwith, Function.update_of_ne hne]
        have := hle tg hmem
        have := h.sum_lt hg
        omega
      · have hsame : ((G.children g).map fun c =>
            share (G.bandwidthWith ⟨some tg, period, runtime⟩ c)) =
            (G.children g).map fun c => share (G.bandwidth c) :=
          List.map_congr_left fun c hc => by
            have hne : c ≠ tg := fun hct => hmem (hct ▸ hc)
            rw [hwith, Function.update_of_ne hne]
        have := h.sum_lt hg
        rw [hsame]
        omega

/-- A write to one of the sysctls. -/
theorem schedRtHandler {G' : Groups} {ret : Int} (h : BandwidthInv G) (new : Groups)
    (hlist : new.list = G.list) (hchildren : new.children = G.children)
    (hbandwidth : new.bandwidth = G.bandwidth)
    (hset : G.schedRtHandler new = some (ret, G')) : BandwidthInv G' := by
  obtain ⟨err, herr, heq⟩ := Option.map_eq_some_iff.mp hset
  split at heq
  · obtain ⟨-, rfl⟩ := Prod.mk.inj heq
    exact h
  · next hzero =>
    obtain ⟨-, rfl⟩ := Prod.mk.inj heq
    rw [not_not] at hzero
    subst hzero
    have hinval : ¬ some (-eInval) = some 0 := by decide
    unfold Groups.schedRtGlobalConstraints at herr
    split at herr
    · exact absurd herr hinval
    · next hperiod =>
      split at herr
      · exact absurd herr hinval
      · next hfits =>
        have hT : GroupTree new.list new.children := by
          rw [hlist, hchildren]
          exact h.tree
        have hpos : 0 < new.sysctlPeriod.toNat := Nat.pos_of_ne_zero fun h0 =>
          hperiod (BitVec.eq_of_toNat_eq h0)
        have hglobal : BandwidthOk new.global := by
          refine ⟨Nat.mul_pos hpos (by decide), ?_, ?_⟩
          · by_contra hor
            rw [not_or, not_le] at hor
            exact hfits hor
          · show new.globalRtRuntime < 2 ^ 44 ∨ new.globalRtRuntime = runtimeInf
            unfold Groups.globalRtRuntime nsecPerUsec
            have := new.sysctlRuntime.isLt
            split
            · exact Or.inr rfl
            · left
              omega
        obtain ⟨err', herr', hiff⟩ := rtSchedulable_eq_zero_iff hT ⟨none, 0, 0⟩
        obtain rfl := Option.some.inj (herr.symm.trans herr')
        have hwith : ∀ g, new.bandwidthWith ⟨none, 0, 0⟩ g = G.bandwidth g := by
          intro g
          rw [← hbandwidth]
          rfl
        have hchecks := of_checks hT hglobal ?_ ?_ (hiff.mp rfl)
        · simp only [hwith] at hchecks
          rw [← hbandwidth] at hchecks
          exact ⟨hT, fun g hg => (hchecks g hg).1, hglobal, hglobal.period,
            fun g hg => (hchecks g hg).2.1, fun g hg => (hchecks g hg).2.2⟩
        · intro g hg
          rw [hwith]
          rw [hlist] at hg
          exact ⟨(h.ok g hg).period, (h.ok g hg).small⟩
        · intro g hg _
          rw [hlist] at hg
          have := h.sum_lt hg
          simp only [hwith, hchildren]
          omega

theorem create {parent : TaskGroup} {n : Nat} (h : BandwidthInv G) (hp : parent ∈ G.list)
    (hn : n :: parent ∉ G.list) : BandwidthInv (G.schedCreateGroup parent n) := by
  have hnew : Function.update G.bandwidth (n :: parent) ⟨G.defBandwidth.rtPeriod, 0⟩ (n :: parent) =
      ⟨G.defBandwidth.rtPeriod, 0⟩ := Function.update_self ..
  have hold : ∀ g ∈ G.list,
      Function.update G.bandwidth (n :: parent) ⟨G.defBandwidth.rtPeriod, 0⟩ g = G.bandwidth g :=
    fun g hg => by
      have hne : g ≠ n :: parent := fun heq => hn (heq ▸ hg)
      rw [Function.update_of_ne hne]
  have hzero : share ⟨G.defBandwidth.rtPeriod, 0⟩ = 0 := by simp [share, runtimeInf]
  have hsame : ∀ g, ((G.children g).map fun c =>
      share (Function.update G.bandwidth (n :: parent) ⟨G.defBandwidth.rtPeriod, 0⟩ c)) =
      (G.children g).map fun c => share (G.bandwidth c) := fun g =>
    List.map_congr_left fun c hc => by rw [hold c (h.tree.child.mp hc).1]
  refine ⟨h.tree.create hp hn, ?_, h.global, h.default, ?_, ?_⟩
  · intro g hg
    show BandwidthOk (Function.update G.bandwidth _ _ g)
    rcases List.mem_cons.mp hg with rfl | hg
    · rw [hnew]
      exact ⟨h.default, Or.inl (Nat.zero_le _), Or.inl (Nat.two_pow_pos 44)⟩
    · rw [hold g hg]
      exact h.ok g hg
  · intro g hg
    show share (Function.update G.bandwidth _ _ g) ≤ share G.global
    rcases List.mem_cons.mp hg with rfl | hg
    · rw [hnew, hzero]
      exact Nat.zero_le _
    · rw [hold g hg]
      exact h.limit g hg
  · intro g hg
    show ((Function.update (Function.update G.children (n :: parent) []) parent
      ((n :: parent) :: G.children parent) g).map fun c =>
        share (Function.update G.bandwidth _ _ c)).sum ≤
        share (Function.update G.bandwidth _ _ g)
    by_cases hgp : g = parent
    · subst hgp
      rw [Function.update_self, List.map_cons, List.sum_cons, hnew, hzero, hsame,
        hold g hp, Nat.zero_add]
      exact h.sum g hp
    · rw [Function.update_of_ne hgp]
      rcases List.mem_cons.mp hg with rfl | hg
      · rw [Function.update_self]
        exact Nat.zero_le _
      · have hne : g ≠ n :: parent := fun heq => hn (heq ▸ hg)
        rw [Function.update_of_ne hne, hsame, hold g hg]
        exact h.sum g hg

theorem destroy (h : BandwidthInv G) (hroot : tg ≠ []) (hleaf : G.children tg = []) :
    BandwidthInv (G.schedDestroyGroup tg) := by
  refine ⟨h.tree.destroy hroot hleaf, fun g hg => h.ok g (List.mem_of_mem_erase hg), h.global,
    h.default, fun g hg => h.limit g (List.mem_of_mem_erase hg), fun g hg => ?_⟩
  show ((Function.update G.children tg.tail ((G.children tg.tail).erase tg) g).map
    fun c => share (G.bandwidth c)).sum ≤ share (G.bandwidth g)
  have hg' := List.mem_of_mem_erase hg
  by_cases heq : g = tg.tail
  · rw [heq, Function.update_self]
    rw [heq] at hg'
    refine Nat.le_trans ?_ (h.sum _ hg')
    exact (List.erase_sublist.map _).sum_le_sum fun _ _ => Nat.zero_le _
  · rw [Function.update_of_ne heq]
    exact h.sum g hg'

/-- **Every step keeps the invariant.** -/
theorem next {G' : Groups} {op : GroupOp} (h : BandwidthInv G) (hnext : G.next op = some G') :
    BandwidthInv G' := by
  obtain ⟨⟨ret, G'⟩, hexec, rfl⟩ := Option.map_eq_some_iff.mp hnext
  dsimp only
  cases op with
  | create parent n memory =>
    simp only [Groups.exec] at hexec
    split at hexec
    · next hen =>
      cases memory with
      | true =>
        obtain ⟨-, rfl⟩ := Prod.mk.inj (Option.some.inj hexec)
        exact h.create hen.1 hen.2
      | false =>
        obtain ⟨-, rfl⟩ := Prod.mk.inj (Option.some.inj hexec)
        exact h
    · cases hexec
  | destroy tg =>
    simp only [Groups.exec] at hexec
    split at hexec
    · next hen =>
      obtain ⟨-, rfl⟩ := Prod.mk.inj (Option.some.inj hexec)
      exact h.destroy hen.2.1 hen.2.2
    · cases hexec
  | writeRuntime tg val =>
    simp only [Groups.exec] at hexec
    split at hexec
    · next hg =>
      refine h.tgSetRtBandwidth (h.ok tg hg).period ?_ hexec
      -- the microseconds written are 32 bits wide, and a negative number means no limit
      have := (val.setWidth 32).isLt
      unfold nsecPerUsec
      split
      · exact Or.inr rfl
      · left
        omega
    · cases hexec
  | writePeriod tg val =>
    simp only [Groups.exec, Groups.schedGroupSetRtPeriod] at hexec
    split at hexec
    · next hg =>
      split at hexec
      · obtain ⟨-, rfl⟩ := Prod.mk.inj (Option.some.inj hexec)
        exact h
      · next hpos => exact h.tgSetRtBandwidth (Nat.pos_of_ne_zero hpos) (h.ok tg hg).small hexec
    · cases hexec
  | sysctlPeriod val =>
    exact h.schedRtHandler { G with sysctlPeriod := val } rfl rfl rfl hexec
  | sysctlRuntime val =>
    exact h.schedRtHandler { G with sysctlRuntime := val } rfl rfl rfl hexec
  | rtTasks tasks =>
    obtain ⟨-, rfl⟩ := Prod.mk.inj (Option.some.inj hexec)
    exact ⟨h.tree, h.ok, h.global, h.default, h.limit, h.sum⟩

theorem boot : BandwidthInv bootGroups := by
  have hok : BandwidthOk ⟨1000000 * nsecPerUsec, 950000 * nsecPerUsec⟩ :=
    ⟨by decide, Or.inl (by decide), Or.inl (by decide)⟩
  have hglobal : bootGroups.global = ⟨1000000 * nsecPerUsec, 950000 * nsecPerUsec⟩ := by
    decide +kernel
  refine ⟨⟨List.nodup_singleton _, List.mem_singleton_self _, ?_, ?_, fun _ => List.nodup_nil⟩,
    fun _ _ => hok, hglobal ▸ hok, by decide, fun _ _ => ?_, fun _ _ => Nat.zero_le _⟩
  · intro n g hg
    simp [bootGroups] at hg
  · intro g c
    refine iff_of_false (by simp [bootGroups]) ?_
    rintro ⟨hc, n, rfl⟩
    simp [bootGroups] at hc
  · rw [hglobal]
    exact Nat.le_refl _

theorem reachable (h : Reachable Groups.next bootGroups G) : BandwidthInv G :=
  h.invariant (fun _ _ _ h hnext => h.next hnext) boot

end BandwidthInv

/-! ## Results -/

end LinuxKernel.Sched
