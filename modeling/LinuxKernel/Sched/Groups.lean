import LinuxKernel.Lib.Tree
import LinuxKernel.Lib.Walk
import LinuxKernel.Sched.Types

/-!
# Android scheduler — the tree of task groups

`walk_tg_tree_from` visits the tree of task groups without recursion and without a stack: two labels
inside and outside of a `list_for_each_entry_rcu` loop, whose cursor it finds again through the
parent pointer and the list of siblings when it leaves a group.

* `TreeOk`       — children know their parent, and no list of children has duplicates.
* `subtree_goes` — the walk through one subtree.
* `walk_visits`  — the walk returns after at most three steps for each group, and it makes the calls
  of the recursive visit, in the same order and with the same result.
-/

namespace LinuxKernel.Sched

open LinuxKernel.Lib

/-! ## The walk -/

/-- `tg->parent` -/
def tgParent : TaskGroup → Option TaskGroup
  | [] => none
  | _ :: g => some g

/-- What follows `child` in a list of siblings. -/
def nextSibling (siblings : List TaskGroup) (child : TaskGroup) : Option TaskGroup :=
  (siblings.dropWhile (· ≠ child)).tail.head?

/-- Where `walk_tg_tree_from` is: at the label `down`, at the head of the loop with the cursor at
`child`, or at the label `out`. -/
inductive Place
  | down (parent : TaskGroup)
  | loop (parent : TaskGroup) (child : Option TaskGroup)
  | out (ret : Int)
  deriving DecidableEq, Repr

section Walk

variable {D : Type*}

/-- One step of the walk. A visitor gets the data and may change it. -/
def walkStep (children : TaskGroup → List TaskGroup) (source : TaskGroup)
    (down up : TaskGroup → D → Int × D) : Place × D → Option (Place × D)
  | (.down parent, data) =>
    let (ret, data) := down parent data
    if ret ≠ 0 then some (.out ret, data) else some (.loop parent (children parent).head?, data)
  | (.loop _ (some child), data) => some (.down child, data)
  | (.loop parent none, data) =>
    let (ret, data) := up parent data
    if ret ≠ 0 ∨ parent = source then some (.out ret, data)
    else
      match tgParent parent with
      | none => some (.out ret, data)
      | some p => some (.loop p (nextSibling (children p) parent), data)
  | (.out _, _) => none

/-- The walk, for a number of steps; nothing if it has not come to its end by then. -/
def walkTgTreeFrom (children : TaskGroup → List TaskGroup) (source : TaskGroup)
    (down up : TaskGroup → D → Int × D) (steps : Nat) (data : D) : Option (Int × D) :=
  match walkEnd (walkStep children source down up) steps (.down source, data) with
  | some (.out ret, data) => some (ret, data)
  | _ => none

def tgNop (_ : TaskGroup) (data : D) : Int × D := (0, data)

end Walk

/-! ## The tree -/

/-- The lists of children make up a tree. -/
structure TreeOk (children : TaskGroup → List TaskGroup) : Prop where
  child : ∀ {g c}, c ∈ children g → ∃ n, c = n :: g
  nodup : ∀ g, (children g).Nodup

theorem nextSibling_eq {pre rest : List TaskGroup} {c : TaskGroup} (h : (pre ++ c :: rest).Nodup) :
    nextSibling (pre ++ c :: rest) c = rest.head? := by
  have hpre : ∀ x ∈ pre, decide (x ≠ c) = true := by
    intro x hx
    rw [decide_eq_true_eq]
    rintro rfl
    exact (List.nodup_append.mp h).2.2 x hx x (List.mem_cons_self ..) rfl
  unfold nextSibling
  rw [List.dropWhile_append_of_pos hpre, List.dropWhile_cons_of_neg (by simp), List.tail_cons]

/-! ## Visits -/

section Visit

variable {D : Type*} {children : TaskGroup → List TaskGroup} (source : TaskGroup)
  (down up : TaskGroup → D → Int × D)

/-- Where the walk is after calls that returned `ret`: at the end, or where it goes on. -/
def goOn (r : Int × D) (place : Place) : Place × D := (if r.1 ≠ 0 then .out r.1 else place, r.2)

/-- The part of a visit before it calls `up`. -/
def visitBody (children : TaskGroup → List TaskGroup) (down up : TaskGroup → D → Int × D) (n : Nat)
    (g : TaskGroup) (d : D) : Int × D :=
  let (r, d) := down g d
  if r ≠ 0 then (r, d) else visitAll (visitTree children down up n) (children g) d

theorem visitTree_eq_body (n : Nat) (g : TaskGroup) (d : D) :
    visitTree children down up (n + 1) g d =
      if (visitBody children down up n g d).1 ≠ 0 then visitBody children down up n g d
      else up g (visitBody children down up n g d).2 := by
  rw [visitTree, visitBody]
  dsimp only
  split <;> rfl

theorem length_preorder_pos {n : Nat} {g : TaskGroup} (h : HeightLt children n g) :
    1 ≤ (preorder children n g).length := by
  cases n with
  | zero => exact h.elim
  | succ n => simp [preorder]

/-- The rest of a list of children, if the walk goes through each of their subtrees. -/
theorem children_goes {n : Nat} {g : TaskGroup} (hT : TreeOk children)
    (hsub : ∀ c ∈ children g, ∀ d, ∃ j ≤ 3 * (preorder children n c).length - 1,
      Goes (walkStep children source down up) j (.down c, d)
        (goOn (visitTree children down up n c d) (.loop g (nextSibling (children g) c))))
    (hpos : ∀ c ∈ children g, 1 ≤ (preorder children n c).length)
    {pre rest : List TaskGroup} (hsplit : children g = pre ++ rest) (d : D) :
    ∃ j ≤ 3 * (rest.flatMap (preorder children n)).length,
      Goes (walkStep children source down up) j (.loop g rest.head?, d)
        (goOn (visitAll (visitTree children down up n) rest d) (.loop g none)) := by
  induction rest generalizing pre d with
  | nil => exact ⟨0, Nat.zero_le _, fun m => rfl⟩
  | cons c rest ih =>
    have hc : c ∈ children g := by
      rw [hsplit]
      simp
    -- into the child, through its subtree
    obtain ⟨j, hj, hgo⟩ := hsub c hc d
    have henter : Goes (walkStep children source down up) 1 (.loop g (some c), d) (.down c, d) :=
      .step rfl
    have hlen : ((c :: rest).flatMap (preorder children n)).length =
        (preorder children n c).length + (rest.flatMap (preorder children n)).length := by
      rw [List.flatMap_cons, List.length_append]
    have := hpos c hc
    by_cases hr : (visitTree children down up n c d).1 = 0
    · -- on to the next sibling
      have hsib : nextSibling (children g) c = rest.head? := by
        have hnodup := hT.nodup g
        rw [hsplit] at hnodup ⊢
        exact nextSibling_eq hnodup
      have hsplit' : children g = (pre ++ [c]) ++ rest := by simp [hsplit]
      obtain ⟨i, hi, hrest⟩ := ih hsplit' (visitTree children down up n c d).2
      have hmid : goOn (visitTree children down up n c d) (.loop g (nextSibling (children g) c)) =
          (.loop g rest.head?, (visitTree children down up n c d).2) := by
        rw [goOn, if_neg (not_not.mpr hr), hsib]
      -- the visit of the child has failed: both walks end here
      have hend : visitAll (visitTree children down up n) (c :: rest) d =
          visitAll (visitTree children down up n) rest (visitTree children down up n c d).2 := by
        rw [visitAll]
        exact if_neg (not_not.mpr hr)
      rw [hmid] at hgo
      rw [hend]
      exact ⟨1 + (j + i), by omega, henter.trans (hgo.trans hrest)⟩
    · have hend : visitAll (visitTree children down up n) (c :: rest) d =
          visitTree children down up n c d := by
        rw [visitAll]
        exact if_pos hr
      have hplace : ∀ place, goOn (visitTree children down up n c d) place =
          (.out (visitTree children down up n c d).1, (visitTree children down up n c d).2) := by
        intro place
        rw [goOn, if_pos hr]
      rw [hplace] at hgo
      rw [hend, hplace]
      exact ⟨1 + j, by omega, henter.trans hgo⟩

/-- A group whose children's subtrees the walk goes through. -/
theorem group_goes {n : Nat} {g : TaskGroup} (hT : TreeOk children)
    (h : HeightLt children (n + 1) g)
    (hsub : ∀ c ∈ children g, ∀ d, ∃ j ≤ 3 * (preorder children n c).length - 1,
      Goes (walkStep children source down up) j (.down c, d)
        (goOn (visitTree children down up n c d) (.loop g (nextSibling (children g) c)))) (d : D) :
    ∃ j ≤ 3 * (preorder children (n + 1) g).length - 2,
      Goes (walkStep children source down up) j (.down g, d)
        (goOn (visitBody children down up n g d) (.loop g none)) := by
  have hlen : (preorder children (n + 1) g).length =
      ((children g).flatMap (preorder children n)).length + 1 := rfl
  by_cases hr : (down g d).1 = 0
  · have hbody : visitBody children down up n g d =
        visitAll (visitTree children down up n) (children g) (down g d).2 := if_neg (not_not.mpr hr)
    have henter : Goes (walkStep children source down up) 1 (.down g, d)
        (.loop g (children g).head?, (down g d).2) := .step (if_neg (not_not.mpr hr))
    obtain ⟨j, hj, hgo⟩ := children_goes source down up hT hsub
      (fun c hc => length_preorder_pos (h c hc)) (List.nil_append _).symm (down g d).2
    rw [hbody]
    exact ⟨1 + j, by omega, henter.trans hgo⟩
  · have hbody : visitBody children down up n g d = down g d := if_pos hr
    have hout : goOn (visitBody children down up n g d) (.loop g none) =
        (.out (down g d).1, (down g d).2) := by
      rw [hbody, goOn, if_pos hr]
    rw [hout]
    exact ⟨1, by omega, .step (if_pos hr)⟩

/-- **One subtree.** The walk enters a group below the source, visits its subtree, and comes to the
next sibling, unless a call has failed. -/
theorem subtree_goes {n : Nat} {g c : TaskGroup} (hT : TreeOk children) (hc : c ∈ children g)
    (h : HeightLt children n c) (hg : source.length ≤ g.length) (d : D) :
    ∃ j ≤ 3 * (preorder children n c).length - 1,
      Goes (walkStep children source down up) j (.down c, d)
        (goOn (visitTree children down up n c d) (.loop g (nextSibling (children g) c))) := by
  induction n generalizing g c d with
  | zero => exact h.elim
  | succ n ih =>
    obtain ⟨i, rfl⟩ := hT.child hc
    have hlong : source.length ≤ (i :: g).length := hg.trans (Nat.le_succ _)
    -- `down` on the group, then its children
    obtain ⟨j, hj, hgo⟩ := group_goes source down up hT h
      (fun c' hc' d' => ih hc' (h c' hc') hlong d') d
    have hpos := length_preorder_pos h
    rw [visitTree_eq_body]
    by_cases hr : (visitBody children down up n (i :: g) d).1 = 0
    · -- up is called, and the walk goes back to the parent, as this is not where it started
      have hne : i :: g ≠ source := by
        rintro rfl
        simp at hg
      have hmid : goOn (visitBody children down up n (i :: g) d) (.loop (i :: g) none) =
          (.loop (i :: g) none, (visitBody children down up n (i :: g) d).2) := by
        rw [goOn, if_neg (not_not.mpr hr)]
      have hup : Goes (walkStep children source down up) 1
          (.loop (i :: g) none, (visitBody children down up n (i :: g) d).2)
          (goOn (up (i :: g) (visitBody children down up n (i :: g) d).2)
            (.loop g (nextSibling (children g) (i :: g)))) := by
        refine .step ?_
        unfold walkStep goOn
        dsimp only
        split
        · next hor => rw [if_pos (hor.resolve_right hne)]
        · next hor =>
          rw [not_or, not_not] at hor
          rw [if_neg (not_not.mpr hor.1)]
          rfl
      rw [hmid] at hgo
      rw [if_neg (not_not.mpr hr)]
      exact ⟨j + 1, by omega, hgo.trans hup⟩
    · have hout : ∀ place, goOn (visitBody children down up n (i :: g) d) place =
          (.out (visitBody children down up n (i :: g) d).1,
            (visitBody children down up n (i :: g) d).2) := by
        intro place
        rw [goOn, if_pos hr]
      rw [hout] at hgo
      rw [if_pos hr, hout]
      exact ⟨j, by omega, hgo⟩

end Visit

/-- **Walk.** On every tree of task groups, from every group and with any two visitors that change
the data as they like, `walk_tg_tree_from` returns after at most three steps for each group it could
visit, and its result and what it leaves in the data are those of the recursive visit that calls
`down` on entering a group, then visits the children in order, then calls `up`, until a call
fails. -/
theorem walk_visits {D : Type*} {children : TaskGroup → List TaskGroup} (hT : TreeOk children)
    (source : TaskGroup) (down up : TaskGroup → D → Int × D) {n steps : Nat}
    (hn : HeightLt children n source)
    (hsteps : 3 * (preorder children n source).length ≤ steps) (d : D) :
    walkTgTreeFrom children source down up steps d =
      some (visitTree children down up n source d) := by
  cases n with
  | zero => exact hn.elim
  | succ n =>
    obtain ⟨j, hj, hgo⟩ := group_goes source down up hT hn
      (fun c hc d' => subtree_goes source down up hT hc (hn c hc) (Nat.le_refl _) d') d
    have hpos := length_preorder_pos hn
    -- at the end of its own visit the source is where the walk stops
    have hend : ∃ i ≤ 1, Goes (walkStep children source down up) (j + i) (.down source, d)
        (.out (visitTree children down up (n + 1) source d).1,
          (visitTree children down up (n + 1) source d).2) := by
      rw [visitTree_eq_body]
      by_cases hr : (visitBody children down up n source d).1 = 0
      · rw [goOn, if_neg (not_not.mpr hr)] at hgo
        rw [if_neg (not_not.mpr hr)]
        exact ⟨1, Nat.le_refl 1, hgo.trans (.step (if_pos (Or.inr rfl)))⟩
      · rw [goOn, if_pos hr] at hgo
        rw [if_pos hr]
        exact ⟨0, Nat.zero_le _, hgo⟩
    obtain ⟨i, hi, hgo⟩ := hend
    have hwalk : walkEnd (walkStep children source down up) steps (.down source, d) =
        some (.out (visitTree children down up (n + 1) source d).1,
          (visitTree children down up (n + 1) source d).2) := by
      obtain ⟨m, rfl⟩ : ∃ m, steps = (m + 1) + (j + i) := ⟨steps - (j + i) - 1, by omega⟩
      rw [hgo (m + 1)]
      exact walkEnd_succ_none rfl m
    unfold walkTgTreeFrom
    rw [hwalk]

/-- Four groups; the visitors note where they are called. -/
def sampleGroups : TaskGroup → List TaskGroup
  | [] => [[2], [1]]
  | [2] => [[5, 2]]
  | _ => []

theorem walk_visits_sample : walkTgTreeFrom sampleGroups [] (fun g d => (0, (true, g) :: d))
    (fun g d => (0, (false, g) :: d)) 12 [] =
      some (0, [(false, []), (false, [1]), (true, [1]), (false, [2]), (false, [5, 2]),
        (true, [5, 2]), (true, [2]), (true, [])]) := by
  have hT : TreeOk sampleGroups := by
    constructor
    · intro g c hc
      unfold sampleGroups at hc
      split at hc
      · rcases List.mem_pair.mp hc with rfl | rfl
        · exact ⟨2, rfl⟩
        · exact ⟨1, rfl⟩
      · exact ⟨5, List.mem_singleton.mp hc⟩
      · cases hc
    · intro g
      unfold sampleGroups
      split <;> decide
  have hn : HeightLt sampleGroups 3 [] := by
    simp [HeightLt, sampleGroups]
  exact walk_visits hT [] _ _ hn (by decide) []

end LinuxKernel.Sched
