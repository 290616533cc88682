import LinuxKernel.Lib.Ring
import Mathlib.Data.List.Chain
import Mathlib.Logic.Function.Basic

/-!
# Circular doubly linked lists

Nodes with a pointer to the next and one to the previous node, among them a
head node, and the operations on them that Linux has, pointer by pointer. A
list is there if the pointers lead from the head through its nodes back to
the head, both ways.

## Results

* `Circular.addBetween`, `Circular.listDelEntry` — a node joins, a node leaves.
* `Circular.listAdd_element`, `Circular.listAddTail_element`,
  `Circular.listDelInit_element`, `Circular.listMove_element`,
  `Circular.listMoveTail_element` — each operation changes the list as it is
  meant to.
* `Circular.follow_next`, `Circular.follow_prev` — the two traversals.
* `Circular.neighbours` — the pointers of an element lead to its neighbours
  in the sense of `Lib.Ring`.
-/

namespace LinuxKernel.Lib

universe u

/-- The pointers of all nodes. -/
structure Links (N : Type u) where
  next : N → N
  prev : N → N

variable {N : Type u}

/-! ## Lists -/

/-- Two nodes point at each other. -/
def Links.Joined (m : Links N) (x y : N) : Prop := m.next x = y ∧ m.prev y = x

/-- The list `l` with the head node `h`. -/
structure Circular (m : Links N) (h : N) (l : List N) : Prop where
  nodup : (h :: l).Nodup
  chain : (h :: (l ++ [h])).IsChain m.Joined

section Chains

variable {m m' : Links N} {l l₁ l₂ : List N} {h x : N}

/-- A chain depends on the pointers to next nodes but for its last node, and on those to previous
nodes but for its first one. -/
theorem isChain_joined_congr (hc : l.IsChain m.Joined)
    (hnext : ∀ a ∈ l.dropLast, m'.next a = m.next a)
    (hprev : ∀ b ∈ l.tail, m'.prev b = m.prev b) : l.IsChain m'.Joined := by
  induction l with
  | nil => exact .nil
  | cons a l ih =>
    cases l with
    | nil => exact .singleton a
    | cons b l =>
      rw [List.isChain_cons_cons] at hc ⊢
      obtain ⟨⟨hn, hp⟩, hc⟩ := hc
      refine ⟨⟨?_, ?_⟩, ih hc ?_ ?_⟩
      · rw [hnext a (by simp), hn]
      · rw [hprev b (by simp), hp]
      · intro c hmem
        exact hnext c (by rw [List.dropLast_cons_cons]; exact List.mem_cons_of_mem a hmem)
      · intro c hmem
        exact hprev c (List.mem_cons_of_mem b hmem)

/-- A circular list cut between two nodes `p` and `n`: they are joined, and so are the nodes on each
side. -/
theorem isChain_cut {R : N → N → Prop} {p n : N} (hp : (h :: l₁).getLast? = some p)
    (hn : (l₂ ++ [h]).head? = some n) :
    (h :: (l₁ ++ l₂ ++ [h])).IsChain R ↔
      (h :: l₁).IsChain R ∧ (l₂ ++ [h]).IsChain R ∧ R p n := by
  rw [List.append_assoc, ← List.cons_append, List.isChain_append, hp, hn]
  simp

/-- The two sides of a cut depend neither on the pointer that leaves it forwards nor on the one
that leaves it backwards. -/
theorem isChain_sides_congr {p n : N} (hd : (h :: (l₁ ++ l₂)).Nodup)
    (hp : (h :: l₁).getLast? = some p) (hn : (l₂ ++ [h]).head? = some n)
    (hnext : ∀ a ∈ h :: (l₁ ++ l₂), a ≠ p → m'.next a = m.next a)
    (hprev : ∀ a ∈ h :: (l₁ ++ l₂), a ≠ n → m'.prev a = m.prev a)
    (h₁ : (h :: l₁).IsChain m.Joined) (h₂ : (l₂ ++ [h]).IsChain m.Joined) :
    (h :: l₁).IsChain m'.Joined ∧ (l₂ ++ [h]).IsChain m'.Joined := by
  obtain ⟨front, hfront⟩ := List.getLast?_eq_some_iff.mp hp
  obtain ⟨back, hback⟩ := List.head?_eq_some_iff.mp hn
  have hd₁ : (front ++ p :: l₂).Nodup := by
    rwa [← List.cons_append, hfront, List.append_assoc, List.singleton_append] at hd
  have hd₂ : (l₁ ++ n :: back).Nodup := by
    rwa [← hback, ← List.append_assoc, List.nodup_append_comm, List.singleton_append]
  rw [List.nodup_middle, List.nodup_cons] at hd₁ hd₂
  have hmem₁ : ∀ a ∈ front, a ∈ h :: (l₁ ++ l₂) := by
    intro a ha
    rw [← List.cons_append, hfront]
    simp [ha]
  have hmem₂ : ∀ a ∈ back, a ∈ h :: (l₁ ++ l₂) := by
    intro a ha
    have : a ∈ l₂ ++ [h] := by rw [hback]; exact List.mem_cons_of_mem n ha
    grind
  constructor
  · refine isChain_joined_congr h₁ ?_ ?_
    · rw [hfront, List.dropLast_concat]
      exact fun a ha => hnext a (hmem₁ a ha) fun he =>
        hd₁.1 (List.mem_append_left l₂ (he ▸ ha))
    · rw [List.tail_cons]
      exact fun a ha => hprev a (by simp [ha]) fun he =>
        hd₂.1 (List.mem_append_left back (he ▸ ha))
  · refine isChain_joined_congr h₂ ?_ ?_
    · rw [List.dropLast_concat]
      exact fun a ha => hnext a (by simp [ha]) fun he =>
        hd₁.1 (List.mem_append_right front (he ▸ ha))
    · rw [hback, List.tail_cons]
      exact fun a ha => hprev a (hmem₂ a ha) fun he =>
        hd₂.1 (List.mem_append_right l₁ (he ▸ ha))

/-- The next node of the first one of a chain, and the previous node of the last one. -/
theorem head?_eq_next {r : List N} (hc : (x :: r).IsChain m.Joined) (hne : r ≠ []) :
    r.head? = some (m.next x) := by
  obtain ⟨y, r, rfl⟩ := List.exists_cons_of_ne_nil hne
  rw [List.isChain_cons_cons] at hc
  rw [List.head?_cons, hc.1.1]

theorem getLast?_eq_prev {r : List N} (hc : (r ++ [x]).IsChain m.Joined) (hne : r ≠ []) :
    r.getLast? = some (m.prev x) := by
  have hlast := List.getLast?_eq_some_getLast hne
  have hjoined := (List.isChain_append.mp hc).2.2 _ hlast x rfl
  rw [hlast, hjoined.2]

/-- The pointers of the head node. -/
theorem Circular.head_eq (hr : Circular m h l) :
    (l ++ [h]).head? = some (m.next h) ∧ (h :: l).getLast? = some (m.prev h) := by
  have hchain := hr.chain
  refine ⟨head?_eq_next hchain (by simp), ?_⟩
  rw [← List.cons_append] at hchain
  exact getLast?_eq_prev hchain (List.cons_ne_nil h l)

/-- The pointers of another one. -/
theorem Circular.member_eq (hr : Circular m h (l₁ ++ x :: l₂)) :
    (l₂ ++ [h]).head? = some (m.next x) ∧ (h :: l₁).getLast? = some (m.prev x) := by
  have hchain := hr.chain
  rw [List.append_assoc, List.cons_append, ← List.cons_append, List.isChain_split] at hchain
  exact ⟨head?_eq_next hchain.2 (by simp), getLast?_eq_prev hchain.1 (List.cons_ne_nil h l₁)⟩

/-- A member stands at one place only. -/
theorem Circular.nodup_split (hr : Circular m h (l₁ ++ x :: l₂)) :
    x ∉ h :: (l₁ ++ l₂) ∧ (h :: (l₁ ++ l₂)).Nodup := by
  have hd := hr.nodup
  rwa [← List.cons_append, List.nodup_middle, List.nodup_cons, List.cons_append] at hd

end Chains

/-! ## The operations -/

variable [DecidableEq N]

namespace Links

def setNext (m : Links N) (x y : N) : Links N := { m with next := Function.update m.next x y }
def setPrev (m : Links N) (x y : N) : Links N := { m with prev := Function.update m.prev x y }

@[simp] theorem setNext_next (m : Links N) (x y : N) :
    (m.setNext x y).next = Function.update m.next x y := rfl
@[simp] theorem setNext_prev (m : Links N) (x y : N) : (m.setNext x y).prev = m.prev := rfl
@[simp] theorem setPrev_next (m : Links N) (x y : N) : (m.setPrev x y).next = m.next := rfl
@[simp] theorem setPrev_prev (m : Links N) (x y : N) :
    (m.setPrev x y).prev = Function.update m.prev x y := rfl

/-- `INIT_LIST_HEAD` -/
def initListHead (m : Links N) (x : N) : Links N := (m.setNext x x).setPrev x x

/-- `__list_add` -/
def addBetween (m : Links N) (new prev next : N) : Links N :=
  (((m.setPrev next new).setNext new next).setPrev new prev).setNext prev new

def listAdd (m : Links N) (new head : N) : Links N := m.addBetween new head (m.next head)
def listAddTail (m : Links N) (new head : N) : Links N := m.addBetween new (m.prev head) head

/-- `__list_del` -/
def joinAcross (m : Links N) (prev next : N) : Links N := (m.setPrev next prev).setNext prev next

/-- `__list_del_entry` -/
def listDelEntry (m : Links N) (x : N) : Links N := m.joinAcross (m.prev x) (m.next x)

def listDelInit (m : Links N) (x : N) : Links N := (m.listDelEntry x).initListHead x
def listMove (m : Links N) (x head : N) : Links N := (m.listDelEntry x).listAdd x head
def listMoveTail (m : Links N) (x head : N) : Links N := (m.listDelEntry x).listAddTail x head

end Links

section Operations

variable {m : Links N} {l l₁ l₂ : List N} {h x new p n : N}

theorem circular_initListHead (m : Links N) (h : N) : Circular (m.initListHead h) h [] where
  nodup := List.nodup_singleton h
  chain := by
    rw [List.nil_append, List.isChain_cons_cons]
    exact ⟨⟨Function.update_self .., Function.update_self ..⟩, .singleton h⟩

/-- **A new node** between two neighbours. -/
theorem Circular.addBetween (hr : Circular m h (l₁ ++ l₂)) (hnew : new ∉ h :: (l₁ ++ l₂))
    (hp : (h :: l₁).getLast? = some p) (hn : (l₂ ++ [h]).head? = some n) :
    Circular (m.addBetween new p n) h (l₁ ++ new :: l₂) where
  nodup := by
    rw [← List.cons_append, List.nodup_middle, List.nodup_cons]
    exact ⟨hnew, hr.nodup⟩
  chain := by
    obtain ⟨h₁, h₂, -⟩ := (isChain_cut hp hn).mp hr.chain
    have hold : ∀ a ∈ h :: (l₁ ++ l₂), a ≠ new := by
      rintro a ha rfl
      exact hnew ha
    have hpnew : p ≠ new := hold p (List.mem_append_left l₂ (List.mem_of_getLast? hp))
    have hnnew : n ≠ new := by
      have : n ∈ l₂ ++ [h] := List.mem_of_head? hn
      exact hold n (by grind)
    obtain ⟨h₁, h₂⟩ : _ ∧ (l₂ ++ [h]).IsChain (m.addBetween new p n).Joined := by
      refine isChain_sides_congr hr.nodup hp hn ?_ ?_ h₁ h₂
      · intro a ha hne
        simp [Links.addBetween, hne, hold a ha]
      · intro a ha hne
        simp [Links.addBetween, hne, hold a ha]
    rw [isChain_cut hp (n := new) (by simp)]
    refine ⟨h₁, ?_, ?_⟩
    · rw [List.cons_append, List.isChain_cons, hn]
      refine ⟨?_, h₂⟩
      rintro y ⟨⟩
      simp [Links.Joined, Links.addBetween, hpnew.symm, hnnew]
    · simp [Links.Joined, Links.addBetween]

/-- **A node leaves**: its neighbours are joined. -/
theorem Circular.listDelEntry (hr : Circular m h (l₁ ++ x :: l₂)) :
    Circular (m.listDelEntry x) h (l₁ ++ l₂) := by
  obtain ⟨hn, hp⟩ := hr.member_eq
  have hd := hr.nodup_split.2
  refine ⟨hd, (isChain_cut hp hn).mpr ?_⟩
  obtain ⟨h₁, h₂, -⟩ := (isChain_cut hp (n := x) (by simp)).mp hr.chain
  rw [List.cons_append, List.isChain_cons] at h₂
  rw [← and_assoc]
  refine ⟨isChain_sides_congr hd hp hn ?_ ?_ h₁ h₂.2, ?_⟩
  · intro a _ hne
    simp [Links.listDelEntry, Links.joinAcross, hne]
  · intro a _ hne
    simp [Links.listDelEntry, Links.joinAcross, hne]
  · simp [Links.Joined, Links.listDelEntry, Links.joinAcross]

theorem Circular.listAdd (hr : Circular m h l) (hnew : new ∉ h :: l) :
    Circular (m.listAdd new h) h (new :: l) := by
  have hr' : Circular m h ([] ++ l) := hr
  exact hr'.addBetween hnew rfl hr.head_eq.1

theorem Circular.listAddTail (hr : Circular m h l) (hnew : new ∉ h :: l) :
    Circular (m.listAddTail new h) h (l ++ [new]) := by
  have hr' : Circular m h (l ++ []) := by rwa [List.append_nil]
  exact hr'.addBetween (by rwa [List.append_nil]) hr.head_eq.2 rfl

/-- The pointers of a node outside are not those of the list. -/
theorem Circular.initListHead (hr : Circular m h l) (hx : x ∉ h :: l) :
    Circular (m.initListHead x) h l := by
  refine ⟨hr.nodup, isChain_joined_congr hr.chain ?_ ?_⟩
  · intro a ha
    rw [← List.cons_append, List.dropLast_concat] at ha
    have hne : a ≠ x := by
      rintro rfl
      exact hx ha
    simp [Links.initListHead, hne]
  · intro b hb
    rw [List.tail_cons] at hb
    have hne : b ≠ x := by
      rintro rfl
      exact hx (by simpa [or_comm] using hb)
    simp [Links.initListHead, hne]

theorem Circular.listDelInit (hr : Circular m h (l₁ ++ x :: l₂)) :
    Circular (m.listDelInit x) h (l₁ ++ l₂) :=
  hr.listDelEntry.initListHead hr.nodup_split.1

theorem Circular.listMove (hr : Circular m h (l₁ ++ x :: l₂)) :
    Circular (m.listMove x h) h (x :: (l₁ ++ l₂)) :=
  hr.listDelEntry.listAdd hr.nodup_split.1

theorem Circular.listMoveTail (hr : Circular m h (l₁ ++ x :: l₂)) :
    Circular (m.listMoveTail x h) h (l₁ ++ l₂ ++ [x]) :=
  hr.listDelEntry.listAddTail hr.nodup_split.1

end Operations

/-! ## Traversals -/

section Traversals

/-- The nodes that the pointers `f` lead to from `x` on, up to the node `stop`; at most `fuel`. -/
def follow (f : N → N) (stop : N) : Nat → N → List N
  | 0, _ => []
  | fuel + 1, x => if f x = stop then [] else f x :: follow f stop fuel (f x)

variable {m : Links N} {l : List N} {h : N} {fuel : Nat}

theorem follow_chain {f : N → N} {x : N} (hc : (x :: (l ++ [h])).IsChain fun a b => f a = b)
    (hh : h ∉ l) (hfuel : l.length < fuel) : follow f h fuel x = l := by
  induction l generalizing x fuel with
  | nil =>
    obtain ⟨fuel, rfl⟩ : ∃ k, fuel = k + 1 := ⟨fuel - 1, by simp at hfuel; omega⟩
    rw [List.nil_append, List.isChain_cons_cons] at hc
    rw [follow, if_pos hc.1]
  | cons y l ih =>
    obtain ⟨fuel, rfl⟩ : ∃ k, fuel = k + 1 := ⟨fuel - 1, by omega⟩
    rw [List.length_cons] at hfuel
    rw [List.cons_append, List.isChain_cons_cons] at hc
    rw [List.mem_cons, not_or] at hh
    rw [follow, hc.1, if_neg (Ne.symm hh.1), ih hc.2 hh.2 (by omega)]

/-- **Forwards** from the head. -/
theorem Circular.follow_next (hr : Circular m h l) (hfuel : l.length < fuel) :
    follow m.next h fuel h = l :=
  follow_chain (hr.chain.imp fun _ _ hj => hj.1) (List.nodup_cons.mp hr.nodup).1 hfuel

/-- **Backwards** from the head. -/
theorem Circular.follow_prev (hr : Circular m h l) (hfuel : l.length < fuel) :
    follow m.prev h fuel h = l.reverse := by
  have hchain : (h :: (l.reverse ++ [h])).IsChain fun a b => m.prev a = b := by
    have := hr.chain.imp fun _ _ hj => hj.2
    rw [← List.isChain_reverse] at this
    simpa using this
  refine follow_chain hchain ?_ (by rwa [List.length_reverse])
  rw [List.mem_reverse]
  exact (List.nodup_cons.mp hr.nodup).1

end Traversals

/-! ## Elements and the head

The nodes are the elements and the head `none`, so that a pointer is the optional element that
`Lib.Ring` has for a neighbour. -/

section Elements

variable {α : Type*} {m : Links (Option α)} {l : List α} {x : α}

theorem head?_elements (l : List α) : (l.map some ++ [none]).head? = some l.head? := by
  cases l <;> rfl

theorem getLast?_elements (l : List α) : (none :: l.map some).getLast? = some l.getLast? := by
  rw [List.getLast?_cons, List.getLast?_map]
  cases l.getLast? <;> rfl

/-- The first element is what the head points at. -/
theorem Circular.next_head (hr : Circular m none (l.map some)) : m.next none = l.head? := by
  have hnext := hr.head_eq.1
  rw [head?_elements] at hnext
  exact (Option.some.inj hnext).symm

theorem Circular.nodup_elements (hr : Circular m none (l.map some)) : l.Nodup :=
  (List.nodup_cons.mp hr.nodup).2.of_map some

variable [DecidableEq α]

/-- **The two pointers of an element** are its neighbours. -/
theorem Circular.neighbours (hr : Circular m none (l.map some)) (hx : x ∈ l) :
    m.prev (some x) = ringPrev l x ∧ m.next (some x) = ringNext l x := by
  obtain ⟨front, back, hl, htake, hdrop, -⟩ := takeWhile_dropWhile_of_mem hx
  rw [ringPrev, ringNext, if_pos hx, if_pos hx, htake, hdrop, List.tail_cons]
  rw [hl, List.map_append, List.map_cons] at hr
  obtain ⟨hnext, hprev⟩ := hr.member_eq
  rw [head?_elements] at hnext
  rw [getLast?_elements] at hprev
  exact ⟨(Option.some.inj hprev).symm, (Option.some.inj hnext).symm⟩

theorem Circular.listAdd_element (hr : Circular m none (l.map some)) (hx : x ∉ l) :
    Circular (m.listAdd (some x) none) none ((x :: l).map some) :=
  hr.listAdd (by simpa using hx)

theorem Circular.listAddTail_element (hr : Circular m none (l.map some)) (hx : x ∉ l) :
    Circular (m.listAddTail (some x) none) none ((l ++ [x]).map some) := by
  rw [List.map_append]
  exact hr.listAddTail (by simpa using hx)

/-- The nodes on the two sides of an element. -/
theorem Circular.split_element (hr : Circular m none (l.map some)) (hx : x ∈ l) :
    ∃ l₁ l₂, l.erase x = l₁ ++ l₂ ∧
      Circular m none (l₁.map some ++ some x :: l₂.map some) := by
  obtain ⟨l₁, l₂, -, hl, herase⟩ := List.exists_erase_eq hx
  refine ⟨l₁, l₂, herase, ?_⟩
  rwa [hl, List.map_append, List.map_cons] at hr

theorem Circular.listDelInit_element (hr : Circular m none (l.map some)) (hx : x ∈ l) :
    Circular (m.listDelInit (some x)) none ((l.erase x).map some) := by
  obtain ⟨l₁, l₂, herase, hr⟩ := hr.split_element hx
  rw [herase, List.map_append]
  exact hr.listDelInit

theorem Circular.listMove_element (hr : Circular m none (l.map some)) (hx : x ∈ l) :
    Circular (m.listMove (some x) none) none ((x :: l.erase x).map some) := by
  obtain ⟨l₁, l₂, herase, hr⟩ := hr.split_element hx
  rw [herase, List.map_cons, List.map_append]
  exact hr.listMove

theorem Circular.listMoveTail_element (hr : Circular m none (l.map some)) (hx : x ∈ l) :
    Circular (m.listMoveTail (some x) none) none ((moveTail l x).map some) := by
  obtain ⟨l₁, l₂, herase, hr⟩ := hr.split_element hx
  rw [moveTail, herase, List.map_append, List.map_append]
  exact hr.listMoveTail

end Elements

end LinuxKernel.Lib
