import LinuxKernel.Proc.Kernel
import LinuxKernel.Lib.Memory

/-!
# Page tables and the direct map

The tables of a process on x86-64 with five levels, apart from the memory they lie in, and the
part of the address space of the kernel in which it has all of the memory.
-/

namespace LinuxKernel.Proc

open LinuxKernel.Lib

/-- An entry of an upper level: `p?d_none`, `p?d_bad` (huge pages included), or a table. -/
inductive Entry (α : Type)
  | none
  | bad
  | table (t : α)

/-- An entry of the last level as it is in memory. -/
abbrev Pte := BitVec 64

abbrev PteTable := BitVec 9 → Pte
abbrev PmdTable := BitVec 9 → Entry PteTable
abbrev PudTable := BitVec 9 → Entry PmdTable
abbrev P4dTable := BitVec 9 → Entry PudTable
abbrev PgdTable := BitVec 9 → Entry P4dTable

def pgdIndex (addr : BitVec 64) : BitVec 9 := addr.extractLsb' 48 9
def p4dIndex (addr : BitVec 64) : BitVec 9 := addr.extractLsb' 39 9
def pudIndex (addr : BitVec 64) : BitVec 9 := addr.extractLsb' 30 9
def pmdIndex (addr : BitVec 64) : BitVec 9 := addr.extractLsb' 21 9
def pteIndex (addr : BitVec 64) : BitVec 9 := addr.extractLsb' 12 9

/-- `_PAGE_PRESENT` -/
def ptePresent (pte : Pte) : Bool := pte.getLsbD 0

/-- `pte_pfn`; the bits of an entry that is neither present nor empty are inverted. -/
def ptePfn (pte : Pte) : BitVec 64 :=
  ((if pte ≠ 0 ∧ ¬ ptePresent pte then ~~~pte else pte) &&& 0x000ffffffffff000#64) >>> 12

/-- The walk through the tables, down to the entry of the last level. -/
def walk (pgd : PgdTable) (addr : BitVec 64) : Option Pte :=
  match pgd (pgdIndex addr) with
  | .none => none
  | .bad => none
  | .table p4d =>
    match p4d (p4dIndex addr) with
    | .none => none
    | .bad => none
    | .table pud =>
      match pud (pudIndex addr) with
      | .none => none
      | .bad => none
      | .table pmd =>
        match pmd (pmdIndex addr) with
        | .none => none
        | .bad => none
        | .table pte => some (pte (pteIndex addr))

def Entry.map {α : Type} (f : α → α) : Entry α → Entry α
  | .none => .none
  | .bad => .bad
  | .table t => .table (f t)

theorem Entry.map_map {α : Type} (f g : α → α) (e : Entry α) :
    (e.map g).map f = e.map fun t => f (g t) := by
  cases e <;> rfl

theorem Entry.map_id {α : Type} (e : Entry α) : (e.map fun t => t) = e := by
  cases e <;> rfl

theorem Entry.map_congr {α : Type} {f g : α → α} {e : Entry α}
    (h : ∀ t, e = .table t → f t = g t) : e.map f = e.map g := by
  cases e with
  | none => rfl
  | bad => rfl
  | table t => exact congrArg Entry.table (h t rfl)

theorem Entry.update_map {α : Type} (p : BitVec 9 → Entry α) (i : BitVec 9) (f : α → α) :
    Function.update p i ((p i).map f) = fun j => (p j).map fun t => if j = i then f t else t := by
  funext j
  by_cases hj : j = i
  · subst hj
    simp
  · simp [hj, Entry.map_id]

/-- The tables after the entry of the last level for an address is assigned. -/
def setPte (pgd : PgdTable) (addr : BitVec 64) (new : Pte) : PgdTable :=
  Function.update pgd (pgdIndex addr) ((pgd (pgdIndex addr)).map fun p4d =>
  Function.update p4d (p4dIndex addr) ((p4d (p4dIndex addr)).map fun pud =>
  Function.update pud (pudIndex addr) ((pud (pudIndex addr)).map fun pmd =>
  Function.update pmd (pmdIndex addr) ((pmd (pmdIndex addr)).map fun pte =>
  Function.update pte (pteIndex addr) new))))

/-! ## The entries of the last level -/

/-- The place of an entry of the last level: an index into each of the five tables. -/
structure Leaf where
  pgd : BitVec 9
  p4d : BitVec 9
  pud : BitVec 9
  pmd : BitVec 9
  pte : BitVec 9
  deriving DecidableEq, Repr

def leafOf (addr : BitVec 64) : Leaf :=
  ⟨pgdIndex addr, p4dIndex addr, pudIndex addr, pmdIndex addr, pteIndex addr⟩

/-- The tables with every entry of the last level changed, and nothing else. -/
def mapPtes (f : Leaf → Pte → Pte) (pgd : PgdTable) : PgdTable := fun i =>
  (pgd i).map fun p4d j =>
  (p4d j).map fun pud k =>
  (pud k).map fun pmd l =>
  (pmd l).map fun pte m => f ⟨i, j, k, l, m⟩ (pte m)

theorem exists_leafOf_eq (leaf : Leaf) : ∃ addr, leafOf addr = leaf := by
  obtain ⟨i, j, k, l, m⟩ := leaf
  refine ⟨0#7 ++ i ++ j ++ k ++ l ++ m ++ 0#12, ?_⟩
  simp only [leafOf, pgdIndex, p4dIndex, pudIndex, pmdIndex, pteIndex, Leaf.mk.injEq]
  refine ⟨?_, ?_, ?_, ?_, ?_⟩
  all_goals
    apply BitVec.eq_of_getLsbD_eq
    intro n hn
    simp only [BitVec.getLsbD_extractLsb', BitVec.getLsbD_append]
    grind

theorem walk_mapPtes (f : Leaf → Pte → Pte) (pgd : PgdTable) (addr : BitVec 64) :
    walk (mapPtes f pgd) addr = (walk pgd addr).map (f (leafOf addr)) := by
  unfold walk mapPtes
  cases pgd (pgdIndex addr) with
  | none => rfl
  | bad => rfl
  | table p4d =>
    dsimp only [Entry.map]
    cases p4d (p4dIndex addr) with
    | none => rfl
    | bad => rfl
    | table pud =>
      dsimp only [Entry.map]
      cases pud (pudIndex addr) with
      | none => rfl
      | bad => rfl
      | table pmd =>
        dsimp only [Entry.map]
        cases pmd (pmdIndex addr) with
        | none => rfl
        | bad => rfl
        | table pte => rfl

theorem mapPtes_mapPtes (f g : Leaf → Pte → Pte) (pgd : PgdTable) :
    mapPtes f (mapPtes g pgd) = mapPtes (fun leaf pte => f leaf (g leaf pte)) pgd := by
  funext i
  simp only [mapPtes, Entry.map_map]

theorem mapPtes_id (pgd : PgdTable) : mapPtes (fun _ pte => pte) pgd = pgd := by
  funext i
  simp only [mapPtes, Entry.map_id]

/-- The entries that no walk comes to do not matter: there are none. -/
theorem mapPtes_congr {f g : Leaf → Pte → Pte} {pgd : PgdTable}
    (h : ∀ addr pte, walk pgd addr = some pte → f (leafOf addr) pte = g (leafOf addr) pte) :
    mapPtes f pgd = mapPtes g pgd := by
  funext i
  refine Entry.map_congr fun p4d hi => funext fun j => ?_
  refine Entry.map_congr fun pud hj => funext fun k => ?_
  refine Entry.map_congr fun pmd hk => funext fun l => ?_
  refine Entry.map_congr fun pte hl => funext fun m => ?_
  obtain ⟨addr, haddr⟩ := exists_leafOf_eq ⟨i, j, k, l, m⟩
  have hwalk : walk pgd addr = some (pte m) := by
    simp only [leafOf, Leaf.mk.injEq] at haddr
    obtain ⟨rfl, rfl, rfl, rfl, rfl⟩ := haddr
    simp only [walk, hi, hj, hk, hl]
  have hf := h addr (pte m) hwalk
  rwa [haddr] at hf

/-- Assigning the entry for one address. -/
theorem setPte_eq_mapPtes (pgd : PgdTable) (addr : BitVec 64) (new : Pte) :
    setPte pgd addr new = mapPtes
      (fun leaf pte => if leaf = leafOf addr then new else pte) pgd := by
  simp only [setPte, Entry.update_map]
  funext i
  refine Entry.map_congr fun p4d _ => ?_
  split
  case isFalse hi => simp [leafOf, hi, Entry.map_id]
  case isTrue hi =>
  funext j
  refine Entry.map_congr fun pud _ => ?_
  split
  case isFalse hj => simp [leafOf, hj, Entry.map_id]
  case isTrue hj =>
  funext k
  refine Entry.map_congr fun pmd _ => ?_
  split
  case isFalse hk => simp [leafOf, hk, Entry.map_id]
  case isTrue hk =>
  funext l
  refine Entry.map_congr fun pte _ => ?_
  split
  case isFalse hl => simp [leafOf, hl]
  case isTrue hl =>
  funext m
  simp only [leafOf, hi, hj, hk, hl, Leaf.mk.injEq, true_and, Function.update_apply]

/-- Changing the entry for an address by what it is, if there is one. -/
theorem modifyPte_eq_mapPtes (pgd : PgdTable) (addr : BitVec 64) (f : Pte → Pte) :
    (match walk pgd addr with
      | none => pgd
      | some pte => setPte pgd addr (f pte)) =
    mapPtes (fun leaf pte => if leaf = leafOf addr then f pte else pte) pgd := by
  -- an entry at the same place is reached by the same walk
  have hleaf : ∀ b, leafOf b = leafOf addr → walk pgd b = walk pgd addr := by
    intro b hb
    simp only [leafOf, Leaf.mk.injEq] at hb
    obtain ⟨h1, h2, h3, h4, h5⟩ := hb
    simp only [walk, h1, h2, h3, h4, h5]
  cases hwalk : walk pgd addr with
  | none =>
    dsimp only
    nth_rewrite 1 [← mapPtes_id pgd]
    refine mapPtes_congr ?_
    intro b pte hb
    split
    case isFalse => rfl
    case isTrue hsame => simp [hleaf b hsame, hwalk] at hb
  | some new =>
    dsimp only
    rw [setPte_eq_mapPtes]
    refine mapPtes_congr ?_
    intro b pte hb
    split
    case isFalse => rfl
    case isTrue hsame =>
      rw [hleaf b hsame, hwalk] at hb
      rw [Option.some.inj hb]

/-! ## The direct map -/

/-- The direct map: all of the memory, `size` bytes, from `base` on. -/
structure DirectMap where
  base    : BitVec 64
  size    : Nat
  aligned : base &&& 0xfff#64 = 0
  fits    : base.toNat + size ≤ 2 ^ 64

/-- `PAGE_MASK` -/
def pageMask : BitVec 64 := ~~~0xfff#64

/-- `kmap_local_page(pte_page(pte))`; there is no high memory on x86-64. -/
def DirectMap.pageAddress (d : DirectMap) (pte : Pte) : BitVec 64 := d.base + (ptePfn pte <<< 12)

/-- The place in memory of an `unsigned long` at an address of the kernel. -/
def DirectMap.deref (d : DirectMap) (addr : BitVec 64) : Except Fault Nat :=
  let p := (addr - d.base).toNat
  if p + 8 ≤ d.size then .ok p else .error .badAddress

/-- The byte of memory that a page table entry gives to an address. -/
def physAddr (pte : Pte) (addr : BitVec 64) : Nat :=
  ((ptePfn pte <<< 12) + (addr &&& 0xfff#64)).toNat

end LinuxKernel.Proc
