import SystemsSuite.Paging.Fork

set_option autoImplicit false

namespace SystemsSuite.Paging

open Lib Prog Finset

def pageCount : Nat := 512 ^ 3

-- The two pages of every table that are not user memory.
def special (vpn : Nat) : Bool := decide (vpn = trampolineVa / 4096 ∨ vpn = trapframeVa / 4096)

def leafWeight (f vpn : Nat) (leaf : Option Leaf) : Nat :=
  if special vpn = false ∧ leaf.map Leaf.pa = some f then 1 else 0

-- Whether the pointer `pa`, unless it is null, points to the frame `f`.
def pointer (pa f : Nat) : Nat := if pa = f ∧ f ≠ 0 then 1 else 0

namespace PageTable

def pageSum (weight : Nat → Option Leaf → Nat) (pt : PageTable) : Nat :=
  ∑ vpn ∈ range pageCount, weight vpn (Radix.value 2 pt.entries vpn)

-- How many leaves point to the frame `f`, trampoline and trapframe apart.
def leaves (pt : PageTable) (f : Nat) : Nat := pt.pageSum (leafWeight f)

-- How many pages of the table itself are the frame `f`; a null table has none.
def tables (pt : PageTable) (f : Nat) : Nat :=
  pointer pt.pa f + Radix.cells 2 pt.entries f

def owners (pt : PageTable) (f : Nat) : Nat := pt.tables f + pt.leaves f

theorem empty_leaves (pa f : Nat) : (empty pa).leaves f = 0 := by
  simp [leaves, pageSum, empty, Radix.value_empty, leafWeight]

theorem empty_owners (pa f : Nat) : (empty pa).owners f = pointer pa f := by
  have noCells : Radix.cells 2 (empty pa).entries f = 0 := Radix.cells_empty 2 f
  rw [owners, empty_leaves, tables, noCells]
  rfl

theorem null_owners (f : Nat) : (empty 0).owners f = 0 := by
  rw [empty_owners, pointer, if_neg]
  rintro ⟨rfl, positive⟩
  exact positive rfl

variable (pt : PageTable) {va : Nat}

theorem leaf_store_self (node : PteSlot) (reached : (pt.walk va).isSome = true) :
    (pt.store va node).leaf va = Radix.value? (some node) :=
  Radix.value_put_self 2 pt.entries (va / 4096) node reached

theorem value_store_other (node : PteSlot) {vpn : Nat} (below : va < 2 ^ 39) (within : vpn < pageCount)
    (other : vpn ≠ va / 4096) :
    Radix.value 2 (pt.store va node).entries vpn = Radix.value 2 pt.entries vpn := by
  apply Radix.value_put_other
  unfold pageCount at within
  rw [Nat.mod_eq_of_lt (by omega), Nat.mod_eq_of_lt (by omega)]
  exact other

theorem leaf_store_other (node : PteSlot) {va' : Nat} (below : va < 2 ^ 39) (below' : va' < 2 ^ 39)
    (other : va' / 4096 ≠ va / 4096) : (pt.store va node).leaf va' = pt.leaf va' := by
  apply value_store_other pt node below _ other
  unfold pageCount
  omega

theorem tables_store (va : Nat) (node : PteSlot) (f : Nat) : (pt.store va node).tables f = pt.tables f := by
  rw [tables, tables, store, Radix.cells_put]

theorem pageSum_store (weight : Nat → Option Leaf → Nat) (node : PteSlot) (below : va < 2 ^ 39)
    (reached : (pt.walk va).isSome = true) :
    (pt.store va node).pageSum weight + weight (va / 4096) (pt.leaf va) =
      pt.pageSum weight + weight (va / 4096) (Radix.value? (some node)) := by
  have here : va / 4096 ∈ range pageCount := by
    rw [Finset.mem_range]
    unfold pageCount
    omega
  have self : Radix.value 2 (pt.store va node).entries (va / 4096) = Radix.value? (some node) :=
    leaf_store_self pt node reached
  have rest : ∑ vpn ∈ (range pageCount).erase (va / 4096),
      weight vpn (Radix.value 2 (pt.store va node).entries vpn) =
      ∑ vpn ∈ (range pageCount).erase (va / 4096), weight vpn (Radix.value 2 pt.entries vpn) :=
    Finset.sum_congr rfl fun vpn member => by
      rw [value_store_other pt node below (Finset.mem_range.mp (Finset.mem_of_mem_erase member))
        (Finset.ne_of_mem_erase member)]
  unfold pageSum
  rw [← Finset.add_sum_erase _ _ here, ← Finset.add_sum_erase (range pageCount) _ here, rest, self]
  unfold leaf
  omega

theorem leaves_store (node : PteSlot) (f : Nat) (below : va < 2 ^ 39)
    (reached : (pt.walk va).isSome = true) :
    (pt.store va node).leaves f + leafWeight f (va / 4096) (pt.leaf va) =
      pt.leaves f + leafWeight f (va / 4096) (Radix.value? (some node)) :=
  pt.pageSum_store (leafWeight f) node below reached

theorem leaves_congr (pt pt' : PageTable) (f : Nat)
    (same : ∀ vpn, Radix.value 2 pt'.entries vpn = Radix.value 2 pt.entries vpn) :
    pt'.leaves f = pt.leaves f := by
  unfold leaves pageSum
  exact Finset.sum_congr rfl fun vpn _ => by rw [same]

def userWeight (f vpn : Nat) (leaf : Option Leaf) : Nat :=
  leafWeight f vpn (leaf.filter fun leaf => leaf.flags.u)

-- How many user-accessible leaves point to the frame `f`.
def userLeaves (pt : PageTable) (f : Nat) : Nat := pt.pageSum (userWeight f)

theorem userLeaves_le (f : Nat) : pt.userLeaves f ≤ pt.leaves f := by
  unfold userLeaves leaves pageSum
  apply Finset.sum_le_sum
  intro vpn _
  unfold userWeight
  cases Radix.value 2 pt.entries vpn with
  | none => exact le_rfl
  | some leaf =>
    by_cases user : leaf.flags.u = true
    · simp [Option.filter_some, user]
    · simp [Option.filter_some, user, leafWeight]

def Plain (pt : PageTable) : Prop := pt.leaf trampolineVa = none ∧ pt.leaf trapframeVa = none

variable {pt} in
theorem Plain.ordinary (plain : pt.Plain) {vpn : Nat} {leaf : Leaf}
    (here : Radix.value 2 pt.entries vpn = some leaf) : special vpn = false := by
  unfold special
  rw [decide_eq_false_iff_not]
  rintro (rfl | rfl)
  · have absent := plain.1
    rw [PageTable.leaf, here] at absent
    contradiction
  · have absent := plain.2
    rw [PageTable.leaf, here] at absent
    contradiction

-- What `freewalk` frees: every page of the table once and every user leaf once.
theorem count_freewalkOrder (f : Nat) (notNull : pt.pa ≠ 0) (plain : pt.Plain) :
    pt.freewalkOrder.count f = pt.tables f + pt.userLeaves f := by
  have root : [pt.pa].count f = pointer pt.pa f := by
    by_cases same : pt.pa = f
    · subst same
      simp [pointer, notNull]
    · simp [pointer, same]
  have emitted : ∀ vpn ∈ range pageCount, ((Radix.value 2 pt.entries vpn).map fun leaf : Leaf =>
      (if leaf.flags.u then [leaf.pa] else []).count f).getD 0 =
      userWeight f vpn (Radix.value 2 pt.entries vpn) := by
    intro vpn _
    cases here : Radix.value 2 pt.entries vpn with
    | none => simp [userWeight, leafWeight]
    | some leaf =>
      by_cases user : leaf.flags.u = true <;> by_cases same : leaf.pa = f <;>
        simp [userWeight, leafWeight, plain.ordinary here, user, same]
  have below := Radix.count_release (fun leaf : Leaf => if leaf.flags.u then [leaf.pa] else []) 2
    pt.entries f
  have total := Finset.sum_congr rfl emitted
  unfold freewalkOrder tables
  rw [List.count_append, below, root]
  unfold userLeaves pageSum
  rw [← total]
  change _ + (∑ vpn ∈ range pageCount, _) + _ = _
  omega

end PageTable

def Proc.owners (p : Proc) (f : Nat) : Nat :=
  p.pagetable.owners f + pointer p.trapframe.pa f

def Machine.owners (m : Machine) (f : Nat) : Nat :=
  m.freelist.count f + m.proc.owners f + m.spare.owners f

-- Every frame has at most one owner, counting `held f` for those outside the machine: local variables that hold
-- the frame, and the rest of the kernel.
structure Owned (b : Build) (held : Nat → Nat) (m : Machine) : Prop where
  single : ∀ f, m.owners f + held f ≤ if b.isFrame f then 1 else 0
  notRefreed : m.refreed = false

-- `held` and the frame `pa`, if there is one.
def holding (pa : Option Nat) (held : Nat → Nat) (f : Nat) : Nat :=
  held f + if pa = some f then 1 else 0

def NotKfree (e : Panic) : Prop := e ≠ .kfree

variable {b : Build} {held : Nat → Nat} {m : Machine}

theorem Owned.mono (owned : Owned b held m) {held' : Nat → Nat} {m' : Machine}
    (fewer : ∀ f, m'.owners f + held' f ≤ m.owners f + held f) (same : m'.refreed = m.refreed) :
    Owned b held' m' where
  single f := (fewer f).trans (owned.single f)
  notRefreed := same.trans owned.notRefreed

theorem Build.isFrame_zero : b.isFrame 0 = false := by
  have base := b.linkedAtBase
  simp only [isFrame, decide_eq_false_iff_not]
  omega

structure Core where
  proc : Proc
  spare : PageTable
  writeBlocks : List Nat

def Machine.core (m : Machine) : Core := ⟨m.proc, m.spare, m.writeBlocks⟩

theorem Machine.table_of_core {m m' : Machine} (core : m'.core = m.core) (t : Target) :
    m'.table t = m.table t := by
  cases t with
  | own => exact congrArg (fun c : Core => c.proc.pagetable) core
  | spare => exact congrArg Core.spare core

def Core.rest (c : Core) : Core :=
  { c with
    proc := { c.proc with pagetable := .empty c.proc.pagetable.pa }
    spare := .empty c.spare.pa }

def Machine.rest (m : Machine) : Core := m.core.rest

theorem kalloc_owned (owned : Owned b held m) :
    wp kalloc (fun r m' => Owned b (holding r held) m' ∧ m'.core = m.core)
      NotKfree m := by
  unfold kalloc
  rw [wp_bind, wp_read]
  cases free : m.freelist with
  | nil =>
    refine ⟨owned.mono ?_ rfl, rfl⟩
    intro f
    simp [holding]
  | cons pa rest =>
    refine ⟨owned.mono ?_ rfl, rfl⟩
    intro f
    simp only [Machine.owners, Machine.fill, free, List.count_cons, holding, Option.some.injEq,
      beq_iff_eq]
    omega

-- The effect of a `kfree` that does not panic.
def Machine.freed (m : Machine) (pa : Nat) : Machine :=
  { m.fill pa fun _ => 1 with
    freelist := pa :: m.freelist
    refreed := m.refreed || m.freelist.contains pa }

theorem Machine.owners_freed (m : Machine) (pa f : Nat) :
    (m.freed pa).owners f = m.owners f + if some pa = some f then 1 else 0 := by
  simp only [owners, freed, fill, List.count_cons, beq_iff_eq, Option.some.injEq]
  omega

theorem wp_kfree {Q : Unit → Machine → Prop} {E : Panic → Prop} {pa : Nat} (owned : Owned b held m)
    (elsewhere : m.freelist.count pa < m.owners pa + held pa)
    (holds : (m.freed pa).refreed = false → Q () (m.freed pa)) : wp (kfree b pa) Q E m := by
  have single := owned.single pa
  have isFrame : b.isFrame pa = true := by
    by_contra notFrame
    simp only [notFrame] at single
    simp at single
    omega
  have notFree : m.freelist.contains pa = false := by
    rw [List.contains_eq_mem, decide_eq_false_iff_not]
    intro member
    have positive := List.count_pos_iff.mpr member
    rw [isFrame, if_pos rfl] at single
    omega
  unfold kfree
  rw [if_pos isFrame, wp_update]
  apply holds
  change (m.refreed || m.freelist.contains pa) = false
  rw [owned.notRefreed, notFree]
  rfl

theorem kfree_owned (pa : Nat) (owned : Owned b (holding (some pa) held) m) :
    wp (kfree b pa) (fun _ m' => Owned b held m' ∧ m'.core = m.core) NotKfree m := by
  have elsewhere : m.freelist.count pa < m.owners pa + holding (some pa) held pa := by
    simp only [Machine.owners, holding, if_true]
    omega
  apply wp_kfree owned elsewhere
  intro notRefreed
  refine ⟨⟨?_, notRefreed⟩, rfl⟩
  intro f
  have before := owned.single f
  rw [Machine.owners_freed]
  unfold holding at before
  omega

theorem Machine.owners_setTable (m : Machine) (t : Target) (pt : PageTable) (f : Nat) :
    (m.setTable t pt).owners f + (m.table t).owners f = m.owners f + pt.owners f := by
  cases t <;> simp only [owners, setTable, table, Proc.owners] <;> omega

theorem Machine.table_owners_le (m : Machine) (t : Target) (f : Nat) :
    m.freelist.count f + (m.table t).owners f ≤ m.owners f := by
  cases t <;> simp only [owners, table, Proc.owners] <;> omega

theorem Machine.rest_setTable (m : Machine) (t : Target) (pt : PageTable)
    (root : pt.pa = (m.table t).pa) : (m.setTable t pt).rest = m.rest := by
  cases t <;> simp only [rest, core, Core.rest, setTable] <;> rw [root] <;> rfl

@[simp] theorem Machine.table_fill (m : Machine) (pa : Nat) (page : Page) (t : Target) :
    (m.fill pa page).table t = m.table t := by
  cases t <;> rfl

@[simp] theorem Machine.table_setTable (m : Machine) (t : Target) (pt : PageTable) :
    (m.setTable t pt).table t = pt := by
  cases t <;> rfl

theorem Machine.table_setTable_other (m : Machine) {t t' : Target} (pt : PageTable) (other : t' ≠ t) :
    (m.setTable t pt).table t' = m.table t' := by
  cases t <;> cases t' <;> first | rfl | exact absurd rfl other

theorem Machine.refreed_setTable (m : Machine) (t : Target) (pt : PageTable) :
    (m.setTable t pt).refreed = m.refreed := by
  cases t <;> rfl

theorem Machine.freelist_setTable (m : Machine) (t : Target) (pt : PageTable) :
    (m.setTable t pt).freelist = m.freelist := by
  cases t <;> rfl

section Primitives

variable {Q : Unit → Machine → Prop} {E : Panic → Prop}

@[simp] theorem wp_memset (pa : Nat) (c : UInt8) :
    wp (memset pa c) Q E m ↔ Q () (m.fill pa fun _ => c) := Iff.rfl

@[simp] theorem wp_modifyProc (f : Proc → Proc) :
    wp (modifyProc f) Q E m ↔ Q () { m with proc := f m.proc } := Iff.rfl

@[simp] theorem wp_setPte (t : Target) (va : Nat) (node : PteSlot) :
    wp (setPte t va node) Q E m ↔ Q () (m.setTable t ((m.table t).store va node)) := Iff.rfl

end Primitives

theorem wp_walk {Q : Option PteSlot → Machine → Prop} {E : Panic → Prop} (t : Target) (va : Nat) :
    wp (walk t va) Q E m ↔ (maxva ≤ va → E .walk) ∧ (va < maxva → Q ((m.table t).walk va) m) := by
  unfold walk
  by_cases high : va ≥ maxva
  · simp [high]
  · rw [if_neg high, wp_bind, wp_read, wp_pure]
    simp [Nat.lt_of_not_le high]

theorem walkAlloc_owned (t : Target) (va : Nat) (owned : Owned b held m) :
    wp (walkAlloc t va) (fun ok m' => (Owned b held m' ∧ m'.rest = m.rest) ∧ va < maxva ∧
      (ok = true → ((m'.table t).walk va).isSome = true)) NotKfree m := by
  unfold walkAlloc
  by_cases high : va ≥ maxva
  · rw [if_pos high]
    exact (nofun : Panic.walk ≠ .kfree)
  · rw [if_neg high, wp_bind, wp_read, wp_bind, wp_update]
    refine ⟨⟨owned.mono ?_ ?_, ?_⟩, by omega, ?_⟩
    · intro f
      have moved := m.owners_setTable t
        { m.table t with entries := (Radix.grow 2 (m.table t).entries (va / 4096) m.freelist).1 } f
      have grown := Radix.cells_grow 2 (m.table t).entries (va / 4096) m.freelist f
      have same := PageTable.leaves_congr (m.table t) { m.table t with
        entries := (Radix.grow 2 (m.table t).entries (va / 4096) m.freelist).1 } f
        fun vpn => Radix.value_grow 2 _ _ vpn _
      simp only [PageTable.owners, PageTable.tables, same, Machine.owners,
        Machine.freelist_setTable] at moved ⊢
      omega
    · exact m.refreed_setTable t _
    · exact m.rest_setTable t _ rfl
    · intro ok
      change Option.isSome ((Machine.table (Machine.setTable m t _) t).walk va) = true
      rw [Machine.table_setTable]
      exact Radix.find_grow_isSome 2 _ _ _ ok

theorem setPte_owned (t : Target) {va : Nat} (node : PteSlot) (held' : Nat → Nat)
    (below : va < maxva) (reached : ((m.table t).walk va).isSome = true)
    (owned : Owned b held m)
    (balance : ∀ f, leafWeight f (va / 4096) (Radix.value? (some node)) + held' f ≤
      leafWeight f (va / 4096) ((m.table t).leaf va) + held f) :
    wp (setPte t va node) (fun _ m' => Owned b held' m' ∧ m'.rest = m.rest) NotKfree m := by
  refine ⟨owned.mono ?_ (m.refreed_setTable t _), m.rest_setTable t _ rfl⟩
  intro f
  have moved := m.owners_setTable t ((m.table t).store va node) f
  have leaves := (m.table t).leaves_store node f (by unfold maxva at below; omega) reached
  have tables := (m.table t).tables_store va node f
  have balanced := balance f
  simp only [PageTable.owners] at moved
  change (m.setTable t ((m.table t).store va node)).owners f + held' f ≤ _
  omega

theorem mappages_owned_of (t : Target) {va : Nat} (pa : Nat) (perm : Flags) (held' : Nat → Nat)
    (balance : ∀ f, leafWeight f (va / 4096) (some ⟨pa, perm⟩) + held' f ≤ held f)
    (owned : Owned b held m) :
    wp (mappages t va pa perm) (fun ok m' =>
      Owned b (if ok then held' else held) m' ∧ m'.rest = m.rest) NotKfree m := by
  unfold mappages
  by_cases aligned : va % 4096 ≠ 0
  · rw [if_pos aligned]
    exact (by simp : Panic.mappagesNotAligned ≠ .kfree)
  · rw [if_neg aligned]
    apply wp_seq (walkAlloc_owned t va owned)
    rintro (_ | _) m₁ ⟨⟨owned₁, rest₁⟩, below, reached⟩
    · exact ⟨owned₁, rest₁⟩
    · simp only [if_true, wp_bind, wp_read]
      cases mapped : (m₁.table t).leaf va with
      | some leaf => exact (by simp : Panic.remap ≠ .kfree)
      | none =>
        apply wp_seq (setPte_owned t _ held' below (reached rfl) owned₁ ?_)
        · rintro _ m₂ ⟨owned₂, rest₂⟩
          exact ⟨owned₂, rest₂.trans rest₁⟩
        · intro f
          exact (balance f).trans (Nat.le_add_left _ _)

theorem mappages_owned (t : Target) (va pa : Nat) (perm : Flags)
    (owned : Owned b (holding (some pa) held) m) :
    wp (mappages t va pa perm) (fun ok m' =>
      Owned b (if ok then held else holding (some pa) held) m' ∧ m'.rest = m.rest) NotKfree m := by
  apply mappages_owned_of t pa perm held _ owned
  intro f
  by_cases same : pa = f <;> simp [leafWeight, holding, same]
  split_ifs <;> omega

theorem mappages_special_owned (t : Target) {va : Nat} (pa : Nat) (perm : Flags)
    (isSpecial : special (va / 4096) = true) (owned : Owned b held m) :
    wp (mappages t va pa perm) (fun _ m' => Owned b held m' ∧ m'.rest = m.rest) NotKfree m := by
  apply wp_mono (mappages_owned_of t pa perm held _ owned) _ fun _ panics => panics
  · intro f
    simp [leafWeight, isSpecial]
  · intro ok m' result
    simpa using result

theorem special_eq_false {va : Nat} (below : va < trapframeVa) : special (va / 4096) = false := by
  unfold special trampolineVa
  unfold trapframeVa trampolineVa maxva at *
  rw [decide_eq_false_iff_not]
  omega

theorem PageTable.leaf_store_empty (pt : PageTable) {va va' : Nat} (below : va < maxva)
    (below' : va' < maxva) (reached : (pt.walk va).isSome = true) (absent : pt.leaf va' = none) :
    (pt.store va .empty).leaf va' = none := by
  unfold maxva at *
  by_cases same : va' / 4096 = va / 4096
  · rw [PageTable.leaf, same]
    exact pt.leaf_store_self .empty reached
  · rw [pt.leaf_store_other .empty (by omega) (by omega) same]
    exact absent

theorem PageTable.Plain.store_empty {pt : PageTable} (plain : pt.Plain) {va : Nat}
    (below : va < maxva) (reached : (pt.walk va).isSome = true) : (pt.store va .empty).Plain :=
  ⟨pt.leaf_store_empty below (by decide) reached plain.1,
    pt.leaf_store_empty below (by decide) reached plain.2⟩

theorem unmapPage_owned (t : Target) (a : Nat) (owned : Owned b held m)
    (user : (m.table t).Plain ∨ a < trapframeVa) :
    wp (unmapPage b t true a) (fun _ m' => Owned b held m' ∧ m'.rest = m.rest ∧
      ((m.table t).Plain → (m'.table t).Plain) ∧ ∀ t', t' ≠ t → m'.table t' = m.table t')
      NotKfree m := by
  unfold unmapPage
  rw [wp_bind, wp_walk]
  refine ⟨fun _ => (nofun : Panic.walk ≠ .kfree), fun below => ?_⟩
  cases found : (m.table t).walk a with
  | none => exact ⟨owned, rfl, fun plain => plain, fun _ _ => rfl⟩
  | some node =>
    cases node with
    | empty => exact ⟨owned, rfl, fun plain => plain, fun _ _ => rfl⟩
    | leaf leaf =>
      have here : (m.table t).leaf a = some leaf := by
        rw [PageTable.leaf, Radix.value]
        exact congrArg Radix.value? found
      have ordinary : special (a / 4096) = false := by
        rcases user with plain | low
        · exact plain.ordinary here
        · exact special_eq_false low
      have reached : ((m.table t).walk a).isSome = true := by rw [found]; rfl
      have leaves (f : Nat) := (m.table t).leaves_store .empty f (by unfold maxva at below; omega) reached
      have weight (f : Nat) : leafWeight f (a / 4096) (some leaf) = if some leaf.pa = some f then 1 else 0 := by
        simp [leafWeight, ordinary]
      have owns := m.table_owners_le t leaf.pa
      have elsewhere : m.freelist.count leaf.pa < m.owners leaf.pa + held leaf.pa := by
        have self := leaves leaf.pa
        rw [here, weight] at self
        simp only [Radix.value?, leafWeight, Option.map_none, reduceCtorEq, and_false, if_false,
          if_true] at self
        unfold PageTable.owners at owns
        omega
      simp only [if_true, wp_bind]
      apply wp_kfree owned elsewhere
      intro notRefreed
      have sameTable : (m.freed leaf.pa).table t = m.table t := by cases t <;> rfl
      refine ⟨⟨?_, ?_⟩, ?_, ?_, ?_⟩
      · intro f
        have before := owned.single f
        have moved := (m.freed leaf.pa).owners_setTable t ((m.table t).store a .empty) f
        have freed := m.owners_freed leaf.pa f
        have removed := leaves f
        have tables := (m.table t).tables_store a .empty f
        rw [here, weight] at removed
        simp only [Radix.value?, leafWeight, Option.map_none, reduceCtorEq, and_false, if_false] at removed
        simp only [PageTable.owners, sameTable] at moved ⊢
        omega
      · exact (Machine.refreed_setTable _ t _).trans notRefreed
      · have stored := (m.freed leaf.pa).rest_setTable t (((m.freed leaf.pa).table t).store a .empty) rfl
        exact stored
      · intro plain
        simp only [Machine.table_setTable, sameTable]
        exact plain.store_empty below reached
      · intro t' other
        exact ((m.freed leaf.pa).table_setTable_other _ other).trans (by cases t' <;> rfl)

theorem unmapLoop_owned (t : Target) (n a : Nat) (owned : Owned b held m)
    (user : (m.table t).Plain ∨ a + n * 4096 ≤ trapframeVa) :
    wp (unmapLoop b t true n a) (fun _ m' => Owned b held m' ∧ m'.rest = m.rest ∧
      ((m.table t).Plain → (m'.table t).Plain) ∧ ∀ t', t' ≠ t → m'.table t' = m.table t')
      NotKfree m := by
  induction n generalizing a m with
  | zero => exact ⟨owned, rfl, fun plain => plain, fun _ _ => rfl⟩
  | succ n ih =>
    have first : (m.table t).Plain ∨ a < trapframeVa := user.imp_right fun _ => by omega
    apply wp_seq (unmapPage_owned t a owned first)
    rintro _ m₁ ⟨owned₁, rest₁, plain₁, other₁⟩
    have rest : (m₁.table t).Plain ∨ a + 4096 + n * 4096 ≤ trapframeVa :=
      user.imp plain₁ fun _ => by omega
    apply wp_mono (ih (a + 4096) owned₁ rest) _ fun _ panics => panics
    rintro _ m₂ ⟨owned₂, rest₂, plain₂, other₂⟩
    exact ⟨owned₂, rest₂.trans rest₁, fun plain => plain₂ (plain₁ plain),
      fun t' other => (other₂ t' other).trans (other₁ t' other)⟩

theorem uvmunmap_owned (t : Target) (va npages : Nat) (owned : Owned b held m)
    (user : (m.table t).Plain ∨ va ≤ trapframeVa ∧ u64 (va + u64 (npages * 4096)) ≤ trapframeVa) :
    wp (uvmunmap b t va npages true) (fun _ m' => Owned b held m' ∧ m'.rest = m.rest ∧
      ((m.table t).Plain → (m'.table t).Plain) ∧ ∀ t', t' ≠ t → m'.table t' = m.table t')
      NotKfree m := by
  unfold uvmunmap
  by_cases aligned : va % 4096 ≠ 0
  · rw [if_pos aligned]
    exact (nofun : Panic.uvmunmapNotAligned ≠ .kfree)
  · rw [if_neg aligned]
    apply unmapLoop_owned t _ _ owned
    exact user.imp_right fun _ => by omega

theorem pgroundup_of_lt {sz : Nat} (small : sz < 2 ^ 63) : pgroundup sz = (sz + 4095) / 4096 * 4096 := by
  unfold pgroundup
  rw [u64, Nat.mod_eq_of_lt (by omega)]

theorem pgroundup_le_trapframe {sz : Nat} (small : sz ≤ trapframeVa) : pgroundup sz ≤ trapframeVa := by
  unfold trapframeVa trampolineVa maxva at *
  rw [pgroundup_of_lt (by omega)]
  omega

theorem throughInt_of_lt {n : Nat} (small : n < 2 ^ 31) : throughInt n = n := by
  unfold throughInt u32
  rw [Nat.mod_eq_of_lt (by omega), if_pos small]

theorem uvmdealloc_owned (t : Target) (oldsz newsz : Nat) (owned : Owned b held m)
    (small : oldsz ≤ trapframeVa) :
    wp (uvmdealloc b t oldsz newsz) (fun _ m' => Owned b held m' ∧ m'.rest = m.rest) NotKfree m := by
  unfold uvmdealloc
  by_cases nothing : newsz ≥ oldsz
  · rw [if_pos nothing]
    exact ⟨owned, rfl⟩
  · rw [if_neg nothing]
    by_cases fewer : pgroundup newsz < pgroundup oldsz
    · rw [if_pos fewer]
      have top := pgroundup_le_trapframe small
      have user : (m.table t).Plain ∨ pgroundup newsz ≤ trapframeVa ∧
          u64 (pgroundup newsz + u64 (throughInt ((pgroundup oldsz - pgroundup newsz) / 4096) * 4096)) ≤
            trapframeVa := by
        refine .inr ⟨by omega, ?_⟩
        unfold trapframeVa trampolineVa maxva at *
        rw [throughInt_of_lt (by omega)]
        unfold u64
        omega
      apply wp_seq (uvmunmap_owned t _ _ owned user)
      rintro _ m₁ ⟨owned₁, rest₁, _⟩
      exact ⟨owned₁, rest₁⟩
    · rw [if_neg fewer]
      exact ⟨owned, rfl⟩

theorem freeList_owned (frames : List Nat) (owned : Owned b (fun f => held f + frames.count f) m) :
    wp (freeList b frames) (fun _ m' => Owned b held m' ∧ m'.core = m.core) NotKfree m := by
  induction frames generalizing m with
  | nil => exact ⟨owned.mono (fun f => by simp) rfl, rfl⟩
  | cons pa rest ih =>
    have first : Owned b (holding (some pa) fun f => held f + rest.count f) m := by
      apply owned.mono _ rfl
      intro f
      simp only [holding, List.count_cons, beq_iff_eq, Option.some.injEq]
      omega
    apply wp_seq (kfree_owned pa first)
    rintro _ m₁ ⟨owned₁, core₁⟩
    apply wp_mono (ih owned₁) _ fun _ panics => panics
    rintro _ m₂ ⟨owned₂, core₂⟩
    exact ⟨owned₂, core₂.trans core₁⟩

theorem freewalk_owned (t : Target) (owned : Owned b held m) (notNull : (m.table t).pa ≠ 0)
    (plain : (m.table t).Plain) :
    wp (freewalk b t) (fun _ m' => Owned b held m' ∧
      m'.core = (m.setTable t (.empty 0)).core) NotKfree m := by
  have released : Owned b (fun f => held f + (m.table t).freewalkOrder.count f)
      (m.setTable t (.empty 0)) := by
    apply owned.mono _ (m.refreed_setTable t _)
    intro f
    have moved := m.owners_setTable t (.empty 0) f
    have order : (m.table t).freewalkOrder.count f ≤ (m.table t).owners f := by
      rw [PageTable.count_freewalkOrder _ f notNull plain]
      exact Nat.add_le_add_left ((m.table t).userLeaves_le f) _
    have nothing := PageTable.null_owners f
    omega
  unfold freewalk
  rw [wp_bind, wp_read, wp_bind, wp_update]
  generalize (m.table t).freewalkOrder = frames at released ⊢
  exact freeList_owned frames released

def Core.drop (c : Core) : Target → Core
  | .own => { c with proc := { c.proc with pagetable := .empty 0 } }
  | .spare => { c with spare := .empty 0 }

theorem Machine.root_of_rest {m m' : Machine} (rest : m'.rest = m.rest) (t : Target) :
    (m'.table t).pa = (m.table t).pa := by
  cases t with
  | own => exact congrArg (fun c : Core => c.proc.pagetable.pa) rest
  | spare => exact congrArg (fun c : Core => c.spare.pa) rest

theorem uvmfree_owned (t : Target) (sz : Nat) (owned : Owned b held m)
    (notNull : (m.table t).pa ≠ 0) (plain : (m.table t).Plain) :
    wp (uvmfree b t sz) (fun _ m' => Owned b held m' ∧ m'.rest = m.rest.drop t ∧
      ∀ t', t' ≠ t → m'.table t' = m.table t') NotKfree m := by
  have freed {m₁ : Machine} (owned₁ : Owned b held m₁) (rest₁ : m₁.rest = m.rest)
      (plain₁ : (m₁.table t).Plain) (other₁ : ∀ t', t' ≠ t → m₁.table t' = m.table t') :
      wp (freewalk b t) (fun _ m' => Owned b held m' ∧ m'.rest = m.rest.drop t ∧
        ∀ t', t' ≠ t → m'.table t' = m.table t') NotKfree m₁ := by
    have root : (m₁.table t).pa ≠ 0 := by rwa [Machine.root_of_rest rest₁ t]
    apply wp_mono (freewalk_owned t owned₁ root plain₁) _ fun _ panics => panics
    rintro _ m₂ ⟨owned₂, core₂⟩
    refine ⟨owned₂, ?_, ?_⟩
    · rw [← rest₁, Machine.rest, core₂]
      cases t <;> rfl
    · intro t' other
      rw [Machine.table_of_core core₂, m₁.table_setTable_other _ other]
      exact other₁ t' other
  unfold uvmfree
  by_cases positive : sz > 0
  · rw [if_pos positive]
    apply wp_seq (uvmunmap_owned t _ _ owned (.inl plain))
    rintro _ m₁ ⟨owned₁, rest₁, plain₁, other₁⟩
    exact freed owned₁ rest₁ (plain₁ plain) other₁
  · rw [if_neg positive]
    exact freed owned rfl plain fun _ _ => rfl

theorem unmapSpecial_owned (t : Target) {va : Nat} (aligned : va % 4096 = 0) (below : va < maxva)
    (isSpecial : special (va / 4096) = true) (owned : Owned b held m) :
    wp (uvmunmap b t va 1 false) (fun _ m' => Owned b held m' ∧ m'.rest = m.rest ∧
      (m'.table t).leaf va = none ∧
      (∀ va' < maxva, (m.table t).leaf va' = none → (m'.table t).leaf va' = none) ∧
      ∀ t', t' ≠ t → m'.table t' = m.table t') NotKfree m := by
  have once : (u64 (va + u64 (1 * 4096)) - va) / 4096 = 1 := by
    unfold u64 maxva at *
    omega
  unfold uvmunmap
  rw [if_neg (by omega), once, unmapLoop, unmapLoop, wp_bind]
  unfold unmapPage
  rw [wp_bind, wp_walk]
  refine ⟨fun high => absurd below (by omega), fun _ => ?_⟩
  have absent {node : Option PteSlot} (found : (m.table t).walk va = node)
      (noLeaf : Radix.value? node = none) : (m.table t).leaf va = none := by
    rw [PageTable.leaf, Radix.value]
    exact (congrArg Radix.value? found).trans noLeaf
  cases found : (m.table t).walk va with
  | none => exact ⟨owned, rfl, absent found rfl, fun _ _ missing => missing, fun _ _ => rfl⟩
  | some node =>
    cases node with
    | empty => exact ⟨owned, rfl, absent found rfl, fun _ _ missing => missing, fun _ _ => rfl⟩
    | leaf leaf =>
      have reached : ((m.table t).walk va).isSome = true := by rw [found]; rfl
      have kept : wp (setPte t va .empty) (fun _ m' => Owned b held m' ∧ m'.rest = m.rest)
          NotKfree m := by
        apply setPte_owned t _ held below reached owned
        intro f
        simp [leafWeight, isSpecial]
      refine ⟨kept.1, kept.2, ?_, ?_, fun t' other => m.table_setTable_other _ other⟩
      · change ((m.setTable t ((m.table t).store va .empty)).table t).leaf va = none
        rw [Machine.table_setTable]
        exact (m.table t).leaf_store_self .empty reached
      · intro va' below' missing
        change ((m.setTable t ((m.table t).store va .empty)).table t).leaf va' = none
        rw [Machine.table_setTable]
        exact (m.table t).leaf_store_empty below below' reached missing

theorem procFreepagetable_owned (t : Target) (sz : Nat) (owned : Owned b held m)
    (notNull : (m.table t).pa ≠ 0) :
    wp (procFreepagetable b t sz) (fun _ m' => Owned b held m' ∧ m'.rest = m.rest.drop t ∧
      ∀ t', t' ≠ t → m'.table t' = m.table t') NotKfree m := by
  unfold procFreepagetable
  apply wp_seq (unmapSpecial_owned t (by decide) (by decide) (by decide) owned)
  rintro _ m₁ ⟨owned₁, rest₁, trampoline, _, other₁⟩
  apply wp_seq (unmapSpecial_owned t (by decide) (by decide) (by decide) owned₁)
  rintro _ m₂ ⟨owned₂, rest₂, trapframe, kept, other₂⟩
  have plain : (m₂.table t).Plain := ⟨kept _ (by decide) trampoline, trapframe⟩
  have root : (m₂.table t).pa ≠ 0 := by
    rwa [Machine.root_of_rest (rest₂.trans rest₁) t]
  apply wp_mono (uvmfree_owned t sz owned₂ root plain) _ fun _ panics => panics
  rintro _ m₃ ⟨owned₃, rest₃, other₃⟩
  refine ⟨owned₃, ?_, ?_⟩
  · rw [rest₃, rest₂, rest₁]
  · intro t' other
    exact (other₃ t' other).trans ((other₂ t' other).trans (other₁ t' other))

end SystemsSuite.Paging
