import SystemsSuite.Paging.Ownership

set_option autoImplicit false

namespace SystemsSuite.Paging

open Lib Prog

variable {b : Build} {m : Machine}

theorem PageTable.leaf_page (pt : PageTable) {va va' : Nat} (same : va' / 4096 = va / 4096) :
    pt.leaf va' = pt.leaf va := by
  rw [PageTable.leaf, PageTable.leaf, same]

theorem PageTable.leaf_of_walk {pt : PageTable} {va : Nat} {node : Option PteSlot}
    (found : pt.walk va = node) : pt.leaf va = Radix.value? node :=
  congrArg Radix.value? found

theorem PageTable.leaf_store (pt : PageTable) {va va' : Nat} (node : PteSlot) (below : va < maxva)
    (below' : va' < maxva) (reached : (pt.walk va).isSome = true) :
    (pt.store va node).leaf va' =
      if va' / 4096 = va / 4096 then Radix.value? (some node) else pt.leaf va' := by
  unfold maxva at *
  by_cases same : va' / 4096 = va / 4096
  · rw [if_pos same, PageTable.leaf_page _ same]
    exact pt.leaf_store_self node reached
  · rw [if_neg same]
    exact pt.leaf_store_other node (by omega) (by omega) same

-- A step that leaves table `t` with the given leaves, takes frames from the free list and touches no other frame.
structure TableStep (t : Target) (leaves : Nat → Option Leaf) (m m' : Machine) : Prop where
  leaf : ∀ va < maxva, (m'.table t).leaf va = leaves va
  other : ∀ t', t' ≠ t → m'.table t' = m.table t'
  rest : m'.rest = m.rest
  free : ∀ f ∈ m'.freelist, f ∈ m.freelist
  mem : ∀ f, f ∉ m.freelist → m'.mem f = m.mem f

theorem Machine.mem_setTable (m : Machine) (t : Target) (pt : PageTable) :
    (m.setTable t pt).mem = m.mem := by
  cases t <;> rfl

theorem walkAlloc_effect (t : Target) (va : Nat) :
    wp (walkAlloc t va) (fun ok m' => TableStep t (m.table t).leaf m m' ∧ va < maxva ∧
      (ok = true → ((m'.table t).walk va).isSome = true))
      (fun e => e = .walk ∧ maxva ≤ va) m := by
  unfold walkAlloc
  by_cases high : va ≥ maxva
  · rw [if_pos high]
    exact ⟨rfl, high⟩
  · rw [if_neg high, wp_bind, wp_read, wp_bind, wp_update]
    refine ⟨⟨?_, ?_, m.rest_setTable t _ rfl, ?_, ?_⟩, by omega, ?_⟩
    · intro va' _
      change ((m.setTable t _).table t).leaf va' = _
      rw [Machine.table_setTable]
      exact Radix.value_grow 2 _ _ _ _
    · intro t' other
      exact m.table_setTable_other _ other
    · intro f member
      exact Radix.mem_grow 2 _ _ _ member
    · intro f absent
      have notTaken : f ∉ m.freelist.take (m.freelist.length -
          (Radix.grow 2 (m.table t).entries (va / 4096) m.freelist).2.1.length) :=
        fun member => absent (List.mem_of_mem_take member)
      exact if_neg notTaken
    · intro ok
      change Option.isSome ((Machine.table (Machine.setTable m t _) t).walk va) = true
      rw [Machine.table_setTable]
      exact Radix.find_grow_isSome 2 _ _ _ ok

def setLeaf (leaves : Nat → Option Leaf) (va : Nat) (leaf : Option Leaf) (va' : Nat) : Option Leaf :=
  if va' / 4096 = va / 4096 then leaf else leaves va'

-- Every way `mappages` can end.
theorem mappages_effect (t : Target) (va pa : Nat) (perm : Flags) :
    wp (mappages t va pa perm)
      (fun ok m' => (ok = true → (m.table t).leaf va = none) ∧ va < maxva ∧
        TableStep t (if ok then setLeaf (m.table t).leaf va (some ⟨pa, perm⟩) else (m.table t).leaf) m m')
      (fun e => e = .mappagesNotAligned ∧ va % 4096 ≠ 0 ∨ e = .walk ∧ maxva ≤ va ∨
        e = .remap ∧ ((m.table t).leaf va).isSome = true ∧ va < maxva) m := by
  unfold mappages
  by_cases aligned : va % 4096 ≠ 0
  · rw [if_pos aligned]
    exact .inl ⟨rfl, aligned⟩
  · rw [if_neg aligned, wp_bind]
    apply wp_mono (walkAlloc_effect t va)
    · rintro ok m₁ ⟨grown, below, reached⟩
      cases ok with
      | false => exact ⟨nofun, below, grown⟩
      | true =>
        simp only [if_true, wp_bind, wp_read]
        have same := grown.leaf va below
        cases mapped : (m₁.table t).leaf va with
        | some leaf =>
          rw [mapped] at same
          exact .inr (.inr ⟨rfl, by rw [← same]; rfl, below⟩)
        | none =>
          rw [mapped] at same
          refine ⟨fun _ => same.symm, below, ⟨?_, ?_, ?_, ?_, ?_⟩⟩
          · intro va' below'
            change ((m₁.setTable t _).table t).leaf va' = _
            rw [Machine.table_setTable, PageTable.leaf_store _ _ below below' (reached rfl)]
            unfold setLeaf
            rw [grown.leaf va' below']
            rfl
          · intro t' other
            exact (m₁.table_setTable_other _ other).trans (grown.other t' other)
          · exact (m₁.rest_setTable t ((m₁.table t).store va _) rfl).trans grown.rest
          · intro f member
            apply grown.free
            rwa [← m₁.freelist_setTable t]
          · intro f absent
            rw [← grown.mem f absent]
            exact congrFun (m₁.mem_setTable t _) f
    · rintro e ⟨rfl, high⟩
      exact .inr (.inl ⟨rfl, high⟩)

-- The pages of `va` in `[a, a + n * PGSIZE)`.
def within (a n va : Nat) : Prop := a / 4096 ≤ va / 4096 ∧ va / 4096 < a / 4096 + n

-- Table `t` has lost the leaves of a range, and frames of these leaves may have been freed.
structure Unmapped (t : Target) (a n : Nat) (m m' : Machine) : Prop where
  gone : ∀ va < maxva, within a n va → (m'.table t).leaf va = none
  kept : ∀ va < maxva, ¬ within a n va → (m'.table t).leaf va = (m.table t).leaf va
  other : ∀ t', t' ≠ t → m'.table t' = m.table t'
  rest : m'.rest = m.rest
  free : ∀ f ∈ m'.freelist, f ∈ m.freelist ∨ ∃ va < maxva, within a n va ∧
    ((m.table t).leaf va).map Leaf.pa = some f
  mem : ∀ f, (∀ va < maxva, within a n va → ((m.table t).leaf va).map Leaf.pa ≠ some f) →
    m'.mem f = m.mem f

theorem unmapPage_effect (t : Target) (doFree : Bool) (a : Nat) :
    wp (unmapPage b t doFree a) (fun _ m' => a < maxva ∧ Unmapped t a 1 m m')
      (fun e => e = .walk ∧ maxva ≤ a ∨ e = .kfree ∧ doFree = true) m := by
  have samePage (va : Nat) : within a 1 va ↔ va / 4096 = a / 4096 := by
    unfold within
    omega
  have unchanged (absent : (m.table t).leaf a = none) : Unmapped t a 1 m m := by
    refine ⟨?_, fun _ _ _ => rfl, fun _ _ => rfl, rfl, fun f member => .inl member, fun _ _ => rfl⟩
    intro va _ inside
    rwa [PageTable.leaf_page _ ((samePage va).mp inside)]
  unfold unmapPage
  rw [wp_bind, wp_walk]
  refine ⟨fun high => .inl ⟨rfl, high⟩, fun below => ?_⟩
  cases found : (m.table t).walk a with
  | none => exact ⟨below, unchanged (PageTable.leaf_of_walk found)⟩
  | some node =>
    cases node with
    | empty => exact ⟨below, unchanged (PageTable.leaf_of_walk found)⟩
    | leaf leaf =>
      have here : (m.table t).leaf a = some leaf := PageTable.leaf_of_walk found
      have reached : ((m.table t).walk a).isSome = true := by rw [found]; rfl
      -- The PTE is cleared after the frame, if any, has gone to the free list.
      have cleared {m₁ : Machine} (core : m₁.core = m.core)
          (free : ∀ f ∈ m₁.freelist, f ∈ m.freelist ∨ f = leaf.pa)
          (mem : ∀ f, f ≠ leaf.pa → m₁.mem f = m.mem f) :
          Unmapped t a 1 m (m₁.setTable t ((m₁.table t).store a .empty)) := by
        have table (t' : Target) : m₁.table t' = m.table t' := by
          cases t' with
          | own => exact congrArg (fun c : Core => c.proc.pagetable) core
          | spare => exact congrArg (fun c : Core => c.spare) core
        have replaced (va : Nat) (below' : va < maxva) :
            ((m₁.setTable t ((m₁.table t).store a .empty)).table t).leaf va =
              if va / 4096 = a / 4096 then none else (m.table t).leaf va := by
          rw [Machine.table_setTable, table, PageTable.leaf_store _ _ below below' reached]
          rfl
        constructor
        · intro va below' inside
          rw [replaced va below', if_pos ((samePage va).mp inside)]
        · intro va below' outside
          rw [replaced va below', if_neg fun same => outside ((samePage va).mpr same)]
        · intro t' other
          exact (m₁.table_setTable_other _ other).trans (table t')
        · exact (m₁.rest_setTable t ((m₁.table t).store a .empty) rfl).trans (congrArg Core.rest core)
        · intro f member
          rw [m₁.freelist_setTable t] at member
          rcases free f member with old | rfl
          · exact .inl old
          · exact .inr ⟨a, below, (samePage a).mpr rfl, by rw [here]; rfl⟩
        · intro f apart
          have notHere : f ≠ leaf.pa := by
            rintro rfl
            exact apart a below ((samePage a).mpr rfl) (by rw [here]; rfl)
          rw [← mem f notHere]
          exact congrFun (m₁.mem_setTable t _) f
      cases doFree with
      | false => exact ⟨below, cleared rfl (fun f member => .inl member) fun _ _ => rfl⟩
      | true =>
        simp only [if_true, wp_bind]
        unfold kfree
        by_cases isFrame : b.isFrame leaf.pa = true
        · rw [if_pos isFrame, wp_update]
          refine ⟨below, cleared rfl ?_ ?_⟩
          · intro f member
            rcases List.mem_cons.mp member with rfl | old
            · exact .inr rfl
            · exact .inl old
          · intro f other
            exact Function.update_of_ne other _ _
        · rw [if_neg isFrame]
          exact .inr ⟨rfl, trivial⟩

theorem unmapLoop_effect (t : Target) (doFree : Bool) (n a : Nat) (aligned : a % 4096 = 0) :
    wp (unmapLoop b t doFree n a) (fun _ m' => Unmapped t a n m m')
      (fun e => e = .walk ∧ maxva < a + n * 4096 ∨ e = .kfree ∧ doFree = true) m := by
  induction n generalizing a m with
  | zero =>
    have empty (va : Nat) : ¬ within a 0 va := by
      unfold within
      omega
    exact ⟨fun va _ inside => absurd inside (empty va), fun _ _ _ => rfl, fun _ _ => rfl, rfl,
      fun f member => .inl member, fun _ _ => rfl⟩
  | succ n ih =>
    have split (va : Nat) : within a (n + 1) va ↔ within a 1 va ∨ within (a + 4096) n va := by
      unfold within
      omega
    rw [unmapLoop, wp_bind]
    apply wp_mono (unmapPage_effect t doFree a)
    · rintro _ m₁ ⟨below, first⟩
      apply wp_mono (ih (a + 4096) (by omega))
      · intro _ m₂ rest
        constructor
        · intro va below' inside
          by_cases later : within (a + 4096) n va
          · exact rest.gone va below' later
          · rw [rest.kept va below' later]
            exact first.gone va below' (((split va).mp inside).resolve_right later)
        · intro va below' outside
          rw [split, not_or] at outside
          rw [rest.kept va below' outside.2, first.kept va below' outside.1]
        · intro t' other
          exact (rest.other t' other).trans (first.other t' other)
        · exact rest.rest.trans first.rest
        · intro f member
          rcases rest.free f member with old | ⟨va, below', inside, here⟩
          · rcases first.free f old with older | ⟨va, below', inside, here⟩
            · exact .inl older
            · exact .inr ⟨va, below', (split va).mpr (.inl inside), here⟩
          · have apart : ¬ within a 1 va := by
              unfold within at inside ⊢
              omega
            rw [first.kept va below' apart] at here
            exact .inr ⟨va, below', (split va).mpr (.inr inside), here⟩
        · intro f apart
          rw [rest.mem f, first.mem f]
          · exact fun va below' inside => apart va below' ((split va).mpr (.inl inside))
          · intro va below' inside
            have notFirst : ¬ within a 1 va := by
              unfold within at inside ⊢
              omega
            rw [first.kept va below' notFirst]
            exact apart va below' ((split va).mpr (.inr inside))
      · rintro e (⟨rfl, high⟩ | ⟨rfl, freeing⟩)
        · exact .inl ⟨rfl, by omega⟩
        · exact .inr ⟨rfl, freeing⟩
    · rintro e (⟨rfl, high⟩ | ⟨rfl, freeing⟩)
      · exact .inl ⟨rfl, by omega⟩
      · exact .inr ⟨rfl, freeing⟩

theorem uvmunmap_effect (t : Target) {va npages : Nat} (doFree : Bool) (aligned : va % 4096 = 0)
    (fits : va + npages * 4096 ≤ maxva) :
    wp (uvmunmap b t va npages doFree) (fun _ m' => Unmapped t va npages m m')
      (fun e => e = .kfree ∧ doFree = true) m := by
  have range : (u64 (va + u64 (npages * 4096)) - va) / 4096 = npages := by
    unfold u64 maxva at *
    omega
  unfold uvmunmap
  rw [if_neg (by omega), range]
  apply wp_mono (unmapLoop_effect t doFree npages va aligned) fun _ _ unmapped => unmapped
  rintro e (⟨_, high⟩ | freeing)
  · omega
  · exact freeing

theorem uvmdealloc_effect (t : Target) (oldsz newsz : Nat) (small : oldsz ≤ trapframeVa) :
    wp (uvmdealloc b t oldsz newsz) (fun _ m' => m' = m ∨
      ∃ n, Unmapped t (pgroundup newsz) n m m' ∧ pgroundup newsz + n * 4096 ≤ pgroundup oldsz)
      (fun e => e = .kfree) m := by
  have aligned (sz : Nat) : pgroundup sz % 4096 = 0 := by
    unfold pgroundup
    omega
  have top := pgroundup_le_trapframe small
  have highest : trapframeVa ≤ maxva := by decide
  unfold uvmdealloc
  split_ifs with nothing fewer
  · exact .inl rfl
  · have range : pgroundup newsz +
        throughInt ((pgroundup oldsz - pgroundup newsz) / 4096) * 4096 = pgroundup oldsz := by
      have old := aligned oldsz
      have new := aligned newsz
      unfold trapframeVa trampolineVa maxva at top
      rw [throughInt_of_lt (by omega)]
      omega
    rw [wp_bind]
    apply wp_mono (uvmunmap_effect t true (aligned newsz) (by omega))
    · intro _ m' unmapped
      exact .inr ⟨_, unmapped, range.le⟩
    · exact fun _ panics => panics.1
  · exact .inl rfl

def PageTable.Framed (pt : PageTable) : Prop :=
  (pt.leaf trampolineVa).isSome = true ∧ (pt.leaf trapframeVa).isSome = true

theorem PageTable.Framed.below {pt : PageTable} (framed : pt.Framed) {va : Nat} (below : va < maxva)
    (absent : pt.leaf va = none) : va < trapframeVa := by
  by_contra high
  have page : trampolineVa / 4096 = va / 4096 ∨ trapframeVa / 4096 = va / 4096 := by
    unfold trapframeVa trampolineVa maxva at *
    omega
  have mapped : (pt.leaf va).isSome = true := by
    rcases page with same | same
    · rw [← PageTable.leaf_page pt same]
      exact framed.1
    · rw [← PageTable.leaf_page pt same]
      exact framed.2
  rw [absent] at mapped
  contradiction

theorem TableStep.framed {t : Target} {leaves : Nat → Option Leaf} {m m' : Machine}
    (step : TableStep t leaves m m')
    (grows : ∀ va, ((m.table t).leaf va).isSome = true → (leaves va).isSome = true) (t' : Target)
    (framed : (m.table t').Framed) : (m'.table t').Framed := by
  by_cases same : t' = t
  · subst same
    refine ⟨?_, ?_⟩
    · rw [step.leaf _ (by decide)]
      exact grows _ framed.1
    · rw [step.leaf _ (by decide)]
      exact grows _ framed.2
  · rw [step.other t' same]
    exact framed

theorem setLeaf_isSome {leaves : Nat → Option Leaf} {va va' : Nat} {leaf : Leaf}
    (mapped : (leaves va').isSome = true) : (setLeaf leaves va (some leaf) va').isSome = true := by
  unfold setLeaf
  split_ifs
  · rfl
  · exact mapped

theorem setPte_framed (t : Target) {va : Nat} {node : PteSlot} (below : va < maxva)
    (reached : ((m.table t).walk va).isSome = true)
    (valid : (Radix.value? (some node)).isSome = true) (t' : Target) (framed : (m.table t').Framed) :
    ((m.setTable t ((m.table t).store va node)).table t').Framed := by
  by_cases same : t' = t
  · subst same
    have stays {va' : Nat} (below' : va' < maxva) (mapped : ((m.table t').leaf va').isSome = true) :
        (((m.table t').store va node).leaf va').isSome = true := by
      rw [PageTable.leaf_store _ node below below' reached]
      split_ifs
      · exact valid
      · exact mapped
    rw [Machine.table_setTable]
    exact ⟨stays (by decide) framed.1, stays (by decide) framed.2⟩
  · rw [m.table_setTable_other _ same]
    exact framed

theorem Unmapped.framed {t : Target} {a n : Nat} {m m' : Machine} (unmapped : Unmapped t a n m m')
    (aligned : a % 4096 = 0) (small : a + n * 4096 ≤ trapframeVa) (t' : Target)
    (framed : (m.table t').Framed) : (m'.table t').Framed := by
  have outside {va : Nat} (high : trapframeVa ≤ va) : ¬ within a n va := by
    unfold within
    omega
  by_cases same : t' = t
  · subst same
    refine ⟨?_, ?_⟩
    · rw [unmapped.kept _ (by decide) (outside (by decide))]
      exact framed.1
    · rw [unmapped.kept _ (by decide) (outside le_rfl)]
      exact framed.2
  · rw [unmapped.other t' same]
    exact framed

end SystemsSuite.Paging
