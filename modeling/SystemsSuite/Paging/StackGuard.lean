import SystemsSuite.Paging.LineageBooks

set_option autoImplicit false

namespace SystemsSuite.Paging

open Lib Prog

variable {b : Build} {m : Machine}

-- The page directly below the user stack page of a new process image.
def Proc.guardPage (p : Proc) : Nat := p.sz - 8192

-- No fault at the guard page while it is unmapped but in a region of the process, no eager growth
-- over it, no new image.
def Machine.KeepsGuard (guard : Nat) (m : Machine) : Event → Prop
  | .fault va _ => pgrounddown va = guard → m.proc.pagetable.leaf guard = none →
    ((m.proc.segOf guard).isSome || m.proc.isHeap guard || m.proc.isStack guard) = false
  | .sbrk n t => u32 t = sbrkEager → ¬ isNegative n →
    ¬ (pgroundup m.proc.sz ≤ guard ∧ guard < u64 (m.proc.sz + throughInt n))
  | .exec _ _ _ => False
  | _ => True

instance (guard : Nat) (m : Machine) : (e : Event) → Decidable (m.KeepsGuard guard e)
  | .fault _ _ => inferInstanceAs (Decidable (_ → _ → _))
  | .sbrk _ _ => inferInstanceAs (Decidable (_ → ¬ _ → ¬ _))
  | .exec _ _ _ => inferInstanceAs (Decidable False)
  | .other _ _ _ | .setSp _ | .evict | .fork _ _ => inferInstanceAs (Decidable True)

def Books.Guarded (guard : Nat) (v : Books) : Prop :=
  ∀ flags, v.pte (guard / 4096) = some flags → flags.u = false

namespace Books.Guarded

variable {guard : Nat} {v v' : Books}

theorem of_removes (guarded : v.Guarded guard)
    (removes : ∀ vpn flags, v'.pte vpn = some flags → v.pte vpn = some flags) : v'.Guarded guard :=
  fun flags here => guarded flags (removes _ flags here)

theorem fault {va : Nat} {acc : Access} {ok : Bool} (guarded : m.books.Guarded guard)
    (aligned : guard % 4096 = 0) (below : guard < maxva) (keeps : m.KeepsGuard guard (.fault va acc))
    (faulted : m.books.Faulted (pgrounddown va) acc ok v') : v'.Guarded guard := by
  by_cases same : pgrounddown va = guard
  · rw [same] at faulted
    have outside (absent : m.books.pte (guard / 4096) = none) :
        ((m.books.image.segOf guard).isSome || m.books.image.isHeap guard ||
          m.books.image.isStack guard) = false := by
      have leaf := (PageTable.ptes_leaf m.proc.pagetable below).symm.trans absent
      exact keeps same (Option.map_eq_none_iff.mp leaf)
    have noSegment {seg : Seg} (absent : m.books.pte (guard / 4096) = none)
        (region : m.books.image.segOf guard = some seg) : False := by
      have unknown := outside absent
      rw [region] at unknown
      contradiction
    have removed {w : Books} (obtained : (m.books.noted guard).Obtain false w) : w.Guarded guard := by
      refine of_removes guarded fun vpn flags here => ?_
      rw [← noted_pte m.books guard]
      exact obtained.removes here
    cases faulted with
    | refused => exact guarded
    | widened flags here =>
      intro flags' here'
      rw [noted_pte] at here'
      have stored := (Function.update_self ..).symm.trans here'
      rw [← Option.some.inj stored]
      exact guarded flags here
    | madeExec flags seg here =>
      intro flags' here'
      have stored := (Function.update_self ..).symm.trans here'
      rw [← Option.some.inj stored]
      exact guarded flags here
    | starved _ _ obtained => exact of_removes guarded fun _ _ here => obtained.removes here
    | zeroStarved _ _ _ obtained => exact removed obtained
    | swappedIn seg _ _ absent region => exact (noSegment absent region).elim
    | loaded seg _ absent region => exact (noSegment absent region).elim
    | zeroed _ absent region anonymous =>
      have unknown := outside absent
      rw [Bool.or_assoc, anonymous, Bool.or_true] at unknown
      contradiction
  · have other : guard / 4096 ≠ pgrounddown va / 4096 := by
      unfold pgrounddown at *
      omega
    exact fun flags here => guarded flags (faulted.elsewhere other here)

theorem sbrk {n t : Nat} {ok : Bool} (guarded : m.books.Guarded guard) (aligned : guard % 4096 = 0)
    (keeps : m.KeepsGuard guard (.sbrk n t)) (moved : m.books.Sbrk n t ok v') : v'.Guarded guard := by
  intro flags here
  rcases moved.maps here with before | ⟨eager, positive, _, low, high⟩
  · exact guarded flags before
  · rw [Nat.div_mul_cancel (Nat.dvd_of_mod_eq_zero aligned)] at low high
    exact absurd ⟨low, high⟩ (keeps eager positive)

theorem born {im : Proc} (guarded : v.Guarded guard) (born : v.Born im v') : v'.Guarded guard := by
  intro flags here
  rcases born.maps here with frame | copied
  · rcases framePtes_eq frame with rfl | rfl <;> rfl
  · exact guarded flags copied

theorem fresh (fresh : v.Fresh) : v.Guarded v.image.heapBrk := by
  intro flags here
  rw [fresh.pte] at here
  unfold stackPtes at here
  rw [Function.update_of_ne (by omega), Function.update_self] at here
  rw [← Option.some.inj here]
  rfl

end Books.Guarded

def Leaf.stored (leaf : Leaf) : Access → Bool
  | .read => true
  | .write => leaf.flags.w
  | .exec => leaf.flags.x

theorem upgrade_stores {vaPg : Nat} {leaf : Leaf} (acc : Access) (below : vaPg < maxva)
    (mapped : m.proc.pagetable.leaf vaPg = some leaf) :
    wp (upgrade .own vaPg leaf acc) (fun r m' => r.isSome = true → leaf.stored acc = false ∧
      ∃ leaf', m'.proc.pagetable.leaf vaPg = some leaf' ∧ leaf'.stored acc = true)
      (fun _ => False) m := by
  have reached : (m.proc.pagetable.walk vaPg).isSome = true := by
    rw [PageTable.walk, Radix.find_of_value mapped]
    rfl
  have stores (leaf' : Leaf) : (m.proc.pagetable.store vaPg (.leaf leaf')).leaf vaPg = some leaf' := by
    rw [PageTable.leaf_store _ (.leaf leaf') below below reached, if_pos rfl]
    rfl
  unfold upgrade
  rw [wp_bind, wp_read]
  cases acc with
  | read => simp
  | write =>
    simp only
    split_ifs with allowed
    · simp only [Bool.and_eq_true, Bool.not_eq_true'] at allowed
      rw [wp_bind, wp_setPte, wp_bind, wp_modifyProc]
      cases (pgmetaAlloc m.proc.pgmeta vaPg).2 with
      | none => exact fun _ => ⟨allowed.1, _, stores _, rfl⟩
      | some i => exact fun _ => ⟨allowed.1, _, stores _, rfl⟩
    · simp
  | exec =>
    simp only
    split_ifs with allowed
    · simp only [Bool.and_eq_true, Bool.not_eq_true'] at allowed
      exact fun _ => ⟨allowed.1, _, stores _, rfl⟩
    · simp

theorem vmfault_mapped {va : Nat} {leaf : Leaf} {acc : Access} {Q : Option Nat → Machine → Prop}
    {E : Panic → Prop} (below : va < maxva)
    (mapped : m.proc.pagetable.leaf (pgrounddown va) = some leaf) :
    wp (vmfault b .own va acc) Q E m ↔ wp (upgrade .own (pgrounddown va) leaf acc) Q E m := by
  unfold vmfault
  rw [if_neg (by omega), wp_bind, wp_read, wp_bind, wp_read]
  have here : (m.table .own).leaf (pgrounddown va) = some leaf := mapped
  rw [here]

-- The process does not survive the access: its page fault, or the next one, ends it.
def Machine.KilledBy (b : Build) (m : Machine) (va : Nat) (acc : Access) : Prop :=
  ∃ m₁, usertrapFault b va acc m = .ok ((), m₁) ∧ (m₁.proc.killed = true ∨
    ∃ m₂, usertrapFault b va acc m₁ = .ok ((), m₂) ∧ m₂.proc.killed = true)

theorem killedBy_refused {va : Nat} {acc : Access} (refused : vmfault b .own va acc m = .ok (none, m)) :
    m.KilledBy b va acc := by
  have killed : wp (usertrapFault b va acc) (fun _ m' => m'.proc.killed = true) (fun _ => False) m := by
    unfold usertrapFault
    rw [wp_bind]
    exact wp_of_ok refused rfl
  obtain ⟨_, m₁, ran, dead⟩ := wp_total killed
  exact ⟨m₁, ran, .inl dead⟩

-- Whatever permission a first fault stores, the second finds it there and is refused.
theorem killedBy_mapped {va : Nat} {leaf : Leaf} {acc : Access} (below : va < maxva)
    (mapped : m.proc.pagetable.leaf (pgrounddown va) = some leaf) : m.KilledBy b va acc := by
  have low : pgrounddown va < maxva := by
    unfold pgrounddown
    omega
  have once {m : Machine} {leaf : Leaf} (mapped : m.proc.pagetable.leaf (pgrounddown va) = some leaf) :
      wp (usertrapFault b va acc) (fun _ m' => m'.proc.killed = true ∨ (leaf.stored acc = false ∧
        ∃ leaf', m'.proc.pagetable.leaf (pgrounddown va) = some leaf' ∧ leaf'.stored acc = true))
        (fun _ => False) m := by
    unfold usertrapFault
    apply wp_seq ((vmfault_mapped below mapped).mpr (upgrade_stores acc low mapped))
    intro r m' served
    cases r with
    | none => exact .inl rfl
    | some pa => exact .inr (served rfl)
  obtain ⟨_, m₁, first, outcome⟩ := wp_total (once mapped)
  refine ⟨m₁, first, ?_⟩
  rcases outcome with killed | ⟨_, leaf', mapped', stored⟩
  · exact .inl killed
  · obtain ⟨_, m₂, second, outcome⟩ := wp_total (once mapped')
    rcases outcome with killed | ⟨lacked, _⟩
    · exact .inr ⟨m₂, second, killed⟩
    · exact absurd (lacked.symm.trans stored) Bool.false_ne_true

theorem Machine.Execed.guardPage (execed : m.Execed b) : m.proc.guardPage = m.proc.heapBrk ∧
    m.proc.heapBrk % 4096 = 0 ∧ m.proc.heapBrk < maxva := by
  have size := execed.fresh.size
  have below := execed.fresh.below
  have aligned := execed.fresh.aligned
  change m.proc.sz = m.proc.heapBrk + 8192 at size
  change m.proc.sz ≤ trapframeVa at below
  refine ⟨?_, aligned, ?_⟩
  · unfold Proc.guardPage
    omega
  · unfold trapframeVa trampolineVa maxva at *
    omega

theorem guard_page_inaccessible {m₀ : Machine} (execed : m₀.Execed b)
    (reached : (m₀.lineage b).ReachableVia (Machine.KeepsGuard m₀.proc.guardPage) m) {va : Nat}
    (inside : pgrounddown va = m₀.proc.guardPage) (acc : Access) :
    (∀ leaf, m.proc.pagetable.leaf va = some leaf → leaf.flags.u = false) ∧
      m.translate va acc = none ∧
      (m.KeepsGuard m₀.proc.guardPage (.fault va acc) → m.KilledBy b va acc) := by
  obtain ⟨place, aligned, below⟩ := execed.guardPage
  rw [place] at reached inside ⊢
  have guarded : m.books.Guarded m₀.proc.heapBrk := by
    refine Machine.lineage_invariant execed.fresh (.fresh execed.fresh) ?_ reached
    intro m m' e guarded keeps _ happens
    generalize m'.books = v' at happens
    cases happens with
    | other => exact guarded
    | setSp => exact guarded
    | fault _ _ _ _ faulted => exact guarded.fault aligned below keeps faulted
    | evict _ _ evict => exact guarded.of_removes fun _ _ here => evict.removes here
    | sbrk _ _ _ _ sbrk => exact guarded.sbrk aligned keeps sbrk
    | parent _ _ _ evictions => exact guarded.of_removes fun _ _ here => evictions.removes here
    | child _ _ born => exact guarded.born born
    | execed => exact keeps.elim
    | execFailed => exact keeps.elim
  have low : va < maxva := by
    unfold pgrounddown maxva at *
    omega
  have notUser (leaf : Leaf) (mapped : m.proc.pagetable.leaf va = some leaf) : leaf.flags.u = false := by
    apply guarded
    have here := PageTable.ptes_leaf m.proc.pagetable low
    rw [mapped, show va / 4096 = m₀.proc.heapBrk / 4096 by unfold pgrounddown at inside; omega] at here
    exact here
  refine ⟨notUser, ?_, fun keeps => ?_⟩
  · unfold Machine.translate
    rw [if_neg (by omega)]
    cases mapped : m.proc.pagetable.leaf va with
    | none => rfl
    | some leaf =>
      have denied : leaf.allows acc = false := by
        cases acc <;> simp [Leaf.allows, notUser leaf mapped]
      simp [Option.filter, denied]
  · cases mapped : m.proc.pagetable.leaf (pgrounddown va) with
    | some leaf => exact killedBy_mapped low mapped
    | none =>
      apply killedBy_refused
      apply vmfault_outside
      rw [inside] at mapped ⊢
      exact keeps inside mapped

-- The child of a fork touches its guard page while it is mapped, and the process is killed.
theorem guard_page_inaccessible_forking : ∃ m₀ m : Machine, m₀.Execed .small ∧
    (m₀.lineage .small).ReachableVia (Machine.KeepsGuard m₀.proc.guardPage) m ∧
    m.translate 0x2ff8 .write = none ∧ m.KilledBy .small 0x2ff8 .write := by
  obtain ⟨m₀, m, execed, reached, shown⟩ := Machine.run_shows (b := .small) 40 (oneSegment 7) shortArgv
    [.sbrk 4096 2, .fork (some 10) true, .fault 0x1000 .write]
    (fun m e => decide (m.KeepsGuard 0x2000 e))
    (fun m₀ m => decide (m₀.proc.guardPage = 0x2000 ∧ m.KeepsGuard 0x2000 (.fault 0x2ff8 .write)))
    (fun m e => of_decide_eq_true) (by decide +kernel)
  obtain ⟨place, keeps⟩ := of_decide_eq_true shown
  rw [← place] at reached keeps
  have inside : pgrounddown 0x2ff8 = m₀.proc.guardPage := place.symm
  have guarded := guard_page_inaccessible execed reached inside .write
  exact ⟨m₀, m, execed, reached, guarded.2.1, guarded.2.2 keeps⟩

-- Fork notes the guard page, the child loses it to an eviction, and a read brings back a page of
-- the heap or stack.
theorem guard_page_readable : ∃ m₀ m : Machine, m₀.Execed .small ∧
    (m₀.lineage .small).ReachableVia (fun _ e => e.resizes = false) m ∧
    ∃ leaf, m.proc.pagetable.leaf m₀.proc.guardPage = some leaf ∧ leaf.flags.u = true ∧
      m.translate m₀.proc.guardPage .read = some leaf.pa := by
  obtain ⟨m₀, m, execed, reached, shown⟩ := Machine.run_shows (b := .small) 40 (oneSegment 7) shortArgv
    [.fork (some 10) true, .evict, .evict, .fault 0x2000 .read] (fun _ e => !e.resizes)
    (fun m₀ m => decide (∃ leaf ∈ m.proc.pagetable.leaf m₀.proc.guardPage, leaf.flags.u = true ∧
      m.translate m₀.proc.guardPage .read = some leaf.pa))
    (fun _ e fixed => (Bool.not_eq_true' e.resizes).mp fixed) (by decide +kernel)
  obtain ⟨leaf, mapped, rest⟩ := of_decide_eq_true shown
  exact ⟨m₀, m, execed, reached, leaf, mapped, rest⟩

end SystemsSuite.Paging
