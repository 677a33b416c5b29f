import SystemsSuite.Paging.Kernel
import SystemsSuite.Paging.OwnedExec

set_option autoImplicit false

namespace SystemsSuite.Paging

open Lib Prog

variable {b : Build} {held : Nat → Nat} {m₀ m : Machine}

theorem usertrapFault_kept (va : Nat) (acc : Access) (framed : m.proc.pagetable.Framed)
    (kept : Kept b held m₀ m) :
    wp (usertrapFault b va acc) (fun _ m' => Kept b held m₀ m') NotKfree m := by
  apply wp_seq (vmfault_kept .own va acc framed kept)
  intro r m₁ kept₁
  cases r with
  | some pa => exact kept₁
  | none => exact modifyProc_kept _ kept₁ rfl rfl kept₁.tracked

-- The sizes a call is made with are at most TRAPFRAME.
def Call.Fits : Call → Prop
  | .uvmalloc oldsz newsz _ => oldsz ≤ trapframeVa ∧ newsz ≤ trapframeVa
  | .uvmdealloc oldsz _ => oldsz ≤ trapframeVa
  | .setSize sz => sz ≤ trapframeVa
  | _ => True

theorem Call.run_sound (call : Call) (fits : call.Fits) (sound : Sound b held m) :
    wp (call.run b) (fun _ m' => Sound b held m') NotKfree m := by
  have settle {m' : Machine} (kept : Kept b held m m') : Sound b held m' :=
    sound.of_like kept.rebase kept.like
  cases call with
  | uvmalloc oldsz newsz xperm =>
    apply wp_seq (uvmalloc_kept .own xperm (.inl fits) sound.kept)
    exact fun _ _ result => settle result.1
  | uvmdealloc oldsz newsz =>
    apply wp_seq (uvmdealloc_kept .own fits sound.kept)
    exact fun _ _ kept => settle kept
  | setSize sz =>
    exact ⟨sound.owned.mono (fun _ => le_rfl) rfl, sound.tracked, fits, sound.framed, sound.root,
      sound.trapframe⟩
  | setBrk heapBrk =>
    exact ⟨sound.owned.mono (fun _ => le_rfl) rfl, sound.tracked, sound.size, sound.framed, sound.root,
      sound.trapframe⟩
  | setSp sp =>
    exact ⟨sound.owned.mono (fun _ => le_rfl) rfl, sound.tracked, sound.size, sound.framed, sound.root,
      sound.trapframe⟩
  | vmfault va acc =>
    apply wp_mono (usertrapFault_kept va acc sound.framed sound.kept) _ fun _ panics => panics
    exact fun _ _ kept => settle kept
  | tryEvictOne =>
    apply wp_seq (tryEvictOne_kept sound.kept)
    exact fun _ _ kept => settle kept
  | kexec file argv created =>
    apply wp_seq (kexec_sound file argv created sound)
    exact fun _ _ sound => sound

theorem freeproc_owned (sound : Sound b held m) :
    wp (freeproc b) (fun _ m' => Owned b held m') NotKfree m := by
  unfold freeproc
  rw [wp_bind, wp_read, wp_bind]
  have pointed : pointer m.proc.trapframe.pa m.proc.trapframe.pa = 1 := by
    unfold pointer
    exact if_pos ⟨rfl, sound.trapframe⟩
  have elsewhere : m.freelist.count m.proc.trapframe.pa <
      m.owners m.proc.trapframe.pa + held m.proc.trapframe.pa := by
    simp only [Machine.owners, Proc.owners]
    omega
  apply wp_kfree sound.owned elsewhere
  intro notRefreed
  rw [wp_bind, wp_modifyProc]
  have released : Owned b held { m.freed m.proc.trapframe.pa with
      proc := { m.proc with trapframe := { m.proc.trapframe with pa := 0 } } } := by
    refine ⟨fun f => ?_, notRefreed⟩
    have before := sound.owned.single f
    have freed := m.owners_freed m.proc.trapframe.pa f
    have moved : (if some m.proc.trapframe.pa = some f then 1 else 0) ≤
        pointer m.proc.trapframe.pa f := by
      unfold pointer
      have positive := sound.trapframe
      split_ifs <;> simp_all
    have null : pointer 0 f = 0 := by
      unfold pointer
      exact if_neg fun same => same.2 same.1.symm
    simp only [Machine.owners, Proc.owners, Machine.freed, Machine.fill] at before freed ⊢
    omega
  apply wp_mono (procFreepagetable_owned .own _ released sound.root) _ fun _ panics => panics
  exact fun _ _ result => result.1

def Kernel.owners (k : Kernel) (f : Nat) : Nat :=
  k.freelist.count f + (k.procs.map fun p => p.owners f).sum

structure Proc.Sound (p : Proc) : Prop where
  tracked : Tracked p.pgmeta
  size : p.sz ≤ trapframeVa
  framed : p.pagetable.Framed
  root : p.pagetable.pa ≠ 0
  trapframe : p.trapframe.pa ≠ 0

structure Kernel.Sound (b : Build) (k : Kernel) : Prop where
  single : ∀ f, k.owners f ≤ if b.isFrame f then 1 else 0
  procs : ∀ p ∈ k.procs, p.Sound
  notRefreed : k.refreed = false

theorem sum_eraseIdx {procs : List Proc} {i : Nat} {p : Proc} (here : procs[i]? = some p)
    (weight : Proc → Nat) :
    (procs.map weight).sum = weight p + ((procs.eraseIdx i).map weight).sum := by
  induction procs generalizing i with
  | nil => simp at here
  | cons q rest ih =>
    cases i with
    | zero =>
      simp only [List.getElem?_cons_zero, Option.some.injEq] at here
      rw [here]
      rfl
    | succ i =>
      simp only [List.getElem?_cons_succ] at here
      simp only [List.eraseIdx_cons_succ, List.map_cons, List.sum_cons, ih here]
      omega

theorem sum_set {procs : List Proc} {i : Nat} {p : Proc} (here : procs[i]? = some p) (p' : Proc)
    (weight : Proc → Nat) :
    ((procs.set i p').map weight).sum = weight p' + ((procs.eraseIdx i).map weight).sum := by
  have inside : i < procs.length := (List.getElem?_eq_some_iff.mp here).1
  have placed : (procs.set i p')[i]? = some p' := List.getElem?_set_self inside
  rw [sum_eraseIdx placed, List.eraseIdx_set_eq]

def Kernel.others (k : Kernel) (i f : Nat) : Nat := ((k.procs.eraseIdx i).map fun p => p.owners f).sum

theorem Kernel.Sound.machine {k : Kernel} (sound : k.Sound b) {i : Nat} {p : Proc}
    (here : k.procs[i]? = some p) (writeBlocks : List Nat) :
    Paging.Sound b (k.others i) (k.machine p writeBlocks) := by
  have proc := sound.procs p (List.mem_of_getElem? here)
  refine ⟨⟨fun f => ?_, sound.notRefreed⟩, proc.tracked, proc.size, proc.framed, proc.root,
    proc.trapframe⟩
  have single := sound.single f
  have split := sum_eraseIdx here fun p => p.owners f
  have null := PageTable.null_owners f
  simp only [Kernel.owners, Machine.owners, Kernel.machine, Kernel.others] at single ⊢
  omega

theorem Sound.proc (sound : Paging.Sound b held m) : m.proc.Sound :=
  ⟨sound.tracked, sound.size, sound.framed, sound.root, sound.trapframe⟩

-- After a call of process `i`, with what it spawned or without what it freed.
theorem Kernel.Sound.replace {k : Kernel} {i : Nat} {p : Proc} (sound : k.Sound b)
    (here : k.procs[i]? = some p) (spawned : List Proc)
    (ran : Paging.Sound b (fun f => k.others i f + (spawned.map fun p => p.owners f).sum) m)
    (children : ∀ p ∈ spawned, p.Sound) :
    (Kernel.after m (k.procs.set i m.proc ++ spawned)).Sound b := by
  refine ⟨fun f => ?_, ?_, ran.owned.notRefreed⟩
  · have single := ran.owned.single f
    have split := sum_set here m.proc fun p => p.owners f
    simp only [Kernel.owners, Kernel.after, List.map_append, List.sum_append, Machine.owners,
      Kernel.others] at single ⊢
    omega
  · intro q member
    rcases List.mem_append.mp member with old | new
    · rcases List.mem_or_eq_of_mem_set old with before | rfl
      · exact sound.procs q before
      · exact ran.proc
    · exact children q new

theorem Kernel.Sound.remove {k : Kernel} {i : Nat} (sound : k.Sound b)
    (owned : Owned b (k.others i) m) : (Kernel.after m (k.procs.eraseIdx i)).Sound b := by
  refine ⟨fun f => ?_, fun q member => sound.procs q (List.mem_of_mem_eraseIdx member),
    owned.notRefreed⟩
  have single := owned.single f
  simp only [Kernel.owners, Kernel.after, Machine.owners, Kernel.others] at single ⊢
  omega

theorem Kernel.userinit_sound {k k' : Kernel} (sound : k.Sound b) (ran : k.userinit b = some k') :
    k'.Sound b := by
  refine Kernel.finish_holds ?_ ran
  have started : Kept b (fun f => (k.procs.map fun p => p.owners f).sum) (k.machine .unused [])
      (k.machine .unused []) := by
    refine ⟨⟨fun f => ?_, sound.notRefreed⟩, Tracked.cleared, rfl, rfl, fun _ framed => framed⟩
    have single := sound.single f
    have null := PageTable.null_owners f
    have noFrame : Proc.unused.owners f = 0 := by
      change (PageTable.empty 0).owners f + pointer 0 f = 0
      rw [null, pointer, if_neg fun same => same.2 same.1.symm]
    simp only [Kernel.owners, Machine.owners, Kernel.machine] at single ⊢
    omega
  apply wp_mono (allocproc_kept started) _ fun _ _ => trivial
  rintro r m' ⟨kept, _, table⟩
  cases r with
  | none =>
    refine ⟨fun f => ?_, fun q member => sound.procs q (by simpa [Kernel.after] using member),
      kept.owned.notRefreed⟩
    have single := kept.owned.single f
    simp only [Machine.owners, Kernel.owners, Kernel.after, holding, Option.toList_none, List.map_nil,
      List.append_nil] at single ⊢
    omega
  | some trapframe =>
    have notNull := ne_zero_of_isFrame (isFrame_of_held kept.owned)
    refine ⟨fun f => ?_, ?_, kept.owned.notRefreed⟩
    · have single := kept.owned.single f
      have pointed : pointer trapframe f ≤ if some trapframe = some f then 1 else 0 := by
        unfold pointer
        split_ifs <;> simp_all
      simp only [Machine.owners, Kernel.owners, Kernel.after, holding, Option.toList_some,
        List.map_append, List.sum_append, List.map_cons, List.map_nil, List.sum_cons, List.sum_nil,
        Proc.owners] at single ⊢
      omega
    · intro q member
      rcases List.mem_append.mp member with old | new
      · exact sound.procs q old
      · simp only [Option.toList_some, List.map_cons, List.map_nil, List.mem_singleton] at new
        subst new
        exact ⟨Tracked.cleared, Nat.zero_le _, (table rfl).2, (table rfl).1, notNull⟩

def Kernel.SizesFit (_ : Kernel) : Label → Prop
  | .run _ _ (.call call) => call.Fits
  | _ => True

theorem Kernel.next_sound {k k' : Kernel} {l : Label} (sound : k.Sound b) (fits : k.SizesFit l)
    (ran : k.next b l = some k') : k'.Sound b := by
  cases l with
  | userinit => exact Kernel.userinit_sound sound ran
  | run i writeBlocks step =>
    simp only [Kernel.next] at ran
    cases here : k.procs[i]? with
    | none => simp [here] at ran
    | some p =>
      rw [here] at ran
      have started := sound.machine here writeBlocks
      cases step with
      | call call =>
        refine Kernel.finish_holds ?_ ran
        apply wp_mono (call.run_sound fits started) _ fun _ _ => trivial
        intro _ m' ran
        have replaced := sound.replace here [] (m := m') (by simpa using ran) (by simp)
        simpa using replaced
      | kfork created =>
        refine Kernel.finish_holds ?_ ran
        apply wp_mono (kfork_sound created started) _ fun _ _ => trivial
        intro child m' forked
        cases child with
        | none =>
          have replaced := sound.replace here [] (m := m') (by simpa [ChildSound] using forked) (by simp)
          simpa using replaced
        | some child =>
          obtain ⟨ran, tracked, size, framed, root, trapframe⟩ := forked
          exact sound.replace here [child] (by simpa using ran) (by
            simpa using ⟨tracked, size, framed, root, trapframe⟩)
      | freeproc =>
        refine Kernel.finish_holds ?_ ran
        apply wp_mono (freeproc_owned started) _ fun _ _ => trivial
        intro _ m' owned
        exact sound.remove owned

theorem Kernel.reachable_sound {k : Kernel} (reached : (Kernel.system b).ReachableVia Kernel.SizesFit k) :
    k.Sound b := by
  apply reached.invariant
  · rintro k ⟨empty, nodup, frames, notRefreed⟩
    refine ⟨fun f => ?_, by simp [empty], notRefreed⟩
    have once := List.nodup_iff_count_le_one.mp nodup f
    simp only [Kernel.owners, empty, List.map_nil, List.sum_nil]
    by_cases member : f ∈ k.freelist
    · rw [if_pos (frames f member)]
      exact once
    · rw [List.count_eq_zero_of_not_mem member]
      exact Nat.zero_le _
  · intro k l k' sound fits taken
    exact Kernel.next_sound sound fits taken

-- The frame `f` on the free list, and what freeing table `t` still has to add.
def Machine.due (m : Machine) (t : Target) (f : Nat) : Nat :=
  m.freelist.count f + (m.table t).tables f + (m.table t).userLeaves f

theorem unmapPage_due (t : Target) (doFree : Bool) (a f : Nat)
    (frees : doFree = true ∨ special (a / 4096) = true) :
    wp (unmapPage b t doFree a) (fun _ m' => m.due t f ≤ m'.due t f) (fun _ => True) m := by
  unfold unmapPage
  rw [wp_bind, wp_walk]
  refine ⟨fun _ => trivial, fun below => ?_⟩
  cases found : (m.table t).walk a with
  | none => exact le_rfl
  | some node =>
    cases node with
    | empty => exact le_rfl
    | leaf leaf =>
      have here : (m.table t).leaf a = some leaf := PageTable.leaf_of_walk found
      have reached : ((m.table t).walk a).isSome = true := by rw [found]; rfl
      have removed := (m.table t).pageSum_store (PageTable.userWeight f) .empty
        (by unfold maxva at below; omega) reached
      have tables := (m.table t).tables_store a .empty f
      have gone : PageTable.userWeight f (a / 4096) none = 0 := by
        simp [PageTable.userWeight, leafWeight]
      change _ = _ + PageTable.userWeight f (a / 4096) none at removed
      have cleared {m₁ : Machine} (table : m₁.table t = m.table t)
          (paid : m.freelist.count f + PageTable.userWeight f (a / 4096) (some leaf) ≤
            m₁.freelist.count f) :
          m.due t f ≤ (m₁.setTable t ((m₁.table t).store a .empty)).due t f := by
        unfold Machine.due PageTable.userLeaves
        rw [Machine.table_setTable, m₁.freelist_setTable, table]
        rw [here] at removed
        omega
      cases doFree with
      | false =>
        have nothing : PageTable.userWeight f (a / 4096) (some leaf) = 0 := by
          simp [PageTable.userWeight, leafWeight, frees.resolve_left (by simp)]
        exact cleared rfl (by omega)
      | true =>
        simp only [if_true, wp_bind]
        unfold kfree
        by_cases isFrame : b.isFrame leaf.pa = true
        · rw [if_pos isFrame, wp_update]
          apply cleared (by cases t <;> rfl)
          have weight : PageTable.userWeight f (a / 4096) (some leaf) ≤ if leaf.pa = f then 1 else 0 := by
            by_cases user : leaf.flags.u = true <;> by_cases same : leaf.pa = f <;>
              simp [PageTable.userWeight, leafWeight, Option.filter_some, user, same]
            split_ifs <;> omega
          simp only [List.count_cons, beq_iff_eq]
          omega
        · rw [if_neg isFrame]
          trivial

theorem unmapLoop_due (t : Target) (n a f : Nat) :
    wp (unmapLoop b t true n a) (fun _ m' => m.due t f ≤ m'.due t f) (fun _ => True) m := by
  induction n generalizing a m with
  | zero => exact le_rfl
  | succ n ih =>
    apply wp_seq (unmapPage_due t true a f (.inl rfl))
    intro _ m₁ first
    apply wp_mono (ih (a + 4096)) _ fun _ panics => panics
    exact fun _ _ rest => first.trans rest

theorem freeList_count (frames : List Nat) (f : Nat) :
    wp (freeList b frames) (fun _ m' => m'.freelist.count f = m.freelist.count f + frames.count f)
      (fun e => e = .kfree) m := by
  induction frames generalizing m with
  | nil => rfl
  | cons pa rest ih =>
    rw [freeList, wp_bind]
    unfold kfree
    by_cases isFrame : b.isFrame pa = true
    · rw [if_pos isFrame, wp_update]
      apply wp_mono ih _ fun _ panics => panics
      intro _ m' counted
      simp only [counted, List.count_cons]
      omega
    · rw [if_neg isFrame]
      rfl

theorem Unmapped.plain {t : Target} {a n : Nat} {m m' : Machine} (unmapped : Unmapped t a n m m')
    (plain : (m.table t).Plain) : (m'.table t).Plain := by
  have absent {va : Nat} (below : va < maxva) (missing : (m.table t).leaf va = none) :
      (m'.table t).leaf va = none := by
    by_cases inside : within a n va
    · exact unmapped.gone va below inside
    · rw [unmapped.kept va below inside]
      exact missing
  exact ⟨absent (by decide) plain.1, absent (by decide) plain.2⟩

theorem uvmfree_due (t : Target) (sz f : Nat) (notNull : (m.table t).pa ≠ 0)
    (plain : (m.table t).Plain) (small : pgroundup sz ≤ maxva) :
    wp (uvmfree b t sz) (fun _ m' => m.due t f ≤ m'.freelist.count f) (fun e => e = .kfree) m := by
  have freed {m₁ : Machine} (root : (m₁.table t).pa ≠ 0) (plain₁ : (m₁.table t).Plain)
      (due : m.due t f ≤ m₁.due t f) :
      wp (freewalk b t) (fun _ m' => m.due t f ≤ m'.freelist.count f) (fun e => e = .kfree) m₁ := by
    unfold freewalk
    rw [wp_bind, wp_read, wp_bind, wp_update]
    apply wp_mono (freeList_count (m₁.table t).freewalkOrder f) _ fun _ panics => panics
    intro _ m' counted
    rw [counted, PageTable.count_freewalkOrder _ f root plain₁, m₁.freelist_setTable]
    unfold Machine.due at due ⊢
    omega
  unfold uvmfree
  split_ifs
  · have aligned := pgroundup_aligned sz
    have range : (u64 (0 + u64 (pgroundup sz / 4096 * 4096)) - 0) / 4096 * 4096 = pgroundup sz := by
      unfold u64 maxva at *
      omega
    unfold uvmunmap
    rw [if_neg (by decide), wp_bind]
    have loop := wp_and (unmapLoop_effect (b := b) (m := m) t true
      ((u64 (0 + u64 (pgroundup sz / 4096 * 4096)) - 0) / 4096) 0 rfl) (unmapLoop_due t _ 0 f)
    apply wp_mono loop
    · rintro _ m₁ ⟨unmapped, due⟩
      refine freed ?_ (unmapped.plain plain) due
      rwa [Machine.root_of_rest unmapped.rest t]
    · rintro e ⟨⟨rfl, high⟩ | ⟨rfl, _⟩, _⟩
      · omega
      · rfl
  · exact freed notNull plain le_rfl

theorem unmapSpecial_due (t : Target) {va : Nat} (f : Nat) (aligned : va % 4096 = 0)
    (below : va < maxva) (isSpecial : special (va / 4096) = true) :
    wp (uvmunmap b t va 1 false) (fun _ m' => m.due t f ≤ m'.due t f ∧ Unmapped t va 1 m m')
      (fun e => e = .kfree) m := by
  have once : (u64 (va + u64 (1 * 4096)) - va) / 4096 = 1 := by
    unfold u64 maxva at *
    omega
  unfold uvmunmap
  rw [if_neg (by omega), once, unmapLoop, unmapLoop, wp_bind]
  apply wp_mono (wp_and (unmapPage_due t false va f (.inr isSpecial)) (unmapPage_effect t false va))
  · rintro _ m₁ ⟨due, _, unmapped⟩
    exact ⟨due, unmapped⟩
  · rintro e ⟨_, ⟨_, high⟩ | ⟨_, freeing⟩⟩
    · omega
    · contradiction

theorem procFreepagetable_due (t : Target) (sz f : Nat) (notNull : (m.table t).pa ≠ 0)
    (small : pgroundup sz ≤ maxva) :
    wp (procFreepagetable b t sz) (fun _ m' => m.due t f ≤ m'.freelist.count f) (fun e => e = .kfree) m := by
  unfold procFreepagetable
  apply wp_seq (unmapSpecial_due t f (by decide) (by decide) (by decide))
  rintro _ m₁ ⟨due₁, unmapped₁⟩
  apply wp_seq (unmapSpecial_due t f (by decide) (by decide) (by decide))
  rintro _ m₂ ⟨due₂, unmapped₂⟩
  have plain : (m₂.table t).Plain := by
    constructor
    · rw [unmapped₂.kept _ (by decide) (by unfold within; decide)]
      exact unmapped₁.gone _ (by decide) (by unfold within; decide)
    · exact unmapped₂.gone _ (by decide) (by unfold within; decide)
  have root : (m₂.table t).pa ≠ 0 := by
    rwa [Machine.root_of_rest (unmapped₂.rest.trans unmapped₁.rest) t]
  apply wp_mono (uvmfree_due t sz f root plain small) _ fun _ panics => panics
  exact fun _ _ counted => (due₁.trans due₂).trans counted

-- How many PTEs below TRAPFRAME point to the frame `f`.
def PageTable.leavesBelow (pt : PageTable) (f : Nat) : Nat :=
  ∑ vpn ∈ Finset.range (trapframeVa / 4096),
    if (Radix.value 2 pt.entries vpn).map Leaf.pa = some f then 1 else 0

theorem PageTable.leavesBelow_le (pt : PageTable) (f : Nat) : pt.leavesBelow f ≤ pt.owners f := by
  have subset : Finset.range (trapframeVa / 4096) ⊆ Finset.range pageCount := by
    apply Finset.range_subset_range.mpr
    decide
  have same : pt.leavesBelow f =
      ∑ vpn ∈ Finset.range (trapframeVa / 4096), leafWeight f vpn (Radix.value 2 pt.entries vpn) := by
    apply Finset.sum_congr rfl
    intro vpn member
    have low := Finset.mem_range.mp member
    have ordinary : special vpn = false := by
      unfold special trampolineVa
      rw [decide_eq_false_iff_not]
      unfold trapframeVa trampolineVa maxva at *
      omega
    unfold leafWeight
    rw [ordinary]
    simp
  rw [same]
  unfold owners leaves pageSum
  exact (Finset.sum_le_sum_of_subset subset).trans (Nat.le_add_left _ _)

def Kernel.leavesBelow (k : Kernel) (f : Nat) : Nat :=
  (k.procs.map fun p => p.pagetable.leavesBelow f).sum

theorem Kernel.leavesBelow_le (k : Kernel) (f : Nat) :
    k.freelist.count f + k.leavesBelow f ≤ k.owners f := by
  apply Nat.add_le_add_left
  apply List.sum_le_sum
  intro p _
  exact (p.pagetable.leavesBelow_le f).trans (Nat.le_add_right _ _)

theorem Kernel.Sound.table_returned {k : Kernel} (sound : k.Sound b) {p : Proc} (member : p ∈ k.procs)
    {sz : Nat} (small : sz ≤ trapframeVa) :
    ∃ m', procFreepagetable b .own sz (k.machine p []) = .ok ((), m') ∧
      ∀ f, 0 < p.pagetable.tables f + p.pagetable.userLeaves f →
        f ∉ k.freelist ∧ m'.freelist.count f = 1 := by
  obtain ⟨i, here⟩ := List.mem_iff_getElem?.mp member
  have started := sound.machine here []
  have fits : pgroundup sz ≤ maxva := (pgroundup_le_trapframe small).trans (by decide)
  have ended : wp (procFreepagetable b .own sz) (fun _ m' => Owned b (k.others i) m')
      (fun _ => False) (k.machine p []) := by
    apply wp_mono (wp_and (procFreepagetable_owned .own sz started.owned started.root)
      (procFreepagetable_due .own sz 0 started.root fits))
    · exact fun _ _ result => result.1.1
    · exact fun e panics => panics.1 panics.2
  obtain ⟨_, m', ran, owned⟩ := wp_total ended
  refine ⟨m', ran, fun f used => ?_⟩
  have returned := wp_ok (procFreepagetable_due .own sz f started.root fits) ran
  have before := started.owned.single f
  have after := owned.single f
  have atMost : (if b.isFrame f = true then 1 else 0) ≤ 1 := by split_ifs <;> omega
  have user := p.pagetable.userLeaves_le f
  simp only [Machine.due, Machine.table, Kernel.machine] at returned
  simp only [Machine.owners, Kernel.machine, Proc.owners, PageTable.owners] at before after
  constructor
  · intro free
    have positive := List.count_pos_iff.mpr free
    omega
  · omega

theorem frames_owned_once (b : Build) (k : Kernel)
    (reached : (Kernel.system b).ReachableVia Kernel.SizesFit k) :
    (∀ f, k.leavesBelow f ≤ 1) ∧ (∀ f ∈ k.freelist, k.leavesBelow f = 0) ∧ k.refreed = false ∧
      ∀ p ∈ k.procs, ∀ sz ≤ trapframeVa, ∃ m',
        procFreepagetable b .own sz (k.machine p []) = .ok ((), m') ∧
          ∀ f, 0 < p.pagetable.tables f + p.pagetable.userLeaves f →
            f ∉ k.freelist ∧ m'.freelist.count f = 1 := by
  have sound := Kernel.reachable_sound reached
  have single (f : Nat) : k.freelist.count f + k.leavesBelow f ≤ 1 := by
    have capped := (k.leavesBelow_le f).trans (sound.single f)
    split_ifs at capped <;> omega
  refine ⟨fun f => ?_, fun f free => ?_, sound.notRefreed, fun p member sz small =>
    sound.table_returned member small⟩
  · have once := single f
    omega
  · have once := single f
    have positive := List.count_pos_iff.mpr free
    omega

def Call.fitsCheck : Call → Bool
  | .uvmalloc oldsz newsz _ => decide (oldsz ≤ trapframeVa ∧ newsz ≤ trapframeVa)
  | .uvmdealloc oldsz _ => decide (oldsz ≤ trapframeVa)
  | .setSize sz => decide (sz ≤ trapframeVa)
  | _ => true

theorem Call.fitsCheck_sound {call : Call} (checked : call.fitsCheck = true) : call.Fits := by
  cases call with
  | uvmalloc => simpa [Call.fitsCheck, Call.Fits] using checked
  | uvmdealloc => simpa [Call.fitsCheck, Call.Fits] using checked
  | setSize => simpa [Call.fitsCheck, Call.Fits] using checked
  | _ => trivial

def Kernel.sizesCheck (_ : Kernel) : Label → Bool
  | .run _ _ (.call call) => call.fitsCheck
  | _ => true

theorem Kernel.sizesCheck_sound (k : Kernel) (l : Label) (checked : k.sizesCheck l = true) :
    k.SizesFit l := by
  cases l with
  | userinit => trivial
  | run i writeBlocks step =>
    cases step with
    | call call => exact Call.fitsCheck_sound checked
    | _ => trivial

-- A process runs a program, touches its data page and forks.
def forkingRun : List Label :=
  let program := elfFile 7 [⟨elfProgLoad, 6, 0, 0x1000, 64, 64⟩] []
  [.userinit, .run 0 [] (.call (.kexec (some program) [[65]] (some 9))),
    .run 0 [] (.call (.vmfault 0x1000 .write)), .run 0 [] (.kfork (some 10))]

theorem frames_owned_once_forking : ∃ k : Kernel,
    (Kernel.system .small).ReachableVia Kernel.SizesFit k ∧ k.procs.length = 2 ∧
      (∀ f, k.leavesBelow f ≤ 1) ∧ k.refreed = false := by
  obtain ⟨k, ran, two⟩ : ∃ k, System.execute (Kernel.next .small) Kernel.sizesCheck (Kernel.boot 24)
      forkingRun = some k ∧ decide (k.procs.length = 2) = true :=
    (Option.any_eq_true ..).mp (by decide +kernel)
  have boot : Kernel.AtBoot .small (Kernel.boot 24) :=
    ⟨rfl, by decide +kernel, by decide +kernel, rfl⟩
  have reached : (Kernel.system .small).ReachableVia Kernel.SizesFit k :=
    System.execute_reachableVia Kernel.sizesCheck_sound (.initial boot) ran
  have owned := frames_owned_once .small k reached
  exact ⟨k, reached, of_decide_eq_true two, owned.1, owned.2.2.1⟩

end SystemsSuite.Paging
