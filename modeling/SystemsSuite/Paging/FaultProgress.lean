import SystemsSuite.Paging.Accesses
import SystemsSuite.Paging.PagerSafety

set_option autoImplicit false

namespace SystemsSuite.Paging

open Lib Prog

variable {b : Build} {lent : Nat → Prop} {m₀ m m' : Machine} {va : Nat} {acc : Access}

theorem Machine.Safe.evictPanics (safe : m.Safe b) (e : Panic) : ¬ m.EvictPanics b e := by
  rintro ⟨best, picked, panics⟩
  obtain ⟨entry, member, key, resident, _⟩ := Machine.victim_entry picked
  have place := safe.proc.entries entry member
  rw [key] at place
  rcases panics with ⟨_, high⟩ | ⟨_, odd⟩ | ⟨_, leaf, here, wrong⟩
  · omega
  · exact odd place.2
  · rw [← key] at here
    have frame := safe.proc.resident entry member resident leaf here
    rw [wrong] at frame
    contradiction

theorem Obtained.leaf {r : Option Nat} {leaf : Leaf} (obtained : Obtained b m r m') (below : va < maxva)
    (here : m'.proc.pagetable.leaf va = some leaf) : m.proc.pagetable.leaf va = some leaf := by
  have table {m₁ m₂ : Machine} {r : Option Nat} (allocated : Allocated m₁ r m₂) :
      m₂.proc.pagetable = m₁.proc.pagetable := Machine.table_of_core allocated.core .own
  cases obtained with
  | free pa _ allocated => rwa [table allocated] at here
  | evicted _ m₁ _ _ evicted allocated =>
    rw [table allocated] at here
    exact evicted.leaf below here
  | failed _ _ evicted => exact evicted.leaf below here

theorem Obtained.absent {r : Option Nat} (obtained : Obtained b m r m') (below : va < maxva)
    (absent : m.proc.pagetable.leaf va = none) : m'.proc.pagetable.leaf va = none := by
  cases here : m'.proc.pagetable.leaf va with
  | none => rfl
  | some leaf =>
    rw [obtained.leaf below here] at absent
    contradiction

theorem Obtained.swapip {r : Option Nat} (obtained : Obtained b m r m') (file : m.proc.swapip.isSome = true) :
    m'.proc.swapip.isSome = true := by
  have same {m₁ m₂ : Machine} {r : Option Nat} (allocated : Allocated m₁ r m₂) :
      m₂.proc.swapip = m₁.proc.swapip := congrArg (fun c : Core => c.proc.swapip) allocated.core
  cases obtained with
  | free pa _ allocated => rwa [same allocated]
  | evicted _ m₁ _ _ evicted allocated =>
    rw [same allocated]
    exact evicted.swapip file
  | failed _ _ evicted => exact evicted.swapip file

theorem kallocOrEvict_safe (safe : m.Safe b) :
    wp (kallocOrEvict b) (fun r m' => Obtained b m r m' ∧ ∀ pa ∈ r, b.isFrame pa = true)
      (fun _ => False) m := by
  apply wp_mono kallocOrEvict_effect
  · rintro r m' ⟨obtained, _, taken⟩
    refine ⟨obtained, fun pa here => ?_⟩
    rcases taken pa here with free | frame
    · exact safe.free pa free
    · exact frame
  · exact fun e panics => safe.evictPanics e panics

theorem kfree_total {pa : Nat} (frame : b.isFrame pa = true) :
    wp (kfree b pa) (fun _ _ => True) (fun _ => False) m := by
  unfold kfree
  rw [if_pos frame]
  trivial

theorem giveUp_total {pa : Nat} (frame : b.isFrame pa = true) :
    wp (giveUp b pa) (fun _ _ => True) (fun _ => False) m :=
  wp_seq (kfree_total frame) fun _ _ _ => trivial

theorem mapOrFree_total {pa : Nat} (perm : Flags) (frame : b.isFrame pa = true) (below : va < maxva)
    (aligned : va % 4096 = 0) (absent : m.proc.pagetable.leaf va = none) :
    wp (mapOrFree b .own va pa perm) (fun _ _ => True) (fun _ => False) m := by
  unfold mapOrFree
  rw [wp_bind]
  apply wp_mono (mappages_effect .own va pa perm)
  · rintro ok m₁ _
    cases ok with
    | true => trivial
    | false => exact wp_seq (kfree_total frame) fun _ _ _ => trivial
  · rintro e (⟨_, odd⟩ | ⟨_, high⟩ | ⟨_, mapped, _⟩)
    · exact odd aligned
    · omega
    · change (m.proc.pagetable.leaf va).isSome = true at mapped
      rw [absent] at mapped
      contradiction

theorem upgrade_total (t : Target) (leaf : Leaf) :
    wp (upgrade t va leaf acc) (fun _ _ => True) (fun _ => False) m := by
  unfold upgrade
  rw [wp_bind, wp_read]
  cases acc with
  | read => trivial
  | exec =>
    simp only
    split_ifs <;> trivial
  | write =>
    simp only
    split_ifs
    · rw [wp_bind, wp_setPte, wp_bind, wp_modifyProc]
      cases (pgmetaAlloc m.proc.pgmeta va).2 <;> trivial
    · trivial

theorem recordLoaded_total (midx : Option Nat) (perm : Flags) :
    wp (recordLoaded va midx perm) (fun _ _ => True) (fun _ => False) m := by
  unfold recordLoaded
  cases midx with
  | some i => exact recordResident_total _ perm
  | none =>
    rw [wp_bind, wp_read, wp_bind, wp_modifyProc]
    exact recordResident_total _ perm

section Unmapped

variable (safe : m.Safe b) (below : va < maxva) (aligned : va % 4096 = 0)
  (absent : m.proc.pagetable.leaf va = none)

include safe below aligned absent

theorem swapIn_total (seg : Seg) {midx : Nat} (inSwap : (metaAt m.proc.pgmeta midx).inSwap = true) :
    wp (swapIn b .own va seg midx) (fun _ _ => True) (fun _ => False) m := by
  have made : metaAt m.proc.pgmeta midx ≠ .cleared := by
    intro none
    rw [none] at inSwap
    contradiction
  have file := safe.proc.saved _ (mem_metaAt made) inSwap
  unfold swapIn
  apply wp_seq (kallocOrEvict_safe safe)
  rintro r m₁ ⟨obtained, frame⟩
  cases r with
  | none => trivial
  | some pa =>
    have file₁ := obtained.swapip file
    simp only
    rw [wp_bind, wp_read]
    cases here : m₁.proc.swapip with
    | none =>
      rw [here] at file₁
      contradiction
    | some ip =>
      simp only
      unfold readInto
      rw [wp_bind, wp_bind, wp_update, wp_pure]
      split_ifs
      · exact giveUp_total (frame pa rfl)
      · refine wp_seq (mapOrFree_total _ (frame pa rfl) below aligned (obtained.absent below absent)) ?_
        intro ok m₂ _
        cases ok <;> trivial

theorem loadPage_total (seg : Seg) (execip : Inode) (midx : Option Nat) :
    wp (loadPage b .own va seg execip midx acc) (fun _ _ => True) (fun _ => False) m := by
  unfold loadPage
  apply wp_seq (kallocOrEvict_safe safe)
  rintro r m₁ ⟨obtained, frame⟩
  cases r with
  | none => trivial
  | some pa =>
    simp only
    rw [wp_bind, wp_memset]
    have table : wp (readSegment seg execip pa (va - seg.va)) (fun _ m' => m'.core = m₁.core)
        (fun _ => False) (m₁.fill pa fun _ => 0) := by
      unfold readSegment
      split_ifs <;> exact rfl
    apply wp_seq table
    intro ok m₂ core
    have absent₂ : m₂.proc.pagetable.leaf va = none := by
      rw [show m₂.proc.pagetable = m₁.proc.pagetable from Machine.table_of_core core .own]
      exact obtained.absent below absent
    cases ok with
    | false => exact giveUp_total (frame pa rfl)
    | true =>
      simp only [if_true]
      split_ifs
      · exact giveUp_total (frame pa rfl)
      · unfold installPage
        apply wp_seq (mapOrFree_total _ (frame pa rfl) below aligned absent₂)
        intro ok m₃ _
        cases ok with
        | false => trivial
        | true => exact wp_seq (recordLoaded_total midx _) fun _ _ _ => trivial

theorem zeroPage_total : wp (zeroPage b .own va) (fun _ _ => True) (fun _ => False) m := by
  have noted : (m.setMeta (pgmetaAlloc m.proc.pgmeta va).1).Safe b :=
    Move.safe (.note m va below aligned) safe
  unfold zeroPage
  rw [wp_bind, wp_read, wp_bind, wp_modifyProc]
  apply wp_seq (kallocOrEvict_safe noted)
  rintro r m₁ ⟨obtained, frame⟩
  cases r with
  | none => trivial
  | some pa =>
    simp only
    rw [wp_bind, wp_memset]
    have absent₁ : (m₁.fill pa fun _ => 0).proc.pagetable.leaf va = none := obtained.absent below absent
    apply wp_seq (mapOrFree_total _ (frame pa rfl) below aligned absent₁)
    intro ok m₂ _
    cases ok with
    | false => trivial
    | true => exact wp_seq (recordResident_total _ _) fun _ _ _ => trivial

end Unmapped

theorem vmfault_safe (safe : m.Safe b) (va : Nat) (acc : Access) :
    wp (vmfault b .own va acc) (fun _ m' => m'.Safe b) (fun _ => False) m := by
  have total : wp (vmfault b .own va acc) (fun _ _ => True) (fun _ => False) m := by
    unfold vmfault
    split_ifs with high
    · trivial
    · have aligned : pgrounddown va % 4096 = 0 := Nat.mul_mod_left _ _
      have below : pgrounddown va < maxva := by
        unfold pgrounddown
        omega
      rw [wp_bind, wp_read, wp_bind, wp_read]
      cases mapped : (m.table .own).leaf (pgrounddown va) with
      | some leaf => exact upgrade_total .own leaf
      | none =>
        cases m.proc.segOf (pgrounddown va) with
        | some seg =>
          cases m.proc.execip with
          | none => trivial
          | some execip =>
            cases pgmetaFind m.proc.pgmeta (pgrounddown va) with
            | none => exact loadPage_total safe below aligned mapped seg execip none
            | some midx =>
              simp only
              split_ifs with inSwap
              · exact swapIn_total safe below aligned mapped seg inSwap
              · exact loadPage_total safe below aligned mapped seg execip (some midx)
        | none =>
          simp only
          split_ifs
          · exact zeroPage_total safe below aligned mapped
          · trivial
  have start : Course b (fun f => b.isFrame f = true) (Act.Serving .own) m m := safe.start
  have course := vmfault_course start (by simp) va acc
  exact wp_mono (wp_and total course) (fun _ _ both => both.2.safe safe) fun _ panics => panics.1

structure Kernel.Safe (b : Build) (k : Kernel) : Prop where
  free : ∀ f ∈ k.freelist, b.isFrame f = true
  procs : ∀ p ∈ k.procs, p.Safe b

theorem PageTable.empty_safe (pa : Nat) : (PageTable.empty pa).Safe b := by
  intro va leaf _ here
  rw [PageTable.leaf, PageTable.empty, Radix.value_empty] at here
  contradiction

theorem Kernel.Safe.machine {k : Kernel} (safe : k.Safe b) {p : Proc} (member : p ∈ k.procs)
    (writeBlocks : List Nat) : (k.machine p writeBlocks).Safe b :=
  ⟨safe.free, safe.procs p member, PageTable.empty_safe 0⟩

-- After a step of process `i`, with new processes at the end.
theorem Kernel.Safe.replace {k : Kernel} (safe : k.Safe b) (i : Nat) (more : List Proc) (ran : m.Safe b)
    (born : ∀ p ∈ more, p.Safe b) : (Kernel.after m (k.procs.set i m.proc ++ more)).Safe b := by
  refine ⟨ran.free, fun p member => ?_⟩
  rcases List.mem_append.mp member with old | new
  · rcases List.mem_or_eq_of_mem_set old with before | rfl
    · exact safe.procs p before
    · exact ran.proc
  · exact born p new

-- Whatever a process has the kernel do, the pager gets there by moves.
theorem Call.run_course (call : Call) (gives : m.Gives b lent) :
    wp (call.run b) (fun _ m' => Course b lent (fun _ => True) m m') (fun _ => True) m := by
  have any {allowed : Act → Prop} {m' : Machine} (so : Course b lent allowed m m') :
      Course b lent (fun _ => True) m m' := so.mono fun _ _ => trivial
  have aside {m₁ : Machine} (so : Course b lent (fun _ => True) m m₁) (p : Proc)
      (pager : p.pager = m₁.proc.pager) (table : p.pagetable = m₁.proc.pagetable) :
      Course b lent (fun _ => True) m { m₁ with proc := p } := by
    refine so.aside (fun _ _ => trivial) pager (fun t => ?_) (.refl m₁)
    cases t with
    | own => exact table
    | spare => rfl
  cases call with
  | uvmalloc oldsz newsz xperm =>
    exact wp_seq (uvmalloc_course (by simp) (.refl gives) _ _ _) fun _ _ done => any done.1
  | uvmdealloc oldsz newsz => exact wp_seq (uvmdealloc_course trivial (.refl gives) _ _) fun _ _ done => done
  | setSize sz => exact aside (.refl gives) _ rfl rfl
  | setBrk heapBrk => exact aside (.refl gives) _ rfl rfl
  | setSp sp => exact aside (.refl gives) _ rfl rfl
  | vmfault va acc =>
    apply wp_seq (vmfault_course (.refl gives) (by simp) va acc)
    intro r m₁ so
    cases r with
    | some pa => exact any so
    | none => exact aside (any so) _ rfl rfl
  | tryEvictOne => exact wp_seq (tryEvictOne_course (fun _ _ => trivial) (.refl gives)) fun _ _ done => done
  | kexec file argv created =>
    apply wp_seq (kexec_course file argv created (.refl gives))
    intro argc m₁ replaced
    cases argc with
    | none => exact any replaced
    | some argc =>
      obtain ⟨m₂, so, renewed⟩ := replaced
      exact (any so).move trivial (.exec m₂ m₁ renewed)

theorem Bred.safe {child : Proc} (bred : Bred b (fun f => b.isFrame f = true) m child) (safe : m.Safe b) :
    child.Safe b := by
  obtain ⟨m₁, m₂, c, parent, course, table, metas⟩ := bred.path
  have started := parent.safe safe
  have blank : (Copied.initial.machine m₁).Safe b :=
    ⟨started.free, cleared_safe rfl started.spare, PageTable.empty_safe 0⟩
  have born := course.safe blank
  refine ⟨?_, ?_, fun e member inSwap => ?_, ?_⟩
  · rw [table]
    exact born.proc.leaves
  · rw [metas]
    exact born.proc.entries
  · -- Nothing of the child is in swap: it had no swap file while its pages were copied.
    rw [metas] at member
    have file := born.proc.saved e member inSwap
    contradiction
  · rw [metas, table]
    exact born.proc.resident

theorem freeproc_safe (safe : m.Safe b) : wp (freeproc b) (fun _ m' => m'.Safe b) (fun _ => True) m := by
  have start : Course b (fun f => b.isFrame f = true) (fun _ => True) m m := safe.start
  unfold freeproc
  rw [wp_bind, wp_read]
  apply wp_seq (kfree_course (fun _ _ => trivial) start _)
  rintro _ m₁ ⟨so, _⟩
  rw [wp_bind, wp_modifyProc]
  have moved : Course b (fun f => b.isFrame f = true) (fun _ => True) m
      { m₁ with proc := { m₁.proc with trapframe := { m₁.proc.trapframe with pa := 0 } } } :=
    so.aside (fun _ _ => trivial) rfl (fun t => by cases t <;> rfl) (.refl m₁)
  apply wp_mono (procFreepagetable_course trivial (fun _ _ => trivial) moved _) _ fun _ _ => trivial
  exact fun _ m₂ freed => freed.1.safe safe

theorem Kernel.Safe.next {k k' : Kernel} {l : Label} (safe : k.Safe b) (ran : k.next b l = some k') :
    k'.Safe b := by
  cases l with
  | userinit =>
    have unused : Proc.unused.Safe b := cleared_safe rfl (PageTable.empty_safe 0)
    have started : (k.machine .unused []).Safe b := ⟨safe.free, unused, PageTable.empty_safe 0⟩
    refine Kernel.finish_holds ?_ ran
    apply wp_mono (allocproc_course started.start) _ fun _ _ => trivial
    intro r m' so
    have after := so.safe started
    refine ⟨after.free, fun p member => ?_⟩
    rcases List.mem_append.mp member with old | new
    · exact safe.procs p old
    · obtain ⟨trapframe, _, rfl⟩ := List.mem_map.mp new
      exact cleared_safe rfl after.spare
  | run i writeBlocks step =>
    simp only [Kernel.next] at ran
    cases here : k.procs[i]? with
    | none => simp [here] at ran
    | some p =>
      rw [here] at ran
      have started := safe.machine (List.mem_iff_getElem?.mpr ⟨i, here⟩) writeBlocks
      cases step with
      | call call =>
        refine Kernel.finish_holds ?_ ran
        apply wp_mono (call.run_course started.gives) _ fun _ _ => trivial
        intro _ m' so
        have replaced := safe.replace i [] (Course.safe so started) (by simp)
        rwa [List.append_nil] at replaced
      | kfork created =>
        refine Kernel.finish_holds ?_ ran
        apply wp_mono (kfork_course created started.start) _ fun _ _ => trivial
        rintro r m' ⟨so, bred⟩
        exact safe.replace i r.toList (so.safe started) fun child member =>
          (bred child (Option.mem_toList.mp member)).safe started
      | freeproc =>
        refine Kernel.finish_holds ?_ ran
        apply wp_mono (freeproc_safe started) _ fun _ _ => trivial
        exact fun _ m' after => ⟨after.free, fun q member => safe.procs q (List.mem_of_mem_eraseIdx member)⟩

theorem Kernel.reachable_safe {k : Kernel} {guard : Kernel → Label → Prop}
    (reached : (Kernel.system b).ReachableVia guard k) : k.Safe b := by
  apply reached.invariant
  · rintro k ⟨empty, _, frames, _⟩
    exact ⟨frames, by simp [empty]⟩
  · exact fun k l k' safe _ taken => safe.next taken

theorem Kernel.procs_next {P : Proc → Prop} {k k' : Kernel} {l : Label} (holds : ∀ p ∈ k.procs, P p)
    (first : ∀ (pagetable : PageTable) (trapframe : Nat),
      P { Proc.unused with pagetable := pagetable, trapframe := ⟨trapframe, 0, 0, 0⟩ })
    (calls : ∀ (i : Nat) (writeBlocks : List Nat) (call : Call) (p : Proc),
      l = .run i writeBlocks (.call call) → k.procs[i]? = some p →
        wp (call.run b) (fun _ m => P m.proc) (fun _ => True) (k.machine p writeBlocks))
    (forks : ∀ (created : Option Nat) (writeBlocks : List Nat), ∀ p ∈ k.procs,
      wp (kfork b created) (fun r m => P m.proc ∧ ∀ child ∈ r, P child) (fun _ => True) (k.machine p writeBlocks))
    (ran : k.next b l = some k') : ∀ p ∈ k'.procs, P p := by
  cases l with
  | userinit =>
    refine Kernel.finish_holds (I := fun k => ∀ p ∈ k.procs, P p) ?_ ran
    apply wp_mono wp_self _ fun _ _ => trivial
    intro r m' _ p member
    rcases List.mem_append.mp member with old | new
    · exact holds p old
    · obtain ⟨trapframe, _, rfl⟩ := List.mem_map.mp new
      exact first _ _
  | run i writeBlocks step =>
    simp only [Kernel.next] at ran
    cases here : k.procs[i]? with
    | none => simp [here] at ran
    | some p =>
      rw [here] at ran
      have replaced {m : Machine} (after : P m.proc) : ∀ q ∈ k.procs.set i m.proc, P q := by
        intro q new
        rcases List.mem_or_eq_of_mem_set new with old | rfl
        · exact holds q old
        · exact after
      cases step with
      | call call =>
        refine Kernel.finish_holds (I := fun k => ∀ p ∈ k.procs, P p) ?_ ran
        apply wp_mono (calls i writeBlocks call p rfl here) _ fun _ _ => trivial
        exact fun _ m' after => replaced after
      | kfork created =>
        refine Kernel.finish_holds (I := fun k => ∀ p ∈ k.procs, P p) ?_ ran
        apply wp_mono (forks created writeBlocks p (List.mem_iff_getElem?.mpr ⟨i, here⟩)) _ fun _ _ => trivial
        rintro r m' ⟨after, born⟩ q new
        rcases List.mem_append.mp new with old | child
        · exact replaced after q old
        · exact born q (Option.mem_toList.mp child)
      | freeproc =>
        refine Kernel.finish_holds (I := fun k => ∀ p ∈ k.procs, P p) ?_ ran
        apply wp_mono wp_self _ fun _ _ => trivial
        exact fun _ m' _ q kept => holds q (List.mem_of_mem_eraseIdx kept)

theorem Machine.Safe.handled (safe : m.Safe b) (va : Nat) (acc : Access) :
    ∃ r m', vmfault b .own va acc m = .ok (r, m') ∧ m'.Safe b :=
  wp_total (vmfault_safe safe va acc)

theorem vmfault_granted {flags : Flags} {r : Option Nat} (here : m.flagsAt va = some flags)
    (granted : acc = .write ∧ flags.w = true ∨ acc = .exec ∧ flags.x = true)
    (faulted : vmfault b .own va acc m = .ok (r, m')) : r = none := by
  have refused : wp (vmfault b .own va acc) (fun r _ => r = none) (fun _ => True) m := by
    unfold vmfault
    split_ifs with high
    · rfl
    · rw [Machine.flagsAt_leaf (by omega)] at here
      obtain ⟨leaf, mapped, rfl⟩ := Option.map_eq_some_iff.mp here
      rw [← PageTable.leaf_page _ (pgrounddown_page va)] at mapped
      have own : (m.table .own).leaf (pgrounddown va) = some leaf := mapped
      rw [wp_bind, wp_read, wp_bind, wp_read, own]
      simp only [upgrade]
      rw [wp_bind, wp_read]
      rcases granted with ⟨rfl, writable⟩ | ⟨rfl, executable⟩
      · simp [writable]
      · simp [executable]
  exact wp_ok (Q := fun r _ => r = none) refused faulted

theorem Accessed.ended {n : Nat} {r : Option Nat} (accessed : Accessed b va acc n m r m') (none_ : r = none) :
    m'.proc.killed = true := by
  induction accessed with
  | permitted => contradiction
  | killed => rfl
  | again _ _ _ _ _ _ _ _ _ ih => exact ih none_

theorem Machine.Safe.progress_mapped (safe : m.Safe b) {flags : Flags} (here : m.flagsAt va = some flags)
    (acc : Access) : ∃ n r m', n ≤ 1 ∧ Accessed b va acc n m r m' := by
  cases reached : m.translate va acc with
  | some pa => exact ⟨0, some pa, m, by omega, .permitted m pa reached⟩
  | none =>
    obtain ⟨r, m₁, faulted, safe₁⟩ := safe.handled va acc
    cases r with
    | none => exact ⟨0, none, m₁.kill, by omega, .killed m m₁ reached faulted⟩
    | some pa =>
      cases reached₁ : m₁.translate va acc with
      | some pa₁ =>
        exact ⟨1, some pa₁, m₁, le_rfl, .again 0 pa m m₁ m₁ _ reached faulted (.permitted m₁ pa₁ reached₁)⟩
      | none =>
        obtain ⟨r, m₂, faulted₂, _⟩ := safe₁.handled va acc
        have refused : r = none := by
          rcases (vmfault_served faulted).2 flags here with ⟨write, _, raised⟩ | ⟨exec, raised⟩
          · exact vmfault_granted raised (.inl ⟨write, rfl⟩) faulted₂
          · exact vmfault_granted raised (.inr ⟨exec, rfl⟩) faulted₂
        subst refused
        exact ⟨1, none, m₂.kill, le_rfl, .again 0 pa m m₁ _ _ reached faulted (.killed m₁ m₂ reached₁ faulted₂)⟩

theorem Machine.Safe.progress (safe : m.Safe b) (va : Nat) (acc : Access) :
    ∃ n r m', n ≤ 2 ∧ Accessed b va acc n m r m' := by
  cases here : m.flagsAt va with
  | some flags =>
    obtain ⟨n, r, m', few, accessed⟩ := safe.progress_mapped here acc
    exact ⟨n, r, m', by omega, accessed⟩
  | none =>
    have reached : m.translate va acc = none := by
      apply Option.not_isSome_iff_eq_none.mp
      rw [Machine.translate_isSome, here]
      simp
    obtain ⟨r, m₁, faulted, safe₁⟩ := safe.handled va acc
    cases r with
    | none => exact ⟨0, none, m₁.kill, by omega, .killed m m₁ reached faulted⟩
    | some pa =>
      obtain ⟨n, r, m', few, accessed⟩ := safe₁.progress_mapped ((vmfault_served faulted).1 here) acc
      exact ⟨n + 1, r, m', by omega, .again n pa m m₁ m' r reached faulted accessed⟩

theorem faults_make_progress {k : Kernel} (reached : (Kernel.system b).Reachable k) {i : Nat} {p : Proc}
    (running : k.procs[i]? = some p) (writeBlocks : List Nat) (va : Nat) (acc : Access) :
    ∃ n r m', n ≤ 2 ∧ Accessed b va acc n (k.machine p writeBlocks) r m' ∧
      (∀ pa, r = some pa → m'.translate va acc = some pa) ∧ (r = none → m'.proc.killed = true) ∧
      ∀ n' r' m'', Accessed b va acc n' (k.machine p writeBlocks) r' m'' → n' = n ∧ r' = r ∧ m'' = m' := by
  have safe := (Kernel.reachable_safe reached).machine (List.mem_iff_getElem?.mpr ⟨i, running⟩) writeBlocks
  obtain ⟨n, r, m', few, accessed⟩ := safe.progress va acc
  exact ⟨n, r, m', few, accessed, fun pa frame => accessed.reached frame, accessed.ended,
    fun n' r' m'' other => other.unique accessed⟩

def growingRun : List Label :=
  [.userinit, .run 0 [] (.call (.kexec (some (oneSegment 6)) [[65]] (some 9))),
    .run 0 [] (.call (.setSize 0x6000)), .run 0 [] (.call (.setBrk 0x6000))]

theorem accessed_of_shown {fuel : Nat}
    (shown : (access b va acc fuel m).toOption.any (fun r => (r.1.getD none).isSome) = true) :
    ∃ n pa m', Accessed b va acc n m (some pa) m' := by
  obtain ⟨⟨answer, m'⟩, ended, frame⟩ := (Option.any_eq_true ..).mp shown
  obtain ⟨pa, found⟩ := Option.isSome_iff_exists.mp frame
  cases attempt : access b va acc fuel m with
  | error e =>
    rw [attempt] at ended
    contradiction
  | ok outcome =>
    rw [attempt] at ended
    obtain rfl := Option.some.inj ended
    cases answer with
    | none => contradiction
    | some reached =>
      obtain rfl : reached = some pa := found
      obtain ⟨n, accessed⟩ := accessed_of_run attempt
      exact ⟨n, pa, m', accessed⟩

-- A store to a heap page that is not mapped yet succeeds after faults that are served.
theorem faults_make_progress_heap : ∃ (k : Kernel) (p : Proc) (n pa : Nat) (m' : Machine),
    (Kernel.system .small).Reachable k ∧ k.procs[0]? = some p ∧
      ((k.machine p []).translate 0x4000 .write).isNone = true ∧ n ≤ 2 ∧
      Accessed .small 0x4000 .write n (k.machine p []) (some pa) m' := by
  obtain ⟨k, ran, shown⟩ : ∃ k, System.execute (Kernel.next .small) (fun _ _ => true) (Kernel.boot 24)
      growingRun = some k ∧ (k.procs[0]?.any fun p =>
        ((k.machine p []).translate 0x4000 .write).isNone &&
          (access .small 0x4000 .write 3 (k.machine p [])).toOption.any fun r => (r.1.getD none).isSome) =
            true :=
    (Option.any_eq_true ..).mp (by decide +kernel)
  have boot : Kernel.AtBoot .small (Kernel.boot 24) :=
    ⟨rfl, by decide +kernel, by decide +kernel, rfl⟩
  have reached : (Kernel.system .small).Reachable k := System.execute_reachable boot growingRun ran
  obtain ⟨p, running, shown⟩ := (Option.any_eq_true ..).mp shown
  rw [Bool.and_eq_true] at shown
  obtain ⟨n, r, m', few, accessed, _, _, unique⟩ := faults_make_progress reached running [] 0x4000 .write
  obtain ⟨n', pa, m'', accessed'⟩ := accessed_of_shown shown.2
  obtain ⟨_, rfl, _⟩ := unique _ _ _ accessed'
  exact ⟨k, p, n, pa, m', reached, running, shown.1, few, accessed⟩

end SystemsSuite.Paging
