import SystemsSuite.Paging.Eviction

set_option autoImplicit false

namespace SystemsSuite.Paging

open Lib Prog

-- The part of the process that neither the evictor nor the fault handler changes.
def Machine.image (m : Machine) : Proc :=
  { m.proc with
    killed := false
    pagetable := .empty m.proc.pagetable.pa
    pageSeqCtr := 0
    swapip := none
    swapPages := 0
    swapBitmap := []
    pgmeta := []
    clockHand := 0 }

structure Kept (b : Build) (held : Nat → Nat) (m₀ m : Machine) : Prop where
  owned : Owned b held m
  tracked : Tracked m.proc.pgmeta
  image : m.image = m₀.image
  spareRoot : m.spare.pa = m₀.spare.pa
  framed : ∀ t, (m₀.table t).Framed → (m.table t).Framed

variable {b : Build} {held : Nat → Nat} {m₀ m : Machine}

theorem Kept.rebase (kept : Kept b held m₀ m) : Kept b held m m where
  owned := kept.owned
  tracked := kept.tracked
  image := rfl
  spareRoot := rfl
  framed _ framed := framed

theorem Kept.of_rest (kept : Kept b held m₀ m) {held' : Nat → Nat} {m' : Machine}
    (owned : Owned b held' m') (rest : m'.rest = m.rest)
    (framed : ∀ t, (m.table t).Framed → (m'.table t).Framed) : Kept b held' m₀ m' where
  owned := owned
  tracked := by
    have same : m'.proc.pgmeta = m.proc.pgmeta := congrArg (fun c : Core => c.proc.pgmeta) rest
    rw [same]
    exact kept.tracked
  image := by
    have same : m'.image = m.image := congrArg (fun c : Core => Machine.image
      ⟨[], fun _ _ => 0, c.proc, c.spare, [], false⟩) rest
    exact same.trans kept.image
  spareRoot := (congrArg (fun c : Core => c.spare.pa) rest).trans kept.spareRoot
  framed t before := framed t (kept.framed t before)

theorem Kept.of_core (kept : Kept b held m₀ m) {held' : Nat → Nat} {m' : Machine}
    (owned : Owned b held' m') (core : m'.core = m.core) : Kept b held' m₀ m' := by
  apply kept.of_rest owned (congrArg Core.rest core)
  intro t framed
  rw [Machine.table_of_core core]
  exact framed

theorem kalloc_kept (kept : Kept b held m₀ m) :
    wp kalloc (fun r m' => Kept b (holding r held) m₀ m') NotKfree m :=
  wp_mono (kalloc_owned kept.owned) (fun _ _ result => kept.of_core result.1 result.2)
    fun _ panics => panics

theorem kfree_kept {pa : Nat} (kept : Kept b (holding (some pa) held) m₀ m) :
    wp (kfree b pa) (fun _ m' => Kept b held m₀ m' ∧ m'.core = m.core) NotKfree m :=
  wp_mono (kfree_owned pa kept.owned) (fun _ _ result => ⟨kept.of_core result.1 result.2, result.2⟩)
    fun _ panics => panics

theorem mapped_isSome (ok : Bool) {leaves : Nat → Option Leaf} {va : Nat} {leaf : Leaf} (va' : Nat)
    (mapped : (leaves va').isSome = true) :
    ((if ok then setLeaf leaves va (some leaf) else leaves) va').isSome = true := by
  cases ok with
  | true => exact setLeaf_isSome mapped
  | false => exact mapped

theorem mappages_kept (t : Target) {va pa : Nat} {perm : Flags}
    (kept : Kept b (holding (some pa) held) m₀ m) :
    wp (mappages t va pa perm) (fun ok m' =>
      Kept b (if ok then held else holding (some pa) held) m₀ m') NotKfree m := by
  apply wp_mono (wp_and (mappages_owned t va pa perm kept.owned) (mappages_effect t va pa perm))
  · rintro ok m' ⟨⟨owned, rest⟩, _, _, step⟩
    exact kept.of_rest owned rest (step.framed (mapped_isSome ok))
  · exact fun _ panics => panics.1

theorem fill_kept {pa : Nat} (page : Machine → Page) (kept : Kept b held m₀ m) :
    wp (update fun m => m.fill pa (page m)) (fun _ m' => Kept b held m₀ m') NotKfree m :=
  kept.of_core (kept.owned.mono (fun _ => le_rfl) rfl) rfl

theorem modifyProc_kept (f : Proc → Proc) (kept : Kept b held m₀ m)
    (table : (f m.proc).pagetable = m.proc.pagetable)
    (image : Machine.image { m with proc := f m.proc } = m.image)
    (tracked : Tracked (f m.proc).pgmeta) :
    wp (modifyProc f) (fun _ m' => Kept b held m₀ m') NotKfree m := by
  have sameFrame := congrArg Proc.trapframe image
  have trapframe : (f m.proc).trapframe = m.proc.trapframe := sameFrame
  refine ⟨kept.owned.mono ?_ rfl, tracked, image.trans kept.image, kept.spareRoot, ?_⟩
  · intro f
    simp only [Machine.owners, Proc.owners, table, trapframe]
    exact le_rfl
  · intro t framed
    have before := kept.framed t framed
    cases t with
    | spare => exact before
    | own =>
      change (f m.proc).pagetable.Framed
      rw [table]
      exact before

theorem modifyMeta_kept (i : Nat) (f : PageMeta → PageMeta) (kept : Kept b held m₀ m)
    (keeps : ∀ e, m.proc.pgmeta[i]? = some e → e.Placed → (f e).Placed) :
    wp (modifyMeta i f) (fun _ m' => Kept b held m₀ m') NotKfree m :=
  modifyProc_kept _ kept rfl rfl (kept.tracked.modify i f keeps)

theorem writeSwap_kept (ip : Inode) (src : Page) (off : Nat) (kept : Kept b held m₀ m) :
    wp (writeSwap ip src off) (fun _ m' => Kept b held m₀ m') NotKfree m :=
  ⟨kept.owned.mono (fun _ => le_rfl) rfl, kept.tracked, kept.image, kept.spareRoot, kept.framed⟩

theorem swapOut_kept (best pa : Nat) (kept : Kept b held m₀ m) :
    wp (swapOut best pa) (fun _ m' => Kept b held m₀ m') NotKfree m := by
  have killed : wp (do setkilled; pure false) (fun _ m' => Kept b held m₀ m') NotKfree m :=
    wp_seq (modifyProc_kept _ kept rfl rfl kept.tracked) fun _ _ kept => kept
  unfold swapOut
  rw [wp_bind, wp_read]
  cases m.proc.swapip with
  | none => exact killed
  | some ip =>
    cases swapAllocSlot m.proc.swapBitmap with
    | none => exact killed
    | some found =>
      apply wp_seq (modifyProc_kept _ kept rfl rfl kept.tracked)
      intro _ m₁ kept₁
      apply wp_seq (writeSwap_kept ip _ _ kept₁)
      intro r m₂ kept₂
      by_cases written : r = some 4096
      · rw [if_pos written]
        apply wp_seq (modifyProc_kept _ kept₂ rfl rfl kept₂.tracked)
        intro _ m₃ kept₃
        exact wp_seq (modifyMeta_kept best _ kept₃ fun _ _ placed => placed) fun _ _ kept => kept
      · rw [if_neg written]
        apply wp_seq (modifyProc_kept _ kept₂ rfl rfl kept₂.tracked)
        exact fun _ _ kept => kept

theorem dropPage_kept (best : Nat) {vaPg : Nat} (below : vaPg < trapframeVa)
    (aligned : vaPg % 4096 = 0) (kept : Kept b held m₀ m) :
    wp (dropPage b best vaPg) (fun _ m' => Kept b held m₀ m') NotKfree m := by
  have user : (m.table .own).Plain ∨
      vaPg ≤ trapframeVa ∧ u64 (vaPg + u64 (1 * 4096)) ≤ trapframeVa := by
    right
    unfold trapframeVa trampolineVa maxva u64 at *
    omega
  have small : vaPg + 1 * 4096 ≤ trapframeVa := by
    unfold trapframeVa trampolineVa maxva at *
    omega
  unfold dropPage
  apply wp_seq_and (uvmunmap_owned .own vaPg 1 kept.owned user)
    (uvmunmap_effect .own true aligned (small.trans (by decide)))
  intro _ m₁ owned unmapped
  have kept₁ : Kept b held m₀ m₁ :=
    kept.of_rest owned.1 owned.2.1 (unmapped.framed aligned small)
  refine wp_seq (modifyMeta_kept best _ kept₁ fun _ _ placed => ⟨placed.1, placed.2.1, nofun⟩) ?_
  intro _ m₂ kept₂
  exact modifyProc_kept _ kept₂ rfl rfl kept₂.tracked

theorem tryEvictOne_kept (kept : Kept b held m₀ m) :
    wp (tryEvictOne b) (fun _ m' => Kept b held m₀ m') NotKfree m := by
  unfold tryEvictOne
  rw [wp_bind, wp_read]
  have tracked := kept.tracked.selectVictim b.policy m.proc.pageSeqCtr m.proc.clockHand
  refine wp_seq (modifyProc_kept _ kept rfl rfl tracked) ?_
  intro _ m₁ kept₁
  cases picked : (selectVictim b.policy m.proc.pgmeta m.proc.pageSeqCtr m.proc.clockHand).1 with
  | none => exact kept₁
  | some best =>
    have place := tracked.metaAt best
    have low := place.2.2 (selectVictim_evictable picked).1
    have stale : wp (do
        modifyProc fun p => { p with pgmeta := pgmetaClear p.pgmeta best }
        pure false) (fun _ m' => Kept b held m₀ m') NotKfree m₁ :=
      wp_seq (modifyProc_kept _ kept₁ rfl rfl (kept₁.tracked.clear best)) fun _ _ kept => kept
    simp only
    rw [wp_bind, wp_walk]
    refine ⟨fun _ => (nofun : Panic.walk ≠ .kfree), fun _ => ?_⟩
    cases (m₁.table .own).walk _ with
    | none => exact stale
    | some node =>
      cases node with
      | empty => exact stale
      | leaf leaf =>
        have evicted {m₂ : Machine} (kept₂ : Kept b held m₀ m₂) (saved : Bool) :
            wp (if saved then (do
                dropPage b best (metaAt (selectVictim b.policy m.proc.pgmeta m.proc.pageSeqCtr
                  m.proc.clockHand).2 best).va
                pure true)
              else pure false) (fun _ m' => Kept b held m₀ m') NotKfree m₂ := by
          cases saved with
          | true => exact wp_seq (dropPage_kept best low place.2.1 kept₂) fun _ _ kept => kept
          | false => exact kept₂
        simp only
        split_ifs
        · exact wp_seq (swapOut_kept best leaf.pa kept₁) fun saved _ kept₂ => evicted kept₂ saved
        · exact evicted kept₁ true

theorem kallocOrEvict_kept (kept : Kept b held m₀ m) :
    wp (kallocOrEvict b) (fun r m' => Kept b (holding r held) m₀ m') NotKfree m := by
  have none_held (m' : Machine) (kept' : Kept b held m₀ m') : Kept b (holding none held) m₀ m' :=
    kept'.of_core (kept'.owned.mono (fun _ => le_rfl) rfl) rfl
  unfold kallocOrEvict
  apply wp_seq (kalloc_kept kept)
  intro r m₁ kept₁
  cases r with
  | some pa => exact kept₁
  | none =>
    have unheld : Kept b held m₀ m₁ := kept₁.of_core (kept₁.owned.mono (fun _ => le_rfl) rfl) rfl
    apply wp_seq (tryEvictOne_kept unheld)
    intro evicted m₂ kept₂
    cases evicted with
    | true => exact kalloc_kept kept₂
    | false => exact none_held m₂ kept₂

theorem kallocOrEvict_framed (t : Target) (kept : Kept b held m₀ m) :
    wp (kallocOrEvict b) (fun _ m' => (m.table t).Framed → (m'.table t).Framed) NotKfree m :=
  wp_mono (kallocOrEvict_kept kept.rebase) (fun _ _ kept => kept.framed t) fun _ panics => panics

theorem key_lt {metas : List PageMeta} {i va top : Nat} {e : PageMeta} (key : (keys metas)[i]? = some va)
    (found : metas[i]? = some e) (low : va < top) : e.va < top := by
  unfold keys at key
  rw [List.getElem?_map, found] at key
  rwa [Option.some.inj key]

theorem recordAlloc_kept {a : Nat} (perm : Flags) (below : a < trapframeVa) (aligned : a % 4096 = 0)
    (kept : Kept b held m₀ m) :
    wp (recordAlloc a perm) (fun _ m' => Kept b held m₀ m') NotKfree m := by
  unfold recordAlloc
  rw [wp_bind, wp_read]
  have made := kept.tracked.alloc (below.trans (by decide)) aligned
  rw [wp_bind, wp_modifyProc]
  have kept₁ : Kept b held m₀ (m.setMeta (pgmetaAlloc m.proc.pgmeta a).1) :=
    modifyProc_kept (fun p => { p with pgmeta := (pgmetaAlloc m.proc.pgmeta a).1 }) kept rfl rfl made
  cases here : (pgmetaAlloc m.proc.pgmeta a).2 with
  | none => exact kept₁
  | some i =>
    refine modifyProc_kept _ kept₁ rfl rfl (made.modify i (fun e => { e with
      resident := true, perm := perm, dirty := false, seq := m.proc.pageSeqCtr }) ?_)
    intro e found placed
    have user : e.va < trapframeVa := key_lt (keys_alloc here) found below
    exact ⟨placed.1, placed.2.1, fun _ => user⟩

theorem recordAlloc_table (a : Nat) (perm : Flags) (t : Target) :
    wp (recordAlloc a perm) (fun _ m' => m'.table t = m.table t) (fun _ => True) m := by
  unfold recordAlloc
  rw [wp_bind, wp_read, wp_bind]
  cases (pgmetaAlloc m.proc.pgmeta a).2 <;> cases t <;> rfl

theorem pgroundup_aligned (sz : Nat) : pgroundup sz % 4096 = 0 := by
  unfold pgroundup
  omega

theorem uvmdealloc_kept (t : Target) {oldsz newsz : Nat} (small : oldsz ≤ trapframeVa)
    (kept : Kept b held m₀ m) :
    wp (uvmdealloc b t oldsz newsz) (fun _ m' => Kept b held m₀ m') NotKfree m := by
  apply wp_mono (wp_and (uvmdealloc_owned t oldsz newsz kept.owned small)
    (uvmdealloc_effect t oldsz newsz small))
  · rintro _ m' ⟨⟨owned, rest⟩, effect⟩
    apply kept.of_rest owned rest
    rcases effect with rfl | ⟨n, unmapped, range⟩
    · exact fun _ framed => framed
    · exact unmapped.framed (pgroundup_aligned newsz) (range.trans (pgroundup_le_trapframe small))
  · exact fun _ panics => panics.1

-- The pages to be mapped end below the trapframe, or the pages mapped there stop the loop.
def Stops (t : Target) (a n : Nat) (m : Machine) : Prop :=
  a + n * 4096 ≤ trapframeVa ∨ (m.table t).Framed

theorem allocLoop_kept (t : Target) (start newsz : Nat) (perm : Flags) (n a : Nat)
    (aligned : a % 4096 = 0) (small : a ≤ start ∨ a ≤ trapframeVa) (stops : Stops t a n m)
    (kept : Kept b held m₀ m) :
    wp (allocLoop b t start newsz perm n a) (fun r m' => Kept b held m₀ m' ∧
      (r = 0 ∨ r = newsz ∧ (n = 0 ∨ a + n * 4096 ≤ trapframeVa))) NotKfree m := by
  induction n generalizing a m with
  | zero => exact ⟨kept, .inr ⟨rfl, .inl rfl⟩⟩
  | succ n ih =>
    have undone {m' : Machine} (kept' : Kept b held m₀ m') :
        wp (uvmdealloc b t a start) (fun _ m' => Kept b held m₀ m') NotKfree m' := by
      rcases small with early | low
      · unfold uvmdealloc
        rw [if_pos early]
        exact kept'
      · exact uvmdealloc_kept t low kept'
    have undo {m' : Machine} (kept' : Kept b held m₀ m') :
        wp (do let _ ← uvmdealloc b t a start; pure 0) (fun r m' => Kept b held m₀ m' ∧
          (r = 0 ∨ r = newsz ∧ (n + 1 = 0 ∨ a + (n + 1) * 4096 ≤ trapframeVa))) NotKfree m' :=
      wp_seq (undone kept') fun _ _ kept => ⟨kept, .inl rfl⟩
    rw [allocLoop]
    apply wp_seq_and (kallocOrEvict_kept kept) (kallocOrEvict_framed t kept)
    intro r m₁ kept₁ framed₁
    cases r with
    | none => exact undo (kept₁.of_core (kept₁.owned.mono (fun _ => le_rfl) rfl) rfl)
    | some pa =>
      have kept₂ : Kept b (holding (some pa) held) m₀ (m₁.fill pa fun _ => 0) :=
        fill_kept (fun _ _ => 0) kept₁
      rw [wp_bind, wp_memset]
      apply wp_seq_and (mappages_kept t kept₂) (mappages_effect t a pa perm)
      rintro ok m₃ kept₃ ⟨absent, below, step⟩
      cases ok with
      | false =>
        refine wp_seq (kfree_kept kept₃) ?_
        intro _ m₄ kept₄
        exact undo kept₄.1
      | true =>
        have frame : trapframeVa % 4096 = 0 := by decide
        have next : a + 4096 ≤ trapframeVa ∧ Stops t (a + 4096) n m₃ := by
          rcases stops with low | framed
          · exact ⟨by omega, .inl (by omega)⟩
          · have filled : ((m₁.fill pa fun _ => 0).table t).Framed := by
              rw [Machine.table_fill]
              exact framed₁ framed
            have low := filled.below below (absent rfl)
            exact ⟨by omega, .inr (step.framed (fun _ mapped => setLeaf_isSome mapped) t filled)⟩
        apply wp_seq_and (recordAlloc_kept perm (by omega) aligned kept₃) (recordAlloc_table a perm t)
        intro _ m₄ kept₄ table₄
        have later : Stops t (a + 4096) n m₄ := by
          unfold Stops
          rw [table₄]
          exact next.2
        apply wp_mono (ih (a + 4096) (by omega) (.inr next.1) later kept₄) _ fun _ panics => panics
        intro r m₅ result
        refine ⟨result.1, result.2.imp_right fun grown => ⟨grown.1, .inr ?_⟩⟩
        rcases grown.2 with rfl | low <;> omega

theorem uvmalloc_kept (t : Target) {oldsz newsz : Nat} (xperm : Flags)
    (stops : oldsz ≤ trapframeVa ∧ newsz ≤ trapframeVa ∨ (m.table t).Framed) (kept : Kept b held m₀ m) :
    wp (uvmalloc b t oldsz newsz xperm) (fun r m' => Kept b held m₀ m' ∧
      (r ≤ trapframeVa ∨ newsz < oldsz ∧ r = oldsz ∨ newsz ≤ pgroundup oldsz ∧ r = newsz)) NotKfree m := by
  have aligned := pgroundup_aligned oldsz
  have frame : trapframeVa % 4096 = 0 := by decide
  unfold uvmalloc
  split_ifs with smaller
  · exact ⟨kept, .inr (.inl ⟨smaller, rfl⟩)⟩
  · have loopStops : Stops t (pgroundup oldsz) ((newsz - pgroundup oldsz + 4095) / 4096) m := by
      refine stops.imp_left fun low => ?_
      have fits := pgroundup_le_trapframe low.1
      omega
    apply wp_mono (allocLoop_kept t _ _ _ _ _ aligned (.inl le_rfl) loopStops kept) _
      fun _ panics => panics
    intro r m' result
    refine ⟨result.1, ?_⟩
    rcases result.2 with rfl | ⟨rfl, none | low⟩ <;> omega

theorem setFlags_kept (t : Target) {vaPg : Nat} {leaf : Leaf} (flags : Flags) (below : vaPg < maxva)
    (here : (m.table t).leaf vaPg = some leaf) (kept : Kept b held m₀ m) :
    wp (setPte t vaPg (.leaf { leaf with flags := flags })) (fun _ m' => Kept b held m₀ m') NotKfree m := by
  have reached : ((m.table t).walk vaPg).isSome = true := by
    rw [PageTable.walk, Radix.find_of_value here]
    rfl
  have owned := setPte_owned t (.leaf { leaf with flags := flags }) held below reached kept.owned (by
    intro f
    rw [here]
    exact le_rfl)
  refine kept.of_rest owned.1 owned.2 (setPte_framed t below reached ?_)
  rfl

theorem recordMeta_kept {vaPg : Nat} (below : vaPg < maxva) (aligned : vaPg % 4096 = 0)
    (kept : Kept b held m₀ m) (metas : List PageMeta) (tracked : Tracked metas) :
    wp (modifyProc fun p => { p with pgmeta := (pgmetaAlloc metas vaPg).1 })
      (fun _ m' => Kept b held m₀ m') NotKfree m :=
  modifyProc_kept _ kept rfl rfl (tracked.alloc below aligned)

theorem upgrade_kept (t : Target) {vaPg : Nat} {leaf : Leaf} (acc : Access) (below : vaPg < maxva)
    (aligned : vaPg % 4096 = 0) (here : (m.table t).leaf vaPg = some leaf) (kept : Kept b held m₀ m) :
    wp (upgrade t vaPg leaf acc) (fun _ m' => Kept b held m₀ m') NotKfree m := by
  unfold upgrade
  rw [wp_bind, wp_read]
  cases acc with
  | read => exact kept
  | exec =>
    simp only
    split_ifs
    · exact wp_seq (setFlags_kept t _ below here kept) fun _ _ kept => kept
    · exact kept
  | write =>
    simp only
    split_ifs with allowed
    · refine wp_seq (setFlags_kept t _ below here kept) ?_
      intro _ m₁ kept₁
      refine wp_seq (recordMeta_kept below aligned kept₁ _ kept.tracked) ?_
      intro _ m₂ kept₂
      cases (pgmetaAlloc m.proc.pgmeta vaPg).2 with
      | none => exact kept₂
      | some i =>
        exact wp_seq (modifyMeta_kept i _ kept₂ fun _ _ placed => placed) fun _ _ kept => kept
    · exact kept

theorem readInto_kept (ip : Inode) (pa off n : Nat) (kept : Kept b held m₀ m) :
    wp (readInto ip pa off n) (fun _ m' => Kept b held m₀ m' ∧ m'.core = m.core) NotKfree m := by
  unfold readInto
  rw [wp_bind, wp_update]
  exact ⟨kept.of_core (kept.owned.mono (fun _ => le_rfl) rfl) rfl, rfl⟩

theorem mapOrFree_kept (t : Target) {vaPg pa : Nat} (perm : Flags)
    (kept : Kept b (holding (some pa) held) m₀ m) :
    wp (mapOrFree b t vaPg pa perm) (fun _ m' => Kept b held m₀ m' ∧ m'.rest = m.rest) NotKfree m := by
  unfold mapOrFree
  apply wp_seq_and (mappages_kept t kept) (mappages_effect t vaPg pa perm)
  rintro ok m₁ kept₁ ⟨_, _, step⟩
  cases ok with
  | true => exact ⟨kept₁, step.rest⟩
  | false =>
    apply wp_seq (kfree_kept kept₁)
    rintro _ m₂ ⟨kept₂, core⟩
    exact ⟨kept₂, (congrArg Core.rest core).trans step.rest⟩

theorem giveUp_kept {pa : Nat} (kept : Kept b (holding (some pa) held) m₀ m) :
    wp (giveUp b pa) (fun _ m' => Kept b held m₀ m') NotKfree m :=
  wp_seq (kfree_kept kept) fun _ _ kept => kept.1

theorem Kept.drop_none (kept : Kept b (holding none held) m₀ m) : Kept b held m₀ m :=
  kept.of_core (kept.owned.mono (fun _ => le_rfl) rfl) rfl

-- The entry, if there is one, is about a page below the trapframe.
def UserEntry (midx : Option Nat) (m : Machine) : Prop :=
  ∀ i, midx = some i → ∃ va < trapframeVa, (keys m.proc.pgmeta)[i]? = some va

theorem UserEntry.of_rest {midx : Option Nat} {m' : Machine} (user : UserEntry midx m)
    (rest : m'.rest = m.rest) : UserEntry midx m' := by
  have same : m'.proc.pgmeta = m.proc.pgmeta := congrArg (fun c : Core => c.proc.pgmeta) rest
  unfold UserEntry
  rw [same]
  exact user

theorem UserEntry.obtained {midx : Option Nat} {pa : Nat} {m' : Machine} (user : UserEntry midx m)
    (obtained : Obtained b m (some pa) m') : UserEntry midx m' := by
  unfold UserEntry
  rw [obtained.keys]
  exact user

theorem modifyEntry_kept {i : Nat} (f : PageMeta → PageMeta) (same : ∀ e, (f e).va = e.va)
    (user : UserEntry (some i) m) (kept : Kept b held m₀ m) :
    wp (modifyMeta i f) (fun _ m' => Kept b held m₀ m') NotKfree m := by
  apply modifyMeta_kept i f kept
  intro e found placed
  obtain ⟨va, low, key⟩ := user i rfl
  rw [PageMeta.Placed, same]
  exact ⟨placed.1, placed.2.1, fun _ => key_lt key found low⟩

theorem swapIn_kept (t : Target) (vaPg : Nat) (seg : Seg) (midx : Nat) (user : UserEntry (some midx) m)
    (kept : Kept b held m₀ m) :
    wp (swapIn b t vaPg seg midx) (fun _ m' => Kept b held m₀ m') NotKfree m := by
  unfold swapIn
  apply wp_seq_and (kallocOrEvict_kept kept) (kallocOrEvict_outcome kept.tracked)
  intro r m₁ kept₁ outcome
  cases r with
  | none => exact kept₁.drop_none
  | some pa =>
    simp only
    rw [wp_bind, wp_read]
    cases m₁.proc.swapip with
    | none => exact (nofun : Panic.ilock ≠ .kfree)
    | some ip =>
      apply wp_seq (readInto_kept ip pa _ _ kept₁)
      rintro got m₂ ⟨kept₂, core₂⟩
      split_ifs
      · exact giveUp_kept kept₂
      · apply wp_seq (mapOrFree_kept t _ kept₂)
        rintro ok m₃ ⟨kept₃, rest₃⟩
        have user₃ := (user.obtained outcome).of_rest (rest₃.trans (congrArg Core.rest core₂))
        cases ok with
        | false => exact kept₃
        | true =>
          refine wp_seq (modifyEntry_kept _ (fun _ => rfl) user₃ kept₃) ?_
          intro _ m₄ kept₄
          exact wp_seq (modifyProc_kept _ kept₄ rfl rfl kept₄.tracked) fun _ _ kept => kept

theorem recordResident_total (midx : Option Nat) (perm : Flags) :
    wp (recordResident midx perm) (fun _ _ => True) (fun _ => False) m := by
  cases midx <;> trivial

theorem recordResident_kept (midx : Option Nat) (perm : Flags) (user : UserEntry midx m)
    (kept : Kept b held m₀ m) :
    wp (recordResident midx perm) (fun _ m' => Kept b held m₀ m') NotKfree m := by
  unfold recordResident
  cases midx with
  | none => exact modifyProc_kept _ kept rfl rfl kept.tracked
  | some i =>
    rw [wp_bind, wp_read]
    refine wp_seq (modifyEntry_kept _ (fun _ => rfl) user kept) ?_
    intro _ m₁ kept₁
    exact modifyProc_kept _ kept₁ rfl rfl kept₁.tracked

theorem UserEntry.alloc {vaPg : Nat} (low : vaPg < trapframeVa) :
    UserEntry (pgmetaAlloc m.proc.pgmeta vaPg).2
      { m with proc := { m.proc with pgmeta := (pgmetaAlloc m.proc.pgmeta vaPg).1 } } :=
  fun _ made => ⟨vaPg, low, keys_alloc made⟩

theorem recordLoaded_kept {vaPg : Nat} (midx : Option Nat) (perm : Flags) (low : vaPg < trapframeVa)
    (aligned : vaPg % 4096 = 0) (user : UserEntry midx m) (kept : Kept b held m₀ m) :
    wp (recordLoaded vaPg midx perm) (fun _ m' => Kept b held m₀ m') NotKfree m := by
  unfold recordLoaded
  cases midx with
  | some i => exact recordResident_kept _ _ user kept
  | none =>
    rw [wp_bind, wp_read, wp_bind, wp_modifyProc]
    have made := recordMeta_kept (low.trans (by decide)) aligned kept _ kept.tracked
    exact recordResident_kept _ _ (UserEntry.alloc low) made

theorem installPage_kept (t : Target) {vaPg pa : Nat} (seg : Seg) (midx : Option Nat)
    (low : vaPg < trapframeVa) (aligned : vaPg % 4096 = 0) (user : UserEntry midx m)
    (kept : Kept b (holding (some pa) held) m₀ m) :
    wp (installPage b t vaPg seg midx pa) (fun _ m' => Kept b held m₀ m') NotKfree m := by
  unfold installPage
  apply wp_seq (mapOrFree_kept t _ kept)
  rintro ok m₁ ⟨kept₁, rest₁⟩
  cases ok with
  | false => exact kept₁
  | true =>
    exact wp_seq (recordLoaded_kept midx _ low aligned (user.of_rest rest₁) kept₁) fun _ _ kept => kept

theorem readSegment_kept (seg : Seg) (execip : Inode) (pa pageOff : Nat) (kept : Kept b held m₀ m) :
    wp (readSegment seg execip pa pageOff) (fun _ m' => Kept b held m₀ m' ∧ m'.core = m.core)
      NotKfree m := by
  unfold readSegment
  split_ifs
  · exact wp_seq (readInto_kept execip pa _ _ kept) fun _ _ kept => kept
  · exact ⟨kept, rfl⟩

theorem loadPage_kept (t : Target) {vaPg : Nat} (seg : Seg) (execip : Inode) (midx : Option Nat)
    (acc : Access) (low : vaPg < trapframeVa) (aligned : vaPg % 4096 = 0) (user : UserEntry midx m)
    (kept : Kept b held m₀ m) :
    wp (loadPage b t vaPg seg execip midx acc) (fun _ m' => Kept b held m₀ m') NotKfree m := by
  unfold loadPage
  apply wp_seq_and (kallocOrEvict_kept kept) (kallocOrEvict_outcome kept.tracked)
  intro r m₁ kept₁ outcome
  cases r with
  | none => exact kept₁.drop_none
  | some pa =>
    simp only
    rw [wp_bind, wp_memset]
    have kept₂ : Kept b (holding (some pa) held) m₀ (m₁.fill pa fun _ => 0) :=
      fill_kept (fun _ _ => 0) kept₁
    apply wp_seq (readSegment_kept seg execip pa _ kept₂)
    rintro ok m₃ ⟨kept₃, core₃⟩
    cases ok with
    | false => exact giveUp_kept kept₃
    | true =>
      have user₃ := (user.obtained outcome).of_rest (congrArg Core.rest core₃)
      simp only [if_true]
      split_ifs
      · exact giveUp_kept kept₃
      · exact installPage_kept t seg midx low aligned user₃ kept₃

theorem zeroPage_kept (t : Target) {vaPg : Nat} (low : vaPg < trapframeVa)
    (aligned : vaPg % 4096 = 0) (kept : Kept b held m₀ m) :
    wp (zeroPage b t vaPg) (fun _ m' => Kept b held m₀ m') NotKfree m := by
  unfold zeroPage
  rw [wp_bind, wp_read, wp_bind, wp_modifyProc]
  have kept₁ := recordMeta_kept (low.trans (by decide)) aligned kept _ kept.tracked
  have user₁ : UserEntry (pgmetaAlloc m.proc.pgmeta vaPg).2 _ := UserEntry.alloc low
  apply wp_seq_and (kallocOrEvict_kept kept₁) (kallocOrEvict_outcome kept₁.tracked)
  intro r m₂ kept₂ outcome
  cases r with
  | none => exact kept₂.drop_none
  | some pa =>
    simp only
    rw [wp_bind, wp_memset]
    have kept₃ : Kept b (holding (some pa) held) m₀ (m₂.fill pa fun _ => 0) :=
      fill_kept (fun _ _ => 0) kept₂
    apply wp_seq (mapOrFree_kept t _ kept₃)
    rintro ok m₄ ⟨kept₄, rest₄⟩
    cases ok with
    | false => exact kept₄
    | true =>
      have user₄ := (user₁.obtained outcome).of_rest rest₄
      exact wp_seq (recordResident_kept _ _ user₄ kept₄) fun _ _ kept => kept

theorem vmfault_kept (t : Target) (va : Nat) (acc : Access) (framed : (m.table t).Framed)
    (kept : Kept b held m₀ m) :
    wp (vmfault b t va acc) (fun _ m' => Kept b held m₀ m') NotKfree m := by
  unfold vmfault
  split_ifs with high
  · exact kept
  · have aligned : pgrounddown va % 4096 = 0 := Nat.mul_mod_left _ _
    have below : pgrounddown va < maxva := by
      unfold pgrounddown
      omega
    rw [wp_bind, wp_read, wp_bind, wp_read]
    cases mapped : (m.table t).leaf (pgrounddown va) with
    | some leaf => exact upgrade_kept t acc below aligned mapped kept
    | none =>
      have low := framed.below below mapped
      cases m.proc.segOf (pgrounddown va) with
      | some seg =>
        cases m.proc.execip with
        | none => exact kept
        | some execip =>
          cases found : pgmetaFind m.proc.pgmeta (pgrounddown va) with
          | none => exact loadPage_kept t seg execip none acc low aligned nofun kept
          | some midx =>
            have user : UserEntry (some midx) m := by
              rintro i ⟨⟩
              exact ⟨_, low, keys_find found⟩
            simp only
            split_ifs
            · exact swapIn_kept t _ seg midx user kept
            · exact loadPage_kept t seg execip (some midx) acc low aligned user kept
      | none =>
        simp only
        split_ifs
        · exact zeroPage_kept t low aligned kept
        · exact kept

end SystemsSuite.Paging
