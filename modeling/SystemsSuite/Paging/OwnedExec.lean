import SystemsSuite.Paging.OwnedSteps

set_option autoImplicit false

namespace SystemsSuite.Paging

open Lib Prog

variable {b : Build} {held : Nat → Nat} {m₀ m : Machine}

theorem memmove_kept (pa off : Nat) (src : List UInt8) (kept : Kept b held m₀ m) :
    wp (memmove pa off src) (fun _ m' => Kept b held m₀ m') NotKfree m :=
  fill_kept _ kept

theorem walkaddr_kept (t : Target) (va : Nat) (kept : Kept b held m₀ m) :
    wp (walkaddr t va) (fun _ m' => Kept b held m₀ m') NotKfree m := by
  unfold walkaddr
  split_ifs
  · exact kept
  · exact kept

theorem copyoutLoop_kept (t : Target) (rounds dstva : Nat) (src : List UInt8) (framed : (m₀.table t).Framed)
    (kept : Kept b held m₀ m) :
    wp (copyoutLoop b t rounds dstva src) (fun _ m' => Kept b held m₀ m') NotKfree m := by
  induction rounds generalizing dstva src m with
  | zero => exact kept
  | succ rounds ih =>
    have faulted : wp (walkaddrOrFault b t (pgrounddown dstva)) (fun _ m' => Kept b held m₀ m')
        NotKfree m := by
      unfold walkaddrOrFault
      apply wp_seq (walkaddr_kept t _ kept)
      intro r m₁ kept₁
      cases r with
      | some pa0 => exact kept₁
      | none =>
        apply wp_seq (vmfault_kept t _ .write (kept₁.framed t framed) kept₁)
        intro _ m₂ kept₂
        exact walkaddr_kept t _ kept₂
    rw [copyoutLoop]
    simp only
    split_ifs
    · exact kept
    · exact kept
    · apply wp_seq faulted
      intro r m₁ kept₁
      cases r with
      | none => exact kept₁
      | some pa0 =>
        rw [wp_bind, wp_read]
        cases (m₁.table t).leaf (pgrounddown dstva) with
        | none => exact kept₁
        | some leaf =>
          simp only
          split_ifs
          · exact kept₁
          · apply wp_seq (memmove_kept pa0 _ _ kept₁)
            intro _ m₂ kept₂
            exact ih _ _ kept₂

theorem pushArgs_kept (t : Target) (stackbase : Nat) (argv : List (List UInt8)) (argc sp : Nat)
    (ustack : List Nat) (framed : (m₀.table t).Framed) (kept : Kept b held m₀ m) :
    wp (pushArgs b t stackbase argv argc sp ustack) (fun _ m' => Kept b held m₀ m') NotKfree m := by
  induction argv generalizing argc sp ustack m with
  | nil => exact kept
  | cons arg rest ih =>
    rw [pushArgs]
    simp only
    split_ifs
    · exact kept
    · exact kept
    · apply wp_seq (copyoutLoop_kept t _ _ _ framed kept)
      intro ok m₁ kept₁
      cases ok with
      | false => exact kept₁
      | true => exact ih _ _ _ kept₁

theorem pushStack_kept (t : Target) (sp stackbase : Nat) (argv : List (List UInt8))
    (framed : (m₀.table t).Framed) (kept : Kept b held m₀ m) :
    wp (pushStack b t sp stackbase argv) (fun _ m' => Kept b held m₀ m') NotKfree m := by
  unfold pushStack
  apply wp_seq (pushArgs_kept t stackbase argv 0 sp [] framed kept)
  intro pushed m₁ kept₁
  cases pushed with
  | none => exact kept₁
  | some pushed =>
    simp only
    split_ifs
    · exact kept₁
    · apply wp_seq (copyoutLoop_kept t _ _ _ framed kept₁)
      intro ok m₂ kept₂
      cases ok <;> exact kept₂

theorem isFrame_of_held {pa : Nat} (owned : Owned b (holding (some pa) held) m) :
    b.isFrame pa = true := by
  have single := owned.single pa
  by_contra notFrame
  simp [holding, notFrame] at single

theorem held_not_free {pa : Nat} (owned : Owned b (holding (some pa) held) m) : pa ∉ m.freelist := by
  intro member
  have once := owned.single pa
  have counted := List.count_pos_iff.mpr member
  have atMost : (if b.isFrame pa then 1 else 0) ≤ 1 := by split_ifs <;> omega
  unfold holding Machine.owners at once
  rw [if_pos rfl] at once
  omega

theorem ne_zero_of_isFrame {pa : Nat} (isFrame : b.isFrame pa = true) : pa ≠ 0 := by
  rintro rfl
  rw [Build.isFrame_zero] at isFrame
  contradiction

-- The process is as it was, its page table and what the pager notes apart.
structure Like (m₀ m : Machine) : Prop where
  image : m.image = m₀.image
  framed : m₀.proc.pagetable.Framed → m.proc.pagetable.Framed

theorem Kept.like (kept : Kept b held m₀ m) : Like m₀ m := ⟨kept.image, kept.framed .own⟩

theorem Like.trans {m₁ m₂ : Machine} (first : Like m₀ m₁) (second : Like m₁ m₂) : Like m₀ m₂ :=
  ⟨second.image.trans first.image, fun framed => second.framed (first.framed framed)⟩

theorem uvmcreate_kept (kept : Kept b held m₀ m) :
    wp uvmcreate (fun ok m' => Kept b held m' m' ∧ Like m₀ m' ∧
      (ok = true → m'.spare.pa ≠ 0 ∧ ∀ va, m'.spare.leaf va = none)) NotKfree m := by
  unfold uvmcreate
  apply wp_seq (kalloc_kept kept)
  intro r m₁ kept₁
  cases r with
  | none => exact ⟨kept₁.drop_none.rebase, kept₁.like, nofun⟩
  | some pa =>
    have notNull := ne_zero_of_isFrame (isFrame_of_held kept₁.owned)
    have fresh : Owned b held { m₁.fill pa fun _ => 0 with spare := .empty pa } := by
      refine kept₁.owned.mono (fun f => ?_) rfl
      have root : pointer pa f ≤ if some pa = some f then 1 else 0 := by
        unfold pointer
        split_ifs <;> simp_all
      simp only [Machine.owners, Machine.fill, holding, PageTable.empty_owners]
      omega
    exact ⟨⟨fresh, kept₁.tracked, rfl, rfl, fun _ framed => framed⟩, ⟨kept₁.image, kept₁.framed .own⟩,
      fun _ => ⟨notNull, fun va => Radix.value_empty 2 _⟩⟩

theorem mappages_special_kept (t : Target) {va : Nat} (pa : Nat) (perm : Flags)
    (isSpecial : special (va / 4096) = true) (kept : Kept b held m₀ m) :
    wp (mappages t va pa perm) (fun _ m' => Kept b held m₀ m') NotKfree m := by
  apply wp_mono (wp_and (mappages_special_owned t pa perm isSpecial kept.owned)
    (mappages_effect t va pa perm))
  · rintro ok m' ⟨⟨owned, rest⟩, _, _, step⟩
    exact kept.of_rest owned rest (step.framed (mapped_isSome ok))
  · exact fun _ panics => panics.1

theorem Kept.drop_spare (kept : Kept b held m₀ m) {m' : Machine} (owned : Owned b held m')
    (rest : m'.rest = m.rest.drop .spare) (own : m'.table .own = m.table .own) :
    Kept b held m' m' ∧ Like m₀ m' := by
  have metas : m'.proc.pgmeta = m.proc.pgmeta := congrArg (fun c : Core => c.proc.pgmeta) rest
  have image : m'.image = m.image := congrArg (fun c : Core => Machine.image
    ⟨[], fun _ _ => 0, c.proc, .empty 0, [], false⟩) rest
  refine ⟨⟨owned, ?_, rfl, rfl, fun _ framed => framed⟩, image.trans kept.image, ?_⟩
  · rw [metas]
    exact kept.tracked
  · intro framed
    change (m'.table .own).Framed
    rw [own]
    exact kept.framed .own framed

theorem procPagetable_kept (trapframe : Nat) (kept : Kept b held m₀ m) :
    wp (procPagetable b trapframe) (fun ok m' => Kept b held m' m' ∧ Like m₀ m' ∧
      (ok = true → m'.spare.pa ≠ 0 ∧ m'.spare.Framed)) NotKfree m := by
  unfold procPagetable
  apply wp_seq (uvmcreate_kept kept)
  rintro created m₁ ⟨kept₁, like₁, fresh⟩
  cases created with
  | false => exact ⟨kept₁, like₁, nofun⟩
  | true =>
    obtain ⟨notNull, empty⟩ := fresh rfl
    have root {m' : Machine} (kept' : Kept b held m₁ m') : m'.spare.pa ≠ 0 := by
      rw [kept'.spareRoot]
      exact notNull
    simp only [if_true]
    apply wp_seq_and (mappages_special_kept .spare b.trampoline _ (by decide) kept₁)
      (mappages_effect .spare trampolineVa b.trampoline _)
    rintro ok m₂ kept₂ ⟨_, _, step₂⟩
    cases ok with
    | false =>
      have plain : (m₂.table .spare).Plain :=
        ⟨(step₂.leaf _ (by decide)).trans (empty _), (step₂.leaf _ (by decide)).trans (empty _)⟩
      apply wp_seq (uvmfree_owned .spare 0 kept₂.owned (root kept₂) plain)
      rintro _ m₃ ⟨owned₃, rest₃, other₃⟩
      have dropped := kept₂.drop_spare owned₃ rest₃ (other₃ .own nofun)
      exact ⟨dropped.1, like₁.trans dropped.2, nofun⟩
    | true =>
      simp only [if_true]
      apply wp_seq_and (mappages_special_kept .spare trapframe _ (by decide) kept₂)
        (mappages_effect .spare trapframeVa trapframe _)
      rintro ok m₃ kept₃ ⟨_, _, step₃⟩
      cases ok with
      | true =>
        refine ⟨kept₃.rebase, like₁.trans kept₃.like, fun _ => ⟨root kept₃, ?_, ?_⟩⟩
        · have mapped := step₃.leaf trampolineVa (by decide)
          rw [if_pos rfl, setLeaf, if_neg (by decide), step₂.leaf _ (by decide), if_pos rfl, setLeaf,
            if_pos rfl] at mapped
          rw [show m₃.spare.leaf trampolineVa = _ from mapped]
          rfl
        · have mapped := step₃.leaf trapframeVa (by decide)
          rw [if_pos rfl, setLeaf, if_pos rfl] at mapped
          rw [show m₃.spare.leaf trapframeVa = _ from mapped]
          rfl
      | false =>
        have absent : (m₃.table .spare).leaf trapframeVa = none := by
          rw [step₃.leaf _ (by decide), if_neg (by simp), step₂.leaf _ (by decide), if_pos rfl,
            setLeaf, if_neg (by decide)]
          exact empty _
        apply wp_seq (unmapSpecial_owned .spare (by decide) (by decide) (by decide) kept₃.owned)
        rintro _ m₄ ⟨owned₄, rest₄, gone, stays, other₄⟩
        have root₄ : (m₄.table .spare).pa ≠ 0 := by
          rw [Machine.root_of_rest rest₄]
          exact root kept₃
        apply wp_seq (uvmfree_owned .spare 0 owned₄ root₄ ⟨gone, stays _ (by decide) absent⟩)
        rintro _ m₅ ⟨owned₅, rest₅, other₅⟩
        have dropped := kept₃.drop_spare owned₅ (by rw [rest₅, rest₄])
          ((other₅ .own nofun).trans (other₄ .own nofun))
        exact ⟨dropped.1, like₁.trans dropped.2, nofun⟩

-- What holds between the calls of the kernel about the process that runs.
structure Sound (b : Build) (held : Nat → Nat) (m : Machine) : Prop where
  owned : Owned b held m
  tracked : Tracked m.proc.pgmeta
  size : m.proc.sz ≤ trapframeVa
  framed : m.proc.pagetable.Framed
  root : m.proc.pagetable.pa ≠ 0
  trapframe : m.proc.trapframe.pa ≠ 0

theorem Sound.kept (sound : Sound b held m) : Kept b held m m :=
  ⟨sound.owned, sound.tracked, rfl, rfl, fun _ framed => framed⟩

theorem Machine.root_of_image {m m' : Machine} (image : m'.image = m.image) :
    m'.proc.pagetable.pa = m.proc.pagetable.pa := by
  have same := congrArg (fun p : Proc => p.pagetable.pa) image
  exact same

theorem Machine.trapframe_of_image {m m' : Machine} (image : m'.image = m.image) :
    m'.proc.trapframe = m.proc.trapframe := by
  have same := congrArg Proc.trapframe image
  exact same

theorem Sound.of_like {held' : Nat → Nat} (sound : Sound b held m₀) (kept : Kept b held' m m)
    (like : Like m₀ m) : Sound b held' m where
  owned := kept.owned
  tracked := kept.tracked
  size := by
    have same := congrArg Proc.sz like.image
    exact le_of_eq_of_le same sound.size
  framed := like.framed sound.framed
  root := by
    rw [Machine.root_of_image like.image]
    exact sound.root
  trapframe := by
    rw [Machine.trapframe_of_image like.image]
    exact sound.trapframe

theorem procFreepagetable_spare_kept (sz : Nat) (kept : Kept b held m₀ m) (notNull : m.spare.pa ≠ 0) :
    wp (procFreepagetable b .spare sz) (fun _ m' => Kept b held m' m' ∧ Like m₀ m') NotKfree m := by
  apply wp_mono (procFreepagetable_owned .spare sz kept.owned notNull) _ fun _ panics => panics
  rintro _ m' ⟨owned, rest, other⟩
  exact kept.drop_spare owned rest (other .own nofun)

theorem execBad_sound (sz : Nat) (kept : Kept b held m₀ m) (notNull : m.spare.pa ≠ 0)
    (sound : Sound b held m₀) : wp (execBad b sz) (fun _ m' => Sound b held m') NotKfree m := by
  apply wp_seq (procFreepagetable_spare_kept sz kept notNull)
  rintro _ m' ⟨kept', like⟩
  exact sound.of_like kept' like

theorem uvmclear_kept (t : Target) (va : Nat) (kept : Kept b held m₀ m) :
    wp (uvmclear t va) (fun _ m' => Kept b held m₀ m' ∧ va < maxva) NotKfree m := by
  unfold uvmclear
  rw [wp_bind, wp_walk]
  refine ⟨fun _ => (nofun : Panic.walk ≠ .kfree), fun below => ?_⟩
  cases found : (m.table t).walk va with
  | none => exact (nofun : Panic.uvmclear ≠ .kfree)
  | some node =>
    cases node with
    | empty => exact ⟨kept, below⟩
    | leaf leaf => exact ⟨setFlags_kept t _ below (PageTable.leaf_of_walk found) kept, below⟩

theorem commitImage_sound (elf : Elfhdr) {sz : Nat} (sp oldsz : Nat) (created : Option Nat)
    (kept : Kept b held m₀ m) (sound : Sound b held m₀) (small : sz ≤ trapframeVa)
    (notNull : m.spare.pa ≠ 0) (framed : m.spare.Framed) :
    wp (commitImage b elf sz sp oldsz created) (fun _ m' => Sound b held m') NotKfree m := by
  have image := kept.image
  unfold commitImage
  rw [wp_bind, wp_update]
  -- The tables change places; everything they own stays owned.
  let m' : Machine := { m with
    spare := m.proc.pagetable
    proc := { m.proc with
      pagetable := m.spare
      sz := sz
      trapframe := { m.proc.trapframe with a1 := sp, epc := elf.entry, sp := sp }
      heapBrk := sub64 sz 8192
      pageSeqCtr := 1 } }
  have swapped : Kept b held m' m' := by
    refine ⟨kept.owned.mono (fun f => ?_) rfl, kept.tracked, rfl, rfl, fun _ framed => framed⟩
    simp only [m', Machine.owners, Proc.owners]
    omega
  have oldRoot : m.proc.pagetable.pa ≠ 0 := by
    rw [Machine.root_of_image image]
    exact sound.root
  apply wp_seq (procFreepagetable_spare_kept oldsz swapped oldRoot)
  rintro _ m₁ ⟨kept₁, like₁⟩
  refine wp_seq (modifyProc_kept _ kept₁ rfl rfl Tracked.cleared) ?_
  intro _ m₂ kept₂
  apply wp_mono (modifyProc_kept _ kept₂ rfl rfl kept₂.tracked) _ fun _ panics => panics
  intro _ m₃ kept₃
  have trapframe : m.proc.trapframe.pa ≠ 0 := by
    rw [Machine.trapframe_of_image image]
    exact sound.trapframe
  have committed : Sound b held m' :=
    ⟨swapped.owned, swapped.tracked, small, framed, notNull, trapframe⟩
  exact committed.of_like kept₃.rebase (like₁.trans kept₃.like)

theorem sub64_eq (x y : Nat) : sub64 x y = (x + (2 ^ 64 - y)) % 2 ^ 64 := by
  unfold sub64
  rfl

theorem sub64_lt {x y top : Nat} (below : sub64 x y < top) (small : y ≤ 2 ^ 64) :
    y ≤ x ∧ x - y < top ∨ x < y ∧ x + 2 ^ 64 - y < top ∨ 2 ^ 64 ≤ x := by
  rw [sub64_eq] at below
  omega

-- A size that wraps around is caught by the walk of `uvmclear`.
theorem stackEnd_le {sz sz1 : Nat} (rounded : pgroundup sz = sz)
    (grown : sz1 ≤ trapframeVa ∨ u64 (sz + (userstack + 1) * 4096) < sz ∧ sz1 = sz ∨
      u64 (sz + (userstack + 1) * 4096) ≤ pgroundup sz ∧ sz1 = u64 (sz + (userstack + 1) * 4096))
    (below : sub64 sz1 ((userstack + 1) * 4096) < maxva) : sz1 ≤ trapframeVa := by
  have stack : (userstack + 1) * 4096 = 8192 := rfl
  have cleared := sub64_lt below (by decide)
  rw [stack] at cleared grown
  rw [rounded] at grown
  unfold pgroundup at rounded
  simp only [u64] at rounded grown
  unfold trapframeVa trampolineVa maxva at *
  omega

theorem buildStack_sound (elf : Elfhdr) (argv : List (List UInt8)) (created : Option Nat) {sz : Nat}
    (sound : Sound b held m) (rounded : pgroundup sz = sz) (notNull : m.spare.pa ≠ 0)
    (framed : m.spare.Framed) :
    wp (buildStack b elf argv created sz) (fun _ m' => Sound b held m') NotKfree m := by
  unfold buildStack
  rw [wp_bind, wp_read]
  apply wp_seq (uvmalloc_kept .spare _ (.inr framed) sound.kept)
  rintro sz1 m₁ ⟨kept₁, grown⟩
  have root {m' : Machine} (kept : Kept b held m m') : m'.spare.pa ≠ 0 := by
    rw [kept.spareRoot]
    exact notNull
  split_ifs
  · exact execBad_sound sz kept₁ (root kept₁) sound
  · refine wp_seq (uvmclear_kept .spare _ kept₁) ?_
    rintro _ m₂ ⟨kept₂, below⟩
    have small₁ := stackEnd_le rounded grown below
    refine wp_seq (pushStack_kept .spare _ _ argv framed kept₂) ?_
    intro pushed m₃ kept₃
    cases pushed with
    | none => exact execBad_sound sz1 kept₃ (root kept₃) sound
    | some sp =>
      apply wp_seq (commitImage_sound elf sp _ created kept₃ sound small₁ (root kept₃)
        (kept₃.framed .spare framed))
      exact fun _ _ sound => sound

-- Every recorded segment ends within the accumulated size.
def Scan.Covered (s : Scan) : Prop := ∀ seg ∈ s.segs.take s.nsegs, seg.stop ≤ s.sz

theorem Scan.Covered.record {s : Scan} (covered : s.Covered) (ph : Proghdr) : (s.record ph).Covered := by
  intro seg member
  simp only [Scan.record] at member ⊢
  by_cases room : s.nsegs < 16
  · rw [if_pos room, if_pos room] at member
    rw [List.take_add_one] at member
    rcases List.mem_append.mp member with old | new
    · rw [List.take_set, List.set_eq_of_length_le (by simp)] at old
      exact le_max_of_le_left (covered seg old)
    · rw [List.getElem?_set_self'] at new
      cases here : s.segs[s.nsegs]? with
      | none => simp [here] at new
      | some old =>
        simp [here] at new
        rw [new]
        exact le_max_right _ _
  · rw [if_neg room, if_neg room] at member
    exact le_max_of_le_left (covered seg member)

theorem scanHeaders_covered (ip : Inode) (n off : Nat) {s : Scan} (covered : s.Covered) :
    (scanHeaders ip n off s).2.Covered := by
  induction n generalizing off s with
  | zero => exact covered
  | succ n ih =>
    rw [scanHeaders]
    cases readProghdr ip off with
    | none => exact covered
    | some ph =>
      simp only
      split_ifs
      · exact ih _ covered
      · exact ih _ (covered.record ph)
      · exact covered

theorem Elfhdr.scan_covered (elf : Elfhdr) (ip : Inode) (segs : List Seg) :
    (elf.scan ip segs).2.Covered :=
  scanHeaders_covered ip _ _ fun _ member => by simp at member

theorem pgroundup_idem (sz : Nat) : pgroundup (pgroundup sz) = pgroundup sz := by
  unfold pgroundup u64
  omega

theorem kexec_sound (file : Option Inode) (argv : List (List UInt8)) (created : Option Nat)
    (sound : Sound b held m) :
    wp (kexec b file argv created) (fun _ m' => Sound b held m') NotKfree m := by
  unfold kexec
  cases file with
  | none => exact sound
  | some ip =>
    cases header : readElfhdr ip with
    | none =>
      simp only
      rw [header]
      exact sound
    | some elf =>
      simp only
      rw [header]
      simp only
      rw [wp_bind, wp_read]
      apply wp_seq (procPagetable_kept _ sound.kept)
      rintro ok m₁ ⟨kept₁, like₁, table⟩
      have sound₁ := sound.of_like kept₁ like₁
      cases ok with
      | false => exact sound₁
      | true =>
        obtain ⟨notNull, framed⟩ := table rfl
        simp only [if_true]
        rw [wp_bind, wp_read, wp_bind, wp_modifyProc]
        have recorded : Sound b held { m₁ with proc := { m₁.proc with
            execip := some ip
            nsegs := (elf.scan ip m₁.proc.segs).2.nsegs
            segs := (elf.scan ip m₁.proc.segs).2.segs } } :=
          ⟨kept₁.owned.mono (fun _ => le_rfl) rfl, kept₁.tracked, sound₁.size, sound₁.framed,
            sound₁.root, sound₁.trapframe⟩
        split_ifs
        · exact buildStack_sound elf argv created recorded (pgroundup_idem _) notNull framed
        · exact execBad_sound _ recorded.kept notNull recorded

theorem Copied.record_tracked {c : Copied} (tracked : Tracked c.pgmeta) {i : Nat} (flags : Flags)
    (below : i < trapframeVa) (aligned : i % 4096 = 0) : Tracked (c.record i flags).pgmeta := by
  simp only [Copied.record]
  split
  · exact tracked.alloc (below.trans (by decide)) aligned
  · next midx made =>
    refine (tracked.alloc (below.trans (by decide)) aligned).modify midx _ ?_
    intro e found placed
    have user : e.va < trapframeVa := key_lt (keys_alloc made) found below
    exact ⟨placed.1, placed.2.1, fun _ => user⟩

theorem copyFailed_kept {i : Nat} (small : i ≤ trapframeVa) (kept : Kept b held m₀ m) :
    wp (copyFailed b i) (fun r m' => Kept b held m₀ m' ∧ r = none) NotKfree m := by
  have user : (m.table .spare).Plain ∨ 0 ≤ trapframeVa ∧ u64 (0 + u64 (i / 4096 * 4096)) ≤ trapframeVa := by
    right
    unfold trapframeVa trampolineVa maxva u64 at *
    omega
  have range : 0 + i / 4096 * 4096 ≤ trapframeVa := by omega
  apply wp_seq_and (uvmunmap_owned .spare 0 (i / 4096) kept.owned user)
    (uvmunmap_effect .spare true rfl (range.trans (by decide)))
  intro _ m₁ owned unmapped
  exact ⟨kept.of_rest owned.1 owned.2.1 (unmapped.framed rfl range), rfl⟩

theorem copyLoop_kept (n i : Nat) (c : Copied) (aligned : i % 4096 = 0)
    (small : i + n * 4096 ≤ trapframeVa) (tracked : Tracked c.pgmeta) (kept : Kept b held m₀ m) :
    wp (copyLoop b n i c) (fun r m' => Kept b held m₀ m' ∧ ∀ c', r = some c' → Tracked c'.pgmeta)
      NotKfree m := by
  induction n generalizing i c m with
  | zero =>
    refine ⟨kept, ?_⟩
    rintro c' ⟨⟩
    exact tracked
  | succ n ih =>
    have undo {m' : Machine} (kept' : Kept b held m₀ m') : wp (copyFailed b i)
        (fun r m' => Kept b held m₀ m' ∧ ∀ c', r = some c' → Tracked c'.pgmeta) NotKfree m' := by
      apply wp_mono (copyFailed_kept (by omega) kept') _ fun _ panics => panics
      rintro r m'' ⟨kept'', rfl⟩
      exact ⟨kept'', nofun⟩
    have skip := ih (i + 4096) c (by omega) (by omega) tracked kept
    rw [copyLoop, wp_bind, wp_walk]
    refine ⟨fun _ => (nofun : Panic.walk ≠ .kfree), fun below => ?_⟩
    cases (m.table .own).walk i with
    | none => exact skip
    | some node =>
      cases node with
      | empty => exact skip
      | leaf leaf =>
        apply wp_seq (kallocOrEvict_kept kept)
        intro r m₁ kept₁
        cases r with
        | none => exact undo kept₁.drop_none
        | some mem =>
          refine wp_seq (fill_kept _ kept₁) ?_
          intro _ m₂ kept₂
          apply wp_seq (mappages_kept .spare kept₂)
          intro ok m₃ kept₃
          cases ok with
          | true =>
            exact ih (i + 4096) _ (by omega) (by omega)
              (c.record_tracked tracked leaf.flags (by omega) aligned) kept₃
          | false =>
            apply wp_seq (kfree_kept kept₃)
            intro _ m₄ kept₄
            exact undo kept₄.1

theorem allocproc_kept (kept : Kept b held m₀ m) :
    wp (allocproc b) (fun r m' => Kept b (holding r held) m' m' ∧ Like m₀ m' ∧
      (r.isSome = true → m'.spare.pa ≠ 0 ∧ m'.spare.Framed)) NotKfree m := by
  unfold allocproc
  apply wp_seq (kalloc_kept kept)
  intro r m₁ kept₁
  cases r with
  | none => exact ⟨kept₁.rebase, kept₁.like, nofun⟩
  | some trapframe =>
    apply wp_seq (procPagetable_kept trapframe kept₁)
    rintro ok m₂ ⟨kept₂, like₂, table⟩
    cases ok with
    | true => exact ⟨kept₂, like₂, fun _ => table rfl⟩
    | false =>
      apply wp_seq (kfree_kept kept₂)
      rintro _ m₃ ⟨kept₃, _⟩
      have none_held : Kept b (holding none held) m₂ m₃ :=
        kept₃.of_core (kept₃.owned.mono (fun _ => le_rfl) rfl) rfl
      exact ⟨none_held.rebase, like₂.trans kept₃.like, nofun⟩

-- The child of a successful fork owns frames that nothing else owns.
def ChildSound (b : Build) (held : Nat → Nat) (r : Option Proc) (m : Machine) : Prop :=
  match r with
  | none => Sound b held m
  | some child => Sound b (fun f => held f + child.owners f) m ∧ Tracked child.pgmeta ∧
      child.sz ≤ trapframeVa ∧ child.pagetable.Framed ∧ child.pagetable.pa ≠ 0 ∧ child.trapframe.pa ≠ 0

theorem kfork_sound (created : Option Nat) (sound : Sound b held m) :
    wp (kfork b created) (fun r m' => ChildSound b held r m') NotKfree m := by
  unfold kfork
  apply wp_seq (allocproc_kept sound.kept)
  rintro r m₁ ⟨kept₁, like₁, table⟩
  cases r with
  | none => exact sound.of_like kept₁.drop_none.rebase like₁
  | some trapframe =>
    have sound₁ := sound.of_like kept₁ like₁
    obtain ⟨notNull₁, framed₁⟩ := table rfl
    have frame : trapframeVa % 4096 = 0 := by decide
    have small : 0 + (m₁.proc.sz + 4095) / 4096 * 4096 ≤ trapframeVa := by
      have sz := sound₁.size
      omega
    rw [wp_bind, wp_read]
    apply wp_seq (copyLoop_kept _ 0 .initial rfl small Tracked.cleared kept₁)
    rintro copied m₂ ⟨kept₂, tracked₂⟩
    have root₂ : m₂.spare.pa ≠ 0 := by
      rw [kept₂.spareRoot]
      exact notNull₁
    cases copied with
    | none =>
      apply wp_seq (kfree_kept kept₂)
      rintro _ m₃ ⟨kept₃, _⟩
      have root₃ : m₃.spare.pa ≠ 0 := by
        rw [kept₃.spareRoot]
        exact notNull₁
      apply wp_seq (procFreepagetable_spare_kept 0 kept₃ root₃)
      rintro _ m₄ ⟨kept₄, like₄⟩
      exact sound₁.of_like kept₄ like₄
    | some copied =>
      have sound₂ := sound₁.of_like kept₂.rebase kept₂.like
      have notNull := ne_zero_of_isFrame (isFrame_of_held kept₂.owned)
      rw [wp_bind, wp_read, wp_bind, wp_update]
      refine ⟨⟨kept₂.owned.mono (fun f => ?_) rfl, sound₂.tracked, sound₂.size, sound₂.framed,
        sound₂.root, sound₂.trapframe⟩, tracked₂ copied rfl, sound₂.size, kept₂.framed .spare framed₁,
        root₂, notNull⟩
      have pointed : pointer trapframe f ≤ if some trapframe = some f then 1 else 0 := by
        unfold pointer
        split_ifs <;> simp_all
      have nothing : (PageTable.empty 0).owners f = 0 := PageTable.null_owners f
      simp only [Machine.owners, Proc.owners, childOf, holding]
      omega

end SystemsSuite.Paging
