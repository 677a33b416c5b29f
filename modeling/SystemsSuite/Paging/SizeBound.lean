import SystemsSuite.Paging.LineageBooks

set_option autoImplicit false

namespace SystemsSuite.Paging

open Lib Prog

variable {b : Build} {m : Machine}

-- A page table, by its PTEs, that maps TRAMPOLINE and TRAPFRAME.
def FramesIn (ptes : Nat → Option Flags) : Prop :=
  ∀ vpn, (framePtes vpn).isSome = true → (ptes vpn).isSome = true

theorem FramesIn.low {ptes : Nat → Option Flags} (frames : FramesIn ptes) {va : Nat} (below : va < maxva)
    (absent : ptes (va / 4096) = none) : va < trapframeVa := by
  by_contra high
  have page : va / 4096 = trampolineVa / 4096 ∨ va / 4096 = trapframeVa / 4096 := by
    unfold trapframeVa trampolineVa maxva at *
    omega
  have mapped : (framePtes (va / 4096)).isSome = true := by
    rcases page with same | same <;> rw [same] <;> decide
  have here := frames _ mapped
  rw [absent] at here
  contradiction

theorem FramesIn.update {ptes : Nat → Option Flags} (frames : FramesIn ptes) (vpn : Nat) (flags : Flags) :
    FramesIn (Function.update ptes vpn (some flags)) := by
  intro vpn' frame
  rw [Function.update_apply]
  split_ifs
  · rfl
  · exact frames vpn' frame

theorem FramesIn.remove {ptes ptes' : Nat → Option Flags} (frames : FramesIn ptes)
    (kept : ∀ vpn, trapframeVa / 4096 ≤ vpn → ptes' vpn = ptes vpn) : FramesIn ptes' := by
  intro vpn frame
  by_cases high : trapframeVa / 4096 ≤ vpn
  · rw [kept vpn high]
    exact frames vpn frame
  · rw [framePtes_below (by omega)] at frame
    contradiction

-- An entry is about a page below MAXVA, and a resident one about a page below the trapframe.
def Entry.Placed (e : Entry) : Prop :=
  e.va < maxva ∧ e.va % 4096 = 0 ∧ (e.resident = true → e.va < trapframeVa)

theorem Entry.Placed.cleared : Entry.cleared.Placed := ⟨by decide, rfl, nofun⟩

-- Every entry is about a page of the process, and the process has its trapframe and trampoline.
structure Books.Framed (v : Books) : Prop where
  frames : FramesIn v.pte
  placed : ∀ e ∈ v.entries, e.Placed

namespace Books

variable {v v' : Books}

theorem entryAt_mem (v : Books) (i : Nat) : v.entryAt i = .cleared ∨ v.entryAt i ∈ v.entries := by
  unfold entryAt
  rw [List.getD_eq_getElem?_getD]
  cases here : v.entries[i]? with
  | none => exact .inl rfl
  | some e => exact .inr (List.mem_iff_getElem?.mpr ⟨i, here⟩)

theorem Obtain.placed {ok : Bool} (obtained : v.Obtain ok v') (placed : ∀ e ∈ v.entries, e.Placed) :
    ∀ e ∈ v'.entries, e.Placed := by
  intro e member
  rcases obtained.mem member with rfl | ⟨old, before, va, _, resident⟩
  · exact .cleared
  · have place := placed old before
    rw [Entry.Placed, va]
    exact ⟨place.1, place.2.1, fun here => place.2.2 (resident here)⟩

namespace Framed

theorem victim (framed : v.Framed) {best : Nat} (victim : v.Victim best) :
    (v.entryAt best).va / 4096 < trapframeVa / 4096 := by
  rcases v.entryAt_mem best with cleared | member
  · have resident := victim.1
    rw [cleared] at resident
    contradiction
  · have placed := framed.placed _ member
    have low := placed.2.2 victim.1
    unfold trapframeVa trampolineVa maxva at *
    omega

theorem evict {ok : Bool} (framed : v.Framed) (evict : v.Evict ok v') : v'.Framed := by
  have dropped {best : Nat} (victim : v.Victim best) :
      FramesIn (Function.update v.pte ((v.entryAt best).va / 4096) none) := by
    have low := framed.victim victim
    exact framed.frames.remove fun vpn high => Function.update_of_ne (by omega) ..
  refine ⟨?_, evict.obtained.placed framed.placed⟩
  cases evict with
  | nothing => exact framed.frames
  | stale => exact framed.frames
  | discarded best _ victim => exact dropped victim
  | saved best _ slot bitmap victim =>
    have key : ((v.saved best slot bitmap).entryAt best).va = (v.entryAt best).va := by
      unfold saved entryAt
      rw [getD_modify]
      split_ifs <;> rfl
    change FramesIn (Function.update v.pte (((v.saved best slot bitmap).entryAt best).va / 4096) none)
    rw [key]
    exact dropped victim

theorem obtain_ {ok : Bool} (framed : v.Framed) (obtained : v.Obtain ok v') : v'.Framed := by
  cases obtained with
  | free => exact framed
  | evicted _ _ evict => exact framed.evict evict
  | failed _ evict => exact framed.evict evict

theorem noted (framed : v.Framed) {va : Nat} (below : va < maxva) (aligned : va % 4096 = 0) :
    (v.noted va).Framed := by
  refine ⟨?_, fun e member => ?_⟩
  · rw [noted_pte]
    exact framed.frames
  · rcases mem_noted member with old | rfl
    · exact framed.placed e old
    · exact ⟨below, aligned, nofun⟩

theorem mapped (framed : v.Framed) (t : Target) (va : Nat) (flags : Flags) : (v.mapped t va flags).Framed := by
  cases t with
  | own => exact ⟨framed.frames.update _ flags, framed.placed⟩
  | spare => exact ⟨framed.frames, framed.placed⟩

theorem madeResident (framed : v.Framed) {va : Nat} (low : va < trapframeVa) (flags : Flags) :
    (v.madeResident va flags).Framed := by
  refine ⟨?_, fun e member => ?_⟩
  · rw [madeResident_eq]
    exact framed.frames
  · rcases mem_madeResident member with old | ⟨old, before, rfl, rfl⟩
    · exact framed.placed e old
    · have placed := framed.placed old before
      exact ⟨placed.1, placed.2.1, fun _ => low⟩

theorem installed (framed : v.Framed) (t : Target) {va : Nat} (aligned : va % 4096 = 0)
    (low : va < trapframeVa) (flags : Flags) : (v.installed t va flags).Framed :=
  ((framed.mapped t va flags).noted (low.trans (by decide)) aligned).madeResident low flags

theorem fault {va : Nat} {acc : Access} {ok : Bool} (framed : m.books.Framed)
    (faulted : m.books.Faulted (pgrounddown va) acc ok v') : v'.Framed := by
  have aligned : pgrounddown va % 4096 = 0 := Nat.mul_mod_left _ _
  have low (below : pgrounddown va < maxva) (absent : m.books.pte (pgrounddown va / 4096) = none) :
      pgrounddown va < trapframeVa := framed.frames.low below absent
  cases faulted with
  | refused => exact framed
  | widened flags here =>
    have inside := (PageTable.leaf_of_ptes here).1
    exact (framed.mapped .own _ _).noted (by unfold maxva at *; omega) aligned
  | madeExec => exact framed.mapped .own _ _
  | starved _ _ obtained => exact framed.obtain_ obtained
  | zeroStarved _ _ _ obtained below => exact (framed.noted below aligned).obtain_ obtained
  | swappedIn seg i v₁ absent _ found _ obtained below =>
    have framed₁ := framed.obtain_ obtained
    obtain ⟨e, here, key⟩ := find_spec ((obtained.find _).trans found)
    refine ⟨framed₁.frames.update _ _, fun e' member => ?_⟩
    rcases mem_modify (v := v₁) member with old | ⟨old, before, at_, rfl⟩
    · exact framed₁.placed e' old
    · rw [here] at at_
      obtain rfl := Option.some.inj at_
      have placed := framed₁.placed e before
      refine ⟨placed.1, placed.2.1, fun _ => ?_⟩
      have user := low below absent
      rw [← key] at user
      exact user
  | loaded seg v₁ absent _ _ obtained below =>
    exact (framed.obtain_ obtained).installed .own aligned (low below absent) _
  | zeroed v₁ absent _ _ obtained below =>
    exact ((framed.noted below aligned).obtain_ obtained).installed .own aligned (low below absent) _

theorem grow {t : Target} {perm : Flags} {n a stop : Nat} {ok : Bool} (framed : v.Framed)
    (grow : Grow t perm n a v ok stop v') (frames : FramesIn (v.ptes t)) (aligned : a % 4096 = 0) :
    v'.Framed ∧ (a ≤ trapframeVa → stop ≤ trapframeVa) := by
  induction grow with
  | done => exact ⟨framed, id⟩
  | starved _ _ _ _ obtained => exact ⟨framed.obtain_ obtained, id⟩
  | page n a stop ok v v₁ _ obtained absent below _ ih =>
    have framed₁ := framed.obtain_ obtained
    have frames₁ : FramesIn (v₁.ptes t) := by
      cases t with
      | own => exact framed₁.frames
      | spare =>
        change FramesIn v₁.spare
        rw [obtained.spare]
        exact frames
    have user := frames₁.low below absent
    have frames₂ : FramesIn ((v₁.installed t a perm).ptes t) := by
      rw [installed_eq]
      cases t with
      | own => exact frames₁.update _ _
      | spare => exact frames₁.update _ _
    have later := ih (framed₁.installed t aligned user perm) frames₂ (by omega)
    refine ⟨later.1, fun _ => later.2 ?_⟩
    unfold trapframeVa trampolineVa maxva at *
    omega

theorem unmapped (framed : v.Framed) {a n : Nat} (high : a / 4096 + n ≤ trapframeVa / 4096) :
    (v.unmapped .own a n).Framed :=
  ⟨framed.frames.remove fun _ above => if_neg (by omega), framed.placed⟩

theorem moved {n t : Nat} {ok : Bool} (framed : v.Framed) (small : v.image.sz ≤ trapframeVa)
    (fits : u32 t ≠ sbrkEager → ¬ isNegative n → v.image.sz + u32 n ≤ trapframeVa)
    (moved : Moved n t v ok v') : v'.Framed ∧ v'.image.sz ≤ trapframeVa := by
  have start := pgroundup_aligned v.image.sz
  have low := pgroundup_le_trapframe small
  cases moved with
  | kept => exact ⟨framed, small⟩
  | refused => exact ⟨framed, small⟩
  | shrunk _ smaller =>
    have range : pgroundup (v.newSize n) / 4096 + pagesOver v.image.sz (v.newSize n) ≤
        trapframeVa / 4096 := by
      have bottom := pgroundup_le_trapframe (smaller.le.trans small)
      rw [pagesOver_of_lt smaller]
      omega
    have shrunk := framed.unmapped range
    exact ⟨⟨shrunk.frames, shrunk.placed⟩, smaller.le.trans small⟩
  | grown stop w _ _ _ grow =>
    have grown := framed.grow grow framed.frames start
    have last := grown.2 low
    have whole := grow.stop_range.2.2.2 rfl
    refine ⟨⟨grown.1.frames, grown.1.placed⟩, ?_⟩
    change v.newSize n ≤ trapframeVa
    unfold growPages at whole
    omega
  | failed stop w _ _ _ grow =>
    have grown := framed.grow grow framed.frames start
    have last := grown.2 low
    have range := grow.stop_range
    refine ⟨grown.1.unmapped (by omega), ?_⟩
    rw [unmapped_image, grow.image]
    exact small
  | lazy notEager positive =>
    have size := throughInt_positive positive
    have room := fits notEager positive
    refine ⟨⟨framed.frames, framed.placed⟩, ?_⟩
    change u64 (v.image.sz + throughInt n) ≤ trapframeVa
    rw [size.1]
    exact (Nat.mod_le _ _).trans room

theorem sbrk {n t : Nat} {ok : Bool} (framed : v.Framed) (small : v.image.sz ≤ trapframeVa)
    (fits : u32 t ≠ sbrkEager → ¬ isNegative n → v.image.sz + u32 n ≤ trapframeVa)
    (sbrk : Sbrk n t v ok v') : v'.Framed ∧ v'.image.sz ≤ trapframeVa := by
  cases sbrk with
  | failed _ moved => exact framed.moved small fits moved
  | unmoved _ moved => exact framed.moved small fits moved
  | moved _ moved =>
    have after := framed.moved small fits moved
    exact ⟨⟨after.1.frames, after.1.placed⟩, after.2⟩

theorem born {im : Proc} (born : m.books.Born im v') : v'.Framed := by
  induction born with
  | blank =>
    refine ⟨fun _ => id, fun e member => ?_⟩
    rw [List.eq_of_mem_replicate member]
    exact .cleared
  | copied w i flags _ aligned here absent ih =>
    have inside := (PageTable.leaf_of_ptes here).1
    exact ih.installed .own aligned (ih.frames.low (by unfold maxva at *; omega) absent) flags

theorem of_alike (framed : v.Framed) (alike : v.Alike v') : v'.Framed := by
  refine ⟨?_, ?_⟩
  · rw [alike.pte]
    exact framed.frames
  · rw [alike.entries]
    exact framed.placed

theorem execFailed {file : Option Inode} (framed : v.Framed) (failed : v.ExecFailed file v') :
    v'.Framed := by
  cases failed with
  | early alike => exact framed.of_alike alike
  | late guard stop ok w w' stack before frames grow after =>
    have spare : FramesIn (w.ptes .spare) := by
      change FramesIn w.spare
      rw [frames]
      exact fun _ => id
    exact ((framed.of_alike before).grow grow spare (stackAt_aligned stack)).1.of_alike after

theorem fresh (fresh : v.Fresh) : v.Framed := by
  refine ⟨?_, fun e member => ?_⟩
  · rw [fresh.pte]
    have frames : FramesIn framePtes := fun _ => id
    exact (frames.update _ _).update _ _
  · rw [fresh.entries] at member
    rw [List.eq_of_mem_replicate member]
    exact .cleared

end Framed

end Books

-- The mappings from the trapframe on are the same in both tables.
def Machine.SameHigh (m m' : Machine) : Prop :=
  ∀ t va, trapframeVa ≤ va → va < maxva → (m'.table t).leaf va = (m.table t).leaf va

theorem Machine.SameHigh.refl (m : Machine) : m.SameHigh m := fun _ _ _ _ => rfl

theorem Machine.SameHigh.trans {m' m'' : Machine} (first : m.SameHigh m') (second : m'.SameHigh m'') :
    m.SameHigh m'' :=
  fun t va high below => (second t va high below).trans (first t va high below)

theorem Machine.SameHigh.of_core {m' : Machine} (core : m'.core = m.core) : m.SameHigh m' := by
  intro t va _ _
  rw [Machine.table_of_core core t]

theorem Unmapped.sameHigh {t : Target} {a n : Nat} {m' : Machine} (unmapped : Unmapped t a n m m')
    (small : a / 4096 + n ≤ trapframeVa / 4096) : m.SameHigh m' := by
  intro t' va high below
  by_cases same : t' = t
  · subst same
    apply unmapped.kept va below
    unfold within
    omega
  · rw [unmapped.other t' same]

theorem Tracked.placed (tracked : Tracked m.proc.pgmeta) : ∀ e ∈ m.books.entries, e.Placed := by
  intro e member
  obtain ⟨old, before, rfl⟩ := List.mem_map.mp member
  exact tracked old before

theorem Books.Framed.tracked (framed : m.books.Framed) : Tracked m.proc.pgmeta :=
  fun e member => framed.placed e.entry (List.mem_map_of_mem member)

theorem Evicted.sameHigh {ok : Bool} {m' : Machine} (evicted : Evicted b m ok m')
    (tracked : Tracked m.proc.pgmeta) : m.SameHigh m' := by
  have dropped {m₁ : Machine} {best : Nat} {leaf : Leaf} (core : m₁.proc.pagetable = m.proc.pagetable)
      (spare : m₁.spare = m.spare) (picked : (m.victim b).1 = some best)
      (here : m.proc.pagetable.leaf (metaAt (m.victim b).2 best).va = some leaf) :
      m.SameHigh (m₁.dropped best (metaAt (m.victim b).2 best).va leaf.pa) := by
    have placed : (metaAt (m.victim b).2 best).Placed :=
      (tracked.selectVictim b.policy m.proc.pageSeqCtr m.proc.clockHand).metaAt best
    have low : (metaAt (m.victim b).2 best).va < trapframeVa :=
      placed.2.2 (selectVictim_evictable picked).1
    have reached : (m.proc.pagetable.walk (metaAt (m.victim b).2 best).va).isSome = true := by
      rw [PageTable.walk, Radix.find_of_value here]
      rfl
    intro t va high below
    cases t with
    | spare => exact congrArg (fun pt : PageTable => pt.leaf va) spare
    | own =>
      change (m₁.proc.pagetable.store _ .empty).leaf va = _
      rw [core, PageTable.leaf_store _ .empty placed.1 below reached, if_neg]
      · rfl
      · unfold trapframeVa trampolineVa maxva at *
        omega
  cases evicted with
  | noVictim => exact fun t _ _ _ => by cases t <;> rfl
  | stale => exact fun t _ _ _ => by cases t <;> rfl
  | unsaved best leaf m' _ _ failed => cases failed <;> exact fun t _ _ _ => by cases t <;> rfl
  | discarded best leaf picked _ here => exact dropped rfl rfl picked here
  | saved best leaf m₁ picked _ here saved =>
    cases saved
    exact dropped rfl rfl picked here

theorem kallocOrEvict_sameHigh (tracked : Tracked m.proc.pgmeta) :
    wp (kallocOrEvict b) (fun _ m' => Tracked m'.proc.pgmeta ∧ m.SameHigh m') (fun e => e = .kfree) m := by
  apply wp_mono (wp_and (kallocOrEvict_outcome tracked) kallocOrEvict_books) _ fun _ panics => panics.1
  rintro r m' ⟨outcome, obtained⟩
  refine ⟨fun e member => ?_, ?_⟩
  · exact obtained.placed tracked.placed e.entry (List.mem_map_of_mem member)
  · cases outcome with
    | free _ _ allocated => exact .of_core allocated.core
    | evicted _ _ _ _ evicted allocated =>
      exact (evicted.sameHigh tracked).trans (.of_core allocated.core)
    | failed _ _ evicted => exact evicted.sameHigh tracked

theorem copyFailed_sameHigh {i : Nat} (small : i ≤ trapframeVa) :
    wp (copyFailed b i) (fun _ m' => m.SameHigh m') (fun e => e ≠ .walk) m := by
  have range : 0 + i / 4096 * 4096 ≤ trapframeVa := by omega
  unfold copyFailed
  apply wp_seq (wp_mono (uvmunmap_effect .spare true rfl (range.trans (by decide)))
    (fun _ _ unmapped => unmapped.sameHigh (by omega)) ?_)
  · exact fun _ _ same => same
  · rintro e ⟨rfl, _⟩
    exact nofun

theorem copyLoop_sameHigh (n i : Nat) (c : Copied) (small : i + n * 4096 ≤ trapframeVa)
    (tracked : Tracked m.proc.pgmeta) :
    wp (copyLoop b n i c) (fun _ m' => m.SameHigh m') (fun e => e ≠ .walk) m := by
  induction n generalizing i c m with
  | zero => exact .refl m
  | succ n ih =>
    have skip := ih (i + 4096) c (by omega) tracked
    have undo {m' : Machine} (same : m.SameHigh m') :
        wp (copyFailed b i) (fun _ m' => m.SameHigh m') (fun e => e ≠ .walk) m' :=
      wp_mono (copyFailed_sameHigh (by omega)) (fun _ _ after => same.trans after) fun _ panics => panics
    rw [copyLoop, wp_bind, wp_walk]
    refine ⟨fun high => ?_, fun below => ?_⟩
    · unfold trapframeVa trampolineVa at small
      omega
    cases (m.table .own).walk i with
    | none => exact skip
    | some node =>
      cases node with
      | empty => exact skip
      | leaf leaf =>
        apply wp_seq (wp_mono (kallocOrEvict_sameHigh tracked) (fun _ _ after => after) (by simp))
        rintro r m₁ ⟨tracked₁, same₁⟩
        cases r with
        | none => exact undo same₁
        | some mem =>
          simp only
          rw [wp_bind, copyPage, wp_update]
          apply wp_seq (wp_mono (mappages_effect .spare i mem leaf.flags) (fun _ _ after => after) ?_)
          · rintro ok m₂ ⟨absent, _, step⟩
            have same₂ : m₁.SameHigh m₂ := by
              intro t va high below'
              by_cases spare : t = .spare
              · subst spare
                rw [step.leaf va below']
                cases ok with
                | false => rfl
                | true =>
                  exact if_neg (by omega)
              · rw [step.other t spare]
                cases t <;> rfl
            cases ok with
            | true =>
              have tracked₂ : Tracked m₂.proc.pgmeta := by
                have entries := congrArg (fun c : Core => c.proc.pgmeta) step.rest
                change m₂.proc.pgmeta = m₁.proc.pgmeta at entries
                rw [entries]
                exact tracked₁
              exact wp_mono (ih (i + 4096) (c.record i leaf.flags) (by omega) tracked₂)
                (fun _ _ after => (same₁.trans same₂).trans after) fun _ panics => panics
            | false =>
              apply wp_seq (wp_mono (kfree_effect mem) (fun _ _ core => core) (by simp))
              intro _ m₃ core₃
              exact undo ((same₁.trans same₂).trans (.of_core core₃))
          · rintro e (⟨rfl, _⟩ | ⟨rfl, high⟩ | ⟨rfl, _⟩)
            · simp
            · omega
            · simp

theorem uvmcopy_sameHigh {sz : Nat} (child : Copied) (small : sz ≤ trapframeVa)
    (tracked : Tracked m.proc.pgmeta) :
    wp (uvmcopy b sz child) (fun _ m' => m.SameHigh m') (fun e => e ≠ .walk) m := by
  apply copyLoop_sameHigh _ 0 child _ tracked
  unfold trapframeVa trampolineVa maxva at *
  omega

theorem uvmdealloc_sameHigh {oldsz : Nat} (newsz : Nat) (small : oldsz ≤ trapframeVa) :
    wp (uvmdealloc b .own oldsz newsz) (fun _ m' => m.SameHigh m') (fun e => e ≠ .walk) m := by
  apply wp_mono (uvmdealloc_effect .own oldsz newsz small)
  · rintro _ m' (rfl | ⟨n, unmapped, range⟩)
    · exact .refl m'
    · have top := pgroundup_le_trapframe small
      have start := pgroundup_aligned newsz
      exact unmapped.sameHigh (by omega)
  · rintro e rfl
    exact nofun

theorem uvmunmap_sameHigh {sz : Nat} (small : sz ≤ trapframeVa) :
    wp (uvmunmap b .own 0 (pgroundup sz / 4096) true) (fun _ m' => m.SameHigh m')
      (fun e => e ≠ .walk) m := by
  have top := pgroundup_le_trapframe small
  have highest : trapframeVa ≤ maxva := by decide
  apply wp_mono (uvmunmap_effect .own true rfl (by omega))
  · exact fun _ _ unmapped => unmapped.sameHigh (by omega)
  · rintro e ⟨rfl, _⟩
    exact nofun

theorem freeList_panics (frames : List Nat) :
    wp (freeList b frames) (fun _ _ => True) (fun e => e ≠ .walk) m := by
  induction frames generalizing m with
  | nil => trivial
  | cons pa rest ih =>
    apply wp_seq (wp_mono (kfree_effect pa) (fun _ _ core => core) (by simp))
    exact fun _ _ _ => ih

theorem uvmfree_panics {sz : Nat} (small : sz ≤ trapframeVa) :
    wp (uvmfree b .own sz) (fun _ _ => True) (fun e => e ≠ .walk) m := by
  unfold uvmfree freewalk
  split_ifs
  · exact wp_seq (uvmunmap_sameHigh small) fun _ _ _ => freeList_panics _
  · exact freeList_panics _

theorem recordAlloc_sameHigh (a : Nat) (perm : Flags) {E : Panic → Prop} :
    wp (recordAlloc a perm) (fun _ m' => m.SameHigh m') E m := by
  unfold recordAlloc
  rw [wp_bind, wp_read, wp_bind]
  cases (pgmetaAlloc m.proc.pgmeta a).2 <;> exact fun t _ _ _ => by cases t <;> rfl

theorem allocPage_sameHigh {a : Nat} (perm : Flags) (framed : m.books.Framed) (aligned : a % 4096 = 0)
    (low : a ≤ trapframeVa) :
    wp (allocPage b .own a perm) (fun ok m' => m.SameHigh m' ∧ m'.books.Framed ∧
      (ok = true → a + 4096 ≤ trapframeVa)) (fun e => e ≠ .walk) m := by
  have books : wp (allocPage b .own a perm) (fun ok m' => m'.books.Framed ∧
      (ok = true → a + 4096 ≤ trapframeVa)) (fun _ => True) m := by
    apply wp_mono (allocPage_books .own a perm) _ fun _ panics => panics
    intro ok m' granted
    cases ok with
    | false => exact ⟨framed.obtain_ granted, nofun⟩
    | true =>
      obtain ⟨v, obtained, absent, below, installed⟩ := granted
      have framed' := framed.obtain_ obtained
      have user := framed'.frames.low below absent
      rw [installed]
      refine ⟨framed'.installed .own aligned user perm, fun _ => ?_⟩
      unfold trapframeVa trampolineVa maxva at *
      omega
  have high : wp (allocPage b .own a perm) (fun _ m' => m.SameHigh m') (fun e => e ≠ .walk) m := by
    unfold allocPage
    apply wp_seq (wp_mono (wp_and (kallocOrEvict_sameHigh framed.tracked) kallocOrEvict_books)
      (fun _ _ after => after) (by simp))
    rintro r m₁ ⟨⟨_, same₁⟩, obtained⟩
    have frames₁ := (framed.obtain_ obtained).frames
    cases r with
    | none => exact same₁
    | some pa =>
      simp only
      rw [wp_bind, wp_memset]
      apply wp_seq (wp_mono (mappages_effect .own a pa perm) (fun _ _ after => after) ?_)
      · rintro ok m₂ ⟨absent, below, step⟩
        have same₂ : m.SameHigh m₂ := by
          refine same₁.trans fun t va above below' => ?_
          by_cases own : t = .own
          · subst own
            rw [step.leaf va below']
            cases ok with
            | false => rfl
            | true =>
              have unmapped : m₁.books.pte (a / 4096) = none := by
                refine (PageTable.ptes_leaf _ below).trans ?_
                have none_ : m₁.proc.pagetable.leaf a = none := absent rfl
                rw [none_]
                rfl
              have user := frames₁.low below unmapped
              have whole : trapframeVa % 4096 = 0 := by decide
              exact if_neg (by omega)
          · rw [step.other t own]
            cases t <;> rfl
        cases ok with
        | true =>
          apply wp_seq (recordAlloc_sameHigh a perm)
          exact fun _ m₃ same₃ => same₂.trans same₃
        | false =>
          apply wp_seq (wp_mono (kfree_effect pa) (fun _ _ core => core) (by simp))
          intro _ m₃ core₃
          exact same₂.trans (.of_core core₃)
      · rintro e (⟨rfl, _⟩ | ⟨rfl, above⟩ | ⟨rfl, _⟩)
        · exact nofun
        · unfold trapframeVa trampolineVa maxva at *
          omega
        · exact nofun
  exact wp_mono (wp_and high books) (fun _ _ both => both) fun _ panics => panics.1

theorem allocLoop_sameHigh (start newsz : Nat) (perm : Flags) (n a : Nat) (framed : m.books.Framed)
    (aligned : a % 4096 = 0) (low : a ≤ trapframeVa) :
    wp (allocLoop b .own start newsz perm n a) (fun _ m' => m.SameHigh m') (fun e => e ≠ .walk) m := by
  induction n generalizing a m with
  | zero => exact .refl m
  | succ n ih =>
    rw [allocLoop_succ]
    apply wp_seq (allocPage_sameHigh perm framed aligned low)
    rintro ok m₁ ⟨same₁, framed₁, next⟩
    cases ok with
    | true =>
      exact wp_mono (ih (a + 4096) framed₁ (by omega) (next rfl)) (fun _ _ after => same₁.trans after)
        fun _ panics => panics
    | false =>
      apply wp_seq (uvmdealloc_sameHigh start low)
      exact fun _ _ after => same₁.trans after

theorem growproc_sameHigh (n : Nat) (framed : m.books.Framed) (small : m.proc.sz ≤ trapframeVa) :
    wp (growproc b n) (fun _ m' => m.SameHigh m') (fun e => e ≠ .walk) m := by
  have resized {m' : Machine} (same : m.SameHigh m') (sz : Nat) :
      m.SameHigh { m' with proc := { m'.proc with sz := sz } } :=
    same.trans fun t _ _ _ => by cases t <;> rfl
  unfold growproc
  rw [wp_bind, wp_read]
  split_ifs with zero negative
  · exact resized (.refl m) _
  · apply wp_seq (uvmdealloc_sameHigh _ small)
    exact fun _ _ same => resized same _
  · have grown : wp (uvmalloc b .own m.proc.sz (u64 (m.proc.sz + throughInt n)) ⟨false, true, false, false⟩)
        (fun _ m' => m.SameHigh m') (fun e => e ≠ .walk) m := by
      unfold uvmalloc
      split_ifs
      · exact .refl m
      · exact allocLoop_sameHigh _ _ _ _ _ framed (pgroundup_aligned _) (pgroundup_le_trapframe small)
    apply wp_seq grown
    intro sz m₁ same
    split_ifs
    · exact same
    · exact resized same sz

theorem sysSbrk_sameHigh (n t : Nat) (framed : m.books.Framed) (small : m.proc.sz ≤ trapframeVa) :
    wp (sysSbrk b n t) (fun _ m' => m.SameHigh m') (fun e => e ≠ .walk) m := by
  have moved : wp (moveSize b n t) (fun _ m' => m.SameHigh m') (fun e => e ≠ .walk) m := by
    unfold moveSize
    rw [wp_bind, wp_read]
    by_cases branch : u32 t = sbrkEager ∨ isNegative n
    · rw [if_pos branch]
      exact growproc_sameHigh n framed small
    · rw [if_neg branch]
      by_cases wrapped : u64 (m.proc.sz + throughInt n) < m.proc.sz
      · rw [if_pos wrapped]
        exact .refl m
      · rw [if_neg wrapped]
        exact fun t _ _ _ => by cases t <;> rfl
  unfold sysSbrk
  rw [wp_bind, wp_read]
  apply wp_seq moved
  intro ok m₁ same
  cases ok with
  | false => exact same
  | true =>
    rw [if_pos rfl, wp_bind, wp_modifyProc, wp_pure]
    split_ifs
    · exact same
    · exact same.trans fun t _ _ _ => by cases t <;> rfl

-- What works on the memory of the process walks no address from MAXVA on and leaves the mappings from TRAPFRAME on
-- alone.
structure Machine.StaysLow (b : Build) (m : Machine) : Prop where
  copy : ∀ child, wp (uvmcopy b m.proc.sz child) (fun _ m' => m.SameHigh m') (fun e => e ≠ .walk) m
  dealloc : ∀ newsz, wp (uvmdealloc b .own m.proc.sz newsz) (fun _ m' => m.SameHigh m')
    (fun e => e ≠ .walk) m
  unmap : wp (uvmunmap b .own 0 (pgroundup m.proc.sz / 4096) true) (fun _ m' => m.SameHigh m')
    (fun e => e ≠ .walk) m
  free : wp (uvmfree b .own m.proc.sz) (fun _ _ => True) (fun e => e ≠ .walk) m
  sbrk : ∀ n t, wp (sysSbrk b n t) (fun _ m' => m.SameHigh m') (fun e => e ≠ .walk) m

def Machine.KeepsSize (m : Machine) : Event → Prop
  | .sbrk n t => u32 t ≠ sbrkEager → ¬ isNegative n → m.proc.sz + u32 n ≤ trapframeVa
  | _ => True

instance (m : Machine) : (e : Event) → Decidable (m.KeepsSize e)
  | .sbrk _ _ => inferInstanceAs (Decidable (_ → ¬ _ → _))
  | .other _ _ _ | .setSp _ | .fault _ _ | .evict | .fork _ _ | .exec _ _ _ =>
    inferInstanceAs (Decidable True)

theorem Books.Framed.happens {e : Event} {v' : Books}
    (framed : m.books.Framed ∧ m.books.image.sz ≤ trapframeVa) (keeps : m.KeepsSize e)
    (happens : m.books.Happens e v') : v'.Framed ∧ v'.image.sz ≤ trapframeVa := by
  obtain ⟨framed, small⟩ := framed
  cases happens with
  | other => exact ⟨framed, small⟩
  | setSp sp => exact ⟨⟨framed.frames, framed.placed⟩, small⟩
  | fault _ _ _ _ faulted =>
    rw [faulted.image]
    exact ⟨framed.fault faulted, small⟩
  | evict _ _ evict =>
    rw [evict.size]
    exact ⟨framed.evict evict, small⟩
  | sbrk _ _ _ _ sbrk => exact framed.sbrk small keeps sbrk
  | parent _ _ _ evictions =>
    rw [evictions.image]
    exact ⟨evictions.preserves (fun _ _ _ framed evict => framed.evict evict)
      (fun _ _ framed => ⟨framed.frames, framed.placed⟩) framed, small⟩
  | child _ _ born kin =>
    rw [kin.sz]
    exact ⟨.born born, small⟩
  | execed _ _ _ _ fresh => exact ⟨.fresh fresh, fresh.below⟩
  | execFailed _ _ _ _ failed =>
    rw [failed.size]
    exact ⟨framed.execFailed failed, small⟩

theorem size_below_trapframe {m₀ : Machine} (execed : m₀.Execed b)
    (reached : (m₀.lineage b).ReachableVia Machine.KeepsSize m) :
    m.proc.sz ≤ trapframeVa ∧ ∀ m' : Machine, m'.proc = m.proc → m'.StaysLow b := by
  have sized : m.books.Framed ∧ m.books.image.sz ≤ trapframeVa := by
    refine Machine.lineage_invariant (I := fun v => v.Framed ∧ v.image.sz ≤ trapframeVa) execed.fresh
      ⟨.fresh execed.fresh, execed.fresh.below⟩ ?_ reached
    exact fun m m' e framed keeps _ happens => Books.Framed.happens framed keeps happens
  refine ⟨sized.2, fun m' same => ?_⟩
  have small : m'.proc.sz ≤ trapframeVa := by
    rw [same]
    exact sized.2
  have framed : m'.books.Framed := by
    have pte : m'.books.pte = m.books.pte := congrArg (fun p : Proc => p.pagetable.ptes) same
    have entries : m'.books.entries = m.books.entries :=
      congrArg (fun p : Proc => p.pgmeta.map PageMeta.entry) same
    refine ⟨?_, ?_⟩
    · rw [pte]
      exact sized.1.frames
    · rw [entries]
      exact sized.1.placed
  exact ⟨fun child => uvmcopy_sameHigh child small framed.tracked,
    fun newsz => uvmdealloc_sameHigh newsz small, uvmunmap_sameHigh small, uvmfree_panics small,
    fun n t => sysSbrk_sameHigh n t framed small⟩

-- Eager and lazy growth, a shrink and a fork.
theorem size_below_trapframe_resized : ∃ m₀ m : Machine, m₀.Execed .small ∧
    (m₀.lineage .small).ReachableVia Machine.KeepsSize m ∧ m.proc.sz = 0x6000 ∧
    m.proc.sz ≤ trapframeVa ∧ m.StaysLow .small := by
  obtain ⟨m₀, m, execed, reached, shown⟩ := Machine.run_shows (b := .small) 40 (oneSegment 7) shortArgv
    [.sbrk 8192 1, .sbrk 8192 2, .sbrk (2 ^ 32 - 8192) 2, .fork (some 10) true]
    (fun m e => decide (m.KeepsSize e)) (fun _ m => decide (m.proc.sz = 0x6000))
    (fun m e => of_decide_eq_true) (by decide +kernel)
  have low := size_below_trapframe execed reached
  exact ⟨m₀, m, execed, reached, of_decide_eq_true shown, low.1, low.2 m rfl⟩

-- Lazy growth is only checked for wrapping around.
theorem lazy_size_passes_trapframe : ∃ m₀ m : Machine, m₀.Execed .small ∧
    (m₀.lineage .small).ReachableVia (fun _ e => ∃ n, e = .sbrk n 2) m ∧ trapframeVa < m.proc.sz := by
  have sound (_ : Machine) (e : Event) (checked : (match e with | .sbrk _ 2 => true | _ => false) = true) :
      ∃ n, e = .sbrk n 2 := by
    split at checked
    next n => exact ⟨n, rfl⟩
    next => contradiction
  obtain ⟨m₀, m, execed, reached, shown⟩ := Machine.run_shows (b := .small) 40 (oneSegment 7) shortArgv
    (List.replicate 129 (.sbrk (2 ^ 31 - 1) 2)) (fun _ e => match e with | .sbrk _ 2 => true | _ => false)
    (fun _ m => decide (trapframeVa < m.proc.sz)) sound (by decide +kernel)
  exact ⟨m₀, m, execed, reached, of_decide_eq_true shown⟩

end SystemsSuite.Paging
