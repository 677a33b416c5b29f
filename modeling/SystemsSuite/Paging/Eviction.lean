import SystemsSuite.Paging.Effects

set_option autoImplicit false

namespace SystemsSuite.Paging

open Lib Prog

-- An entry is about a page below MAXVA, and a resident one about a page below the trapframe.
def PageMeta.Placed (e : PageMeta) : Prop :=
  e.va < maxva ∧ e.va % 4096 = 0 ∧ (e.resident = true → e.va < trapframeVa)

def Tracked (metas : List PageMeta) : Prop := ∀ e ∈ metas, e.Placed

theorem PageMeta.Placed.cleared : PageMeta.cleared.Placed := ⟨by decide, rfl, nofun⟩

theorem Tracked.modify {metas : List PageMeta} (tracked : Tracked metas) (i : Nat)
    (f : PageMeta → PageMeta) (keeps : ∀ e, metas[i]? = some e → e.Placed → (f e).Placed) :
    Tracked (metas.modify i f) := by
  intro e member
  obtain ⟨j, here⟩ := List.mem_iff_getElem?.mp member
  rw [List.getElem?_modify] at here
  cases old : metas[j]? with
  | none => simp [old] at here
  | some e₀ =>
    have base := tracked e₀ (List.mem_iff_getElem?.mpr ⟨j, old⟩)
    rw [old] at here
    by_cases hit : i = j
    · subst hit
      simp at here
      rw [← here]
      exact keeps e₀ old base
    · simp [hit] at here
      rw [← here]
      exact base

theorem Tracked.set {metas : List PageMeta} (tracked : Tracked metas) (i : Nat) {e : PageMeta}
    (placed : e.Placed) : Tracked (metas.set i e) := by
  intro e' member
  rcases List.mem_or_eq_of_mem_set member with old | rfl
  · exact tracked e' old
  · exact placed

theorem Tracked.metaAt {metas : List PageMeta} (tracked : Tracked metas) (i : Nat) :
    (metaAt metas i).Placed := by
  unfold Paging.metaAt
  rw [List.getD_eq_getElem?_getD]
  cases here : metas[i]? with
  | none => exact .cleared
  | some e => exact tracked e (List.mem_iff_getElem?.mpr ⟨i, here⟩)

theorem Tracked.alloc {metas : List PageMeta} (tracked : Tracked metas) {vaPg : Nat}
    (below : vaPg < maxva) (aligned : vaPg % 4096 = 0) : Tracked (pgmetaAlloc metas vaPg).1 := by
  unfold pgmetaAlloc
  cases pgmetaFind metas vaPg with
  | some i => exact tracked
  | none =>
    cases pgmetaFind metas 0 with
    | none => exact tracked
    | some i => exact tracked.set i ⟨below, aligned, nofun⟩

theorem Tracked.clear {metas : List PageMeta} (tracked : Tracked metas) (i : Nat) :
    Tracked (pgmetaClear metas i) :=
  tracked.set i .cleared

theorem Tracked.clockScan {metas : List PageMeta} (tracked : Tracked metas) (left idx : Nat) :
    Tracked (clockScan left metas idx).2 := by
  induction left generalizing metas idx with
  | zero => exact tracked
  | succ left ih =>
    simp only [Paging.clockScan]
    split
    · exact tracked
    · apply ih
      split
      · exact tracked.set idx (tracked.metaAt idx)
      · exact tracked

theorem Tracked.selectVictim {metas : List PageMeta} (tracked : Tracked metas) (policy : Policy)
    (now hand : Nat) : Tracked (selectVictim policy metas now hand).2 := by
  cases policy with
  | fifo => exact tracked
  | clock => exact tracked.clockScan _ _

theorem Tracked.cleared : Tracked (List.replicate pgmetaSize .cleared) := by
  intro e member
  rw [List.eq_of_mem_replicate member]
  exact .cleared

def keys (metas : List PageMeta) : List Nat := metas.map PageMeta.va

theorem map_modify {α β : Type} (g : α → β) (l : List α) (i : Nat) {f : α → α} {h : β → β}
    (follows : ∀ a, g (f a) = h (g a)) : (l.modify i f).map g = (l.map g).modify i h := by
  induction l generalizing i with
  | nil => simp
  | cons head rest ih => cases i <;> simp [follows, ih]

theorem modify_id {α : Type} (l : List α) (i : Nat) : l.modify i id = l := by
  apply List.ext_getElem?
  intro j
  rw [List.getElem?_modify]
  cases l[j]? <;> simp

theorem map_modify_self {α β : Type} (g : α → β) (l : List α) (i : Nat) {f : α → α}
    (keeps : ∀ a, g (f a) = g a) : (l.modify i f).map g = l.map g := by
  rw [map_modify g l i (h := id) keeps, modify_id]

theorem keys_modify (metas : List PageMeta) (i : Nat) (f : PageMeta → PageMeta)
    (keeps : ∀ e, (f e).va = e.va) : keys (metas.modify i f) = keys metas :=
  map_modify_self PageMeta.va metas i keeps

theorem keys_set (metas : List PageMeta) (i : Nat) {e : PageMeta} (same : e.va = (metaAt metas i).va) :
    keys (metas.set i e) = keys metas := by
  apply List.ext_getElem?
  intro j
  unfold keys
  rw [List.getElem?_map, List.getElem?_map, List.getElem?_set]
  split_ifs with hit inside
  · subst hit
    simp [same, metaAt, List.getD_eq_getElem?_getD, inside]
  · subst hit
    simp [List.getElem?_eq_none (Nat.le_of_not_lt inside)]
  · rfl

theorem keys_clockScan (metas : List PageMeta) (left idx : Nat) :
    keys (clockScan left metas idx).2 = keys metas := by
  induction left generalizing metas idx with
  | zero => rfl
  | succ left ih =>
    simp only [clockScan]
    split
    · rfl
    · rw [ih]
      split
      · exact keys_set metas idx rfl
      · rfl

theorem keys_selectVictim (policy : Policy) (metas : List PageMeta) (now hand : Nat) :
    keys (selectVictim policy metas now hand).2 = keys metas := by
  cases policy with
  | fifo => rfl
  | clock => exact keys_clockScan metas _ _

theorem keys_find {metas : List PageMeta} {vaPg i : Nat} (found : pgmetaFind metas vaPg = some i) :
    (keys metas)[i]? = some vaPg := by
  obtain ⟨inside, hit, _⟩ := List.findIdx?_eq_some_iff_getElem.mp found
  unfold keys
  rw [List.getElem?_map, List.getElem?_eq_getElem inside, Option.map_some, of_decide_eq_true hit]

theorem keys_alloc {metas : List PageMeta} {vaPg i : Nat} (made : (pgmetaAlloc metas vaPg).2 = some i) :
    (keys (pgmetaAlloc metas vaPg).1)[i]? = some vaPg := by
  unfold pgmetaAlloc at made ⊢
  cases found : pgmetaFind metas vaPg with
  | some j =>
    rw [found] at made
    obtain rfl := Option.some.inj made
    exact keys_find found
  | none =>
    rw [found] at made
    cases free : pgmetaFind metas 0 with
    | none =>
      rw [free] at made
      contradiction
    | some j =>
      rw [free] at made
      obtain rfl := Option.some.inj made
      have inside : j < metas.length := (List.findIdx?_eq_some_iff_getElem.mp free).1
      simp [keys, inside]

theorem fifoScan_evictable (now : Nat) (metas rest : List PageMeta) (i : Nat)
    (best : Option (Nat × Nat)) (suffix : ∀ j, rest[j]? = metas[i + j]?)
    (good : ∀ k ∈ best, evictable (metaAt metas k.1) = true) :
    ∀ k ∈ fifoScan now i rest best, evictable (metaAt metas k.1) = true := by
  induction rest generalizing i best with
  | nil => exact good
  | cons e rest ih =>
    rw [fifoScan]
    apply ih
    · intro j
      have later := suffix (j + 1)
      rw [List.getElem?_cons_succ] at later
      rw [later]
      congr 1
      omega
    · intro k member
      split_ifs at member with picked
      · obtain rfl := Option.some.inj member
        have here := suffix 0
        rw [List.getElem?_cons_zero, Nat.add_zero] at here
        simp only [Bool.and_eq_true] at picked
        rw [metaAt, List.getD_eq_getElem?_getD, ← here]
        exact picked.1
      · exact good k member

theorem clockScan_evictable (left : Nat) (metas : List PageMeta) (idx : Nat) :
    ∀ k ∈ (clockScan left metas idx).1, evictable (metaAt (clockScan left metas idx).2 k) = true := by
  induction left generalizing metas idx with
  | zero => simp [clockScan]
  | succ left ih =>
    simp only [clockScan]
    split
    · next picked =>
      intro k member
      obtain rfl := Option.some.inj member
      rw [Bool.and_eq_true] at picked
      exact picked.1
    · exact ih _ _

theorem selectVictim_evictable {policy : Policy} {metas : List PageMeta} {now hand best : Nat}
    (picked : (selectVictim policy metas now hand).1 = some best) :
    (metaAt (selectVictim policy metas now hand).2 best).resident = true ∧
      (metaAt (selectVictim policy metas now hand).2 best).va ≠ 0 := by
  have evicted : evictable (metaAt (selectVictim policy metas now hand).2 best) = true := by
    cases policy with
    | fifo =>
      obtain ⟨k, found, rfl⟩ := Option.map_eq_some_iff.mp picked
      exact fifoScan_evictable now metas metas 0 none (by simp) (by simp) k found
    | clock => exact clockScan_evictable _ _ _ best picked
  simp only [evictable, Bool.and_eq_true, bne_iff_ne] at evicted
  exact ⟨evicted.2, evicted.1⟩

variable {b : Build} {m : Machine}

def Machine.setProc (m : Machine) (p : Proc) : Machine := { m with proc := p }

-- The victim, and the machine in which its choice has cleared referenced bits.
def Machine.victim (b : Build) (m : Machine) : Option Nat × List PageMeta :=
  selectVictim b.policy m.proc.pgmeta m.proc.pageSeqCtr m.proc.clockHand

def Machine.chosen (b : Build) (m : Machine) : Machine :=
  m.setProc { m.proc with pgmeta := (m.victim b).2 }

def Machine.unmapped (m : Machine) (va pa : Nat) : Machine :=
  (m.freed pa).setTable .own (m.proc.pagetable.store va .empty)

def Machine.dropped (m : Machine) (best va pa : Nat) : Machine :=
  (m.unmapped va pa).setProc { (m.unmapped va pa).proc with
    pgmeta := m.proc.pgmeta.modify best fun e => { e with resident := false, dirty := false }
    clockHand := (best + 1) % pgmetaSize }

-- A page written to `slot`, with the bitmap and the file that this leaves.
def Machine.swapped (m : Machine) (best slot : Nat) (bitmap : Bitmap) (ip : Inode) : Machine :=
  { m.setProc { m.proc with
      swapip := some ip
      swapBitmap := bitmap
      swapPages := m.proc.swapPages + 1
      pgmeta := m.proc.pgmeta.modify best fun e => { e with inSwap := true, slot := slot } } with
    writeBlocks := m.writeBlocks.tail }

theorem wp_unmapOne {Q : Unit → Machine → Prop} {E : Panic → Prop} {va : Nat} {leaf : Leaf}
    (below : va < maxva) (here : m.proc.pagetable.leaf va = some leaf)
    (unaligned : va % 4096 ≠ 0 → E .uvmunmapNotAligned) (panics : b.isFrame leaf.pa = false → E .kfree)
    (holds : b.isFrame leaf.pa = true → Q () (m.unmapped va leaf.pa)) :
    wp (uvmunmap b .own va 1 true) Q E m := by
  have once : (u64 (va + u64 (1 * 4096)) - va) / 4096 = 1 := by
    unfold u64 maxva at *
    omega
  have found : (m.table .own).walk va = some (.leaf leaf) := Radix.find_of_value here
  unfold uvmunmap
  by_cases aligned : va % 4096 ≠ 0
  · rw [if_pos aligned]
    exact unaligned aligned
  · rw [if_neg aligned, once, unmapLoop, unmapLoop, wp_bind]
    unfold unmapPage
    rw [wp_bind, wp_walk]
    refine ⟨fun high => absurd below (by omega), fun _ => ?_⟩
    rw [found]
    simp only [if_true, wp_bind]
    unfold kfree
    cases isFrame : b.isFrame leaf.pa with
    | true => exact holds isFrame
    | false => exact panics isFrame

inductive SwapFailed (m : Machine) (pa : Nat) : Machine → Prop
  | noFile : m.proc.swapip = none → SwapFailed m pa (m.setProc { m.proc with killed := true })
  | full (ip : Inode) : m.proc.swapip = some ip → swapAllocSlot m.proc.swapBitmap = none →
      SwapFailed m pa (m.setProc { m.proc with killed := true })
  | short (ip ip' : Inode) (slot : Nat) (bitmap : Bitmap) (r : Option Nat) :
      m.proc.swapip = some ip → swapAllocSlot m.proc.swapBitmap = some (slot, bitmap) →
      writei ip (m.mem pa) (slot * 4096) 4096 (m.writeBlocks.headD 5) = (r, ip') → r ≠ some 4096 →
      SwapFailed m pa { m.setProc { m.proc with
          swapip := some ip'
          swapBitmap := swapFreeSlot bitmap slot } with
        writeBlocks := m.writeBlocks.tail }

inductive SwapSaved (m : Machine) (best pa : Nat) : Machine → Prop
  | saved (ip ip' : Inode) (slot : Nat) (bitmap : Bitmap) :
      m.proc.swapip = some ip → swapAllocSlot m.proc.swapBitmap = some (slot, bitmap) →
      writei ip (m.mem pa) (slot * 4096) 4096 (m.writeBlocks.headD 5) = (some 4096, ip') →
      SwapSaved m best pa (m.swapped best slot bitmap ip')

theorem swapOut_outcome (best pa : Nat) {E : Panic → Prop} :
    wp (swapOut best pa) (fun ok m' =>
      ok = false ∧ SwapFailed m pa m' ∨ ok = true ∧ SwapSaved m best pa m') E m := by
  unfold swapOut
  rw [wp_bind, wp_read]
  cases file : m.proc.swapip with
  | none => exact .inl ⟨rfl, .noFile file⟩
  | some ip =>
    cases found : swapAllocSlot m.proc.swapBitmap with
    | none => exact .inl ⟨rfl, .full ip file found⟩
    | some taken =>
      simp only [wp_bind, modifyProc, modifyMeta, wp_update, writeSwap, wp_read, wp_pure]
      by_cases written : (writei ip (m.mem pa) (taken.1 * 4096) 4096 (m.writeBlocks.headD 5)).1 = some 4096
      · rw [if_pos written]
        exact .inr ⟨rfl, .saved ip _ taken.1 taken.2 file found (Prod.ext written rfl)⟩
      · rw [if_neg written]
        exact .inl ⟨rfl, .short ip _ taken.1 taken.2 _ file found rfl written⟩

-- The ways an eviction can end, with the machine each leaves.
inductive Evicted (b : Build) (m : Machine) : Bool → Machine → Prop
  | noVictim : (m.victim b).1 = none → Evicted b m false (m.chosen b)
  | stale (best : Nat) : (m.victim b).1 = some best →
      m.proc.pagetable.leaf (metaAt (m.victim b).2 best).va = none →
      Evicted b m false
        ((m.chosen b).setProc { (m.chosen b).proc with pgmeta := pgmetaClear (m.victim b).2 best })
  | unsaved (best : Nat) (leaf : Leaf) (m' : Machine) : (m.victim b).1 = some best →
      m.proc.pagetable.leaf (metaAt (m.victim b).2 best).va = some leaf →
      SwapFailed (m.chosen b) leaf.pa m' → Evicted b m false m'
  | discarded (best : Nat) (leaf : Leaf) : (m.victim b).1 = some best →
      (metaAt (m.victim b).2 best).va < maxva →
      m.proc.pagetable.leaf (metaAt (m.victim b).2 best).va = some leaf →
      (metaAt (m.victim b).2 best).dirty = false → leaf.flags.w = false →
      Evicted b m true ((m.chosen b).dropped best (metaAt (m.victim b).2 best).va leaf.pa)
  | saved (best : Nat) (leaf : Leaf) (m' : Machine) : (m.victim b).1 = some best →
      (metaAt (m.victim b).2 best).va < maxva →
      m.proc.pagetable.leaf (metaAt (m.victim b).2 best).va = some leaf →
      SwapSaved (m.chosen b) best leaf.pa m' →
      Evicted b m true (m'.dropped best (metaAt (m.victim b).2 best).va leaf.pa)

theorem wp_dropPage {Q : Unit → Machine → Prop} {E : Panic → Prop} {best va : Nat} {leaf : Leaf}
    (below : va < maxva) (here : m.proc.pagetable.leaf va = some leaf)
    (unaligned : va % 4096 ≠ 0 → E .uvmunmapNotAligned) (panics : b.isFrame leaf.pa = false → E .kfree)
    (holds : b.isFrame leaf.pa = true → Q () (m.dropped best va leaf.pa)) :
    wp (dropPage b best va) Q E m := by
  unfold dropPage
  rw [wp_bind]
  apply wp_unmapOne below here unaligned panics
  exact holds

theorem SwapSaved.table {m m' : Machine} {best pa : Nat} (saved : SwapSaved m best pa m') :
    m'.proc.pagetable = m.proc.pagetable := by
  cases saved
  rfl

-- The only frames that a step can add to the free list are ones that `kfree` accepts.
def FreesFrames (b : Build) (m m' : Machine) : Prop :=
  ∀ f ∈ m'.freelist, f ∈ m.freelist ∨ b.isFrame f = true

theorem FreesFrames.refl (m : Machine) : FreesFrames b m m := fun _ member => .inl member

theorem FreesFrames.trans {m₁ m₂ : Machine} (first : FreesFrames b m m₁) (rest : FreesFrames b m₁ m₂) :
    FreesFrames b m m₂ := by
  intro f member
  rcases rest f member with old | frame
  · exact first f old
  · exact .inr frame

theorem Machine.dropped_frees (m : Machine) (best va : Nat) {pa : Nat} (isFrame : b.isFrame pa = true) :
    FreesFrames b m (m.dropped best va pa) := by
  intro f member
  rcases List.mem_cons.mp member with rfl | old
  · exact .inr isFrame
  · exact .inl old

theorem SwapSaved.freelist {m m' : Machine} {best pa : Nat} (saved : SwapSaved m best pa m') :
    m'.freelist = m.freelist := by
  cases saved
  rfl

theorem SwapFailed.freelist {m m' : Machine} {pa : Nat} (failed : SwapFailed m pa m') :
    m'.freelist = m.freelist := by
  cases failed <;> rfl

-- What makes an eviction panic: the victim is no page below MAXVA, or its frame is none.
def Machine.EvictPanics (b : Build) (m : Machine) (e : Panic) : Prop :=
  ∃ best ∈ (m.victim b).1, e = .walk ∧ maxva ≤ (metaAt (m.victim b).2 best).va ∨
    e = .uvmunmapNotAligned ∧ (metaAt (m.victim b).2 best).va % 4096 ≠ 0 ∨
    e = .kfree ∧ ∃ leaf ∈ m.proc.pagetable.leaf (metaAt (m.victim b).2 best).va, b.isFrame leaf.pa = false

theorem Machine.EvictPanics.tracked {e : Panic} (panics : m.EvictPanics b e) (tracked : Tracked m.proc.pgmeta) :
    e = .kfree := by
  obtain ⟨best, _, panics⟩ := panics
  have place := (tracked.selectVictim b.policy m.proc.pageSeqCtr m.proc.clockHand).metaAt best
  rcases panics with ⟨_, high⟩ | ⟨_, odd⟩ | ⟨kfree, _⟩
  · exact absurd place.1 (Nat.not_lt.mpr high)
  · exact absurd place.2.1 odd
  · exact kfree

theorem tryEvictOne_effect :
    wp (tryEvictOne b) (fun ok m' => Evicted b m ok m' ∧ FreesFrames b m m') (m.EvictPanics b) m := by
  unfold tryEvictOne
  rw [wp_bind, wp_read, wp_bind, wp_modifyProc]
  change wp _ _ (m.EvictPanics b) (m.chosen b)
  cases picked : (m.victim b).1 with
  | none =>
    unfold Machine.victim at picked
    rw [picked]
    exact ⟨.noVictim picked, .refl m⟩
  | some best =>
    have chosen := picked
    unfold Machine.victim at chosen
    rw [chosen]
    simp only
    rw [wp_bind, wp_walk]
    refine ⟨fun high => ⟨best, picked, .inl ⟨rfl, high⟩⟩, fun below => ?_⟩
    change (metaAt (m.victim b).2 best).va < maxva at below
    have unaligned (odd : (metaAt (m.victim b).2 best).va % 4096 ≠ 0) :
        m.EvictPanics b .uvmunmapNotAligned := ⟨best, picked, .inr (.inl ⟨rfl, odd⟩)⟩
    cases found : ((m.chosen b).table .own).walk (metaAt (m.victim b).2 best).va with
    | none =>
      unfold Machine.victim at found
      rw [found]
      exact ⟨.stale best picked (PageTable.leaf_of_walk found), .refl m⟩
    | some node =>
      have here : m.proc.pagetable.leaf (metaAt (m.victim b).2 best).va = Radix.value? (some node) :=
        PageTable.leaf_of_walk found
      unfold Machine.victim at found
      rw [found]
      cases node with
      | empty => exact ⟨.stale best picked here, .refl m⟩
      | leaf leaf =>
        have notFrame (wrong : b.isFrame leaf.pa = false) : m.EvictPanics b .kfree :=
          ⟨best, picked, .inr (.inr ⟨rfl, leaf, here, wrong⟩)⟩
        simp only
        split_ifs with dirty
        · rw [wp_bind]
          apply wp_mono (swapOut_outcome best leaf.pa) _ fun _ panics => panics
          rintro ok m₁ (⟨rfl, failed⟩ | ⟨rfl, saved⟩)
          · refine ⟨.unsaved best leaf m₁ picked here failed, fun f member => .inl ?_⟩
            rw [failed.freelist] at member
            exact member
          · rw [if_pos rfl, wp_bind]
            refine wp_dropPage below (by rw [saved.table]; exact here) unaligned notFrame
              fun isFrame => ⟨.saved best leaf m₁ picked below here saved, fun f member => ?_⟩
            rcases m₁.dropped_frees best _ isFrame f member with old | frame
            · rw [saved.freelist] at old
              exact .inl old
            · exact .inr frame
        · rw [Bool.or_eq_true, not_or, Bool.not_eq_true, Bool.not_eq_true] at dirty
          rw [wp_bind, wp_pure, if_pos rfl, wp_bind]
          exact wp_dropPage below here unaligned notFrame fun isFrame =>
            ⟨.discarded best leaf picked below here dirty.1 dirty.2, (m.chosen b).dropped_frees best _ isFrame⟩

theorem tryEvictOne_outcome_of :
    wp (tryEvictOne b) (Evicted b m) (fun e => Tracked m.proc.pgmeta → e = .kfree) m := by
  apply wp_mono tryEvictOne_effect
  · exact fun _ _ evicted => evicted.1
  · exact fun _ panics tracked => panics.tracked tracked

theorem SwapFailed.spare {m m' : Machine} {pa : Nat} (failed : SwapFailed m pa m') :
    m'.spare = m.spare := by
  cases failed <;> rfl

theorem Evicted.spare {ok : Bool} {m' : Machine} (evicted : Evicted b m ok m') :
    m'.spare = m.spare := by
  cases evicted with
  | noVictim => rfl
  | stale => rfl
  | unsaved best leaf m' _ _ failed => exact failed.spare
  | discarded => rfl
  | saved best leaf m' _ _ _ saved =>
    cases saved
    rfl

theorem Machine.keys_dropped (m : Machine) (best va pa : Nat) :
    keys (m.dropped best va pa).proc.pgmeta = keys m.proc.pgmeta :=
  keys_modify m.proc.pgmeta best (fun e => { e with resident := false, dirty := false }) fun _ => rfl

theorem Machine.keys_swapped (m : Machine) (best slot : Nat) (bitmap : Bitmap) (ip : Inode) :
    keys (m.swapped best slot bitmap ip).proc.pgmeta = keys m.proc.pgmeta :=
  keys_modify m.proc.pgmeta best (fun e => { e with inSwap := true, slot := slot }) fun _ => rfl

theorem Evicted.keys {m' : Machine} (evicted : Evicted b m true m') :
    keys m'.proc.pgmeta = keys m.proc.pgmeta := by
  have chosen : Paging.keys (m.victim b).2 = Paging.keys m.proc.pgmeta := keys_selectVictim _ _ _ _
  cases evicted with
  | discarded best leaf => exact (Machine.keys_dropped _ _ _ _).trans chosen
  | saved best leaf m' _ _ _ saved =>
    cases saved
    rw [Machine.keys_dropped, Machine.keys_swapped]
    exact chosen

-- The head of the free list is handed out, filled with junk.
def Machine.taken (m : Machine) (pa : Nat) (rest : List Nat) : Machine :=
  { m.fill pa fun _ => 5 with freelist := rest }

inductive Allocated (m : Machine) : Option Nat → Machine → Prop
  | none : m.freelist = [] → Allocated m none m
  | some (pa : Nat) (rest : List Nat) : m.freelist = pa :: rest →
      Allocated m (some pa) (m.taken pa rest)

theorem kalloc_outcome {E : Panic → Prop} : wp kalloc (Allocated m) E m := by
  unfold kalloc
  rw [wp_bind, wp_read]
  cases free : m.freelist with
  | nil => exact .none free
  | cons pa rest => exact .some pa rest free

-- Memory is full, so a page of the process is evicted first.
inductive Obtained (b : Build) (m : Machine) : Option Nat → Machine → Prop
  | free (pa : Nat) (m' : Machine) : Allocated m (some pa) m' → Obtained b m (some pa) m'
  | evicted (r : Option Nat) (m₁ m' : Machine) : m.freelist = [] → Evicted b m true m₁ →
      Allocated m₁ r m' → Obtained b m r m'
  | failed (m' : Machine) : m.freelist = [] → Evicted b m false m' → Obtained b m none m'

theorem Allocated.frees {r : Option Nat} {m' : Machine} (allocated : Allocated m r m') :
    FreesFrames b m m' ∧ ∀ pa ∈ r, pa ∈ m.freelist := by
  cases allocated with
  | none => exact ⟨.refl m, by simp⟩
  | some pa rest free =>
    refine ⟨fun f member => .inl ?_, ?_⟩
    · rw [free]
      exact List.mem_cons_of_mem pa member
    · rintro _ ⟨⟩
      rw [free]
      exact List.mem_cons_self

theorem kallocOrEvict_effect :
    wp (kallocOrEvict b) (fun r m' => Obtained b m r m' ∧ FreesFrames b m m' ∧
      ∀ pa ∈ r, pa ∈ m.freelist ∨ b.isFrame pa = true) (m.EvictPanics b) m := by
  unfold kallocOrEvict
  apply wp_seq kalloc_outcome
  intro r m₁ allocated
  cases allocated with
  | some pa rest free =>
    have kept := (Allocated.some pa rest free).frees (b := b)
    exact ⟨.free pa _ (.some pa rest free), kept.1, fun pa taken => .inl (kept.2 pa taken)⟩
  | none free =>
    apply wp_seq tryEvictOne_effect
    rintro ok m₂ ⟨evicted, frees⟩
    cases ok with
    | false => exact ⟨.failed m₂ free evicted, frees, by simp⟩
    | true =>
      apply wp_mono kalloc_outcome _ fun _ panics => panics
      intro r m₃ allocated
      have kept := allocated.frees (b := b)
      exact ⟨.evicted r m₂ m₃ free evicted allocated, frees.trans kept.1,
        fun pa taken => frees pa (kept.2 pa taken)⟩

theorem kallocOrEvict_outcome_of :
    wp (kallocOrEvict b) (Obtained b m) (fun e => Tracked m.proc.pgmeta → e = .kfree) m := by
  apply wp_mono kallocOrEvict_effect
  · exact fun _ _ obtained => obtained.1
  · exact fun _ panics tracked => panics.tracked tracked

theorem kallocOrEvict_outcome (tracked : Tracked m.proc.pgmeta) :
    wp (kallocOrEvict b) (Obtained b m) (fun e => e = .kfree) m :=
  wp_mono kallocOrEvict_outcome_of (fun _ _ obtained => obtained) fun _ panics => panics tracked

theorem Allocated.core {r : Option Nat} {m' : Machine} (allocated : Allocated m r m') :
    m'.core = m.core := by
  cases allocated <;> rfl

theorem Obtained.spare {r : Option Nat} {m' : Machine} (obtained : Obtained b m r m') :
    m'.spare = m.spare := by
  cases obtained with
  | free pa m' allocated => exact congrArg Core.spare allocated.core
  | evicted r m₁ m' _ evicted allocated =>
    exact (congrArg Core.spare allocated.core).trans evicted.spare
  | failed m' _ evicted => exact evicted.spare

theorem Obtained.keys {pa : Nat} {m' : Machine} (obtained : Obtained b m (some pa) m') :
    keys m'.proc.pgmeta = keys m.proc.pgmeta := by
  cases obtained with
  | free _ _ allocated =>
    exact congrArg (fun c : Core => Paging.keys c.proc.pgmeta) allocated.core
  | evicted _ m₁ _ _ evicted allocated =>
    exact (congrArg (fun c : Core => Paging.keys c.proc.pgmeta) allocated.core).trans evicted.keys

end SystemsSuite.Paging
