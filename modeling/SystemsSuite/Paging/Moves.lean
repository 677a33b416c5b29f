import SystemsSuite.Paging.LineageBooks

set_option autoImplicit false

namespace SystemsSuite.Paging

open Lib Prog

-- What a process has besides its page table for the pager to work with.
structure Pager where
  pgmeta : List PageMeta
  pageSeqCtr : Nat
  swapip : Option Inode
  swapBitmap : Bitmap
  clockHand : Nat

def Proc.pager (p : Proc) : Pager :=
  ⟨p.pgmeta, p.pageSeqCtr, p.swapip, p.swapBitmap, p.clockHand⟩

-- `memory` changes frames and page tables, and so does `unmap`, which may also take pages away from
-- its table. `arrive` is about a page that has just been mapped in the table.
inductive Act
  | memory
  | unmap (t : Target)
  | note (va : Nat)
  | touch (i : Nat)
  | evict (ok : Bool)
  | arrive (t : Target) (va i : Nat)
  | untracked
  | exec
  deriving DecidableEq, Repr

-- Frames and page tables have changed. A new PTE points to a lent frame, unless it is for one of the two special
-- pages of a table under construction.
structure Remapped (b : Build) (lent : Nat → Prop) (m m' : Machine) : Prop where
  pager : m'.proc.pager = m.proc.pager
  frees : FreesFrames b m m'
  leaves : ∀ (t : Target) (va : Nat) (leaf : Leaf), va < maxva → (m'.table t).leaf va = some leaf →
    (∃ old, (m.table t).leaf va = some old ∧ old.pa = leaf.pa) ∨ lent leaf.pa ∨
      t = .spare ∧ special (va / 4096) = true

-- Table `t` loses no page.
def Machine.KeepsPages (m m' : Machine) (t : Target) : Prop :=
  ∀ va < maxva, ((m.table t).leaf va).isSome = true → ((m'.table t).leaf va).isSome = true

-- An entry after its page has become resident; `now` is the sequence counter.
structure Entered (now : Nat) (e e' : PageMeta) : Prop where
  va : e'.va = e.va
  resident : e'.resident = true
  seq : e'.seq = now
  inSwap : e'.inSwap = true → e.inSwap = true

def Emptier (bitmap bitmap' : Bitmap) : Prop :=
  bitmap' = bitmap ∨ ∃ slot, bitmap' = swapFreeSlot bitmap slot

-- The page at `va` is mapped in table `t` to a lent frame.
structure Settled (lent : Nat → Prop) (t : Target) (va : Nat) (m : Machine) : Prop where
  below : va < maxva
  mapped : ∃ leaf, (m.table t).leaf va = some leaf ∧ lent leaf.pa
  user : t = .spare → special (va / 4096) = false

-- The page at `va`, just mapped in table `t`, has been entered as resident in entry `i`.
structure Arrived (lent : Nat → Prop) (t : Target) (va i : Nat) (m m' : Machine) : Prop
    extends Settled lent t va m where
  key : (keys m.proc.pgmeta)[i]? = some va
  entries : ∃ f, (∀ e, Entered m.proc.pageSeqCtr e (f e)) ∧ m'.proc.pgmeta = m.proc.pgmeta.modify i f
  counter : m'.proc.pageSeqCtr = u64 (m.proc.pageSeqCtr + 1)
  bitmap : Emptier m.proc.swapBitmap m'.proc.swapBitmap
  swapip : m'.proc.swapip = m.proc.swapip
  hand : m'.proc.clockHand = m.proc.clockHand
  tables : ∀ t, m'.table t = m.table t
  freelist : m'.freelist = m.freelist

-- The process has a new image, built in the spare table.
structure Renewed (b : Build) (m m' : Machine) : Prop where
  own : ∀ va < maxva, m'.proc.pagetable.leaf va = m.spare.leaf va
  spare : ∀ va < maxva, m'.spare.leaf va = none
  frees : FreesFrames b m m'
  pgmeta : m'.proc.pgmeta = List.replicate pgmetaSize .cleared
  counter : m'.proc.pageSeqCtr = 1
  bitmap : m'.proc.swapBitmap = List.replicate 128 0#8
  swapip : m.proc.swapip.isSome = true → m'.proc.swapip = m.proc.swapip
  fresh : ∀ ip ∈ m'.proc.swapip, m.proc.swapip = none → ip.size = 0

inductive Move (b : Build) (lent : Nat → Prop) : Machine → Act → Machine → Prop
  | memory (m m' : Machine) : Remapped b lent m m' → (∀ t, m.KeepsPages m' t) → Move b lent m .memory m'
  | unmap (m m' : Machine) (t : Target) : Remapped b lent m m' → (∀ t', t' ≠ t → m.KeepsPages m' t') →
      Move b lent m (.unmap t) m'
  | note (m : Machine) (va : Nat) : va < maxva → va % 4096 = 0 →
      Move b lent m (.note va) (m.setMeta (pgmetaAlloc m.proc.pgmeta va).1)
  | touch (m : Machine) (i : Nat) : Move b lent m (.touch i)
      (m.setMeta (m.proc.pgmeta.modify i fun e => { e with dirty := true, referenced := true }))
  | evict (m m' : Machine) (ok : Bool) : Evicted b m ok m' → FreesFrames b m m' →
      Move b lent m (.evict ok) m'
  | arrive (m m' : Machine) (t : Target) (va i : Nat) : Arrived lent t va i m m' →
      Move b lent m (.arrive t va i) m'
  | untracked (m : Machine) : Move b lent m .untracked
      (m.setProc { m.proc with pageSeqCtr := u64 (m.proc.pageSeqCtr + 1) })
  | exec (m m' : Machine) : Renewed b m m' → Move b lent m .exec m'

variable {b : Build} {lent : Nat → Prop} {allowed : Act → Prop} {m₀ m m' : Machine} {t : Target}

theorem Move.frees {a : Act} (move : Move b lent m a m') : FreesFrames b m m' := by
  cases move with
  | memory _ step => exact step.frees
  | unmap _ _ step => exact step.frees
  | note => exact .refl m
  | touch => exact .refl m
  | evict _ _ _ frees => exact frees
  | arrive _ _ _ _ arrived =>
    intro f member
    rw [arrived.freelist] at member
    exact .inl member
  | untracked => exact .refl m
  | exec _ renewed => exact renewed.frees

-- The free frames and those that get freed may all be handed out.
def Machine.Gives (b : Build) (lent : Nat → Prop) (m : Machine) : Prop :=
  ∀ f, f ∈ m.freelist ∨ b.isFrame f = true → lent f

-- The kernel gets from `m₀` to `m` by moves of the allowed kinds.
structure Course (b : Build) (lent : Nat → Prop) (allowed : Act → Prop) (m₀ m : Machine) : Prop where
  gives : m₀.Gives b lent
  path : ∃ acts, (∀ a ∈ acts, allowed a) ∧ Path (Move b lent) m₀ acts m

namespace Course

theorem refl (gives : m.Gives b lent) : Course b lent allowed m m := ⟨gives, [], by simp, .nil m⟩

theorem move (so : Course b lent allowed m₀ m) {a : Act} (permitted : allowed a) (move : Move b lent m a m') :
    Course b lent allowed m₀ m' := by
  obtain ⟨acts, holds, path⟩ := so.path
  refine ⟨so.gives, acts ++ [a], ?_, path.append (.single move)⟩
  intro a' member
  rcases List.mem_append.mp member with old | new
  · exact holds a' old
  · rwa [List.mem_singleton.mp new]

theorem trans {m₁ : Machine} (first : Course b lent allowed m₀ m) (rest : Course b lent allowed m m₁) :
    Course b lent allowed m₀ m₁ := by
  obtain ⟨acts, holds, path⟩ := first.path
  obtain ⟨more, holds', path'⟩ := rest.path
  refine ⟨first.gives, acts ++ more, ?_, path.append path'⟩
  intro a member
  rcases List.mem_append.mp member with old | new
  · exact holds a old
  · exact holds' a new

theorem mono {allowed' : Act → Prop} (so : Course b lent allowed m₀ m) (wider : ∀ a, allowed a → allowed' a) :
    Course b lent allowed' m₀ m := by
  obtain ⟨acts, holds, path⟩ := so.path
  exact ⟨so.gives, acts, fun a member => wider a (holds a member), path⟩

theorem invariant {I : Machine → Prop} (so : Course b lent allowed m₀ m) (holds : I m₀)
    (preserved : ∀ m a m', allowed a → I m → Move b lent m a m' → I m') : I m := by
  obtain ⟨acts, permitted, path⟩ := so.path
  exact path.invariant (fun m a member m' before move => preserved m a m' (permitted a member) before move) holds

theorem frees (so : Course b lent allowed m₀ m) : FreesFrames b m₀ m :=
  so.invariant (.refl m₀) fun _ _ _ _ before move => before.trans move.frees

theorem given (so : Course b lent allowed m₀ m) : m.Gives b lent := by
  rintro f (free | frame)
  · exact so.gives f (so.frees f free)
  · exact so.gives f (.inr frame)

end Course

-- What allocating and freeing frames, evictions included, can do to the pager.
def Act.Plain : Act → Prop
  | .memory | .evict _ => True
  | _ => False

-- The moves of the fault handler at work on table `t`.
def Act.Serving (t : Target) : Act → Prop
  | .unmap _ | .exec => False
  | .arrive t' _ _ => t' = t
  | _ => True

theorem Act.Plain.serving {a : Act} (plain : a.Plain) : a.Serving t := by
  cases a <;> trivial

theorem Machine.pager_of_rest (rest : m'.rest = m.rest) : m'.proc.pager = m.proc.pager :=
  congrArg (fun c : Core => c.proc.pager) rest

theorem Machine.pager_of_core (core : m'.core = m.core) : m'.proc.pager = m.proc.pager :=
  Machine.pager_of_rest (congrArg Core.rest core)

theorem Course.aside (so : Course b lent allowed m₀ m) (plain : ∀ a, a.Plain → allowed a)
    (pager : m'.proc.pager = m.proc.pager) (tables : ∀ t, m'.table t = m.table t)
    (frees : FreesFrames b m m') : Course b lent allowed m₀ m' := by
  refine so.move (plain .memory trivial) (.memory m m' ⟨pager, frees, fun t va leaf _ here => ?_⟩ ?_)
  · rw [tables] at here
    exact .inl ⟨leaf, here, rfl⟩
  · intro t va _ mapped
    rwa [tables]

theorem Course.of_core (so : Course b lent allowed m₀ m) (plain : ∀ a, a.Plain → allowed a)
    (core : m'.core = m.core) (frees : FreesFrames b m m') : Course b lent allowed m₀ m' :=
  so.aside plain (Machine.pager_of_core core) (Machine.table_of_core core) frees

section Memory

variable (plain : ∀ a, a.Plain → allowed a) (so : Course b lent allowed m₀ m)

include plain so

theorem kalloc_course :
    wp kalloc (fun r m' => Course b lent allowed m₀ m' ∧ m'.core = m.core ∧ ∀ pa ∈ r, lent pa)
      (fun _ => True) m := by
  refine wp_mono (kalloc_outcome (E := fun _ => True)) ?_ fun _ _ => trivial
  intro r m' allocated
  obtain ⟨frees, taken⟩ := allocated.frees (b := b)
  exact ⟨so.of_core plain allocated.core frees, allocated.core, fun pa here => so.given pa (.inl (taken pa here))⟩

theorem kfree_course (pa : Nat) :
    wp (kfree b pa) (fun _ m' => Course b lent allowed m₀ m' ∧ m'.core = m.core) (fun _ => True) m := by
  unfold kfree
  split_ifs with isFrame
  · rw [wp_update]
    refine ⟨so.of_core plain rfl fun f member => ?_, rfl⟩
    rcases List.mem_cons.mp member with rfl | old
    · exact .inr isFrame
    · exact .inl old
  · trivial

theorem tryEvictOne_course :
    wp (tryEvictOne b) (fun _ m' => Course b lent allowed m₀ m') (fun _ => True) m := by
  apply wp_mono tryEvictOne_effect _ fun _ _ => trivial
  rintro ok m' ⟨evicted, frees⟩
  exact so.move (plain (.evict ok) trivial) (.evict m m' ok evicted frees)

theorem kallocOrEvict_course :
    wp (kallocOrEvict b) (fun r m' => Course b lent allowed m₀ m' ∧ Obtained b m r m' ∧ ∀ pa ∈ r, lent pa)
      (fun _ => True) m := by
  have course : wp (kallocOrEvict b) (fun _ m' => Course b lent allowed m₀ m') (fun _ => True) m := by
    unfold kallocOrEvict
    apply wp_seq (kalloc_course plain so)
    rintro r m₁ ⟨so₁, _⟩
    cases r with
    | some pa => exact so₁
    | none =>
      apply wp_seq (tryEvictOne_course plain so₁)
      intro ok m₂ so₂
      cases ok with
      | false => exact so₂
      | true => exact wp_mono (kalloc_course plain so₂) (fun _ _ allocated => allocated.1) fun _ _ => trivial
  apply wp_mono (wp_and kallocOrEvict_effect course) _ fun _ _ => trivial
  rintro r m' ⟨⟨obtained, _, taken⟩, so'⟩
  exact ⟨so', obtained, fun pa here => so.given pa (taken pa here)⟩

theorem TableStep.course {leaves : Nat → Option Leaf} (step : TableStep t leaves m m')
    (known : ∀ va leaf, va < maxva → leaves va = some leaf →
      (∃ old, (m.table t).leaf va = some old ∧ old.pa = leaf.pa) ∨ lent leaf.pa ∨
        t = .spare ∧ special (va / 4096) = true)
    (grows : ∀ va, ((m.table t).leaf va).isSome = true → (leaves va).isSome = true) :
    Course b lent allowed m₀ m' := by
  refine so.move (plain .memory trivial) (.memory m m' ⟨Machine.pager_of_rest step.rest, ?_, ?_⟩ ?_)
  · exact fun f member => .inl (step.free f member)
  · intro t' va leaf below here
    by_cases same : t' = t
    · subst same
      rw [step.leaf va below] at here
      exact known va leaf below here
    · rw [step.other t' same] at here
      exact .inl ⟨leaf, here, rfl⟩
  · intro t' va below mapped
    by_cases same : t' = t
    · subst same
      rw [step.leaf va below]
      exact grows va mapped
    · rwa [step.other t' same]

theorem mappages_course (t : Target) {va pa : Nat} (perm : Flags)
    (given : lent pa ∨ t = .spare ∧ special (va / 4096) = true) :
    wp (mappages t va pa perm) (fun ok m' => Course b lent allowed m₀ m' ∧ m'.rest = m.rest ∧
      (ok = true → va < maxva ∧ (m.table t).leaf va = none ∧ (m'.table t).leaf va = some ⟨pa, perm⟩))
      (fun _ => True) m := by
  apply wp_mono (mappages_effect t va pa perm) _ fun _ _ => trivial
  rintro ok m' ⟨absent, below, step⟩
  cases ok with
  | false =>
    refine ⟨TableStep.course plain so step ?_ fun _ => id, step.rest, by simp⟩
    exact fun _ leaf _ here => .inl ⟨leaf, here, rfl⟩
  | true =>
    simp only [if_true] at step
    refine ⟨TableStep.course plain so step ?_ fun _ => setLeaf_isSome, step.rest, fun _ => ⟨below, absent rfl, ?_⟩⟩
    · intro va' leaf _ here
      unfold setLeaf at here
      split_ifs at here with same
      · obtain rfl := Option.some.inj here
        rw [same]
        exact .inr given
      · exact .inl ⟨leaf, here, rfl⟩
    · rw [step.leaf va below]
      exact if_pos rfl

theorem mapOrFree_course (t : Target) {va pa : Nat} (perm : Flags) (given : lent pa) :
    wp (mapOrFree b t va pa perm) (fun ok m' => Course b lent allowed m₀ m' ∧ m'.rest = m.rest ∧
      (ok = true → va < maxva ∧ (m.table t).leaf va = none ∧ (m'.table t).leaf va = some ⟨pa, perm⟩))
      (fun _ => True) m := by
  apply wp_seq (mappages_course plain so t perm (.inl given))
  rintro ok m₁ ⟨so₁, rest, mapped⟩
  cases ok with
  | true => exact ⟨so₁, rest, mapped⟩
  | false =>
    apply wp_seq (kfree_course plain so₁ pa)
    rintro _ m₂ ⟨so₂, core⟩
    exact ⟨so₂, (congrArg Core.rest core).trans rest, by simp⟩

theorem setFlags_course (t : Target) {va : Nat} {leaf : Leaf} (flags : Flags) (below : va < maxva)
    (here : (m.table t).leaf va = some leaf) :
    wp (setPte t va (.leaf { leaf with flags := flags })) (fun _ m' => Course b lent allowed m₀ m' ∧
      m'.proc.pager = m.proc.pager) (fun _ => True) m := by
  have reached : ((m.table t).walk va).isSome = true := by
    rw [PageTable.walk, Radix.find_of_value here]
    rfl
  have leaves (va' : Nat) (below' : va' < maxva) := PageTable.leaf_store (m.table t)
    (.leaf { leaf with flags := flags }) below below' reached
  have pager := Machine.pager_of_rest (m.rest_setTable t
    ((m.table t).store va (.leaf { leaf with flags := flags })) rfl)
  rw [wp_setPte]
  refine ⟨so.move (plain .memory trivial) (.memory m _ ⟨pager, ?_, ?_⟩ ?_), pager⟩
  · intro f member
    rw [m.freelist_setTable t] at member
    exact .inl member
  · intro t' va' leaf' below' here'
    by_cases same : t' = t
    · subst same
      rw [Machine.table_setTable, leaves va' below'] at here'
      split_ifs at here' with page
      · obtain rfl := Option.some.inj here'
        exact .inl ⟨leaf, (PageTable.leaf_page _ page).trans here, rfl⟩
      · exact .inl ⟨leaf', here', rfl⟩
    · rw [m.table_setTable_other _ same] at here'
      exact .inl ⟨leaf', here', rfl⟩
  · intro t' va' below' mapped
    by_cases same : t' = t
    · subst same
      rw [Machine.table_setTable, leaves va' below']
      split_ifs
      · rfl
      · exact mapped
    · rwa [m.table_setTable_other _ same]

end Memory

end SystemsSuite.Paging
