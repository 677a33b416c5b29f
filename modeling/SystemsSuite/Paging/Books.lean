import SystemsSuite.Paging.Lineage
import SystemsSuite.Paging.OwnedSteps

set_option autoImplicit false

namespace SystemsSuite.Paging

open Lib Prog

-- A page metadata entry, without what only matters for the choice of a victim.
structure Entry where
  va : Nat
  resident : Bool
  inSwap : Bool
  slot : Nat
  perm : Flags
  deriving DecidableEq, Repr

def PageMeta.entry (e : PageMeta) : Entry := ⟨e.va, e.resident, e.inSwap, e.slot, e.perm⟩

def Entry.cleared : Entry := PageMeta.cleared.entry

-- What says where the pages of the running process are: the PTEs of its table and of the spare one by page number,
-- the metadata entries, the swap slots, and its `image`.
@[ext] structure Books where
  pte : Nat → Option Flags
  spare : Nat → Option Flags
  entries : List Entry
  bitmap : Bitmap
  swapPages : Nat
  image : Proc

def PageTable.ptes (pt : PageTable) (vpn : Nat) : Option Flags :=
  if vpn < maxva / 4096 then (Radix.value 2 pt.entries vpn).map Leaf.flags else none

def Machine.books (m : Machine) : Books where
  pte := m.proc.pagetable.ptes
  spare := m.spare.ptes
  entries := m.proc.pgmeta.map PageMeta.entry
  bitmap := m.proc.swapBitmap
  swapPages := m.proc.swapPages
  image := m.image

-- PTE_R and PTE_U, with which an anonymous page starts.
def zeroFlags : Flags := ⟨true, false, false, true⟩

namespace Books

def ptes (v : Books) : Target → Nat → Option Flags
  | .own => v.pte
  | .spare => v.spare

def setPtes (v : Books) (t : Target) (ptes : Nat → Option Flags) : Books :=
  match t with
  | .own => { v with pte := ptes }
  | .spare => { v with spare := ptes }

def mapped (v : Books) (t : Target) (va : Nat) (flags : Flags) : Books :=
  v.setPtes t (Function.update (v.ptes t) (va / 4096) (some flags))

def find (v : Books) (va : Nat) : Option Nat := v.entries.findIdx? fun e => decide (e.va = va)

def entryAt (v : Books) (i : Nat) : Entry := v.entries.getD i .cleared

def modify (v : Books) (i : Nat) (f : Entry → Entry) : Books :=
  { v with entries := v.entries.modify i f }

-- The page gets an entry, if it has none and one is left.
def noted (v : Books) (va : Nat) : Books :=
  match v.find va, v.find 0 with
  | none, some i => { v with entries := v.entries.set i { Entry.cleared with va := va } }
  | _, _ => v

-- The entry of the page, if it has one, says that the page is resident.
def madeResident (v : Books) (va : Nat) (perm : Flags) : Books :=
  match v.find va with
  | none => v
  | some i => v.modify i fun e => { e with resident := true, perm := perm }

-- The page becomes resident with the given permissions.
def installed (v : Books) (t : Target) (va : Nat) (perm : Flags) : Books :=
  ((v.mapped t va perm).noted va).madeResident va perm

def unmapped (v : Books) (t : Target) (a n : Nat) : Books :=
  v.setPtes t fun vpn => if a / 4096 ≤ vpn ∧ vpn < a / 4096 + n then none else v.ptes t vpn

def dropped (v : Books) (best : Nat) : Books :=
  { v with
    pte := Function.update v.pte ((v.entryAt best).va / 4096) none
    entries := v.entries.modify best fun e => { e with resident := false } }

def saved (v : Books) (best slot : Nat) (bitmap : Bitmap) : Books :=
  { v with
    entries := v.entries.modify best fun e => { e with inSwap := true, slot := slot }
    bitmap := bitmap
    swapPages := v.swapPages + 1 }

def Victim (v : Books) (best : Nat) : Prop :=
  (v.entryAt best).resident = true ∧ (v.entryAt best).va ≠ 0

-- What an attempt to evict a page does, and whether it succeeds.
inductive Evict (v : Books) : Bool → Books → Prop
  | nothing : Evict v false v
  | stale (best : Nat) : v.Victim best → v.pte ((v.entryAt best).va / 4096) = none →
      Evict v false { v with entries := v.entries.set best .cleared }
  | discarded (best : Nat) (flags : Flags) : v.Victim best →
      v.pte ((v.entryAt best).va / 4096) = some flags → flags.w = false → Evict v true (v.dropped best)
  | saved (best : Nat) (flags : Flags) (slot : Nat) (bitmap : Bitmap) : v.Victim best →
      v.pte ((v.entryAt best).va / 4096) = some flags → swapAllocSlot v.bitmap = some (slot, bitmap) →
      Evict v true ((v.saved best slot bitmap).dropped best)

-- A frame was wanted: with a frame, at most one page had to go.
inductive Obtain (v : Books) : Bool → Books → Prop
  | free (ok : Bool) : Obtain v ok v
  | evicted (ok : Bool) (v' : Books) : Evict v true v' → Obtain v ok v'
  | failed (v' : Books) : Evict v false v' → Obtain v false v'

def allowsWrite (v : Books) (vaPg : Nat) : Bool :=
  v.image.isHeap vaPg || v.image.isStack vaPg || ((v.image.segOf vaPg).map Seg.permW).getD false

def swapPerm (e : Entry) (seg : Seg) : Flags := if e.perm = .none then seg.flags else e.perm

def swappedIn (v : Books) (vaPg i : Nat) (seg : Seg) : Books :=
  let e := v.entryAt i
  let mapped := v.mapped .own vaPg (swapPerm e seg)
  { mapped with
    entries := v.entries.modify i fun e => { e with resident := true, inSwap := false, slot := 0xffff }
    bitmap := swapFreeSlot v.bitmap e.slot
    swapPages := v.swapPages - 1 }

-- What a fault at a page does to the books, and whether it is served.
inductive Faulted (vaPg : Nat) (acc : Access) (v : Books) : Bool → Books → Prop
  | refused : Faulted vaPg acc v false v
  | widened (flags : Flags) : v.pte (vaPg / 4096) = some flags → acc = .write → flags.w = false →
      v.allowsWrite vaPg = true →
      Faulted vaPg acc v true ((v.mapped .own vaPg { flags with w := true }).noted vaPg)
  | madeExec (flags : Flags) (seg : Seg) : v.pte (vaPg / 4096) = some flags → acc = .exec →
      v.image.segOf vaPg = some seg → seg.permX = true →
      Faulted vaPg acc v true (v.mapped .own vaPg { flags with x := true })
  | starved (v' : Books) : v.pte (vaPg / 4096) = none → Obtain v false v' → Faulted vaPg acc v false v'
  | zeroStarved (v' : Books) : v.pte (vaPg / 4096) = none → v.image.segOf vaPg = none →
      Obtain (v.noted vaPg) false v' → vaPg < maxva → Faulted vaPg acc v false v'
  | swappedIn (seg : Seg) (i : Nat) (v' : Books) : v.pte (vaPg / 4096) = none →
      v.image.segOf vaPg = some seg → v.find vaPg = some i → (v.entryAt i).inSwap = true →
      Obtain v true v' → vaPg < maxva → Faulted vaPg acc v true (v'.swappedIn vaPg i seg)
  | loaded (seg : Seg) (v' : Books) : v.pte (vaPg / 4096) = none → v.image.segOf vaPg = some seg →
      (∀ i, v.find vaPg = some i → (v.entryAt i).inSwap = false) → Obtain v true v' → vaPg < maxva →
      Faulted vaPg acc v true (v'.installed .own vaPg seg.flags)
  | zeroed (v' : Books) : v.pte (vaPg / 4096) = none → v.image.segOf vaPg = none →
      (v.image.isHeap vaPg || v.image.isStack vaPg) = true → Obtain (v.noted vaPg) true v' →
      vaPg < maxva → Faulted vaPg acc v true (v'.installed .own vaPg zeroFlags)

end Books

variable {b : Build} {m m' : Machine}

theorem PageTable.ptes_leaf (pt : PageTable) {va : Nat} (below : va < maxva) :
    pt.ptes (va / 4096) = (pt.leaf va).map Leaf.flags := by
  have inside : va / 4096 < maxva / 4096 := by
    unfold maxva at *
    omega
  exact if_pos inside

theorem PageTable.leaf_of_ptes {pt : PageTable} {vpn : Nat} {flags : Flags}
    (here : pt.ptes vpn = some flags) :
    vpn < maxva / 4096 ∧ ∃ leaf, pt.leaf (vpn * 4096) = some leaf ∧ leaf.flags = flags := by
  unfold ptes at here
  split_ifs at here with inside
  refine ⟨inside, ?_⟩
  unfold leaf
  rw [Nat.mul_div_cancel _ (by decide)]
  exact Option.map_eq_some_iff.mp here

theorem PageTable.ptes_ext {pt pt' : PageTable}
    (same : ∀ va < maxva, pt'.leaf va = pt.leaf va) : pt'.ptes = pt.ptes := by
  funext vpn
  unfold ptes
  split_ifs with inside
  · have page := same (vpn * 4096) (by unfold maxva at *; omega)
    unfold leaf at page
    rw [Nat.mul_div_cancel _ (by decide)] at page
    rw [page]
  · rfl

theorem PageTable.ptes_update {pt pt' : PageTable} {va : Nat} {leaf : Option Leaf} (below : va < maxva)
    (leaves : ∀ va' < maxva, pt'.leaf va' = setLeaf pt.leaf va leaf va') :
    pt'.ptes = Function.update pt.ptes (va / 4096) (leaf.map Leaf.flags) := by
  funext vpn
  by_cases inside : vpn < maxva / 4096
  · have page := leaves (vpn * 4096) (by unfold maxva at *; omega)
    unfold setLeaf PageTable.leaf at page
    rw [Nat.mul_div_cancel _ (by decide)] at page
    unfold ptes
    by_cases same : vpn = va / 4096
    · rw [if_pos inside, page, if_pos same, same, Function.update_self]
    · rw [if_pos inside, page, if_neg same, Function.update_of_ne same, if_pos inside]
  · have other : vpn ≠ va / 4096 := by
      unfold maxva at *
      omega
    rw [Function.update_of_ne other]
    unfold ptes
    rw [if_neg inside, if_neg inside]

theorem Machine.books_of_rest (rest : m'.rest = m.rest) :
    m'.books = { m.books with pte := m'.proc.pagetable.ptes, spare := m'.spare.ptes } := by
  have entries := congrArg (fun c : Core => c.proc.pgmeta) rest
  have bitmap := congrArg (fun c : Core => c.proc.swapBitmap) rest
  have swapPages := congrArg (fun c : Core => c.proc.swapPages) rest
  have image := congrArg (fun c : Core => Machine.image ⟨[], fun _ _ => 0, c.proc, c.spare, [], false⟩) rest
  change m'.proc.pgmeta = m.proc.pgmeta at entries
  change m'.proc.swapBitmap = m.proc.swapBitmap at bitmap
  change m'.proc.swapPages = m.proc.swapPages at swapPages
  change m'.image = m.image at image
  simp only [Machine.books, entries, bitmap, swapPages, image]

theorem Machine.books_of_core (core : m'.core = m.core) : m'.books = m.books := by
  rw [Machine.books_of_rest (congrArg Core.rest core)]
  have own := Machine.table_of_core core .own
  have spare := Machine.table_of_core core .spare
  change m'.proc.pagetable = m.proc.pagetable at own
  change m'.spare = m.spare at spare
  rw [own, spare]
  rfl

-- Only table `t` changes.
theorem Machine.books_table (rest : m'.rest = m.rest) {t : Target} {ptes : Nat → Option Flags}
    (here : (m'.table t).ptes = ptes) (other : ∀ t', t' ≠ t → (m'.table t').ptes = (m.table t').ptes) :
    m'.books = m.books.setPtes t ptes := by
  rw [Machine.books_of_rest rest]
  cases t with
  | own =>
    have spare := other .spare nofun
    change m'.spare.ptes = m.spare.ptes at spare
    change m'.proc.pagetable.ptes = ptes at here
    rw [spare, here]
    rfl
  | spare =>
    have own := other .own nofun
    change m'.proc.pagetable.ptes = m.proc.pagetable.ptes at own
    change m'.spare.ptes = ptes at here
    rw [own, here]
    rfl

theorem Books.setPtes_self (v : Books) (t : Target) : v.setPtes t (v.ptes t) = v := by
  cases t <;> rfl

theorem Machine.ptes_books (m : Machine) (t : Target) : m.books.ptes t = (m.table t).ptes := by
  cases t <;> rfl

theorem mappages_books (t : Target) (va pa : Nat) (perm : Flags) :
    wp (mappages t va pa perm) (fun ok m' =>
      (ok = true → m.books.ptes t (va / 4096) = none ∧ va < maxva) ∧
        m'.books = if ok then m.books.mapped t va perm else m.books) (fun _ => True) m := by
  apply wp_mono (mappages_effect t va pa perm) _ fun _ _ => trivial
  rintro ok m' ⟨absent, below, step⟩
  have other (t' : Target) (different : t' ≠ t) : (m'.table t').ptes = (m.table t').ptes := by
    rw [step.other t' different]
  refine ⟨fun mapped => ⟨?_, below⟩, ?_⟩
  · rw [Machine.ptes_books, PageTable.ptes_leaf _ below, absent mapped]
    rfl
  · cases ok with
    | true =>
      refine (Machine.books_table step.rest (PageTable.ptes_update below step.leaf) other).trans ?_
      rw [if_pos rfl, Books.mapped, Machine.ptes_books]
      rfl
    | false =>
      refine (Machine.books_table step.rest (PageTable.ptes_ext step.leaf) other).trans ?_
      rw [← Machine.ptes_books, Books.setPtes_self]
      rfl

theorem Unmapped.books {t : Target} {a n : Nat} (unmapped : Unmapped t a n m m') :
    m'.books = m.books.unmapped t a n := by
  refine (Machine.books_table unmapped.rest ?_ fun t' different => ?_).trans rfl
  · funext vpn
    rw [Machine.ptes_books]
    unfold PageTable.ptes
    by_cases inside : vpn < maxva / 4096
    · have low : vpn * 4096 < maxva := by
        unfold maxva at *
        omega
      have page : vpn * 4096 / 4096 = vpn := Nat.mul_div_cancel _ (by decide)
      rw [if_pos inside]
      split_ifs with range
      · have gone := unmapped.gone _ low (by unfold within; rwa [page])
        unfold PageTable.leaf at gone
        rw [page] at gone
        rw [gone]
        rfl
      · have kept := unmapped.kept _ low (by unfold within; rwa [page])
        unfold PageTable.leaf at kept
        rw [page] at kept
        rw [kept]
    · rw [if_neg inside, if_neg inside, ite_self]
  · rw [unmapped.other t' different]

end SystemsSuite.Paging
