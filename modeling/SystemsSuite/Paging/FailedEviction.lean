import SystemsSuite.Paging.SwapSlots

set_option autoImplicit false

namespace SystemsSuite.Paging

open Lib Prog

variable {b : Build} {m m' : Machine}

theorem writeLoop_data (src : Nat → UInt8) (n blocks : Nat) (ip : Inode) (off tot : Nat) {k : Nat}
    (outside : k < off ∨ off + (n - tot) ≤ k) : (writeLoop src n blocks ip off tot).2.data k = ip.data k := by
  induction blocks generalizing ip off tot with
  | zero => rfl
  | succ blocks ih =>
    rw [writeLoop]
    split_ifs with more
    · have least : min (n - tot) (bsize - off % bsize) ≤ n - tot := Nat.min_le_left _ _
      refine (ih _ _ _ (by omega)).trans (if_neg ?_)
      omega
    · rfl

theorem writeLoop_size (src : Nat → UInt8) (n blocks : Nat) (ip : Inode) (off tot : Nat) :
    ip.size ≤ (writeLoop src n blocks ip off tot).2.size := by
  induction blocks generalizing ip off tot with
  | zero => exact Nat.le_max_left _ _
  | succ blocks ih =>
    rw [writeLoop]
    split_ifs with more
    · exact ih (ip.overwrite off _ _) _ _
    · exact Nat.le_max_left _ _

theorem writei_data (ip : Inode) (src : Nat → UInt8) (off n blocks : Nat) {k : Nat}
    (outside : k < off ∨ off + n ≤ k) : (writei ip src off n blocks).2.data k = ip.data k := by
  unfold writei
  split_ifs
  · rfl
  · rfl
  · exact writeLoop_data src n blocks ip off 0 (by omega)

theorem writei_size (ip : Inode) (src : Nat → UInt8) (off n blocks : Nat) :
    ip.size ≤ (writei ip src off n blocks).2.size := by
  unfold writei
  split_ifs
  · exact le_rfl
  · exact le_rfl
  · exact writeLoop_size src n blocks ip off 0

def PageMeta.unreferenced (e : PageMeta) : PageMeta := { e with referenced := false }

theorem unreferenced_clockScan (metas : List PageMeta) (left idx : Nat) :
    (clockScan left metas idx).2.map PageMeta.unreferenced = metas.map PageMeta.unreferenced := by
  induction left generalizing metas idx with
  | zero => rfl
  | succ left ih =>
    simp only [clockScan]
    split
    · rfl
    · rw [ih]
      split
      · apply List.ext_getElem?
        intro j
        rw [List.getElem?_map, List.getElem?_map, List.getElem?_set]
        split_ifs with same inside
        · subst same
          simp [metaAt, List.getD_eq_getElem?_getD, inside, PageMeta.unreferenced]
        · subst same
          simp [List.getElem?_eq_none (Nat.le_of_not_lt inside)]
        · rfl
      · rfl

theorem unreferenced_selectVictim (policy : Policy) (metas : List PageMeta) (now hand : Nat) :
    (selectVictim policy metas now hand).2.map PageMeta.unreferenced =
      metas.map PageMeta.unreferenced := by
  cases policy with
  | fifo => rfl
  | clock => exact unreferenced_clockScan metas _ _

def SameSlot (ip ip' : Option Inode) (slot : Nat) : Prop :=
  ∀ file ∈ ip, ∃ file' ∈ ip', file.size ≤ file'.size ∧
    ∀ k < 4096, file'.data (slot * 4096 + k) = file.data (slot * 4096 + k)

-- Nothing has changed that a program can see: PTEs, frames, the swap accounts, the pages in swap, and the entries
-- of the mapped pages.
structure Unseen (m m' : Machine) : Prop where
  table : m'.proc.pagetable = m.proc.pagetable
  mem : m'.mem = m.mem
  bitmap : m'.proc.swapBitmap = m.proc.swapBitmap
  swapPages : m'.proc.swapPages = m.proc.swapPages
  slots : ∀ e ∈ m.proc.pgmeta, e.inSwap = true → SameSlot m.proc.swapip m'.proc.swapip e.slot
  entries : ∀ (i : Nat) (e : PageMeta), m.proc.pgmeta[i]? = some e → (m.proc.pagetable.leaf e.va).isSome = true →
    ∃ e', m'.proc.pgmeta[i]? = some e' ∧ e'.unreferenced = e.unreferenced

theorem SameSlot.refl (ip : Option Inode) (slot : Nat) : SameSlot ip ip slot :=
  fun file here => ⟨file, here, le_rfl, fun _ _ => rfl⟩

theorem Machine.chosen_entries (b : Build) (m : Machine) {i : Nat} {e : PageMeta}
    (here : m.proc.pgmeta[i]? = some e) :
    ∃ e', (m.chosen b).proc.pgmeta[i]? = some e' ∧ e'.unreferenced = e.unreferenced := by
  have same := congrArg (fun l => l[i]?)
    (unreferenced_selectVictim b.policy m.proc.pgmeta m.proc.pageSeqCtr m.proc.clockHand)
  simp only [List.getElem?_map, here, Option.map_some] at same
  exact Option.map_eq_some_iff.mp same

theorem Machine.chosen_unseen (b : Build) (m : Machine) : Unseen m (m.chosen b) where
  table := rfl
  mem := rfl
  bitmap := rfl
  swapPages := rfl
  slots _ _ _ := .refl _ _
  entries _ _ here _ := m.chosen_entries b here

theorem Unseen.killed (unseen : Unseen m m') : Unseen m (m'.setProc { m'.proc with killed := true }) :=
  ⟨unseen.table, unseen.mem, unseen.bitmap, unseen.swapPages, unseen.slots, unseen.entries⟩

theorem writei_sameSlot {ip ip' : Inode} {src : Page} {slot other blocks : Nat} {r : Option Nat}
    (written : writei ip src (slot * 4096) 4096 blocks = (r, ip')) (apart : other ≠ slot) :
    SameSlot (some ip) (some ip') other := by
  intro file here
  obtain rfl := Option.some.inj here
  obtain rfl : (writei ip src (slot * 4096) 4096 blocks).2 = ip' := by rw [written]
  exact ⟨_, rfl, writei_size .., fun k below => writei_data _ _ _ _ _ (by omega)⟩

theorem SwapFailed.unseen {pa : Nat} (failed : SwapFailed (m.chosen b) pa m')
    (apart : m.books.SlotsApart) : Unseen m m' := by
  have chosen := m.chosen_unseen b
  cases failed with
  | noFile => exact chosen.killed
  | full => exact chosen.killed
  | short ip ip' slot bitmap r file found written =>
    refine ⟨rfl, rfl, swapFreeSlot_alloc found, rfl, ?_, chosen.entries⟩
    intro e member inSwap
    change SameSlot (m.chosen b).proc.swapip _ _
    rw [file]
    exact writei_sameSlot written (apart.unheld found e member inSwap)

theorem Machine.stale_unseen {best : Nat}
    (absent : m.proc.pagetable.leaf (metaAt (m.victim b).2 best).va = none) :
    Unseen m ((m.chosen b).setProc { (m.chosen b).proc with
      pgmeta := pgmetaClear (m.victim b).2 best }) := by
  refine ⟨rfl, rfl, rfl, rfl, fun _ _ _ => .refl _ _, ?_⟩
  intro i e here mapped
  obtain ⟨e', kept, same⟩ := m.chosen_entries b here
  have other : best ≠ i := by
    rintro rfl
    have entry : metaAt (m.victim b).2 best = e' := by
      unfold metaAt
      rw [List.getD_eq_getElem?_getD]
      exact congrArg (Option.getD · PageMeta.cleared) kept
    have keys := congrArg PageMeta.va same
    have key : e'.va = e.va := keys
    rw [entry, key] at absent
    rw [absent] at mapped
    contradiction
  exact ⟨e', (List.getElem?_set_ne other).trans kept, same⟩

theorem failed_eviction_unseen {m₀ : Machine} (execed : m₀.Execed b)
    (reached : (m₀.lineage b).Reachable m) (failed : tryEvictOne b m = .ok (false, m')) :
    Unseen m m' := by
  have evicted := wp_ok tryEvictOne_outcome_of failed
  cases evicted with
  | noVictim => exact m.chosen_unseen b
  | stale best _ absent => exact Machine.stale_unseen absent
  | unsaved best leaf _ _ _ failed => exact failed.unseen (Machine.slots_apart execed reached)

-- A written heap page, and a disk that has two blocks left.
theorem failed_eviction_unseen_short : ∃ m₀ m m' : Machine, m₀.Execed .small ∧
    (m₀.lineage .small).Reachable m ∧ tryEvictOne .small m = .ok (false, m') ∧
    m.proc.pgmeta.any PageMeta.dirty = true ∧ Unseen m m' := by
  obtain ⟨m₀, m, execed, reached, shown⟩ := Machine.run_shows (b := .small) 40 (oneSegment 7) shortArgv
    [.sbrk 16384 2, .fault 0x4000 .read, .fault 0x4000 .write, .other [] (fun _ _ => 0) [2]]
    (fun _ _ => true) (fun _ m => m.proc.pgmeta.any PageMeta.dirty &&
      (tryEvictOne .small m).toOption.any fun r => !r.1)
    (fun _ _ _ => trivial) (by decide +kernel)
  rw [Bool.and_eq_true] at shown
  obtain ⟨dirty, fails⟩ := shown
  cases ran : tryEvictOne .small m with
  | error panic =>
    rw [ran] at fails
    contradiction
  | ok r =>
    obtain ⟨ok, m'⟩ := r
    rw [ran] at fails
    obtain rfl : ok = false := by simpa [Except.toOption] using fails
    exact ⟨m₀, m, m', execed, reached, ran, dirty, failed_eviction_unseen execed reached ran⟩

end SystemsSuite.Paging
