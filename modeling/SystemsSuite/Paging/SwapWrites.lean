import SystemsSuite.Paging.FailedEviction
import SystemsSuite.Paging.FaultProgress

set_option autoImplicit false

namespace SystemsSuite.Paging

open Lib Prog

variable {b : Build} {lent : Nat → Prop} {m m' : Machine}

theorem writeLoop_reach (src : Nat → UInt8) (n blocks : Nat) (ip : Inode) (off tot : Nat) :
    tot ≤ (writeLoop src n blocks ip off tot).1 ∧
      off + ((writeLoop src n blocks ip off tot).1 - tot) ≤ (writeLoop src n blocks ip off tot).2.size := by
  induction blocks generalizing ip off tot with
  | zero => exact ⟨le_rfl, by simp [writeLoop]⟩
  | succ blocks ih =>
    rw [writeLoop]
    split_ifs with more
    · have rest := ih (ip.overwrite off (min (n - tot) (bsize - off % bsize)) fun k => src (tot + k))
        (off + min (n - tot) (bsize - off % bsize)) (tot + min (n - tot) (bsize - off % bsize))
      simp only
      omega
    · exact ⟨le_rfl, by simp⟩

theorem writei_reach {ip ip' : Inode} {src : Nat → UInt8} {off n blocks done : Nat}
    (written : writei ip src off n blocks = (some done, ip')) : off + done ≤ ip'.size := by
  unfold writei at written
  split_ifs at written
  · simp at written
  · simp at written
  · obtain ⟨rfl, rfl⟩ : (writeLoop src n blocks ip off 0).1 = done ∧ (writeLoop src n blocks ip off 0).2 = ip' := by
      simpa using written
    exact (writeLoop_reach src n blocks ip off 0).2

-- A write in a file passes the checks of `writei` if it starts inside the file and ends below the limit.
theorem writei_isSome (ip : Inode) (src : Nat → UInt8) {off n : Nat} (blocks : Nat) (small : off + n < 2 ^ 32) :
    (writei ip src off n blocks).1.isSome = true ↔ off ≤ ip.size ∧ off + n ≤ maxfile * bsize := by
  have exact_ : u32 (off + n) = off + n := Nat.mod_eq_of_lt small
  unfold writei
  rw [exact_]
  split_ifs with outside high
  · simp
    omega
  · simp
    omega
  · simp
    omega

-- The swap file reaches to the end of each slot that is marked as used.
def Proc.SlotsWritten (p : Proc) : Prop :=
  ∀ ip ∈ p.swapip, ∀ slot : Nat, slotUsed p.swapBitmap slot = true → slot * 4096 + 4096 ≤ ip.size

namespace Proc.SlotsWritten

theorem of_pager {p p' : Proc} (written : p.SlotsWritten) (swapip : p'.swapip = p.swapip)
    (bitmap : p'.swapBitmap = p.swapBitmap) : p'.SlotsWritten := by
  unfold SlotsWritten
  rwa [swapip, bitmap]

theorem unused {p : Proc} (bitmap : p.swapBitmap = List.replicate 128 0#8) : p.SlotsWritten := by
  intro ip _ slot used
  rw [bitmap, slotUsed_iff, List.getD_eq_getElem?_getD, List.getElem?_replicate] at used
  split_ifs at used <;> simp at used

theorem fewer {p p' : Proc} (written : p.SlotsWritten)
    (file : ∀ ip' ∈ p'.swapip, ∃ ip ∈ p.swapip, ip.size ≤ ip'.size)
    (used : ∀ slot : Nat, slotUsed p'.swapBitmap slot = true → slotUsed p.swapBitmap slot = true) :
    p'.SlotsWritten := by
  intro ip' here slot taken
  obtain ⟨ip, before, longer⟩ := file ip' here
  exact (written ip before slot (used slot taken)).trans longer

end Proc.SlotsWritten

theorem SwapFailed.written {pa : Nat} (failed : SwapFailed m pa m') (written : m.proc.SlotsWritten) :
    m'.proc.SlotsWritten := by
  cases failed with
  | noFile => exact written.of_pager rfl rfl
  | full => exact written.of_pager rfl rfl
  | short ip ip' slot bitmap r file found wrote =>
    have longer := writei_size ip (m.mem pa) (slot * 4096) 4096 (m.writeBlocks.headD 5)
    rw [wrote] at longer
    refine written.fewer ?_ fun used taken => ?_
    · rintro _ ⟨⟩
      exact ⟨ip, file, longer⟩
    · rwa [← swapFreeSlot_alloc found]

theorem SwapSaved.written {best pa : Nat} (saved : SwapSaved m best pa m') (written : m.proc.SlotsWritten) :
    m'.proc.SlotsWritten := by
  cases saved with
  | saved ip ip' slot bitmap file found wrote =>
    obtain ⟨_, _, marked⟩ := swapAllocSlot_spec found
    have longer := writei_size ip (m.mem pa) (slot * 4096) 4096 (m.writeBlocks.headD 5)
    rw [wrote] at longer
    rintro _ ⟨⟩ used taken
    change slotUsed bitmap used = true at taken
    rw [marked] at taken
    rcases slotUsed_alloc taken with rfl | before
    · exact writei_reach wrote
    · exact (written ip file used before).trans longer

theorem Evicted.written {ok : Bool} (evicted : Evicted b m ok m') (written : m.proc.SlotsWritten) :
    m'.proc.SlotsWritten := by
  have chosen : (m.chosen b).proc.SlotsWritten := written.of_pager rfl rfl
  cases evicted with
  | noVictim => exact chosen
  | stale => exact chosen.of_pager rfl rfl
  | unsaved _ _ _ _ _ failed => exact failed.written chosen
  | discarded => exact chosen.of_pager rfl rfl
  | saved _ _ _ _ _ _ saved => exact (saved.written chosen).of_pager rfl rfl

theorem Emptier.used {bitmap bitmap' : Bitmap} (emptier : Emptier bitmap bitmap') {slot : Nat}
    (taken : slotUsed bitmap' slot = true) : slotUsed bitmap slot = true := by
  rcases emptier with rfl | ⟨freed, rfl⟩
  · exact taken
  · unfold swapFreeSlot at taken
    split_ifs at taken
    · rw [slotUsed_iff] at *
      rw [getD_modify] at taken
      split_ifs at taken
      · rw [BitVec.getLsbD_and, Bool.and_eq_true] at taken
        exact taken.1
      · exact taken
    · exact taken

theorem Move.written {a : Act} (move : Move b lent m a m') (written : m.proc.SlotsWritten) :
    m'.proc.SlotsWritten := by
  cases move with
  | memory _ step => exact written.of_pager (congrArg Pager.swapip step.pager) (congrArg Pager.swapBitmap step.pager)
  | unmap _ _ step => exact written.of_pager (congrArg Pager.swapip step.pager) (congrArg Pager.swapBitmap step.pager)
  | note => exact written.of_pager rfl rfl
  | touch => exact written.of_pager rfl rfl
  | evict _ _ evicted => exact evicted.written written
  | arrive _ _ _ _ arrived =>
    refine written.fewer (fun ip here => ⟨ip, ?_, le_rfl⟩) fun _ => arrived.bitmap.used
    rwa [← arrived.swapip]
  | untracked => exact written.of_pager rfl rfl
  | exec _ renewed => exact .unused renewed.bitmap

theorem Kernel.slots_written {k : Kernel} (reached : (Kernel.system b).Reachable k) :
    ∀ p ∈ k.procs, p.SlotsWritten := by
  have both : k.Safe b ∧ ∀ p ∈ k.procs, p.SlotsWritten := by
    apply reached.invariant
    · rintro k ⟨empty, _, frames, _⟩
      exact ⟨⟨frames, by simp [empty]⟩, by simp [empty]⟩
    · rintro k l k' ⟨safe, written⟩ taken
      refine ⟨safe.next taken, Kernel.procs_next written (fun _ _ => .unused rfl) ?_ ?_ taken⟩
      · intro i writeBlocks call p _ here
        have member := List.mem_iff_getElem?.mpr ⟨i, here⟩
        apply wp_mono (call.run_course (safe.machine member writeBlocks).gives) _ fun _ _ => trivial
        exact fun _ m so => so.invariant (written p member) fun _ _ _ _ before move => move.written before
      · intro created writeBlocks p member
        have started := safe.machine member writeBlocks
        apply wp_mono (kfork_course created started.start) _ fun _ _ => trivial
        rintro r m ⟨so, bred⟩
        exact ⟨so.invariant (written p member) fun _ _ _ _ before move => move.written before,
          fun child born => .unused (bred child born).bitmap⟩
  exact both.2

theorem swapAllocSlot_lowest {bitmap bitmap' : Bitmap} {slot : Nat}
    (found : swapAllocSlot bitmap = some (slot, bitmap')) : ∀ lower < slot, slotUsed bitmap lower = true := by
  obtain ⟨i, picked, same⟩ := Option.map_eq_some_iff.mp found
  obtain ⟨rfl, rfl⟩ := Prod.mk.inj same
  intro lower below
  simpa using (List.find?_range_eq_some.mp picked).2.2 lower below

theorem Proc.SlotsWritten.next {p : Proc} (written : p.SlotsWritten) {ip : Inode} {slot : Nat} {bitmap : Bitmap}
    (file : p.swapip = some ip) (found : swapAllocSlot p.swapBitmap = some (slot, bitmap)) :
    slot * 4096 ≤ ip.size := by
  cases slot with
  | zero => omega
  | succ below =>
    have reach := written ip file below (swapAllocSlot_lowest found below (Nat.lt_succ_self below))
    omega

-- One of the slots that end within the largest file is free.
def Proc.LowSlotFree (p : Proc) : Prop := ∃ slot < maxfile * bsize / 4096, slotUsed p.swapBitmap slot = false

theorem Proc.lowSlotFree_iff {p : Proc} {slot : Nat} {bitmap : Bitmap}
    (found : swapAllocSlot p.swapBitmap = some (slot, bitmap)) :
    p.LowSlotFree ↔ slot * 4096 + 4096 ≤ maxfile * bsize := by
  have limit : maxfile * bsize = 67 * 4096 := rfl
  have pages : maxfile * bsize / 4096 = 67 := rfl
  constructor
  · rintro ⟨free, low, unused⟩
    have least : slot ≤ free := by
      by_contra above
      have used := swapAllocSlot_lowest found free (Nat.lt_of_not_le above)
      rw [unused] at used
      exact Bool.false_ne_true used
    omega
  · intro below
    exact ⟨slot, by omega, (swapAllocSlot_spec found).2.1⟩

section Reachable

variable {k : Kernel} (reached : (Kernel.system b).Reachable k) {i : Nat} {p : Proc}
  (running : k.procs[i]? = some p) {ip : Inode} (file : p.swapip = some ip) {slot : Nat} {bitmap : Bitmap}
  (found : swapAllocSlot p.swapBitmap = some (slot, bitmap))

include reached running file found

theorem swapWrite_checked : slot * 4096 ≤ ip.size ∧
    ∀ (src : Page) (blocks : Nat), (writei ip src (slot * 4096) 4096 blocks).1.isSome = true ↔ p.LowSlotFree := by
  have inside := (Kernel.slots_written reached p (List.mem_iff_getElem?.mpr ⟨i, running⟩)).next file found
  have small := (swapAllocSlot_spec found).1
  refine ⟨inside, fun src blocks => ?_⟩
  rw [writei_isSome ip src blocks (by unfold swapSlots at small; omega), Proc.lowSlotFree_iff found]
  exact ⟨fun checks => checks.2, fun low => ⟨inside, low⟩⟩

theorem swap_writes_accepted :
    ((slot * 4096 ≤ ip.size ∧ slot * 4096 + 4096 ≤ maxfile * bsize) ↔ p.LowSlotFree) ∧
      ∀ (src : Page) (blocks : Nat), (writei ip src (slot * 4096) 4096 blocks).1.isSome = true ↔ p.LowSlotFree := by
  obtain ⟨inside, accepted⟩ := swapWrite_checked reached running file found
  refine ⟨?_, accepted⟩
  rw [Proc.lowSlotFree_iff found]
  exact ⟨fun checks => checks.2, fun low => ⟨inside, low⟩⟩

end Reachable

-- A program with 68 writable pages, of which the first `n` are touched and go to swap.
def swappingRun (n : Nat) : List Label :=
  [.userinit, .run 0 [] (.call (.kexec (some (elfFile 7 [⟨elfProgLoad, 6, 0, 0x1000, 64, 68 * 4096⟩] []))
    [[65]] (some 9)))] ++
  (List.range n).flatMap fun i =>
    [.run 0 [] (.call (.vmfault (0x1000 + i * 4096) .write)), .run 0 [] (.call .tryEvictOne)]

theorem swappingRun_shows (n slot : Nat)
    (ran : (System.execute (Kernel.next .small) (fun _ _ => true) (Kernel.boot 24) (swappingRun n)).any
      (fun k => k.procs[0]?.any fun p => p.swapip.isSome &&
        (swapAllocSlot p.swapBitmap).any fun taken => taken.1 == slot) = true) :
    ∃ (k : Kernel) (p : Proc) (ip : Inode) (bitmap : Bitmap), (Kernel.system .small).Reachable k ∧
      k.procs[0]? = some p ∧ p.swapip = some ip ∧ swapAllocSlot p.swapBitmap = some (slot, bitmap) := by
  obtain ⟨k, executed, shown⟩ := (Option.any_eq_true ..).mp ran
  obtain ⟨p, running, shown⟩ := (Option.any_eq_true ..).mp shown
  obtain ⟨file, shown⟩ := Bool.and_eq_true_iff.mp shown
  obtain ⟨ip, file⟩ := Option.isSome_iff_exists.mp file
  obtain ⟨⟨taken, bitmap⟩, found, same⟩ := (Option.any_eq_true ..).mp shown
  obtain rfl : taken = slot := by simpa using same
  have boot : Kernel.AtBoot .small (Kernel.boot 24) := ⟨rfl, by decide +kernel, by decide +kernel, rfl⟩
  have reached : (Kernel.system .small).Reachable k := System.execute_reachable boot (swappingRun n) executed
  exact ⟨k, p, ip, bitmap, reached, running, file, found⟩

theorem swap_writes_accepted_second : ∃ (k : Kernel) (p : Proc) (ip : Inode) (bitmap : Bitmap),
    (Kernel.system .small).Reachable k ∧ k.procs[0]? = some p ∧ p.swapip = some ip ∧
      swapAllocSlot p.swapBitmap = some (1, bitmap) ∧
      ∀ (src : Page) (blocks : Nat), (writei ip src (1 * 4096) 4096 blocks).1.isSome = true := by
  obtain ⟨k, p, ip, bitmap, reached, running, file, found⟩ := swappingRun_shows 1 1 (by decide +kernel)
  refine ⟨k, p, ip, bitmap, reached, running, file, found, fun src blocks => ?_⟩
  exact ((swap_writes_accepted reached running file found).2 src blocks).mpr
    ((Proc.lowSlotFree_iff found).mpr (by decide))

-- 67 pages are in swap, and the file is as long as a file can be.
theorem swap_write_refused : ∃ (k : Kernel) (p : Proc) (ip : Inode) (bitmap : Bitmap),
    (Kernel.system .small).Reachable k ∧ k.procs[0]? = some p ∧ p.swapip = some ip ∧
      swapAllocSlot p.swapBitmap = some (67, bitmap) ∧ 67 < swapSlots ∧ ¬ 67 * 4096 + 4096 ≤ maxfile * bsize ∧
      ∀ (src : Page) (blocks : Nat), (writei ip src (67 * 4096) 4096 blocks).1 = none := by
  obtain ⟨k, p, ip, bitmap, reached, running, file, found⟩ := swappingRun_shows 67 67 (by decide +kernel)
  refine ⟨k, p, ip, bitmap, reached, running, file, found, by decide, ?_, fun src blocks => ?_⟩
  · rw [show maxfile * bsize = 67 * 4096 from rfl]
    omega
  apply Option.not_isSome_iff_eq_none.mp
  rw [(swapWrite_checked reached running file found).2 src blocks, Proc.lowSlotFree_iff found,
    show maxfile * bsize = 67 * 4096 from rfl]
  omega

end SystemsSuite.Paging
