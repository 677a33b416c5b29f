import SystemsSuite.Paging.Residency
import SystemsSuite.Paging.SizeBound
import SystemsSuite.Paging.SwapAccounts

set_option autoImplicit false

namespace SystemsSuite.Paging

open Lib Prog

variable {b : Build} {m : Machine}

-- A uint64 put into an int.
def asInt (n : Nat) : Int := (BitVec.ofNat 32 n).toInt

def maxPagesInfo : Nat := 128

inductive PageState
  | unmapped
  | resident
  | swapped
  deriving DecidableEq, Repr

structure PageStat where
  va : Nat
  state : PageState
  isDirty : Int
  seq : Int
  swapSlot : Int
  deriving DecidableEq, Repr

structure ProcMemStat where
  pid : Int
  numPagesTotal : Int
  numResidentPages : Int
  numSwappedPages : Int
  nextFifoSeq : Int
  pages : List PageStat
  deriving DecidableEq, Repr

def ismapped (t : Target) (va : Nat) : Kern Bool := do
  match ← walk t va with
  | some (.leaf _) => pure true
  | _ => pure false

-- What is reported of a page with an entry, and of one without.
def PageMeta.stat (e : PageMeta) (vaPg : Nat) : PageStat where
  va := u32 vaPg
  state := if e.resident then .resident else if e.inSwap then .swapped else .unmapped
  isDirty := if e.dirty then 1 else 0
  seq := asInt e.seq
  swapSlot := if e.inSwap then e.slot else -1

def untrackedStat (vaPg : Nat) (mapped : Bool) : PageStat where
  va := u32 vaPg
  state := if mapped then .resident else .unmapped
  isDirty := 0
  seq := 0
  swapSlot := -1

-- The counts so far, and what is filled in of `kms.pages`.
structure Tally where
  resident : Nat
  swapped : Nat
  pages : List PageStat

def Tally.add (t : Tally) (resident swapped : Bool) (ps : PageStat) : Tally where
  resident := t.resident + resident.toNat
  swapped := t.swapped + swapped.toNat
  pages := if t.pages.length < maxPagesInfo then t.pages ++ [ps] else t.pages

-- The second `ismapped`, for the report, has the answer of the first.
def tallyPage (t : Tally) (pg : Nat) : Kern Tally := do
  let vaPg := pg * 4096
  let metas := (← read).proc.pgmeta
  match pgmetaFind metas vaPg with
  | some midx =>
    let e := metaAt metas midx
    pure (t.add e.resident e.inSwap (e.stat vaPg))
  | none =>
    let mapped ← ismapped .own vaPg
    pure (t.add mapped false (untrackedStat vaPg mapped))

def tallyLoop : Nat → Nat → Tally → Kern Tally
  | 0, _, t => pure t
  | n + 1, pg, t => do
    let t ← tallyPage t pg
    tallyLoop n (pg + 1) t

-- `sys_memstat` up to the copy of the structure to user space; `pid` is `p->pid`.
def memstat (pid : Int) : Kern ProcMemStat := do
  let p := (← read).proc
  let totalPages := asInt (pgroundup p.sz / 4096)
  let t ← tallyLoop totalPages.toNat 0 ⟨0, 0, []⟩
  pure {
    pid := pid
    numPagesTotal := totalPages
    numResidentPages := t.resident
    numSwappedPages := t.swapped
    nextFifoSeq := asInt p.pageSeqCtr
    pages := t.pages ++ List.replicate (maxPagesInfo - t.pages.length) ⟨0, .unmapped, 0, 0, 0⟩ }

namespace Machine

def totalPages (m : Machine) : Nat := pgroundup m.proc.sz / 4096

def mapped (m : Machine) (pg : Nat) : Bool := (m.proc.pagetable.leaf (pg * 4096)).isSome

def savedInSwap (m : Machine) (pg : Nat) : Bool := m.proc.pgmeta.any fun e => e.va == pg * 4096 && e.inSwap

-- The structure agrees with the page table and the swap file.
structure Told (m : Machine) (kms : ProcMemStat) : Prop where
  resident : kms.numResidentPages = ((List.range m.totalPages).countP m.mapped : Nat)
  swapped : kms.numSwappedPages =
    ((List.range m.totalPages).countP fun pg => !m.mapped pg && m.savedInSwap pg : Nat)
  sum : kms.numResidentPages + kms.numSwappedPages ≤ kms.numPagesTotal
  reported : ∀ pg < min m.totalPages maxPagesInfo, ∃ ps, kms.pages[pg]? = some ps ∧
    ps.va = pg * 4096 ∧ (ps.state = .resident ↔ m.mapped pg = true)

def toldResident (m : Machine) (pg : Nat) : Bool :=
  match pgmetaFind m.proc.pgmeta (pg * 4096) with
  | some midx => (metaAt m.proc.pgmeta midx).resident
  | none => m.mapped pg

def toldSwapped (m : Machine) (pg : Nat) : Bool :=
  match pgmetaFind m.proc.pgmeta (pg * 4096) with
  | some midx => (metaAt m.proc.pgmeta midx).inSwap
  | none => false

def stat (m : Machine) (pg : Nat) : PageStat :=
  match pgmetaFind m.proc.pgmeta (pg * 4096) with
  | some midx => (metaAt m.proc.pgmeta midx).stat (pg * 4096)
  | none => untrackedStat (pg * 4096) (m.mapped pg)

theorem stat_va (m : Machine) (pg : Nat) : (m.stat pg).va = u32 (pg * 4096) := by
  unfold stat
  split <;> rfl

theorem stat_resident (m : Machine) (pg : Nat) :
    (m.stat pg).state = .resident ↔ m.toldResident pg = true := by
  unfold stat toldResident
  split
  next midx _ =>
    cases resident : (metaAt m.proc.pgmeta midx).resident <;>
      cases inSwap : (metaAt m.proc.pgmeta midx).inSwap <;> simp [PageMeta.stat, resident, inSwap]
  next => cases mapped : m.mapped pg <;> simp [untrackedStat]

end Machine

def Tally.step (m : Machine) (t : Tally) (pg : Nat) : Tally :=
  t.add (m.toldResident pg) (m.toldSwapped pg) (m.stat pg)

theorem ismapped_answer {va : Nat} (below : va < maxva) :
    wp (ismapped .own va) (fun r m' => r = (m.proc.pagetable.leaf va).isSome ∧ m' = m) (fun _ => False) m := by
  unfold ismapped
  rw [wp_bind, wp_walk]
  refine ⟨fun high => absurd below (Nat.not_lt.mpr high), fun _ => ?_⟩
  cases found : (m.table .own).walk va with
  | none =>
    have absent : m.proc.pagetable.leaf va = none := PageTable.leaf_of_walk found
    exact ⟨by rw [absent]; rfl, rfl⟩
  | some node =>
    have here : m.proc.pagetable.leaf va = Radix.value? (some node) := PageTable.leaf_of_walk found
    cases node with
    | empty => exact ⟨by rw [here]; rfl, rfl⟩
    | leaf leaf => exact ⟨by rw [here]; rfl, rfl⟩

theorem tallyPage_answer (t : Tally) {pg : Nat} (below : pg * 4096 < maxva) :
    wp (tallyPage t pg) (fun t' m' => t' = t.step m pg ∧ m' = m) (fun _ => False) m := by
  unfold tallyPage Tally.step Machine.toldResident Machine.toldSwapped Machine.stat
  rw [wp_bind, wp_read]
  simp only
  cases pgmetaFind m.proc.pgmeta (pg * 4096) with
  | some midx => exact ⟨rfl, rfl⟩
  | none =>
    apply wp_seq (ismapped_answer below)
    rintro mapped m' ⟨rfl, rfl⟩
    exact ⟨rfl, rfl⟩

theorem tallyLoop_answer (n pg : Nat) (t : Tally) (below : ∀ k ∈ List.range' pg n, k * 4096 < maxva) :
    wp (tallyLoop n pg t) (fun t' m' => t' = (List.range' pg n).foldl (Tally.step m) t ∧ m' = m)
      (fun _ => False) m := by
  induction n generalizing pg t with
  | zero => exact ⟨rfl, rfl⟩
  | succ n ih =>
    rw [List.range'_succ] at below ⊢
    apply wp_seq (tallyPage_answer t (below pg List.mem_cons_self))
    rintro t' m' ⟨rfl, rfl⟩
    exact ih (pg + 1) _ fun k member => below k (List.mem_cons_of_mem pg member)

structure Tally.Counts (m : Machine) (pages : List Nat) (t : Tally) : Prop where
  resident : t.resident = pages.countP m.toldResident
  swapped : t.swapped = pages.countP m.toldSwapped
  pages : t.pages = (pages.map m.stat).take maxPagesInfo

theorem Tally.Counts.step {pages : List Nat} {t : Tally} (counts : t.Counts m pages) (pg : Nat) :
    (t.step m pg).Counts m (pages ++ [pg]) := by
  refine ⟨?_, ?_, ?_⟩
  · rw [List.countP_append, ← counts.resident]
    cases told : m.toldResident pg <;> simp [Tally.step, Tally.add, told]
  · rw [List.countP_append, ← counts.swapped]
    cases told : m.toldSwapped pg <;> simp [Tally.step, Tally.add, told]
  · unfold Tally.step Tally.add
    rw [counts.pages, List.map_append, List.map_singleton, List.length_take, List.length_map]
    split
    next room =>
      have short : pages.length < maxPagesInfo := by omega
      rw [List.take_of_length_le (by simpa using short.le), List.take_of_length_le (by simpa using short)]
    next full =>
      have long : maxPagesInfo ≤ pages.length := by omega
      rw [List.take_append_of_le_length (by simpa using long)]

theorem Tally.Counts.run {pages : List Nat} {t : Tally} (counts : t.Counts m pages) (more : List Nat) :
    (more.foldl (Tally.step m) t).Counts m (pages ++ more) := by
  induction more generalizing pages t with
  | nil => simpa using counts
  | cons pg rest ih =>
    have later := ih (counts.step pg)
    rwa [List.append_assoc] at later

namespace Machine

theorem mapped_pte (m : Machine) {pg : Nat} (below : pg * 4096 < maxva) :
    m.mapped pg = (m.books.pte pg).isSome := by
  have here := m.proc.pagetable.ptes_leaf below
  rw [Nat.mul_div_cancel pg (by decide)] at here
  change _ = (m.proc.pagetable.ptes pg).isSome
  rw [here]
  exact Option.isSome_map.symm

theorem found_entry {va midx : Nat} (found : pgmetaFind m.proc.pgmeta va = some midx) :
    metaAt m.proc.pgmeta midx ∈ m.proc.pgmeta ∧ (metaAt m.proc.pgmeta midx).va = va := by
  obtain ⟨inside, here, _⟩ := List.findIdx?_eq_some_iff_getElem.mp found
  have same : metaAt m.proc.pgmeta midx = m.proc.pgmeta[midx] := by
    simp [metaAt, List.getD_eq_getElem?_getD, inside]
  rw [same]
  exact ⟨List.getElem_mem inside, of_decide_eq_true here⟩

theorem savedInSwap_found (keyed : m.books.Keyed) {pg midx : Nat} (positive : pg ≠ 0)
    (found : pgmetaFind m.proc.pgmeta (pg * 4096) = some midx) :
    m.savedInSwap pg = (metaAt m.proc.pgmeta midx).inSwap := by
  obtain ⟨member, key⟩ := found_entry found
  have key_ne : pg * 4096 ≠ 0 := by omega
  have only : ∀ e ∈ m.proc.pgmeta, e.va = pg * 4096 → e.inSwap = (metaAt m.proc.pgmeta midx).inSwap := by
    intro e here at_
    obtain ⟨i, find, entry⟩ := Books.find_member keyed (List.mem_map_of_mem here) at_ key_ne
    obtain ⟨j, find', entry'⟩ := Books.find_member keyed (List.mem_map_of_mem member) key key_ne
    obtain rfl := Option.some.inj (find.symm.trans find')
    exact congrArg Entry.inSwap (Option.some.inj (entry.symm.trans entry'))
  unfold savedInSwap
  cases inSwap : (metaAt m.proc.pgmeta midx).inSwap with
  | true =>
    refine List.any_eq_true.mpr ⟨_, member, ?_⟩
    simp [key, inSwap]
  | false =>
    refine List.any_eq_false.mpr fun e here => ?_
    simp only [Bool.and_eq_true, beq_iff_eq, not_and]
    intro at_
    rw [only e here at_, inSwap]
    exact Bool.false_ne_true

theorem told_eq (matched : m.books.Matched) (balanced : m.books.SwapBalanced) {pg : Nat} (positive : pg ≠ 0)
    (below : pg * 4096 < maxva) :
    m.toldResident pg = m.mapped pg ∧ m.toldSwapped pg = (!m.mapped pg && m.savedInSwap pg) := by
  unfold toldResident toldSwapped
  cases found : pgmetaFind m.proc.pgmeta (pg * 4096) with
  | none =>
    have absent : m.savedInSwap pg = false := by
      refine List.any_eq_false.mpr fun e here => ?_
      have other := List.findIdx?_eq_none_iff.mp found e here
      simp at other
      simp [other]
    simp [absent]
  | some midx =>
    obtain ⟨member, key⟩ := found_entry found
    have entry := List.mem_map_of_mem (f := PageMeta.entry) member
    have resident := matched.resident _ entry (by change (metaAt m.proc.pgmeta midx).va ≠ 0; omega)
    change (metaAt m.proc.pgmeta midx).resident = true ↔ (m.books.pte ((metaAt m.proc.pgmeta midx).va / 4096)).isSome = true
      at resident
    rw [key, Nat.mul_div_cancel pg (by decide), ← m.mapped_pte below] at resident
    have exclusive : (metaAt m.proc.pgmeta midx).inSwap = true → (metaAt m.proc.pgmeta midx).resident = false :=
      balanced.exclusive _ entry
    refine ⟨Bool.eq_iff_iff.mpr resident, ?_⟩
    rw [savedInSwap_found matched.keyed positive found, ← Bool.eq_iff_iff.mpr resident]
    cases inSwap : (metaAt m.proc.pgmeta midx).inSwap with
    | true => simp [exclusive inSwap, inSwap]
    | false => simp [inSwap]

theorem told_zero (balanced : m.books.SwapBalanced) :
    m.toldSwapped 0 = false ∧ m.savedInSwap 0 = false := by
  have absent : ∀ e ∈ m.proc.pgmeta, e.va = 0 → e.inSwap = false := by
    intro e member zero
    exact Bool.eq_false_iff.mpr fun saved =>
      balanced.keyed e.entry (List.mem_map_of_mem member) saved zero
  constructor
  · unfold toldSwapped
    rw [Nat.zero_mul]
    cases found : pgmetaFind m.proc.pgmeta 0 with
    | none => rfl
    | some midx =>
      obtain ⟨member, key⟩ := found_entry found
      exact absent _ member key
  · refine List.any_eq_false.mpr fun e member => ?_
    simp only [Nat.zero_mul, Bool.and_eq_true, beq_iff_eq, not_and]
    intro zero
    rw [absent e member zero]
    exact Bool.false_ne_true

-- The entry that `pgmeta_find` gives for page 0, the first free one, is resident exactly if page 0
-- is mapped.
def ZeroTold (m : Machine) : Prop :=
  m.proc.sz ≠ 0 → ∀ i, pgmetaFind m.proc.pgmeta 0 = some i →
    ((metaAt m.proc.pgmeta i).resident = true ↔ (m.proc.pagetable.leaf 0).isSome = true)

theorem toldResident_zero : m.toldResident 0 = m.mapped 0 ↔ ∀ i, pgmetaFind m.proc.pgmeta 0 = some i →
    ((metaAt m.proc.pgmeta i).resident = true ↔ (m.proc.pagetable.leaf 0).isSome = true) := by
  unfold toldResident mapped
  rw [Nat.zero_mul]
  cases pgmetaFind m.proc.pgmeta 0 with
  | none => simp
  | some i =>
    simp only [Option.some.injEq, forall_eq']
    exact Bool.eq_iff_iff

theorem totalPages_below (small : m.proc.sz ≤ trapframeVa) : m.totalPages * 4096 ≤ maxva := by
  have top := pgroundup_le_trapframe small
  have page := pgroundup_aligned m.proc.sz
  have highest : trapframeVa ≤ maxva := by decide
  unfold totalPages
  rw [Nat.div_mul_cancel (Nat.dvd_of_mod_eq_zero page)]
  exact top.trans highest

theorem asInt_totalPages (small : m.proc.sz ≤ trapframeVa) : asInt m.totalPages = m.totalPages := by
  have below : m.totalPages < 2 ^ 31 := by
    have top := totalPages_below small
    unfold maxva at top
    omega
  unfold asInt
  rw [BitVec.toInt_eq_toNat_of_lt (by simp; omega), BitVec.toNat_ofNat, Nat.mod_eq_of_lt (by omega)]

theorem page_below (small : m.proc.sz ≤ trapframeVa) : ∀ pg ∈ List.range m.totalPages, pg * 4096 < maxva := by
  intro pg member
  have inside := List.mem_range.mp member
  exact Nat.lt_of_lt_of_le (Nat.mul_lt_mul_of_pos_right inside (by decide)) (totalPages_below small)

theorem memstat_answer (small : m.proc.sz ≤ trapframeVa) (pid : Int) :
    wp (memstat pid) (fun kms m' => m' = m ∧
      kms.numPagesTotal = m.totalPages ∧
      kms.numResidentPages = ((List.range m.totalPages).countP m.toldResident : Nat) ∧
      kms.numSwappedPages = ((List.range m.totalPages).countP m.toldSwapped : Nat) ∧
      ∀ pg < min m.totalPages maxPagesInfo, kms.pages[pg]? = some (m.stat pg)) (fun _ => False) m := by
  have total := asInt_totalPages small
  have rounds : (asInt m.totalPages).toNat = m.totalPages := by
    rw [total]
    exact Int.toNat_natCast _
  unfold memstat
  rw [wp_bind, wp_read]
  change wp (tallyLoop (asInt m.totalPages).toNat 0 ⟨0, 0, []⟩ >>= _) _ _ m
  rw [rounds]
  apply wp_seq (tallyLoop_answer m.totalPages 0 _ (by rw [← List.range_eq_range']; exact page_below small))
  rintro t m' ⟨rfl, rfl⟩
  have start : Tally.Counts m' [] ⟨0, 0, []⟩ := ⟨rfl, rfl, rfl⟩
  have counts := start.run (List.range m'.totalPages)
  rw [List.nil_append] at counts
  rw [← List.range_eq_range']
  refine ⟨rfl, total, ?_, ?_, fun pg inside => ?_⟩
  · exact congrArg Nat.cast counts.resident
  · exact congrArg Nat.cast counts.swapped
  · have few := Nat.lt_min.mp inside
    change (_ ++ _)[pg]? = _
    rw [counts.pages, List.getElem?_append_left (by simp; omega), List.getElem?_take_of_lt few.2,
      List.getElem?_map, List.getElem?_range few.1]
    rfl

theorem memstat_told (matched : m.books.Matched) (balanced : m.books.SwapBalanced)
    (small : m.proc.sz ≤ trapframeVa) (pid : Int) :
    ∃ kms, memstat pid m = .ok (kms, m) ∧ (m.Told kms ↔ m.ZeroTold) := by
  obtain ⟨kms, m', ran, rfl, total, resident, swapped, pages⟩ := wp_total (memstat_answer small pid)
  refine ⟨kms, ran, fun told sized => ?_, fun zero => ?_⟩
  · have positive : 0 < m'.totalPages := by
      unfold totalPages
      rw [pgroundup_of_lt (small.trans_lt (by decide))]
      omega
    obtain ⟨ps, first, _, state⟩ := told.reported 0 (Nat.lt_min.mpr ⟨positive, by decide⟩)
    obtain rfl := Option.some.inj ((pages 0 (Nat.lt_min.mpr ⟨positive, by decide⟩)).symm.trans first)
    rw [stat_resident] at state
    exact toldResident_zero.mp (Bool.eq_iff_iff.mpr state)
  · have told : ∀ pg ∈ List.range m'.totalPages, m'.toldResident pg = m'.mapped pg ∧
        m'.toldSwapped pg = (!m'.mapped pg && m'.savedInSwap pg) := by
      intro pg member
      by_cases first : pg = 0
      · subst first
        have sized : m'.proc.sz ≠ 0 := by
          intro none_
          have empty : m'.totalPages = 0 := by
            unfold totalPages
            rw [none_]
            decide
          rw [empty] at member
          contradiction
        obtain ⟨swapped, saved⟩ := told_zero balanced
        rw [swapped, saved, Bool.and_false]
        exact ⟨toldResident_zero.mpr (zero sized), rfl⟩
      · exact told_eq matched balanced first (page_below small pg member)
    have resident' : kms.numResidentPages = ((List.range m'.totalPages).countP m'.mapped : Nat) := by
      rw [resident, List.countP_congr fun pg member => by rw [(told pg member).1]]
    have swapped' : kms.numSwappedPages =
        ((List.range m'.totalPages).countP fun pg => !m'.mapped pg && m'.savedInSwap pg : Nat) := by
      rw [swapped, List.countP_congr fun pg member => by rw [(told pg member).2]]
    refine ⟨resident', swapped', ?_, fun pg inside => ?_⟩
    · have whole := List.length_eq_countP_add_countP m'.mapped (l := List.range m'.totalPages)
      have part : (List.range m'.totalPages).countP (fun pg => !m'.mapped pg && m'.savedInSwap pg) ≤
          (List.range m'.totalPages).countP fun pg => ¬ m'.mapped pg = true := by
        apply List.countP_mono_left
        simp +contextual
      rw [List.length_range] at whole
      rw [resident', swapped', total]
      omega
    · have few := Nat.lt_min.mp inside
      have below := page_below small pg (List.mem_range.mpr few.1)
      refine ⟨_, pages pg inside, ?_, ?_⟩
      · rw [stat_va, u32, Nat.mod_eq_of_lt]
        have first := few.2
        unfold maxPagesInfo at first
        omega
      · rw [stat_resident, (told pg (List.mem_range.mpr few.1)).1]

end Machine

-- The conditions on steps under which the size, the residency of entries and the swap space are right.
def Machine.KeepsBooks (b : Build) (m : Machine) (e : Event) : Prop :=
  m.KeepsSize e ∧ m.KeepsResidency b e ∧ m.KeepsSwap b e

instance (b : Build) (m : Machine) (e : Event) : Decidable (m.KeepsBooks b e) :=
  inferInstanceAs (Decidable (_ ∧ _ ∧ _))

theorem Machine.keepsBooks_invariant {m₀ : Machine} (execed : m₀.Execed b)
    (reached : (m₀.lineage b).ReachableVia (Machine.KeepsBooks b) m) :
    m.books.Matched ∧ m.books.SwapBalanced ∧ m.proc.sz ≤ trapframeVa := by
  have all : (m.books.image.sz < 2 ^ 64 ∧ m.books.Matched) ∧ m.books.SwapBalanced ∧
      m.books.Framed ∧ m.books.image.sz ≤ trapframeVa := by
    refine Machine.lineage_invariant
      (I := fun v => (v.image.sz < 2 ^ 64 ∧ v.Matched) ∧ v.SwapBalanced ∧ v.Framed ∧ v.image.sz ≤ trapframeVa)
      execed.fresh
      ⟨⟨execed.fresh.small, .cleared execed.fresh.entries⟩, .fresh execed.fresh, .fresh execed.fresh,
        execed.fresh.below⟩ ?_ reached
    rintro m m' e ⟨⟨bounded, matched⟩, balanced, framed⟩ ⟨size, residency, swap⟩ taken happens
    exact ⟨⟨happens.small bounded, matched.after bounded residency taken happens⟩,
      balanced.after matched.keyed swap taken happens, Books.Framed.happens framed size happens⟩
  exact ⟨all.1.2, all.2.1, all.2.2.2⟩

-- In a run that keeps the books, the report is true exactly when the first free entry says of page 0 what the page
-- table says.
theorem memstat_true_iff {m₀ : Machine} (execed : m₀.Execed b)
    (reached : (m₀.lineage b).ReachableVia (Machine.KeepsBooks b) m) (pid : Int) :
    ∃ kms, memstat pid m = .ok (kms, m) ∧ (m.Told kms ↔ m.ZeroTold) := by
  obtain ⟨matched, balanced, small⟩ := Machine.keepsBooks_invariant execed reached
  exact Machine.memstat_told matched balanced small pid

def Machine.ZeroSeen (m : Machine) : Prop := ∀ i ∈ pgmetaFind m.proc.pgmeta 0,
  ((metaAt m.proc.pgmeta i).resident = true ↔ (m.proc.pagetable.leaf 0).isSome = true)

instance (m : Machine) : Decidable m.ZeroSeen := inferInstanceAs (Decidable (∀ i ∈ pgmetaFind _ _, _ ↔ _))

-- A heap page in swap, with nothing at page 0.
theorem memstat_true_swapped : ∃ m₀ m : Machine, m₀.Execed .small ∧
    (m₀.lineage .small).ReachableVia (Machine.KeepsBooks .small) m ∧ m.savedInSwap 4 = true ∧
    ∃ kms, memstat 3 m = .ok (kms, m) ∧ m.Told kms := by
  obtain ⟨m₀, m, execed, reached, shown⟩ := Machine.run_shows (b := .small) 40 (oneSegment 7) shortArgv
    [.sbrk 12288 2, .fault 0x4000 .read, .fault 0x4000 .write, .evict]
    (fun m e => decide (m.KeepsBooks .small e)) (fun _ m => m.savedInSwap 4 && decide m.ZeroSeen)
    (fun m e => of_decide_eq_true) (by decide +kernel)
  rw [Bool.and_eq_true] at shown
  have seen : m.ZeroSeen := of_decide_eq_true shown.2
  obtain ⟨kms, ran, told⟩ := memstat_true_iff execed reached 3
  exact ⟨m₀, m, execed, reached, shown.1, kms, ran, told.mpr fun _ i found => seen i found⟩

-- A program linked at 0 reads its first page and then one of its heap, whose entry is the one that
-- stood for page 0: the report leaves page 0 out.
theorem memstat_forgets_page_zero : ∃ m₀ m : Machine, m₀.Execed .small ∧
    (m₀.lineage .small).Reachable m ∧ ∃ kms, memstat 3 m = .ok (kms, m) ∧ ¬ m.Told kms := by
  let program := elfFile 7 [⟨elfProgLoad, 7, 0, 0, 64, 64⟩] []
  obtain ⟨m₀, m, execed, reached, shown⟩ := Machine.run_shows (b := .small) 40 program shortArgv
    [.sbrk 12288 2, .fault 0 .read, .fault 0x3000 .read] (fun _ _ => true)
    (fun _ m => decide (m.proc.sz ≤ trapframeVa ∧ 0 < m.totalPages) && m.mapped 0 && !m.toldResident 0)
    (fun _ _ _ => trivial) (by decide +kernel)
  simp only [Bool.and_eq_true, decide_eq_true_eq, Bool.not_eq_true'] at shown
  obtain ⟨⟨⟨small, positive⟩, mapped⟩, missing⟩ := shown
  have first : 0 < min m.totalPages maxPagesInfo := Nat.lt_min.mpr ⟨positive, by decide⟩
  obtain ⟨kms, m', ran, rfl, _, _, _, pages⟩ := wp_total (Machine.memstat_answer small 3)
  refine ⟨m₀, m', execed, reached, kms, ran, fun told => ?_⟩
  obtain ⟨ps, here, _, state⟩ := told.reported 0 first
  obtain rfl := Option.some.inj ((pages 0 first).symm.trans here)
  have resident := (Machine.stat_resident m' 0).mp (state.mpr mapped)
  rw [missing] at resident
  contradiction

end SystemsSuite.Paging
