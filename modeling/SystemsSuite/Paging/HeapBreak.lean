import SystemsSuite.Paging.SegmentPermissions

set_option autoImplicit false

namespace SystemsSuite.Paging

open Lib Prog

variable {b : Build} {m : Machine}

theorem signed64_of_lt {n : Nat} (small : n < 2 ^ 63) : signed64 n = n := by
  unfold signed64 u64
  rw [Nat.mod_eq_of_lt (by omega), if_pos small]

theorem u64_of_signed64 {n : Nat} (positive : 0 ≤ signed64 n) : (u64 n : Int) = signed64 n := by
  have below : u64 n < 2 ^ 64 := Nat.mod_lt _ (by decide)
  unfold signed64 at *
  split_ifs at *
  · rfl
  · omega

-- An int argument as a number.
def signed32 (n : Nat) : Int := if isNegative n then u32 n - 2 ^ 32 else u32 n

theorem u64_moved {a n : Nat} (low : 0 ≤ a + signed32 n)
    (high : a + signed32 n < 2 ^ 64) : (u64 (a + throughInt n) : Int) = a + signed32 n := by
  unfold signed32 at *
  split_ifs at * with negative
  · have step := throughInt_negative negative
    unfold u64
    omega
  · have step := throughInt_positive negative
    unfold u64
    omega

theorem signed64_moved {a n : Nat} (small : a < 2 ^ 63) (high : a + signed32 n < 2 ^ 63) :
    signed64 (u64 (a + throughInt n)) = a + signed32 n := by
  unfold signed64 signed32 at *
  split_ifs at high with negative
  · have step := throughInt_negative negative
    rw [if_pos negative]
    unfold u64
    split_ifs <;> omega
  · have step := throughInt_positive negative
    rw [if_neg negative]
    unfold u64
    split_ifs <;> omega

theorem Proc.movedBrk_eq (p : Proc) {n : Nat} (ends : p.progEnd < 2 ^ 63) (size : p.sz < 2 ^ 63)
    (heap : p.heapBrk < 2 ^ 63) (fits : p.heapBrk + signed32 n < 2 ^ 63) :
    (p.movedBrk n : Int) = min (p.sz : Int) (max p.progEnd (p.heapBrk + signed32 n)) := by
  have moved := signed64_moved heap fits
  have whole : u64 (u64 (p.heapBrk + throughInt n)) = u64 (p.heapBrk + throughInt n) :=
    Nat.mod_mod _ _
  unfold movedBrk
  simp only [signed64_of_lt ends, signed64_of_lt size]
  split_ifs with low high high
  · rw [signed64_of_lt ends] at high
    omega
  · rw [signed64_of_lt ends] at high
    omega
  · omega
  · have same := u64_of_signed64 (n := u64 (p.heapBrk + throughInt n)) (by omega)
    rw [whole] at same
    omega

theorem Kin.progEnd {p q : Proc} (kin : Kin p q) : q.progEnd = p.progEnd := by
  obtain ⟨k, segs⟩ := kin.segs
  have empty (start count : Nat) : (List.replicate count 0).foldl max start = start := by
    induction count with
    | zero => rfl
    | succ count ih =>
      rw [List.replicate_succ, List.foldl_cons, Nat.max_zero]
      exact ih
  unfold Proc.progEnd
  rw [segs, List.map_append, List.map_replicate, List.foldl_append]
  exact empty _ k

namespace Books

variable {v v' : Books}

theorem Moved.image {n t : Nat} {ok : Bool} (moved : Moved n t v ok v')
    (low : 0 ≤ v.image.sz + signed32 n) (high : v.image.sz + signed32 n < 2 ^ 63) :
    v'.image = v.image ∧ (ok = true → u32 n = 0) ∨
      ok = true ∧ v'.image = { v.image with sz := v.newSize n } := by
  have sum : (v.newSize n : Int) = v.image.sz + signed32 n := u64_moved low (by omega)
  cases moved with
  | kept unmoved =>
    refine .inl ⟨rfl, fun _ => ?_⟩
    unfold signed32 at sum
    rcases unmoved with zero | ⟨negative, larger⟩ | ⟨positive, smaller⟩
    · exact zero
    · have step := throughInt_negative negative
      rw [if_pos negative] at sum
      omega
    · rw [if_neg positive] at sum
      omega
  | refused => exact .inl ⟨rfl, nofun⟩
  | shrunk => exact .inr ⟨rfl, rfl⟩
  | grown _ _ _ _ _ grow =>
    exact .inr ⟨rfl, congrArg (fun p : Proc => { p with sz := v.newSize n }) grow.image⟩
  | failed _ _ _ _ _ grow => exact .inl ⟨(unmapped_image _ _ _ _).trans grow.image, nofun⟩
  | lazy => exact .inr ⟨rfl, rfl⟩

-- The end of the heap follows the size at a distance that only shrinking can lessen: two pages, or what is left
-- between the end of the segments and the smallest size there was.
structure HeapFollows (progEnd low : Nat) (v : Books) : Prop where
  segments : v.image.progEnd = progEnd
  ends : progEnd < 2 ^ 63
  heap : v.image.heapBrk + min 8192 (low - progEnd) = v.image.sz
  lowest : low ≤ v.image.sz
  size : v.image.sz < 2 ^ 63

namespace HeapFollows

variable {progEnd low : Nat}

theorem congr (follows : HeapFollows progEnd low v) (sz : v'.image.sz = v.image.sz)
    (heapBrk : v'.image.heapBrk = v.image.heapBrk) (ends : v'.image.progEnd = v.image.progEnd) :
    HeapFollows progEnd (min low v'.image.sz) v' := by
  have lowest := follows.lowest
  rw [sz, min_eq_left lowest]
  refine ⟨ends.trans follows.segments, follows.ends, ?_, ?_, ?_⟩
  · rw [sz, heapBrk]
    exact follows.heap
  · rw [sz]
    exact lowest
  · rw [sz]
    exact follows.size

theorem sbrk {n t : Nat} {ok : Bool} (follows : HeapFollows progEnd low v)
    (bottom : 0 ≤ v.image.sz + signed32 n) (top : v.image.sz + signed32 n < 2 ^ 63)
    (sbrk : Sbrk n t v ok v') : HeapFollows progEnd (min low v'.image.sz) v' := by
  have heap := follows.heap
  have size := follows.size
  have sum : (v.newSize n : Int) = v.image.sz + signed32 n := u64_moved bottom (by omega)
  have same (w : Books) (image : w.image = v.image) : HeapFollows progEnd (min low w.image.sz) w :=
    follows.congr (congrArg Proc.sz image) (congrArg Proc.heapBrk image) (congrArg Proc.progEnd image)
  cases sbrk with
  | failed _ moved =>
    rcases moved.image bottom top with ⟨image, _⟩ | ⟨grown, _⟩
    · exact same _ image
    · contradiction
  | unmoved _ moved zero =>
    rcases moved.image bottom top with ⟨image, _⟩ | ⟨_, image⟩
    · exact same _ image
    · have still : v.newSize n = v.image.sz := by
        have positive : ¬ isNegative n := by
          unfold isNegative
          omega
        unfold signed32 at sum
        rw [if_neg positive] at sum
        omega
      rw [still] at image
      exact same _ image
  | moved w moved nonzero =>
    rcases moved.image bottom top with ⟨_, zero⟩ | ⟨_, image⟩
    · exact absurd (zero rfl) nonzero
    · have sz : w.image.sz = v.newSize n := by rw [image]
      have heapBrk : w.image.heapBrk = v.image.heapBrk := by rw [image]
      have segments : w.image.progEnd = progEnd := by
        rw [image]
        exact follows.segments
      have ends := follows.ends
      have lowest := follows.lowest
      have brk := w.image.movedBrk_eq (n := n) (by omega) (by omega) (by omega) (by omega)
      rw [sz, heapBrk, segments] at brk
      refine ⟨segments, ends, ?_, min_le_right _ _, ?_⟩
      · change w.image.movedBrk n + min 8192 (min low w.image.sz - progEnd) = w.image.sz
        rw [sz]
        omega
      · change w.image.sz < 2 ^ 63
        omega

theorem happens {e : Event} (follows : HeapFollows progEnd low v) (happens : v.Happens e v')
    (stays : ∀ file argv created, e ≠ .exec file argv created)
    (fits : ∀ n t, e = .sbrk n t → 0 ≤ v.image.sz + signed32 n ∧ v.image.sz + signed32 n < 2 ^ 63) :
    HeapFollows progEnd (min low v'.image.sz) v' := by
  have same (image : v'.image = v.image) : HeapFollows progEnd (min low v'.image.sz) v' :=
    follows.congr (congrArg Proc.sz image) (congrArg Proc.heapBrk image) (congrArg Proc.progEnd image)
  cases happens with
  | other => exact same rfl
  | setSp => exact follows.congr rfl rfl rfl
  | fault _ _ _ _ faulted => exact same faulted.image
  | evict _ _ evict => exact same evict.image
  | sbrk n t _ _ sbrk => exact follows.sbrk (fits n t rfl).1 (fits n t rfl).2 sbrk
  | parent _ _ _ evictions => exact same evictions.image
  | child _ _ _ kin => exact follows.congr kin.sz kin.heapBrk kin.progEnd
  | execed file argv created => exact absurd rfl (stays file argv created)
  | execFailed file argv created => exact absurd rfl (stays file argv created)

end HeapFollows

end Books

-- Whether there is a frame for the page, and frames for the page tables above it.
def canAllocate (b : Build) (vaPg : Nat) : Kern Bool := do
  let made := pgmetaAlloc (← read).proc.pgmeta vaPg
  modifyProc fun p => { p with pgmeta := made.1 }
  match ← kallocOrEvict b with
  | none => pure false
  | some pa =>
    memset pa 0
    walkAlloc .own vaPg

theorem mappages_granted {t : Target} {va : Nat} (pa : Nat) (perm : Flags) (aligned : va % 4096 = 0)
    (absent : va < maxva → (m.table t).leaf va = none)
    (granted : wp (walkAlloc t va) (fun ok _ => ok = true) (fun _ => False) m) :
    wp (mappages t va pa perm) (fun ok _ => ok = true) (fun _ => False) m := by
  unfold mappages
  rw [if_neg (by omega), wp_bind]
  apply wp_mono (wp_and granted (walkAlloc_effect t va)) _ fun _ panics => panics.1
  rintro ok m₁ ⟨rfl, step, below, _⟩
  rw [if_pos rfl, wp_bind, wp_read, step.leaf va below, absent below]
  exact rfl

theorem zeroPage_granted {vaPg : Nat} (aligned : vaPg % 4096 = 0)
    (unmapped : m.books.pte (vaPg / 4096) = none)
    (granted : wp (canAllocate b vaPg) (fun ok _ => ok = true) (fun _ => False) m) :
    wp (zeroPage b .own vaPg) (fun r _ => r.isSome = true) (fun _ => False) m := by
  unfold canAllocate at granted
  unfold zeroPage
  rw [wp_bind, wp_read, wp_bind, wp_modifyProc, wp_bind] at granted ⊢
  apply wp_mono (wp_and granted kallocOrEvict_books) _ fun _ panics => panics.1
  rintro r m₁ ⟨granted, obtained⟩
  cases r with
  | none => contradiction
  | some pa =>
    simp only at granted ⊢
    rw [wp_bind, wp_memset] at granted ⊢
    have noted := m.books_alloc vaPg
    change Books.Obtain (m.setMeta (pgmetaAlloc m.proc.pgmeta vaPg).1).books true m₁.books at obtained
    rw [noted] at obtained
    have gone : m₁.books.pte (vaPg / 4096) = none := by
      apply obtained.unmapped
      rw [Books.noted_pte]
      exact unmapped
    have absent (below : vaPg < maxva) : ((m₁.fill pa fun _ => 0).table .own).leaf vaPg = none := by
      have here := (PageTable.ptes_leaf m₁.proc.pagetable below).symm.trans gone
      exact Option.map_eq_none_iff.mp here
    have mapped : wp (mapOrFree b .own vaPg pa ⟨true, false, false, true⟩) (fun ok _ => ok = true)
        (fun _ => False) (m₁.fill pa fun _ => 0) := by
      apply wp_seq (mappages_granted pa _ aligned absent granted)
      rintro ok m₂ rfl
      exact rfl
    apply wp_seq mapped
    rintro ok m₂ rfl
    exact wp_seq (recordResident_total _ _) fun _ _ _ => rfl

theorem vmfault_above {va : Nat} (acc : Access) (above : m.proc.sz ≤ pgrounddown va)
    (region : m.proc.segOf (pgrounddown va) = none) : vmfault b .own va acc m = .ok (none, m) := by
  apply vmfault_outside
  simp only [region, Proc.isHeap, Proc.isStack]
  simp
  omega

theorem vmfault_anonymous {va : Nat} (acc : Access) (below : va < maxva)
    (unmapped : m.books.pte (pgrounddown va / 4096) = none) (region : m.proc.segOf (pgrounddown va) = none)
    (granted : m.yields (canAllocate b (pgrounddown va)) = true) :
    wp (vmfault b .own va acc) (fun r _ => r.isSome = true ↔
      (m.proc.isHeap (pgrounddown va) || m.proc.isStack (pgrounddown va)) = true) (fun _ => False) m := by
  have aligned : pgrounddown va % 4096 = 0 := Nat.mul_mod_left _ _
  have low : pgrounddown va < maxva := (Nat.div_mul_le_self va 4096).trans_lt below
  have absent : (m.table .own).leaf (pgrounddown va) = none :=
    Option.map_eq_none_iff.mp ((PageTable.ptes_leaf m.proc.pagetable low).symm.trans unmapped)
  unfold vmfault
  rw [if_neg (Nat.not_le.mpr below), wp_bind, wp_read, wp_bind, wp_read, absent]
  simp only [region]
  by_cases accepted : (m.proc.isHeap (pgrounddown va) || m.proc.isStack (pgrounddown va)) = true
  · rw [if_pos accepted]
    apply wp_mono (zeroPage_granted aligned unmapped (Machine.wp_yields granted)) _ fun _ panics => panics
    exact fun r _ served => iff_of_true served accepted
  · rw [if_neg accepted]
    exact iff_of_false Bool.false_ne_true accepted

theorem vmfault_high {va : Nat} (acc : Access) (high : maxva ≤ va) :
    vmfault b .own va acc m = .ok (none, m) := by
  unfold vmfault
  rw [if_pos high]
  rfl

-- The runs of a process along with the smallest size it has had.
def Machine.sizedLineage (b : Build) (m : Machine) : System (Machine × Nat) Event :=
  (m.lineage b).recorded (fun m => m.proc.sz) fun low _ _ m => min low m.proc.sz

-- The program stays, and the size moves by less than all of it and stays below 2^63.
def Machine.MovesSize (m : Machine) : Event → Prop
  | .sbrk n _ => 0 ≤ m.proc.sz + signed32 n ∧ m.proc.sz + signed32 n < 2 ^ 63
  | .exec _ _ _ => False
  | _ => True

instance (m : Machine) : (e : Event) → Decidable (m.MovesSize e)
  | .sbrk _ _ => inferInstanceAs (Decidable (_ ∧ _))
  | .exec _ _ _ => inferInstanceAs (Decidable False)
  | .other _ _ _ | .setSp _ | .fault _ _ | .evict | .fork _ _ => inferInstanceAs (Decidable True)

theorem Proc.progEnd_le {p : Proc} {top : Nat} (covered : ∀ seg ∈ p.activeSegs, seg.stop ≤ top) :
    p.progEnd ≤ top := by
  have bound (stops : List Nat) (start : Nat) (first : start ≤ top) (all : ∀ stop ∈ stops, stop ≤ top) :
      stops.foldl max start ≤ top := by
    induction stops generalizing start with
    | nil => exact first
    | cons head rest ih =>
      exact ih (max start head) (max_le first (all head List.mem_cons_self)) fun stop found =>
        all stop (List.mem_cons_of_mem head found)
  refine bound _ 0 (Nat.zero_le _) fun stop found => ?_
  obtain ⟨seg, member, rfl⟩ := List.mem_map.mp found
  exact covered seg member

theorem Machine.heap_follows {m₀ : Machine} {low : Nat} (fresh : m₀.books.Fresh)
    (covered : ∀ seg ∈ m₀.proc.activeSegs, seg.stop ≤ m₀.proc.heapBrk)
    (reached : (m₀.sizedLineage b).ReachableVia (fun s => s.1.MovesSize) (m, low)) :
    m.books.HeapFollows m₀.proc.progEnd low ∧ m₀.proc.progEnd ≤ m₀.proc.heapBrk := by
  have ends := Proc.progEnd_le covered
  have size : m₀.proc.sz = m₀.proc.heapBrk + 8192 := fresh.size
  have below : m₀.proc.sz ≤ trapframeVa := fresh.below
  have top : trapframeVa < 2 ^ 63 := by decide
  refine ⟨?_, ends⟩
  apply reached.invariant (I := fun s => s.1.books.HeapFollows m₀.proc.progEnd s.2)
  · rintro ⟨m, low⟩ ⟨first, start⟩
    change m = m₀ at first
    change low = m.proc.sz at start
    subst first start
    refine ⟨rfl, by omega, ?_, le_rfl, below.trans_lt top⟩
    change m.proc.heapBrk + min 8192 (m.proc.sz - m.proc.progEnd) = m.proc.sz
    omega
  · rintro ⟨m, low⟩ e ⟨m', low'⟩ follows moves ⟨taken, noted⟩
    change low' = min low m'.proc.sz at noted
    subst noted
    have small : m.proc.sz < 2 ^ 64 := lt_trans follows.size (by decide)
    refine follows.happens (Machine.after_books small taken) ?_ ?_
    · rintro file argv created rfl
      exact moves
    · rintro n t rfl
      exact moves

theorem sbrk_memory_usable {m₀ : Machine} {low : Nat} (execed : m₀.Execed b)
    (covered : ∀ seg ∈ m₀.proc.activeSegs, seg.stop ≤ m₀.proc.heapBrk)
    (reached : (m₀.sizedLineage b).ReachableVia (fun s => s.1.MovesSize) (m, low)) :
    (∀ va acc, m₀.proc.sz ≤ pgrounddown va → pgrounddown va < m.proc.sz →
      m.proc.pagetable.ptes (pgrounddown va / 4096) = none →
      (va < maxva → m.yields (canAllocate b (pgrounddown va)) = true) →
      ∃ r m', vmfault b .own va acc m = .ok (r, m') ∧ (r.isSome = true ↔ va < maxva ∧
        (pgrounddown va + min 8192 (low - m.proc.progEnd) < m.proc.sz ∨
          m.proc.isStack (pgrounddown va) = true))) ∧
      ∀ va acc, m.proc.sz ≤ pgrounddown va → m.proc.segOf (pgrounddown va) = none →
        vmfault b .own va acc m = .ok (none, m) := by
  obtain ⟨follows, ends⟩ := Machine.heap_follows execed.fresh covered reached
  have size : m₀.proc.sz = m₀.proc.heapBrk + 8192 := execed.fresh.size
  have same : m.proc.progEnd = m₀.proc.progEnd := follows.segments
  have heap : m.proc.heapBrk + min 8192 (low - m.proc.progEnd) = m.proc.sz := by
    rw [same]
    exact follows.heap
  refine ⟨fun va acc granted inside unmapped supplied => ?_, fun va acc => vmfault_above acc⟩
  by_cases below : va < maxva
  · have region : m.proc.segOf (pgrounddown va) = none := by
      apply List.find?_eq_none.mpr
      intro seg member covers
      have range := of_decide_eq_true covers
      have last := Proc.stop_le_progEnd member
      omega
    obtain ⟨r, m', ran, accepted⟩ := wp_total (vmfault_anonymous acc below unmapped region (supplied below))
    refine ⟨r, m', ran, accepted.trans ?_⟩
    have isHeap : m.proc.isHeap (pgrounddown va) = true ↔
        pgrounddown va + min 8192 (low - m.proc.progEnd) < m.proc.sz := by
      unfold Proc.isHeap
      rw [decide_eq_true_iff]
      omega
    rw [Bool.or_eq_true, isHeap]
    exact ⟨fun region => ⟨below, region⟩, fun region => region.2⟩
  · refine ⟨none, m, vmfault_high acc (Nat.not_lt.mp below), ?_⟩
    exact iff_of_false Bool.false_ne_true fun region => below region.1

-- A heap grown by three pages: the first of them can be used.
theorem sbrk_memory_usable_first : ∃ m₀ m : Machine, m₀.Execed .small ∧
    (m₀.lineage .small).Reachable m ∧ m₀.proc.sz ≤ 0x4000 ∧ 0x4000 < m.proc.sz ∧
    ∃ pa m', vmfault .small .own 0x4000 .write m = .ok (some pa, m') := by
  obtain ⟨m₀, m, execed, reached, shown⟩ := Machine.run_shows (b := .small) 40 (oneSegment 7) shortArgv
    [.sbrk 12288 2] (fun m e => decide (m.MovesSize e))
    (fun m₀ m => decide ((∀ seg ∈ m₀.proc.activeSegs, seg.stop ≤ m₀.proc.heapBrk) ∧
      m₀.proc.sz = 0x4000 ∧ m.proc.sz = 0x7000 ∧ m.proc.pagetable.ptes 4 = none ∧
      m.yields (canAllocate .small 0x4000) = true))
    (fun m e => of_decide_eq_true) (by decide +kernel)
  obtain ⟨covered, initial, size, unmapped, granted⟩ := of_decide_eq_true shown
  obtain ⟨low, sized⟩ := reached.recorded (fun m => m.proc.sz) fun low _ _ m => min low m.proc.sz
  have usable := (sbrk_memory_usable execed covered sized).1 0x4000 .write (by rw [initial]; decide)
    (by rw [size]; decide) unmapped fun _ => granted
  obtain ⟨r, m', ran, accepted⟩ := usable
  have served : r.isSome = true := by
    refine accepted.mpr ⟨by decide, .inl ?_⟩
    have page : pgrounddown 0x4000 = 0x4000 := rfl
    rw [size, page]
    omega
  obtain ⟨pa, rfl⟩ := Option.isSome_iff_exists.mp served
  exact ⟨m₀, m, execed, reached.weaken fun _ _ _ => trivial, initial.le, by rw [size]; decide, pa, m', ran⟩

-- A heap grown by one page, which is refused while frames are free.
theorem granted_page_refused : ∃ m₀ m : Machine, m₀.Execed .small ∧
    (m₀.lineage .small).ReachableVia
      (fun m e => ∃ n t, e = .sbrk n t ∧ m.sbrkFails .small n t = false) m ∧
    m₀.proc.sz ≤ 0x4000 ∧ 0x4000 < m.proc.sz ∧ m.proc.pagetable.ptes 4 = none ∧
    m.yields (canAllocate .small 0x4000) = true ∧
    (vmfault .small .own 0x4000 .read m).toOption.map Prod.fst = some none := by
  have sound (m : Machine) (e : Event) (checked : (match e with
      | .sbrk n t => !m.sbrkFails .small n t
      | _ => false) = true) : ∃ n t, e = .sbrk n t ∧ m.sbrkFails .small n t = false := by
    cases e with
    | sbrk n t => exact ⟨n, t, rfl, by simpa using checked⟩
    | _ => contradiction
  obtain ⟨m₀, m, execed, reached, shown⟩ := Machine.run_shows (b := .small) 40 (oneSegment 7) shortArgv
    [.sbrk 4096 2] _
    (fun m₀ m => decide (m₀.proc.sz ≤ 0x4000 ∧ 0x4000 < m.proc.sz ∧ m.proc.pagetable.ptes 4 = none ∧
      m.yields (canAllocate .small 0x4000) = true ∧
      (vmfault .small .own 0x4000 .read m).toOption.map Prod.fst = some none))
    sound (by decide +kernel)
  exact ⟨m₀, m, execed, reached, of_decide_eq_true shown⟩

end SystemsSuite.Paging
