import SystemsSuite.Paging.EagerExec

set_option autoImplicit false

namespace SystemsSuite.Paging.Eager

open Lib Prog

-- The user pages of a table, numbered from 0: their frames, permissions and contents.
structure Space where
  pages : Nat
  frame : Nat → Nat
  flags : Nat → Flags
  page : Nat → Page

namespace Space

def empty : Space := ⟨0, fun _ => 0, fun _ => .none, fun _ _ => 0⟩

def grow (s : Space) (pa : Nat) (flags : Flags) : Space where
  pages := s.pages + 1
  frame := Function.update s.frame s.pages pa
  flags := Function.update s.flags s.pages flags
  page := Function.update s.page s.pages fun _ => 0

def fill (s : Space) (i : Nat) (page : Page) : Space := { s with page := Function.update s.page i page }

-- The spare table of `m` has these pages, each in a frame of its own that came from `supply`.
structure Backed (p : Proc) (supply : List Nat) (s : Space) (m : Machine) : Prop where
  proc : m.proc = p
  free : m.freelist <:+ supply
  below : s.pages * 4096 ≤ maxva
  leaf : ∀ i < s.pages, m.spare.leaf (i * 4096) = some ⟨s.frame i, s.flags i⟩
  top : ∀ va < maxva, ∀ leaf, m.spare.leaf va = some leaf → leaf.flags.u = true → va / 4096 < s.pages
  inUse : ∀ i < s.pages, s.frame i ∈ supply ∧ s.frame i ∉ m.freelist
  apart : ∀ i < s.pages, ∀ j < s.pages, s.frame i = s.frame j → i = j
  bytes : ∀ i < s.pages, ∀ k < 4096, m.mem (s.frame i) k = s.page i k

variable {b : Build} {p : Proc} {supply : List Nat} {s : Space} {m m' : Machine}

theorem Backed.congr {s' : Space} (backed : s.Backed p supply m) (pages : s'.pages = s.pages)
    (frame : s'.frame = s.frame) (flags : s'.flags = s.flags)
    (page : ∀ i < s.pages, ∀ k < 4096, s'.page i k = s.page i k) : s'.Backed p supply m where
  proc := backed.proc
  free := backed.free
  below := pages ▸ backed.below
  leaf := by
    rw [pages, frame, flags]
    exact backed.leaf
  top := by
    rw [pages]
    exact backed.top
  inUse := by
    rw [pages, frame]
    exact backed.inUse
  apart := by
    rw [pages, frame]
    exact backed.apart
  bytes := by
    rw [pages, frame]
    intro i inside k short
    rw [page i inside k short]
    exact backed.bytes i inside k short

theorem Backed.fill (backed : s.Backed p supply m) {i : Nat} (inside : i < s.pages) (page : Page) :
    (s.fill i page).Backed p supply (m.fill (s.frame i) page) where
  proc := backed.proc
  free := backed.free
  below := backed.below
  leaf := backed.leaf
  top := backed.top
  inUse := backed.inUse
  apart := backed.apart
  bytes := by
    intro j inside' k short
    by_cases same : j = i
    · subst same
      simp [Space.fill, Machine.fill]
    · have other : s.frame j ≠ s.frame i := fun shared => same (backed.apart j inside' i inside shared)
      simp only [Space.fill, Machine.fill, Function.update_of_ne same, Function.update_of_ne other]
      exact backed.bytes j inside' k short

theorem Backed.mapped (distinct : supply.Nodup) (backed : s.Backed p supply m) (pa : Nat) (perm : Flags)
    {rest : List Nat} (free : m.freelist = pa :: rest) {m₁ : Machine} (frees : m₁.freelist = rest)
    (core : m₁.core = m.core) (zeroed : m₁.mem pa = fun _ => 0)
    (kept : ∀ f, f ≠ pa → m₁.mem f = m.mem f) :
    wp (mappages .spare (s.pages * 4096) pa perm)
      (fun ok m' => ok = true → (s.grow pa perm).Backed p supply m') (fun _ => True) m₁ := by
  have suffix : rest <:+ supply := (List.suffix_cons pa rest).trans (free ▸ backed.free)
  have fresh : pa ∉ rest := (List.nodup_cons.mp (free ▸ backed.free.sublist.nodup distinct)).1
  have other : ∀ i < s.pages, s.frame i ≠ pa ∧ s.frame i ∉ rest := by
    intro i inside
    have absent := (backed.inUse i inside).2
    rw [free, List.mem_cons, not_or] at absent
    exact absent
  apply wp_mono (wp_and (mappages_effect .spare (s.pages * 4096) pa perm)
    (mappages_suffix .spare (s.pages * 4096) pa perm)) _ fun _ _ => trivial
  rintro ok m' ⟨⟨absent, low, step⟩, left⟩ rfl
  rw [if_pos rfl, Machine.table_of_core core] at step
  rw [frees] at left
  have isOld : ∀ i < s.pages + 1, i ≠ s.pages → i < s.pages := by omega
  have leaves : ∀ va < maxva, m'.spare.leaf va =
      if va / 4096 = s.pages then some ⟨pa, perm⟩ else m.spare.leaf va := by
    intro va below
    have here := step.leaf va below
    rw [setLeaf, Nat.mul_div_cancel _ (by decide)] at here
    exact here
  constructor
  · have table : m'.proc.pagetable = m₁.proc.pagetable := step.other .own (by simp)
    rw [Machine.proc_of_rest step.rest table, ← backed.proc]
    exact congrArg Core.proc core
  · exact left.trans suffix
  · change (s.pages + 1) * 4096 ≤ maxva
    unfold maxva at *
    omega
  · intro i inside
    have top : i * 4096 < maxva :=
      Nat.lt_of_le_of_lt (Nat.mul_le_mul_right 4096 (Nat.le_of_lt_succ inside)) low
    rw [leaves _ top, Nat.mul_div_cancel i (by decide)]
    by_cases new : i = s.pages
    · rw [if_pos new, new]
      simp [grow]
    · rw [if_neg new]
      simp only [grow, Function.update_of_ne new]
      exact backed.leaf i (isOld i inside new)
  · intro va below leaf here user
    rw [leaves va below] at here
    change va / 4096 < s.pages + 1
    split_ifs at here with new
    · omega
    · exact Nat.lt_succ_of_lt (backed.top va below leaf here user)
  · intro i inside
    by_cases new : i = s.pages
    · subst new
      simp only [grow, Function.update_self]
      exact ⟨backed.free.subset (free ▸ List.mem_cons_self), fun here => fresh (left.subset here)⟩
    · have old := isOld i inside new
      simp only [grow, Function.update_of_ne new]
      exact ⟨(backed.inUse i old).1, fun here => (other i old).2 (left.subset here)⟩
  · intro i inside j inside' shared
    simp only [grow] at shared
    by_cases new : i = s.pages
    · by_cases new' : j = s.pages
      · omega
      · rw [new, Function.update_self, Function.update_of_ne new'] at shared
        exact absurd shared.symm (other j (isOld j inside' new')).1
    · by_cases new' : j = s.pages
      · rw [new', Function.update_self, Function.update_of_ne new] at shared
        exact absurd shared (other i (isOld i inside new)).1
      · rw [Function.update_of_ne new, Function.update_of_ne new'] at shared
        exact backed.apart i (isOld i inside new) j (isOld j inside' new') shared
  · intro i inside k short
    by_cases new : i = s.pages
    · subst new
      simp only [grow, Function.update_self]
      rw [step.mem pa (frees ▸ fresh), zeroed]
    · have old := isOld i inside new
      simp only [grow, Function.update_of_ne new]
      rw [step.mem _ (frees ▸ (other i old).2), kept _ (other i old).1]
      exact backed.bytes i old k short

-- The pages of `s`, and `n` more that hold zeros.
structure Grown (s : Space) (n : Nat) (perm : Flags) (s' : Space) : Prop where
  pages : s'.pages = s.pages + n
  flags : ∀ i < s'.pages, s'.flags i = if i < s.pages then s.flags i else perm
  page : ∀ i < s'.pages, s'.page i = if i < s.pages then s.page i else fun _ => 0

theorem Grown.refl (s : Space) (perm : Flags) : s.Grown 0 perm s where
  pages := rfl
  flags _ inside := (if_pos inside).symm
  page _ inside := (if_pos inside).symm

theorem Grown.cons {n pa : Nat} {perm : Flags} {s' : Space} (grown : (s.grow pa perm).Grown n perm s') :
    s.Grown (n + 1) perm s' := by
  have pages : (s.grow pa perm).pages = s.pages + 1 := rfl
  refine ⟨by rw [grown.pages, pages]; omega, fun i inside => ?_, fun i inside => ?_⟩
  · rw [grown.flags i inside, pages]
    rcases Nat.lt_trichotomy i s.pages with old | rfl | new
    · rw [if_pos (by omega), if_pos old]
      exact Function.update_of_ne (by omega) _ _
    · simp [grow]
    · rw [if_neg (by omega), if_neg (by omega)]
  · rw [grown.page i inside, pages]
    rcases Nat.lt_trichotomy i s.pages with old | rfl | new
    · rw [if_pos (by omega), if_pos old]
      exact Function.update_of_ne (by omega) _ _
    · simp [grow]
    · rw [if_neg (by omega), if_neg (by omega)]

end Space

section Loading

variable {b : Build} {p : Proc} {supply : List Nat} {s : Space} {m : Machine}

theorem wp_gives_up {α : Type} {program : Paging.Kern α} {Q : Nat → Machine → Prop} :
    wp (do
      let _ ← liftM program
      pure 0 : Kern Nat) (fun r m' => r ≠ 0 → Q r m') (fun _ => True) m :=
  wp_seq (wp_shared.mpr wp_trivial) fun _ _ _ nonzero => absurd rfl nonzero

theorem allocLoop_grown (distinct : supply.Nodup) (start newsz : Nat) (perm : Flags) (n : Nat)
    (backed : s.Backed p supply m) :
    wp (allocLoop b .spare start newsz perm n (s.pages * 4096))
      (fun r m' => r ≠ 0 → r = newsz ∧ ∃ s', s.Grown n perm s' ∧ s'.Backed p supply m')
      (fun _ => True) m := by
  induction n generalizing s m with
  | zero => exact fun _ => ⟨rfl, s, .refl s perm, backed⟩
  | succ n ih =>
    rw [allocLoop]
    apply wp_seq (wp_shared.mpr kalloc_outcome)
    intro r m₁ allocated
    cases allocated with
    | none => exact wp_gives_up
    | some pa rest free =>
      simp only
      rw [wp_bind, wp_shared, wp_memset]
      have core : ((m.taken pa rest).fill pa fun _ => 0).core = m.core := rfl
      have zeroed : ((m.taken pa rest).fill pa fun _ => 0).mem pa = fun _ => 0 := Function.update_self ..
      have kept : ∀ f, f ≠ pa → ((m.taken pa rest).fill pa fun _ => 0).mem f = m.mem f := by
        intro f other
        exact (Function.update_of_ne other _ _).trans (Function.update_of_ne other _ _)
      apply wp_seq (wp_shared.mpr (backed.mapped distinct pa perm free rfl core zeroed kept))
      intro ok m₂ grown
      cases ok with
      | false =>
        apply wp_seq (wp_shared.mpr wp_trivial)
        exact fun _ _ _ => wp_gives_up
      | true =>
        have next : s.pages * 4096 + 4096 = (s.grow pa perm).pages * 4096 := by
          change _ = (s.pages + 1) * 4096
          omega
        rw [if_pos rfl, next]
        apply wp_mono (ih (grown rfl)) _ fun _ _ => trivial
        intro r m₃ later nonzero
        obtain ⟨same, s', more, backed'⟩ := later nonzero
        exact ⟨same, s', more.cons, backed'⟩

def pagesOf (sz : Nat) : Nat := (sz + 4095) / 4096

theorem pgroundup_pagesOf {sz : Nat} (small : sz < 2 ^ 63) : pgroundup sz = pagesOf sz * 4096 :=
  pgroundup_of_lt small

theorem uvmalloc_grown (distinct : supply.Nodup) {oldsz : Nat} (newsz : Nat) (xperm : Flags)
    (backed : s.Backed p supply m) (pages : s.pages = pagesOf oldsz) (small : oldsz < 2 ^ 63) :
    wp (uvmalloc b .spare oldsz newsz xperm)
      (fun r m' => r ≠ 0 → r = max oldsz newsz ∧ ∃ s', s'.pages = pagesOf r ∧
        s.Grown (s'.pages - s.pages) (Flags.or ⟨true, false, false, true⟩ xperm) s' ∧
        s'.Backed p supply m') (fun _ => True) m := by
  unfold uvmalloc
  split_ifs with smaller
  · intro _
    refine ⟨by omega, s, pages, ?_, backed⟩
    rw [Nat.sub_self]
    exact .refl s _
  · simp only [pgroundup_pagesOf small, ← pages]
    apply wp_mono (allocLoop_grown distinct _ newsz _ _ backed) _ fun _ _ => trivial
    intro r m' done nonzero
    obtain ⟨rfl, s', grown, backed'⟩ := done nonzero
    have total : s'.pages = pagesOf r := by
      rw [grown.pages, pages]
      unfold pagesOf
      omega
    refine ⟨by omega, s', total, ?_, backed'⟩
    have count : s'.pages - s.pages = (r - s.pages * 4096 + 4095) / 4096 := by
      rw [grown.pages]
      omega
    rwa [count]

theorem pages_le (frames : ∀ f ∈ supply, b.isFrame f = true) (backed : s.Backed p supply m) :
    s.pages ≤ 32768 := by
  have base := b.linkedAtBase
  have ranged : ∀ i < s.pages, s.frame i % 4096 = 0 ∧ 0x80000000 ≤ s.frame i ∧ s.frame i < 0x88000000 := by
    intro i inside
    have isFrame := frames _ (backed.inUse i inside).1
    unfold Build.isFrame phystop at isFrame
    rw [decide_eq_true_iff] at isFrame
    omega
  have fewer := Finset.card_le_card_of_injOn (s := Finset.range s.pages) (t := Finset.range 32768)
    (fun i => s.frame i / 4096 - 0x80000) ?_ ?_
  · simpa using fewer
  · intro i inside
    have here := ranged i (Finset.mem_range.mp inside)
    refine Finset.mem_coe.mpr (Finset.mem_range.mpr ?_)
    change s.frame i / 4096 - 0x80000 < 32768
    omega
  · intro i inside j inside' same
    rw [Finset.mem_coe, Finset.mem_range] at inside inside'
    have here := ranged i inside
    have there := ranged j inside'
    have same' : s.frame i / 4096 - 0x80000 = s.frame j / 4096 - 0x80000 := same
    exact backed.apart i inside j inside' (by omega)

-- The byte at `x` of a segment at `offset` of the file; each page starts at a 32-bit offset.
def segByte (ip : Inode) (offset x : Nat) : UInt8 := ip.data (u32 (offset + x / 4096 * 4096) + x % 4096)

-- After `loadseg` for a segment at page `v`, from page `j` of it on.
def Space.loaded (s : Space) (v j : Nat) (ip : Inode) (offset sz : Nat) : Space :=
  { s with page := fun i k =>
      if v + j ≤ i ∧ (i - v) * 4096 + k < sz then segByte ip offset ((i - v) * 4096 + k) else s.page i k }

theorem readi_whole {ip : Inode} {off n : Nat} (whole : (readi ip off n).1 = n) (some_ : 0 < n) :
    (readi ip off n).2 = fun k => ip.data (off + k) := by
  unfold readi at whole ⊢
  split_ifs at whole ⊢
  · simp only at whole
    omega
  · rfl
  · rfl

theorem walkaddr_page (backed : s.Backed p supply m) {i : Nat} (inside : i < s.pages)
    (user : (s.flags i).u = true) {Q : Option Nat → Machine → Prop} {E : Paging.Panic → Prop} :
    wp (walkaddr .spare (i * 4096)) Q E m ↔ Q (some (s.frame i)) m := by
  have low := backed.below
  have leaf : (m.table .spare).leaf (i * 4096) = some ⟨s.frame i, s.flags i⟩ := backed.leaf i inside
  unfold walkaddr
  rw [if_neg (by unfold maxva at *; omega), wp_bind, wp_read, leaf, wp_pure]
  simp [Option.filter_some, user]

theorem wp_readInto (ip : Inode) (pa off n : Nat) {Q : Nat → Machine → Prop} {E : Paging.Panic → Prop} :
    wp (readInto ip pa off n) Q E m ↔ Q (readi ip (u32 off) n).1 (m.fill pa fun k =>
      if k < (readi ip (u32 off) n).1 then (readi ip (u32 off) n).2 k else m.mem pa k) := Iff.rfl

theorem page_split (j : Nat) {k : Nat} (short : k < 4096) :
    (j * 4096 + k) / 4096 * 4096 = j * 4096 ∧ (j * 4096 + k) % 4096 = k := by
  omega

-- From page `j` on the file has all bytes of a segment.
def WholeReads (ip : Inode) (offset sz j : Nat) : Prop := ∀ j' ≥ j, j' * 4096 < sz →
  (readi ip (u32 (offset + j' * 4096)) (min (sz - j' * 4096) 4096)).1 = min (sz - j' * 4096) 4096

theorem loadLoop_loaded (ip : Inode) (offset : Nat) {sz v : Nat} (n j : Nat)
    (rounds : pagesOf sz = j + n) (inside : v * 4096 + sz ≤ s.pages * 4096)
    (user : ∀ i < s.pages, (s.flags i).u = true) (backed : s.Backed p supply m) :
    wp (loadLoop .spare (v * 4096) ip offset sz n (j * 4096))
      (fun ok m' => ok = true → (s.loaded v j ip offset sz).Backed p supply m' ∧ WholeReads ip offset sz j)
      (fun _ => True) m := by
  have low := backed.below
  induction n generalizing j s m with
  | zero =>
    intro _
    unfold pagesOf at rounds
    refine ⟨backed.congr rfl rfl rfl fun i _ k _ => if_neg (by omega), fun j' later inFile => ?_⟩
    omega
  | succ n ih =>
    have here : v + j < s.pages := by
      unfold pagesOf at rounds
      omega
    have address : u64 (v * 4096 + j * 4096) = (v + j) * 4096 := by
      unfold u64 maxva at *
      omega
    rw [loadLoop, address, wp_bind, wp_shared, walkaddr_page backed here (user _ here)]
    simp only
    rw [wp_bind, wp_shared, wp_readInto]
    split_ifs with whole
    · have some_ : 0 < min (sz - j * 4096) 4096 := by
        unfold pagesOf at rounds
        omega
      have read := readi_whole whole some_
      have next : j * 4096 + 4096 = (j + 1) * 4096 := by omega
      rw [next, read, whole]
      apply wp_mono (ih (s := s.fill (v + j) _) (j + 1) (by omega) inside user (backed.fill here _) low) _
        fun _ _ => trivial
      intro ok m' done yes
      obtain ⟨backed', reads⟩ := done yes
      have allReads : WholeReads ip offset sz j := by
        intro j' later inFile
        rcases Nat.eq_or_lt_of_le later with rfl | later
        · exact whole
        · exact reads j' later inFile
      refine ⟨backed'.congr rfl rfl rfl fun i _ k short => ?_, allReads⟩
      simp only [Space.loaded, Space.fill]
      by_cases same : i = v + j
      · subst same
        have start : v + j - v = j := Nat.add_sub_cancel_left v j
        have notLater : ¬ (v + (j + 1) ≤ v + j ∧ (v + j - v) * 4096 + k < sz) := by omega
        rw [if_neg notLater, Function.update_self, start, segByte, (page_split j short).1,
          (page_split j short).2]
        by_cases more : j * 4096 + k < sz
        · have inPage : k < min (sz - j * 4096) 4096 := by omega
          rw [if_pos ⟨Nat.le_refl _, more⟩, if_pos inPage]
        · have beyond : ¬ k < min (sz - j * 4096) 4096 := by omega
          rw [if_neg fun both => more both.2, if_neg beyond]
          exact (backed.bytes _ here k short).symm
      · have later : v + j ≤ i ↔ v + (j + 1) ≤ i := by omega
        simp only [Function.update_of_ne same, later]
    · exact nofun

end Loading

end SystemsSuite.Paging.Eager
