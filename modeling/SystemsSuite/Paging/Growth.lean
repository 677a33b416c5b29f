import SystemsSuite.Paging.Bookkeeping

set_option autoImplicit false

namespace SystemsSuite.Paging

open Lib Prog

variable {b : Build} {m : Machine}

namespace Books

-- `n` pages of table `t` from `a` on are granted one by one. The result says whether all were, and where it
-- stopped.
inductive Grow (t : Target) (perm : Flags) : Nat → Nat → Books → Bool → Nat → Books → Prop
  | done (a : Nat) (v : Books) : Grow t perm 0 a v true a v
  | starved (n a : Nat) (v v' : Books) : v.Obtain false v' → Grow t perm (n + 1) a v false a v'
  | page (n a stop : Nat) (ok : Bool) (v v₁ v' : Books) : v.Obtain true v₁ →
      v₁.ptes t (a / 4096) = none → a < maxva →
      Grow t perm n (a + 4096) (v₁.installed t a perm) ok stop v' → Grow t perm (n + 1) a v ok stop v'

def resized (v : Books) (sz : Nat) : Books := { v with image := { v.image with sz := sz } }

def setBrk (v : Books) (heapBrk : Nat) : Books :=
  { v with image := { v.image with heapBrk := heapBrk } }

end Books

def pagesOver (oldsz newsz : Nat) : Nat :=
  if newsz < oldsz then (pgroundup oldsz - pgroundup newsz) / 4096 else 0

def growFlags : Flags := ⟨true, true, false, true⟩

namespace Books

def newSize (v : Books) (n : Nat) : Nat := u64 (v.image.sz + throughInt n)

def growPages (v : Books) (n : Nat) : Nat := (v.newSize n - pgroundup v.image.sz + 4095) / 4096

-- A move that ends where it started: by nothing, or across an end of the 64-bit addresses.
def Unmoved (v : Books) (n : Nat) : Prop :=
  u32 n = 0 ∨ isNegative n ∧ v.image.sz ≤ v.newSize n ∨ ¬ isNegative n ∧ v.newSize n < v.image.sz

-- What the first part of `sys_sbrk` does, and whether the size could be moved.
inductive Moved (n t : Nat) (v : Books) : Bool → Books → Prop
  | kept : v.Unmoved n → Moved n t v true v
  | refused : Moved n t v false v
  | shrunk : isNegative n → v.newSize n < v.image.sz →
      Moved n t v true ((v.unmapped .own (pgroundup (v.newSize n))
        (pagesOver v.image.sz (v.newSize n))).resized (v.newSize n))
  | grown (stop : Nat) (v' : Books) : u32 t = sbrkEager → ¬ isNegative n → v.image.sz ≤ v.newSize n →
      Grow .own growFlags (v.growPages n) (pgroundup v.image.sz) v true stop v' →
      Moved n t v true (v'.resized (v.newSize n))
  | failed (stop : Nat) (v' : Books) : u32 t = sbrkEager → ¬ isNegative n → v.image.sz ≤ v.newSize n →
      Grow .own growFlags (v.growPages n) (pgroundup v.image.sz) v false stop v' →
      Moved n t v false (v'.unmapped .own (pgroundup v.image.sz) ((stop - pgroundup v.image.sz) / 4096))
  | lazy : u32 t ≠ sbrkEager → ¬ isNegative n → v.image.sz ≤ v.newSize n →
      Moved n t v true (v.resized (v.newSize n))

-- What `sys_sbrk` does.
inductive Sbrk (n t : Nat) (v : Books) : Bool → Books → Prop
  | failed (v' : Books) : Moved n t v false v' → Sbrk n t v false v'
  | unmoved (v' : Books) : Moved n t v true v' → u32 n = 0 → Sbrk n t v true v'
  | moved (v' : Books) : Moved n t v true v' → u32 n ≠ 0 → Sbrk n t v true (v'.setBrk (v'.image.movedBrk n))

end Books

theorem Books.unmapped_none (v : Books) (t : Target) (a : Nat) : v.unmapped t a 0 = v := by
  refine Eq.trans ?_ (v.setPtes_self t)
  unfold Books.unmapped
  congr 1
  funext vpn
  rw [if_neg (by omega)]

theorem pagesOver_of_lt {oldsz newsz : Nat} (smaller : newsz < oldsz) :
    pagesOver oldsz newsz = (pgroundup oldsz - pgroundup newsz) / 4096 := if_pos smaller

theorem uvmdealloc_books (t : Target) {oldsz newsz : Nat} (few : pagesOver oldsz newsz < 2 ^ 31) :
    wp (uvmdealloc b t oldsz newsz) (fun r m' => r = min oldsz newsz ∧
      m'.books = m.books.unmapped t (pgroundup newsz) (pagesOver oldsz newsz)) (fun _ => True) m := by
  unfold uvmdealloc
  by_cases smaller : newsz < oldsz
  · rw [if_neg (by omega), min_eq_right smaller.le]
    rw [pagesOver_of_lt smaller] at few ⊢
    split_ifs with fewer
    · have new := pgroundup_aligned newsz
      have top : pgroundup oldsz < 2 ^ 64 := by
        unfold pgroundup u64
        omega
      have old := pgroundup_aligned oldsz
      rw [throughInt_of_lt few]
      have range : (u64 (pgroundup newsz + u64 ((pgroundup oldsz - pgroundup newsz) / 4096 * 4096)) -
          pgroundup newsz) / 4096 = (pgroundup oldsz - pgroundup newsz) / 4096 := by
        unfold u64
        omega
      unfold uvmunmap
      rw [if_neg (by omega), range]
      apply wp_seq (wp_mono (unmapLoop_effect t true _ _ new) (fun _ _ unmapped => unmapped.books)
        fun _ _ => trivial)
      exact fun _ m' books => ⟨rfl, books⟩
    · rw [show (pgroundup oldsz - pgroundup newsz) / 4096 = 0 by omega]
      exact ⟨rfl, (Books.unmapped_none _ _ _).symm⟩
  · unfold pagesOver
    rw [if_pos (by omega), if_neg smaller, min_eq_left (by omega)]
    exact ⟨rfl, (Books.unmapped_none _ _ _).symm⟩

theorem recordAlloc_books (a : Nat) (perm : Flags) :
    wp (recordAlloc a perm) (fun _ m' => m'.books = (m.books.noted a).madeResident a perm)
      (fun _ => True) m := by
  unfold recordAlloc
  rw [wp_bind, wp_read, wp_bind, wp_modifyProc, ← m.books_alloc a]
  have found := pgmetaFind_alloc m.proc.pgmeta a
  cases made : (pgmetaAlloc m.proc.pgmeta a).2 with
  | none =>
    rw [made] at found
    exact (books_notMade (m := m.setMeta _) perm found).symm
  | some i =>
    rw [made] at found
    exact books_madeResident (m := m.setMeta _) perm _ (fun _ => rfl) found

-- One round of the loop of `uvmalloc`.
def allocPage (b : Build) (t : Target) (a : Nat) (perm : Flags) : Kern Bool := do
  match ← kallocOrEvict b with
  | none => pure false
  | some pa =>
    memset pa 0
    if ← mappages t a pa perm then
      recordAlloc a perm
      pure true
    else
      kfree b pa
      pure false

theorem allocPage_books (t : Target) (a : Nat) (perm : Flags) :
    wp (allocPage b t a perm) (fun ok m' => if ok then ∃ v, m.books.Obtain true v ∧
        v.ptes t (a / 4096) = none ∧ a < maxva ∧ m'.books = v.installed t a perm
      else m.books.Obtain false m'.books) (fun _ => True) m := by
  unfold allocPage
  apply wp_seq kallocOrEvict_books
  intro r m₁ obtained
  cases r with
  | none => exact obtained
  | some pa =>
    simp only
    rw [wp_bind, wp_memset]
    apply wp_seq (mappages_books t a pa perm)
    rintro ok m₂ ⟨absent, books₂⟩
    cases ok with
    | true =>
      apply wp_seq (recordAlloc_books a perm)
      intro _ m₃ books₃
      rw [books₂] at books₃
      exact ⟨_, obtained, (absent rfl).1, (absent rfl).2, books₃⟩
    | false =>
      apply wp_seq (kfree_core pa)
      intro _ m₃ core₃
      have books₃ := (Machine.books_of_core core₃).trans books₂
      change m.books.Obtain false m₃.books
      rw [books₃]
      exact obtained.weaken

theorem allocLoop_succ (t : Target) (start newsz : Nat) (perm : Flags) (n a : Nat) :
    allocLoop b t start newsz perm (n + 1) a = (do
      if ← allocPage b t a perm then allocLoop b t start newsz perm n (a + 4096)
      else
        let _ ← uvmdealloc b t a start
        pure 0) := by
  rw [allocLoop]
  unfold allocPage
  simp only [bind_assoc]
  congr 1
  funext r
  cases r with
  | none => rfl
  | some pa =>
    simp only [bind_assoc]
    congr 1
    funext _
    congr 1
    funext ok
    cases ok with
    | true => simp only [if_true, bind_assoc, pure_bind]
    | false => simp only [Bool.false_eq_true, if_false, bind_assoc, pure_bind]

theorem allocLoop_books (t : Target) {start a : Nat} (newsz : Nat) (perm : Flags) (n : Nat)
    (rounded : start % 4096 = 0) (aligned : a % 4096 = 0) (inside : a = start ∨ start < a ∧ a ≤ maxva) :
    wp (allocLoop b t start newsz perm n a) (fun r m' => ∃ ok stop v,
      Books.Grow t perm n a m.books ok stop v ∧
        if ok then r = newsz ∧ m'.books = v
        else r = 0 ∧ m'.books = v.unmapped t start ((stop - start) / 4096)) (fun _ => True) m := by
  induction n generalizing a m with
  | zero => exact ⟨true, a, m.books, .done a _, rfl, rfl⟩
  | succ n ih =>
    rw [allocLoop_succ]
    apply wp_seq (allocPage_books t a perm)
    intro ok m₁ granted
    cases ok with
    | true =>
      obtain ⟨v, obtained, absent, below, books⟩ := granted
      have next : a + 4096 ≤ maxva := by
        have top : maxva % 4096 = 0 := by decide
        omega
      apply wp_mono (ih (a := a + 4096) (by omega) (.inr ⟨by omega, next⟩)) _ fun _ panics => panics
      rintro r m₂ ⟨ok, stop, v', grown, result⟩
      rw [books] at grown
      exact ⟨ok, stop, v', .page n a stop ok _ v v' obtained absent below grown, result⟩
    | false =>
      have pages : pgroundup start = start ∧ pagesOver a start = (a - start) / 4096 ∨ a = start := by
        refine inside.symm.imp_left fun grew => ?_
        have high := @pgroundup_of_lt a (by unfold maxva at grew; omega)
        have low := @pgroundup_of_lt start (by unfold maxva at grew; omega)
        rw [pagesOver_of_lt grew.1]
        omega
      have few : pagesOver a start < 2 ^ 31 := by
        rcases pages with ⟨_, exact_⟩ | rfl
        · unfold maxva at inside
          omega
        · unfold pagesOver
          rw [if_neg (by omega)]
          decide
      apply wp_seq (uvmdealloc_books t few)
      rintro _ m₂ ⟨_, books₂⟩
      refine ⟨false, a, _, .starved n a _ _ granted, rfl, ?_⟩
      rw [books₂]
      rcases pages with ⟨same, exact_⟩ | rfl
      · rw [same, exact_]
      · have none : pagesOver a a = 0 := if_neg (by omega)
        rw [none, Books.unmapped_none, Nat.sub_self, Nat.zero_div, Books.unmapped_none]

theorem allocLoop_first_fails (t : Target) {start : Nat} (newsz : Nat) (perm : Flags) (n : Nat)
    (fails : ∀ m', allocPage b t start perm m ≠ .ok (true, m')) :
    wp (allocLoop b t start newsz perm (n + 1) start)
      (fun r m' => r = 0 ∧ m.books.Obtain false m'.books) (fun _ => True) m := by
  rw [allocLoop_succ]
  apply wp_seq_and (allocPage_books t start perm) wp_self
  intro ok m₁ granted ran
  cases ok with
  | true => exact absurd ran (fails m₁)
  | false =>
    have none : pagesOver start start = 0 := if_neg (by omega)
    apply wp_seq (uvmdealloc_books t (by rw [none]; decide))
    rintro _ m₂ ⟨_, books₂⟩
    refine ⟨rfl, ?_⟩
    rw [books₂, none, Books.unmapped_none]
    exact granted

theorem uvmalloc_books (t : Target) (oldsz newsz : Nat) (xperm : Flags) :
    wp (uvmalloc b t oldsz newsz xperm) (fun r m' =>
      (newsz < oldsz ∧ r = oldsz ∧ m'.books = m.books) ∨ oldsz ≤ newsz ∧ ∃ ok stop v,
        Books.Grow t (Flags.or ⟨true, false, false, true⟩ xperm) ((newsz - pgroundup oldsz + 4095) / 4096)
          (pgroundup oldsz) m.books ok stop v ∧
        if ok then r = newsz ∧ m'.books = v
        else r = 0 ∧ m'.books = v.unmapped t (pgroundup oldsz) ((stop - pgroundup oldsz) / 4096))
      (fun _ => True) m := by
  unfold uvmalloc
  split_ifs with smaller
  · exact .inl ⟨smaller, rfl, rfl⟩
  · apply wp_mono (allocLoop_books t newsz _ _ (pgroundup_aligned oldsz) (pgroundup_aligned oldsz) (.inl rfl))
      _ fun _ panics => panics
    intro r m' grown
    exact .inr ⟨by omega, grown⟩

theorem throughInt_negative {n : Nat} (negative : isNegative n) :
    throughInt n + (2 ^ 32 - u32 n) = 2 ^ 64 ∧ 0 < 2 ^ 32 - u32 n ∧ 2 ^ 32 - u32 n ≤ 2 ^ 31 := by
  unfold isNegative at negative
  unfold throughInt
  rw [if_neg (by omega)]
  unfold u32 at *
  omega

theorem throughInt_positive {n : Nat} (positive : ¬ isNegative n) : throughInt n = u32 n ∧ u32 n < 2 ^ 31 := by
  unfold isNegative at positive
  unfold throughInt
  rw [if_pos (by omega)]
  omega

theorem pagesOver_shrink {n sz : Nat} (negative : isNegative n) (smaller : u64 (sz + throughInt n) < sz)
    (small : sz < 2 ^ 64) : pagesOver sz (u64 (sz + throughInt n)) < 2 ^ 31 := by
  have size := throughInt_negative negative
  rw [pagesOver_of_lt smaller]
  unfold pgroundup u64 at *
  omega

theorem growproc_books (n t : Nat) (small : m.proc.sz < 2 ^ 64)
    (branch : u32 t = sbrkEager ∨ isNegative n) :
    wp (growproc b n) (fun ok m' => m.books.Moved n t ok m'.books) (fun _ => True) m := by
  unfold growproc
  rw [wp_bind, wp_read]
  split_ifs with zero negative
  · rw [wp_bind, wp_modifyProc]
    exact .kept (.inl zero)
  · by_cases smaller : u64 (m.proc.sz + throughInt n) < m.proc.sz
    · apply wp_seq (uvmdealloc_books .own (pagesOver_shrink negative smaller small))
      rintro left m₁ ⟨rfl, books₁⟩
      rw [min_eq_right smaller.le, wp_bind, wp_modifyProc, wp_pure]
      change m.books.Moved n t true (m₁.books.resized _)
      rw [books₁]
      exact .shrunk negative smaller
    · have none : pagesOver m.proc.sz (u64 (m.proc.sz + throughInt n)) = 0 := if_neg smaller
      apply wp_seq (uvmdealloc_books .own (by rw [none]; decide))
      rintro left m₁ ⟨rfl, books₁⟩
      rw [none, Books.unmapped_none] at books₁
      rw [min_eq_left (by omega), wp_bind, wp_modifyProc, wp_pure]
      change m.books.Moved n t true (m₁.books.resized _)
      rw [books₁]
      exact .kept (.inr (.inl ⟨negative, Nat.le_of_not_lt smaller⟩))
  · have eager := branch.resolve_right negative
    have size := throughInt_positive negative
    apply wp_seq (uvmalloc_books .own _ _ _)
    rintro r m₁ (⟨smaller, rfl, books₁⟩ | ⟨larger, ok, stop, v, grown, result⟩)
    · rw [if_neg (by omega), wp_bind, wp_modifyProc, wp_pure]
      change m.books.Moved n t true (m₁.books.resized _)
      rw [books₁]
      exact .kept (.inr (.inr ⟨negative, smaller⟩))
    · cases ok with
      | true =>
        obtain ⟨rfl, books₁⟩ := result
        have positive : u64 (m.proc.sz + throughInt n) ≠ 0 := by
          unfold u64 at *
          unfold u32 at *
          omega
        rw [if_neg positive, wp_bind, wp_modifyProc, wp_pure]
        change m.books.Moved n t true (m₁.books.resized _)
        rw [books₁]
        exact .grown stop v eager negative larger grown
      | false =>
        obtain ⟨rfl, books₁⟩ := result
        rw [if_pos rfl, wp_pure, books₁]
        exact .failed stop v eager negative larger grown

theorem moveSize_books (n t : Nat) (small : m.proc.sz < 2 ^ 64) :
    wp (moveSize b n t) (fun ok m' => m.books.Moved n t ok m'.books) (fun _ => True) m := by
  unfold moveSize
  rw [wp_bind, wp_read]
  by_cases branch : u32 t = sbrkEager ∨ isNegative n
  · rw [if_pos branch]
    exact growproc_books n t small branch
  · rw [if_neg branch]
    rw [not_or] at branch
    by_cases wrapped : u64 (m.proc.sz + throughInt n) < m.proc.sz
    · rw [if_pos wrapped]
      exact .refused
    · rw [if_neg wrapped, wp_bind, wp_modifyProc]
      exact .lazy branch.1 branch.2 (Nat.le_of_not_lt wrapped)

theorem sysSbrk_books (n t : Nat) (small : m.proc.sz < 2 ^ 64) :
    wp (sysSbrk b n t) (fun r m' => m.books.Sbrk n t r.isSome m'.books) (fun _ => True) m := by
  unfold sysSbrk
  rw [wp_bind, wp_read]
  apply wp_seq (moveSize_books n t small)
  intro ok m₁ moved
  cases ok with
  | false => exact .failed _ moved
  | true =>
    rw [if_pos rfl, wp_bind, wp_modifyProc, wp_pure]
    by_cases zero : u32 n = 0
    · rw [if_pos zero]
      exact .unmoved _ moved zero
    · rw [if_neg zero]
      exact .moved _ moved zero

end SystemsSuite.Paging
