import SystemsSuite.Paging.EagerImage

set_option autoImplicit false

namespace SystemsSuite.Paging

open Lib Prog

-- The loadable headers, in the order in which the loop reads them.
def loadable (ip : Inode) : Nat → Nat → List Proghdr
  | 0, _ => []
  | n + 1, off =>
    match readProghdr ip off with
    | none => []
    | some ph =>
      if ph.type ≠ elfProgLoad then loadable ip n (u32 (off + proghdrSize))
      else ph :: loadable ip n (u32 (off + proghdrSize))

def Elfhdr.loadable (elf : Elfhdr) (ip : Inode) : List Proghdr :=
  Paging.loadable ip elf.phnum (u32 elf.phoff)

-- Whether page `i` and the segment have an address in common.
def Proghdr.meets (i : Nat) (ph : Proghdr) : Bool :=
  decide (max ph.vaddr (i * 4096) < min (ph.vaddr + ph.memsz) ((i + 1) * 4096))

-- What `valid` says when the end does not wrap around.
structure Proghdr.Sound (ph : Proghdr) : Prop where
  aligned : ph.vaddr % 4096 = 0
  filesz : ph.filesz ≤ ph.memsz
  stop : ph.stop = ph.vaddr + ph.memsz

theorem littleEndian_lt (bytes : Nat → UInt8) (start width : Nat) :
    littleEndian bytes start width < 256 ^ width := by
  induction width generalizing start with
  | zero => exact Nat.one_pos
  | succ width ih =>
    have low := (bytes start).toNat_lt
    have high := ih (start + 1)
    rw [littleEndian, pow_succ]
    omega

theorem readProghdr_sound {ip : Inode} {off : Nat} {ph : Proghdr} (read : readProghdr ip off = some ph)
    (valid : ph.valid = true) : ph.Sound := by
  unfold readProghdr at read
  simp only at read
  split_ifs at read
  obtain rfl := Option.some.inj read
  generalize (readi ip off proghdrSize).2 = bytes at valid ⊢
  have small : (Proghdr.decode bytes).memsz < 256 ^ 8 := littleEndian_lt bytes 40 8
  have low : (Proghdr.decode bytes).vaddr < 256 ^ 8 := littleEndian_lt bytes 16 8
  generalize Proghdr.decode bytes = ph at valid small low ⊢
  unfold Proghdr.valid at valid
  rw [decide_eq_true_iff] at valid
  obtain ⟨filesz, stop, aligned⟩ := valid
  refine ⟨aligned, filesz, ?_⟩
  unfold Proghdr.stop u64 at *
  omega

-- The byte at `k` of user page `i`, if the page is mapped.
def Machine.pageByte (m : Machine) (i k : Nat) : Option UInt8 :=
  (m.proc.pagetable.leaf (i * 4096)).map fun leaf => m.mem leaf.pa k

namespace Eager

-- The byte at `x` of a segment: from the file up to `filesz`, and zeros from there on.
def segmentByte (ip : Inode) (ph : Proghdr) (x : Nat) : UInt8 :=
  if x < ph.filesz then segByte ip (u32 ph.off) x else 0

-- The pages `s` after the segments of `headers`, which end below `sz`.
structure LoadedBy (ip : Inode) (headers : List Proghdr) (s : Space) (sz : Nat) : Prop where
  pages : s.pages = pagesOf sz
  user : ∀ i < s.pages, (s.flags i).u = true
  sound : ∀ ph ∈ headers, ph.Sound ∧ WholeReads ip (u32 ph.off) ph.filesz 0 ∧ ph.vaddr + ph.memsz ≤ sz
  untouched : ∀ i < s.pages, headers.filter (Proghdr.meets i) = [] → ∀ k < 4096, s.page i k = 0
  filled : ∀ i < s.pages, ∀ ph, headers.filter (Proghdr.meets i) = [ph] →
    ∀ k < 4096, s.page i k = segmentByte ip ph (i * 4096 + k - ph.vaddr)

section Loading

variable {b : Build} {p : Proc} {supply : List Nat} {s s' : Space} {m : Machine} {ip : Inode}
  {headers : List Proghdr} {sz : Nat}

theorem LoadedBy.empty (ip : Inode) : LoadedBy ip [] Space.empty 0 where
  pages := rfl
  user _ inside := absurd inside (Nat.not_lt_zero _)
  sound := by simp
  untouched _ inside := absurd inside (Nat.not_lt_zero _)
  filled _ inside := absurd inside (Nat.not_lt_zero _)

theorem LoadedBy.beyond (loaded : LoadedBy ip headers s sz) {i : Nat} (outside : ¬ i < s.pages) :
    headers.filter (Proghdr.meets i) = [] := by
  rw [List.filter_eq_nil_iff]
  intro ph member meets
  have below := (loaded.sound ph member).2.2
  have pages := loaded.pages
  unfold Proghdr.meets at meets
  rw [decide_eq_true_iff] at meets
  unfold pagesOf at pages
  omega

theorem LoadedBy.grown_page (loaded : LoadedBy ip headers s sz) {n : Nat} {perm : Flags}
    (grown : s.Grown n perm s') {i k : Nat} (inside : i < s'.pages) (short : k < 4096) :
    (headers.filter (Proghdr.meets i) = [] → s'.page i k = 0) ∧
      ∀ ph, headers.filter (Proghdr.meets i) = [ph] →
        s'.page i k = segmentByte ip ph (i * 4096 + k - ph.vaddr) := by
  rw [grown.page i inside]
  split_ifs with old
  · exact ⟨fun none_ => loaded.untouched i old none_ k short,
      fun ph one => loaded.filled i old ph one k short⟩
  · refine ⟨fun _ => rfl, fun ph one => ?_⟩
    rw [loaded.beyond old] at one
    contradiction

theorem LoadedBy.grown_user (loaded : LoadedBy ip headers s sz) {n : Nat} {perm : Flags}
    (grown : s.Grown n perm s') (readable : perm.u = true) : ∀ i < s'.pages, (s'.flags i).u = true := by
  intro i inside
  rw [grown.flags i inside]
  split_ifs with old
  · exact loaded.user i old
  · exact readable

theorem LoadedBy.load (loaded : LoadedBy ip headers s sz) {n : Nat} {perm : Flags} {ph : Proghdr}
    (grown : s.Grown n perm s') (readable : perm.u = true) (sound : ph.Sound)
    (reads : WholeReads ip (u32 ph.off) ph.filesz 0) (pages : s'.pages = pagesOf (max sz ph.stop)) :
    LoadedBy ip (headers ++ [ph]) (s'.loaded (ph.vaddr / 4096) 0 ip (u32 ph.off) ph.filesz)
      (max sz ph.stop) := by
  have stop := sound.stop
  have aligned := sound.aligned
  have filesz := sound.filesz
  have user := loaded.grown_user grown readable
  -- The bytes of the file go to pages that the segment meets.
  have here (i k : Nat) (short : k < 4096) :
      (ph.vaddr / 4096 + 0 ≤ i ∧ (i - ph.vaddr / 4096) * 4096 + k < ph.filesz) →
        Proghdr.meets i ph = true := by
    rintro ⟨first, inFile⟩
    unfold Proghdr.meets
    rw [decide_eq_true_iff]
    omega
  have page (i k : Nat) : (s'.loaded (ph.vaddr / 4096) 0 ip (u32 ph.off) ph.filesz).page i k =
      if ph.vaddr / 4096 + 0 ≤ i ∧ (i - ph.vaddr / 4096) * 4096 + k < ph.filesz then
        segByte ip (u32 ph.off) ((i - ph.vaddr / 4096) * 4096 + k) else s'.page i k := rfl
  have unmet {i : Nat} (apart : ¬ Proghdr.meets i ph = true) {k : Nat} (short : k < 4096) :
      (s'.loaded (ph.vaddr / 4096) 0 ip (u32 ph.off) ph.filesz).page i k = s'.page i k := by
    rw [page, if_neg fun inFile => apart (here i k short inFile)]
  constructor
  next => exact pages
  next => exact user
  next =>
    intro q member
    rcases List.mem_append.mp member with earlier | last
    · have before := loaded.sound q earlier
      exact ⟨before.1, before.2.1, before.2.2.trans (le_max_left _ _)⟩
    · obtain rfl := List.mem_singleton.mp last
      exact ⟨sound, reads, stop ▸ le_max_right _ _⟩
  next =>
    intro i inside none_ k short
    rw [List.filter_append, List.append_eq_nil_iff] at none_
    have apart : ¬ Proghdr.meets i ph = true := by simpa using none_.2
    rw [unmet apart short]
    exact (loaded.grown_page grown inside short).1 none_.1
  next =>
    intro i inside q one k short
    rw [List.filter_append] at one
    by_cases meets : Proghdr.meets i ph = true
    · rw [List.filter_cons_of_pos meets, List.filter_nil] at one
      obtain ⟨none_, same⟩ : headers.filter (Proghdr.meets i) = [] ∧ ph = q := by
        have only := List.append_eq_singleton_iff.mp one
        simpa using only
      subst same
      unfold Proghdr.meets at meets
      rw [decide_eq_true_iff] at meets
      have first : ph.vaddr / 4096 + 0 ≤ i := by omega
      have offset : (i - ph.vaddr / 4096) * 4096 + k = i * 4096 + k - ph.vaddr := by omega
      rw [page, offset, (loaded.grown_page grown inside short).1 none_, segmentByte]
      simp only [first, true_and]
    · rw [List.filter_cons_of_neg meets, List.filter_nil, List.append_nil] at one
      rw [unmet meets short]
      exact (loaded.grown_page grown inside short).2 q one

theorem size_le (frames : ∀ f ∈ supply, b.isFrame f = true) (backed : s.Backed p supply m)
    (pages : s.pages = pagesOf sz) : sz ≤ 32768 * 4096 := by
  have few := pages_le frames backed
  unfold pagesOf at pages
  omega

theorem loadseg_loaded (frames : ∀ f ∈ supply, b.isFrame f = true) (backed : s.Backed p supply m)
    (pages : s.pages = pagesOf sz) (user : ∀ i < s.pages, (s.flags i).u = true) {ph : Proghdr}
    (sound : ph.Sound) (inside : ph.vaddr + ph.memsz ≤ sz) :
    wp (loadseg .spare ph.vaddr ip ph.off ph.filesz) (fun ok m' => ok = true →
      (s.loaded (ph.vaddr / 4096) 0 ip (u32 ph.off) ph.filesz).Backed p supply m' ∧
        WholeReads ip (u32 ph.off) ph.filesz 0) (fun _ => True) m := by
  have small := size_le frames backed pages
  have filesz := sound.filesz
  have start : ph.vaddr = ph.vaddr / 4096 * 4096 := by
    have aligned := sound.aligned
    omega
  have untruncated : u32 ph.filesz = ph.filesz := Nat.mod_eq_of_lt (by omega)
  have within : ph.vaddr / 4096 * 4096 + ph.filesz ≤ s.pages * 4096 := by
    unfold pagesOf at pages
    omega
  have rounds : pagesOf ph.filesz = 0 + (ph.filesz + 4095) / 4096 := (Nat.zero_add _).symm
  have loop := loadLoop_loaded ip (u32 ph.off) _ 0 rounds within user backed
  rw [Nat.zero_mul, ← start] at loop
  unfold loadseg
  rwa [untruncated]

theorem loadHeaders_loaded (distinct : supply.Nodup) (frames : ∀ f ∈ supply, b.isFrame f = true)
    (n off : Nat) (loaded : LoadedBy ip headers s sz) (backed : s.Backed p supply m) :
    wp (loadHeaders b ip n off sz) (fun r m' => r.1 = true →
      ∃ s', LoadedBy ip (headers ++ loadable ip n off) s' r.2 ∧ s'.Backed p supply m')
      (fun _ => True) m := by
  induction n generalizing off headers s sz m with
  | zero =>
    intro _
    rw [loadable, List.append_nil]
    exact ⟨s, loaded, backed⟩
  | succ n ih =>
    rw [loadHeaders, loadable]
    cases read : readProghdr ip off with
    | none => exact nofun
    | some ph =>
      simp only
      split_ifs with other valid
      · exact ih _ loaded backed
      · have sound := readProghdr_sound read valid
        have small := size_le frames backed loaded.pages
        apply wp_seq (uvmalloc_grown distinct ph.stop (perm ph) backed loaded.pages (by omega))
        intro sz1 m₁ allocated
        split_ifs with failed
        · exact nofun
        · obtain ⟨rfl, s₁, pages₁, grown, backed₁⟩ := allocated failed
          have inside : ph.vaddr + ph.memsz ≤ max sz ph.stop := sound.stop ▸ le_max_right _ _
          apply wp_seq (loadseg_loaded frames backed₁ pages₁ (loaded.grown_user grown rfl) sound inside)
          intro ok m₂ done
          cases ok with
          | false => exact nofun
          | true =>
            obtain ⟨backed₂, reads⟩ := done rfl
            rw [if_pos rfl, List.append_cons]
            exact ih _ (loaded.load grown rfl sound reads pages₁) backed₂
      · exact nofun

end Loading

section Start

variable {b : Build} {m : Machine}

theorem mappages_aside (va pa : Nat) (flags : Flags) :
    wp (mappages .spare va pa flags) (fun _ m' => m'.proc = m.proc ∧ m'.freelist <:+ m.freelist)
      (fun _ => True) m := by
  apply wp_mono (wp_and (mappages_effect .spare va pa flags) (mappages_suffix .spare va pa flags)) _
    fun _ _ => trivial
  rintro ok m' ⟨⟨_, _, step⟩, left⟩
  exact ⟨Machine.proc_of_rest step.rest (step.other .own (by simp)), left⟩

theorem uvmcreate_aside :
    wp uvmcreate (fun _ m' => m'.proc = m.proc ∧ m'.freelist <:+ m.freelist) (fun _ => True) m := by
  unfold uvmcreate
  apply wp_seq kalloc_outcome
  intro r m₁ allocated
  cases allocated with
  | none => exact ⟨rfl, List.suffix_rfl⟩
  | some pa rest free => exact ⟨rfl, free ▸ List.suffix_cons pa rest⟩

theorem procPagetable_aside (trapframe : Nat) :
    wp (procPagetable b trapframe) (fun ok m' => ok = true → m'.proc = m.proc ∧ m'.freelist <:+ m.freelist)
      (fun _ => True) m := by
  have failed {program : Paging.Kern Unit} {m' : Machine} : wp (do program; pure false)
      (fun ok m' => ok = true → m'.proc = m.proc ∧ m'.freelist <:+ m.freelist) (fun _ => True) m' :=
    wp_seq wp_trivial fun _ _ _ => nofun
  unfold procPagetable
  apply wp_seq uvmcreate_aside
  rintro ok m₁ ⟨proc₁, left₁⟩
  cases ok with
  | false => exact nofun
  | true =>
    rw [if_pos rfl]
    apply wp_seq (mappages_aside trampolineVa b.trampoline _)
    rintro ok m₂ ⟨proc₂, left₂⟩
    cases ok with
    | false => exact failed
    | true =>
      rw [if_pos rfl]
      apply wp_seq (mappages_aside trapframeVa trapframe _)
      rintro ok m₃ ⟨proc₃, left₃⟩
      cases ok with
      | false => exact wp_seq wp_trivial fun _ _ _ => failed
      | true => exact fun _ => ⟨proc₃.trans (proc₂.trans proc₁), left₃.trans (left₂.trans left₁)⟩

theorem procPagetable_empty (trapframe : Nat) :
    wp (procPagetable b trapframe) (fun ok m' => ok = true → Space.empty.Backed m.proc m.freelist m')
      (fun _ => True) m := by
  apply wp_mono (wp_and (procPagetable_books trapframe) (procPagetable_aside trapframe)) _ fun _ _ => trivial
  rintro ok m' ⟨books, aside⟩ rfl
  rw [if_pos rfl] at books
  obtain ⟨proc, free⟩ := aside rfl
  have none_ (i : Nat) : ¬ i < Space.empty.pages := Nat.not_lt_zero i
  constructor
  next => exact proc
  next => exact free
  next => exact Nat.zero_le _
  next => exact fun i inside => absurd inside (none_ i)
  next =>
    intro va below leaf here user
    have ptes : m'.spare.ptes (va / 4096) = framePtes (va / 4096) :=
      congrArg (fun v : Books => v.spare (va / 4096)) books
    rw [PageTable.ptes_leaf _ below, here] at ptes
    rcases framePtes_eq ptes.symm with same | same <;> rw [same] at user <;> contradiction
  next => exact fun i inside => absurd inside (none_ i)
  next => exact fun i inside => absurd inside (none_ i)
  next => exact fun i inside => absurd inside (none_ i)

end Start

section Stack

variable {b : Build} {p : Proc} {supply : List Nat} {s : Space} {m : Machine} {i : Nat}

-- Page `i` made inaccessible to the user.
def Space.clear (s : Space) (i : Nat) : Space :=
  { s with flags := Function.update s.flags i { s.flags i with u := false } }

theorem Space.Backed.walk (backed : s.Backed p supply m) (inside : i < s.pages) :
    i * 4096 < maxva ∧
      (m.table .spare).walk (i * 4096) = some (.leaf ⟨s.frame i, s.flags i⟩) := by
  have below := backed.below
  refine ⟨by omega, ?_⟩
  exact Radix.find_of_value (backed.leaf i inside)

theorem uvmclear_backed (backed : s.Backed p supply m) (inside : i < s.pages) :
    wp (uvmclear .spare (i * 4096)) (fun _ m' => (s.clear i).Backed p supply m') (fun _ => True) m := by
  obtain ⟨below, found⟩ := backed.walk inside
  unfold uvmclear
  rw [wp_bind, wp_walk]
  refine ⟨fun _ => trivial, fun _ => ?_⟩
  rw [found]
  simp only
  rw [wp_setPte]
  have leaf (va : Nat) (low : va < maxva) :
      (m.spare.store (i * 4096) (.leaf ⟨s.frame i, { s.flags i with u := false }⟩)).leaf va =
        if va / 4096 = i then some ⟨s.frame i, { s.flags i with u := false }⟩ else m.spare.leaf va := by
    have stored := PageTable.leaf_store (m.table .spare)
      (.leaf ⟨s.frame i, { s.flags i with u := false }⟩) below low (by rw [found]; rfl)
    rwa [Nat.mul_div_cancel i (by decide)] at stored
  constructor
  next => exact backed.proc
  next => exact backed.free
  next => exact backed.below
  next =>
    intro j inside'
    have inside' : j < s.pages := inside'
    refine (leaf _ (backed.walk inside').1).trans ?_
    rw [Nat.mul_div_cancel j (by decide)]
    split_ifs with same
    · subst same
      simp [Space.clear]
    · rw [backed.leaf j inside']
      simp [Space.clear, Function.update_of_ne same]
  next =>
    intro va low' leaf' here user
    have here : (m.spare.store (i * 4096) _).leaf va = some leaf' := here
    rw [leaf va low'] at here
    split_ifs at here
    · obtain rfl := Option.some.inj here
      contradiction
    · exact backed.top va low' leaf' here user
  next => exact backed.inUse
  next => exact backed.apart
  next => exact backed.bytes

theorem copyoutLoop_nil (rounds dstva : Nat) :
    wp (copyoutLoop b .spare rounds dstva []) (fun _ m' => m' = m) (fun _ => True) m := by
  cases rounds <;> exact rfl

theorem Space.fill_self (s : Space) (i : Nat) : s.fill i (s.page i) = s := by
  rw [Space.fill, Function.update_eq_self]

theorem Space.fill_fill (s : Space) (i : Nat) (page page' : Page) :
    (s.fill i page).fill i page' = s.fill i page' := by
  simp only [Space.fill, Function.update_idem]

theorem copyoutLoop_fills (rounds : Nat) {dstva : Nat} {src : List UInt8} (inside : i < s.pages)
    (user : (s.flags i).u = true) (writable : (s.flags i).w = true) (low : i * 4096 ≤ dstva)
    (high : dstva + src.length ≤ i * 4096 + 4096) (backed : s.Backed p supply m) :
    wp (copyoutLoop b .spare rounds dstva src) (fun _ m' => ∃ page, (s.fill i page).Backed p supply m')
      (fun _ => True) m := by
  have same : ∃ page, (s.fill i page).Backed p supply m := ⟨s.page i, (s.fill_self i).symm ▸ backed⟩
  cases rounds with
  | zero => exact same
  | succ rounds =>
    rw [copyoutLoop]
    by_cases empty : src = []
    · rw [if_pos empty]
      exact same
    · have some_ := List.length_pos_of_ne_nil empty
      obtain ⟨below, found⟩ := backed.walk inside
      have rounded : pgrounddown dstva = i * 4096 := by
        unfold pgrounddown
        omega
      have whole : min (4096 - (dstva - i * 4096)) src.length = src.length := by omega
      simp only [rounded]
      rw [if_neg empty, if_neg (by omega), wp_bind]
      unfold walkaddrOrFault
      rw [wp_bind, wp_shared, walkaddr_page backed inside user]
      simp only
      rw [wp_pure, wp_bind, wp_shared, wp_walk]
      refine ⟨fun _ => trivial, fun _ => ?_⟩
      rw [found]
      simp only
      rw [if_neg (by simp [writable]), whole, List.drop_length]
      rw [wp_bind, wp_shared]
      unfold memmove
      rw [wp_update]
      apply wp_mono (copyoutLoop_nil rounds _) _ fun _ _ => trivial
      rintro _ _ rfl
      exact ⟨_, backed.fill inside _⟩

theorem pushArgs_fills (argv : List (List UInt8)) (argc sp : Nat) (ustack : List Nat)
    (short : ∀ arg ∈ argv, arg.length < 4096) (inside : i < s.pages) (positive : 0 < i)
    (user : (s.flags i).u = true) (writable : (s.flags i).w = true) (low : i * 4096 ≤ sp)
    (high : sp ≤ i * 4096 + 4096) (backed : s.Backed p supply m) :
    wp (pushArgs b .spare (i * 4096) argv argc sp ustack) (fun r m' =>
      (∃ page, (s.fill i page).Backed p supply m') ∧ ∀ pushed, r = some pushed →
        i * 4096 ≤ pushed.1 ∧ pushed.1 ≤ i * 4096 + 4096 ∧ pushed.2.length = ustack.length + argv.length)
      (fun _ => True) m := by
  have same : ∃ page, (s.fill i page).Backed p supply m := ⟨s.page i, (s.fill_self i).symm ▸ backed⟩
  induction argv generalizing argc sp ustack s m with
  | nil =>
    refine ⟨same, ?_⟩
    rintro pushed ⟨⟩
    exact ⟨low, high, rfl⟩
  | cons arg rest ih =>
    have length := short arg List.mem_cons_self
    have below := (backed.walk inside).1
    rw [pushArgs]
    split_ifs with many
    · exact ⟨same, by simp⟩
    · simp only
      split_ifs with overflow
      · exact ⟨same, by simp⟩
      · have down := pushed_inside low (by omega) (by unfold maxva at below; omega) overflow
        have bytes : (arg ++ [0]).length = arg.length + 1 := List.length_append
        apply wp_seq (copyoutLoop_fills _ inside user writable (Nat.le_of_not_lt overflow)
          (by rw [bytes]; omega) backed)
        rintro ok m₁ ⟨page, backed₁⟩
        cases ok with
        | false => exact ⟨⟨page, backed₁⟩, by simp⟩
        | true =>
          rw [if_pos rfl]
          apply wp_mono (ih (s := s.fill i page) (argc + 1) _ _
            (fun arg member => short arg (List.mem_cons_of_mem _ member)) inside user writable
            (Nat.le_of_not_lt overflow) (by omega) backed₁ ⟨page, by rwa [Space.fill_fill]⟩) _
            fun _ panics => panics
          rintro r m₂ ⟨⟨page₂, backed₂⟩, result⟩
          rw [Space.fill_fill] at backed₂
          refine ⟨⟨page₂, backed₂⟩, fun pushed done => ?_⟩
          have placed := result pushed done
          rw [List.length_append, List.length_singleton] at placed
          rw [List.length_cons]
          omega

theorem pushStack_fills (argv : Argv) (inside : i < s.pages) (positive : 0 < i)
    (user : (s.flags i).u = true) (writable : (s.flags i).w = true) (backed : s.Backed p supply m) :
    wp (pushStack b .spare (i * 4096 + 4096) (i * 4096) argv.args)
      (fun _ m' => ∃ page, (s.fill i page).Backed p supply m') (fun _ => True) m := by
  have below := (backed.walk inside).1
  have few := argv.few
  unfold maxarg at few
  unfold pushStack
  apply wp_seq (pushArgs_fills argv.args 0 (i * 4096 + 4096) [] argv.short inside positive user writable
    (by omega) le_rfl backed)
  rintro pushed m₁ ⟨⟨page₁, backed₁⟩, placed⟩
  cases pushed with
  | none => exact ⟨page₁, backed₁⟩
  | some pushed =>
    obtain ⟨low, high, count⟩ := placed pushed rfl
    rw [List.length_nil, Nat.zero_add] at count
    simp only
    split_ifs with overflow
    · exact ⟨page₁, backed₁⟩
    · have down := pushed_inside low (by omega) (by unfold maxva at below; omega) overflow
      have words : ((pushed.2 ++ [0]).flatMap fun p => bytesOf p 8).length = (argv.args.length + 1) * 8 := by
        rw [length_words, List.length_append, count]
        rfl
      apply wp_seq (copyoutLoop_fills (s := s.fill i page₁) _ inside user writable
        (Nat.le_of_not_lt overflow) (by rw [words]; omega) backed₁)
      rintro ok m₂ ⟨page₂, backed₂⟩
      rw [Space.fill_fill] at backed₂
      cases ok <;> exact ⟨page₂, backed₂⟩

end Stack

section Image

variable {b : Build} {held : Nat → Nat} {p : Proc} {supply : List Nat} {s : Space} {m : Machine}

-- The pages are in use for nothing else, so freeing the old table leaves them alone.
theorem commitImage_holds (elf : Elfhdr) (sz sp oldsz : Nat) (backed : s.Backed p supply m)
    (unowned : ∀ f ∈ supply, p.pagetable.owners f = 0) (root : p.pagetable.pa ≠ 0) :
    wp (commitImage b elf sz sp oldsz) (fun _ m' => ∀ i < s.pages, ∀ k < 4096,
      m'.pageByte i k = some (s.page i k)) (fun _ => True) m := by
  unfold commitImage
  rw [wp_bind, wp_update]
  let m₁ : Machine := { m with
    spare := m.proc.pagetable
    proc := { m.proc with
      pagetable := m.spare
      sz := sz
      trapframe := { m.proc.trapframe with a1 := sp, epc := elf.entry, sp := sp } } }
  have old : m₁.table .spare = p.pagetable := congrArg Proc.pagetable backed.proc
  have untouched (i : Nat) : wp (procFreepagetable b .spare oldsz)
      (fun _ m' => i < s.pages → m'.mem (s.frame i) = m.mem (s.frame i)) (fun _ => True) m₁ := by
    by_cases inside : i < s.pages
    · have so : Untouched .spare (s.frame i) (m.mem (s.frame i)) m₁ :=
        ⟨by rw [old]; exact unowned _ (backed.inUse i inside).1, rfl⟩
      apply wp_mono (procFreepagetable_mem oldsz so (by rwa [old])) _ fun _ _ => trivial
      exact fun _ _ same _ => same
    · exact wp_mono wp_trivial (fun _ _ _ here => absurd here inside) fun _ _ => trivial
  change wp _ _ _ m₁
  apply wp_mono (wp_and (procFreepagetable_proc oldsz) (wp_forall untouched)) _ fun _ _ => trivial
  rintro _ m' ⟨proc, mem⟩ i inside k short
  have table : m'.proc.pagetable = m.spare := congrArg Proc.pagetable proc
  rw [Machine.pageByte, table, backed.leaf i inside, Option.map_some, mem i inside,
    backed.bytes i inside k short]

theorem wp_execBad {Q : Option Nat → Machine → Prop} (sz : Nat) :
    wp (execBad b sz) (fun r m' => r.isSome = true → Q r m') (fun _ => True) m :=
  wp_seq wp_trivial fun _ _ _ => nofun

theorem stack_top (guard : Nat) : guard * 4096 + 8192 = (guard + 1) * 4096 + 4096 := by
  omega

theorem buildStack_holds (elf : Elfhdr) (argv : Argv) {sz : Nat} (distinct : supply.Nodup)
    (frames : ∀ f ∈ supply, b.isFrame f = true) (pages : s.pages = pagesOf sz)
    (backed : s.Backed p supply m) (unowned : ∀ f ∈ supply, p.pagetable.owners f = 0)
    (root : p.pagetable.pa ≠ 0) :
    wp (buildStack b elf argv.args (pgroundup sz)) (fun r m' => r.isSome = true →
      ∀ i < s.pages, ∀ k < 4096, m'.pageByte i k = some (s.page i k)) (fun _ => True) m := by
  have small := size_le frames backed pages
  have few := pages_le frames backed
  have stack : (userstack + 1) * 4096 = 8192 := rfl
  have page : userstack * 4096 = 4096 := rfl
  have guard : pgroundup sz = s.pages * 4096 := by
    rw [pgroundup_pagesOf (by omega), pages]
  have size : u64 (s.pages * 4096 + 8192) = s.pages * 4096 + 8192 := Nat.mod_eq_of_lt (by omega)
  have top : pagesOf (s.pages * 4096 + 8192) = s.pages + 2 := by
    unfold pagesOf
    omega
  unfold buildStack
  rw [wp_bind, wp_read, stack, page, guard, size]
  have whole : s.pages = pagesOf (s.pages * 4096) := by
    unfold pagesOf
    omega
  apply wp_seq (uvmalloc_grown distinct _ _ backed whole (by omega))
  intro sz1 m₁ allocated
  split_ifs with failed
  · exact wp_execBad _
  · obtain ⟨rfl, s₁, pages₁, grown, backed₁⟩ := allocated failed
    have larger : max (s.pages * 4096) (s.pages * 4096 + 8192) = s.pages * 4096 + 8192 := by omega
    rw [larger, top] at pages₁
    have lower : sub64 (s.pages * 4096 + 8192) 8192 = s.pages * 4096 :=
      sub64_add _ _ (by omega) (by decide)
    have base : sub64 (s.pages * 4096 + 8192) 4096 = (s.pages + 1) * 4096 := by
      rw [stack_top]
      exact sub64_add _ _ (by omega) (by decide)
    rw [larger, lower, base]
    apply wp_seq (wp_shared.mpr (uvmclear_backed backed₁ (by omega)))
    intro _ m₂ backed₂
    -- The stack page is the last one.
    have flags : (s₁.clear s.pages).flags (s.pages + 1) = growFlags := by
      change Function.update s₁.flags s.pages _ (s.pages + 1) = _
      rw [Function.update_of_ne (by omega), grown.flags _ (by omega), if_neg (by omega)]
      rfl
    rw [stack_top]
    apply wp_seq (pushStack_fills argv (i := s.pages + 1) (s := s₁.clear s.pages)
      (by change _ < s₁.pages; omega) (by omega) (by rw [flags]; rfl) (by rw [flags]; rfl) backed₂)
    rintro pushed m₃ ⟨contents, backed₃⟩
    cases pushed with
    | none => exact wp_execBad _
    | some sp =>
      apply wp_seq (commitImage_holds elf _ sp m.proc.sz backed₃ unowned root)
      intro _ m₄ holds _ i inside k short
      have lower : i < s₁.pages := by omega
      rw [holds i lower k short]
      change some (Function.update s₁.page (s.pages + 1) contents i k) = _
      rw [Function.update_of_ne (by omega), grown.page i lower, if_pos inside]

theorem free_unowned (owned : Owned b held m) : m.freelist.Nodup ∧
    ∀ f ∈ m.freelist, b.isFrame f = true ∧ m.proc.pagetable.owners f = 0 := by
  constructor
  next =>
    rw [List.nodup_iff_count_le_one]
    intro f
    have once := owned.single f
    have atMost : (if b.isFrame f then 1 else 0) ≤ 1 := by split_ifs <;> omega
    unfold Machine.owners at once
    omega
  next =>
    intro f member
    have once := owned.single f
    have counted := List.count_pos_iff.mpr member
    unfold Machine.owners Proc.owners at once
    by_cases frame : b.isFrame f = true
    · rw [if_pos frame] at once
      exact ⟨frame, by omega⟩
    · rw [if_neg frame] at once
      omega

-- What a successful `kexec` leaves at the pages of the segments.
theorem kexec_holds (owned : Owned b held m) (root : m.proc.pagetable.pa ≠ 0) (ip : Inode) (argv : Argv) :
    wp (kexec b (some ip) argv.args) (fun r m' => r.isSome = true → ∃ elf, readElfhdr ip = some elf ∧
      (∀ ph ∈ elf.loadable ip, ph.Sound ∧ WholeReads ip (u32 ph.off) ph.filesz 0 ∧
        ph.vaddr + ph.memsz ≤ 32768 * 4096) ∧ ∀ i ph, (elf.loadable ip).filter (Proghdr.meets i) = [ph] →
        ∀ k < 4096, m'.pageByte i k = some (segmentByte ip ph (i * 4096 + k - ph.vaddr)))
      (fun _ => True) m := by
  obtain ⟨distinct, free⟩ := free_unowned owned
  unfold kexec
  simp only
  cases header : readElfhdr ip with
  | none => exact nofun
  | some elf =>
    simp only
    rw [wp_bind, wp_read]
    apply wp_seq (wp_shared.mpr (procPagetable_empty _))
    intro ok m₁ backed
    cases ok with
    | false => exact nofun
    | true =>
      rw [if_pos rfl]
      apply wp_seq (loadHeaders_loaded distinct (fun f member => (free f member).1) _ _ (.empty ip) (backed rfl))
      rintro ⟨ok, sz⟩ m₂ done
      cases ok with
      | false => exact wp_execBad _
      | true =>
        obtain ⟨s, loaded, backed₂⟩ := done rfl
        rw [List.nil_append] at loaded
        rw [if_pos rfl]
        apply wp_mono (buildStack_holds elf argv distinct (fun f member => (free f member).1) loaded.pages
          backed₂ (fun f member => (free f member).2) root) _ fun _ _ => trivial
        intro r m₃ holds done
        have small := size_le (fun f member => (free f member).1) backed₂ loaded.pages
        refine ⟨elf, rfl, fun ph member => ?_, fun i ph one k short => ?_⟩
        · obtain ⟨sound, reads, inside⟩ := loaded.sound ph member
          exact ⟨sound, reads, inside.trans small⟩
        have inside : i < s.pages := by
          by_contra outside
          have none_ := loaded.beyond outside
          have one : (Paging.loadable ip elf.phnum (u32 elf.phoff)).filter (Proghdr.meets i) = [ph] := one
          rw [none_] at one
          contradiction
        rw [holds done i inside k short, loaded.filled i inside ph one k short]

end Image

end Eager

end SystemsSuite.Paging
