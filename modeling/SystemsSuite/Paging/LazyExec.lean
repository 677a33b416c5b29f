import SystemsSuite.Paging.EagerContents
import SystemsSuite.Paging.LineageBooks

set_option autoImplicit false

namespace SystemsSuite.Paging

open Lib Prog

section Recording

variable {b : Build} {m : Machine} {ip : Inode}

theorem scanHeaders_records (n off : Nat) {s : Scan} (array : s.segs.length = 16)
    (room : s.nsegs + (loadable ip n off).length ≤ 16) (good : (scanHeaders ip n off s).1 = true) :
    (scanHeaders ip n off s).2.segs.take (scanHeaders ip n off s).2.nsegs =
      s.segs.take s.nsegs ++ (loadable ip n off).map Proghdr.seg := by
  induction n generalizing off s with
  | zero =>
    rw [loadable, List.map_nil, List.append_nil]
    rfl
  | succ n ih =>
    rw [scanHeaders] at good ⊢
    rw [loadable] at room ⊢
    cases read : readProghdr ip off with
    | none =>
      rw [read] at good
      contradiction
    | some ph =>
      rw [read] at good
      simp only [read] at good room ⊢
      split_ifs at good room ⊢ with other valid
      · exact ih _ array room good
      · rw [List.length_cons] at room
        have below : s.nsegs < 16 := by omega
        have record : s.record ph = ⟨s.nsegs + 1, s.segs.set s.nsegs ph.seg, max s.sz ph.stop⟩ := by
          unfold Scan.record
          rw [if_pos below, if_pos below]
        rw [record] at good ⊢
        have added : (s.segs.set s.nsegs ph.seg).take (s.nsegs + 1) = s.segs.take s.nsegs ++ [ph.seg] := by
          rw [List.take_add_one, List.take_set_of_le le_rfl, List.getElem?_set_self (by omega)]
          rfl
        rw [ih _ (by rw [List.length_set, array]) (by simp only; omega) good, added, List.map_cons,
          List.append_assoc]
        rfl

theorem kexec_records (argv : Argv) (created : Option Nat) (array : m.proc.segs.length = 16) :
    wp (kexec b (some ip) argv.args created) (fun r m' => r.isSome = true → ∃ elf, readElfhdr ip = some elf ∧
      m'.proc.execip = some ip ∧
      ((elf.loadable ip).length ≤ 16 → m'.proc.activeSegs = (elf.loadable ip).map Proghdr.seg))
      (fun _ => True) m := by
  unfold kexec
  simp only
  cases header : readElfhdr ip with
  | none => exact nofun
  | some elf =>
    simp only
    rw [wp_bind, wp_read]
    apply wp_seq (procPagetable_books _)
    intro ok m₁ table
    cases ok with
    | false => exact nofun
    | true =>
      rw [if_pos rfl] at table
      have segs : m₁.proc.segs = m.proc.segs := congrArg (fun v : Books => v.image.segs) table
      rw [if_pos rfl, wp_bind, wp_read, wp_bind, wp_modifyProc, segs]
      let m₂ : Machine := { m₁ with proc := { m₁.proc with
        execip := some ip
        nsegs := (elf.scan ip m.proc.segs).2.nsegs
        segs := (elf.scan ip m.proc.segs).2.segs } }
      have frames : m₂.books.spare = framePtes := congrArg Books.spare table
      change wp _ _ _ m₂
      split_ifs with good
      · apply wp_mono (buildStack_books elf argv created (pgroundup_idem _) rfl frames
          (elf.scan_covered ip m.proc.segs)) _ fun _ _ => trivial
        intro r m₃ built done
        rw [if_pos done] at built
        have program : m₃.proc.program = m₂.proc.program := built.2
        refine ⟨elf, rfl, congrArg Prod.fst program, fun few => ?_⟩
        refine (congrArg Prod.snd program).trans ?_
        exact scanHeaders_records (s := ⟨0, m.proc.segs, 0⟩) elf.phnum (u32 elf.phoff) array
          (by simpa [Elfhdr.loadable] using few) good
      · exact wp_seq wp_trivial fun _ _ _ => nofun

end Recording

namespace Lazy

structure Accepted (ip : Inode) (ph : Proghdr) : Prop where
  sound : ph.Sound
  reads : Eager.WholeReads ip (u32 ph.off) ph.filesz 0
  small : ph.vaddr + ph.memsz ≤ 32768 * 4096

section Loading

variable {b : Build} {held : Nat → Nat} {m : Machine} {ip : Inode} {ph : Proghdr} {i : Nat}

theorem covers_iff (sound : ph.Sound) (i : Nat) : ph.seg.covers (i * 4096) = ph.meets i := by
  have aligned := sound.aligned
  have stop : ph.seg.stop = ph.vaddr + ph.memsz := sound.stop
  unfold Seg.covers Proghdr.meets
  rw [stop, decide_eq_decide]
  change ph.vaddr ≤ i * 4096 ∧ _ ↔ _
  omega

theorem segOf_only {headers : List Proghdr} (sound : ∀ ph ∈ headers, ph.Sound)
    (recorded : m.proc.activeSegs = headers.map Proghdr.seg)
    (one : headers.filter (Proghdr.meets i) = [ph]) : m.proc.segOf (i * 4096) = some ph.seg := by
  have same : headers.filter (fun ph => ph.seg.covers (i * 4096)) = [ph] := by
    rw [← one]
    exact List.filter_congr fun ph member => covers_iff (sound ph member) i
  have first : headers.find? (fun ph => ph.seg.covers (i * 4096)) = some ph := by
    rw [← List.head?_filter, same]
    rfl
  unfold Proc.segOf
  rw [recorded, List.find?_map]
  change Option.map _ (headers.find? fun ph => ph.seg.covers (i * 4096)) = _
  rw [first]
  rfl

theorem readSegment_holds (accepted : Accepted ip ph) {pa x : Nat} (aligned : x % 4096 = 0)
    (zeroed : m.mem pa = fun _ => 0) :
    wp (readSegment ph.seg ip pa x) (fun ok m' => ok = true ∧ m'.core = m.core ∧ m'.freelist = m.freelist ∧
      ∀ k < 4096, m'.mem pa k = Eager.segmentByte ip ph (x + k)) (fun _ => False) m := by
  have small := accepted.small
  have filesz := accepted.sound.filesz
  have split : x / 4096 * 4096 = x := by omega
  unfold readSegment
  change wp (if x < ph.filesz then _ else _) _ _ _
  split_ifs with inFile
  · have bytes : ph.seg.fileBytes x = min (ph.filesz - x) 4096 := by
      unfold Seg.fileBytes
      change (if x < ph.filesz then min (u32 (ph.filesz - x)) 4096 else 0) = _
      rw [if_pos inFile]
      unfold u32
      omega
    have offset : u32 (ph.seg.fileOff x) = u32 (u32 ph.off + x) := by
      change u32 (u64 (u32 ph.off + x)) = _
      unfold u32 u64
      omega
    have whole := accepted.reads (x / 4096) (Nat.zero_le _) (by rwa [split])
    rw [split] at whole
    have data := Eager.readi_whole whole (by omega)
    rw [wp_bind, Eager.wp_readInto, bytes, offset, whole, data]
    refine ⟨by simp, rfl, rfl, fun k short => ?_⟩
    have paged : (x + k) / 4096 * 4096 = x ∧ (x + k) % 4096 = k := by
      have pages := Eager.page_split (x / 4096) short
      rwa [split] at pages
    simp only [Machine.fill, Function.update_self, zeroed]
    unfold Eager.segmentByte Eager.segByte
    rw [paged.1, paged.2]
    by_cases more : x + k < ph.filesz
    · rw [if_pos more, if_pos (by omega)]
    · rw [if_neg more, if_neg (by omega)]
  · refine ⟨rfl, rfl, rfl, fun k _ => ?_⟩
    unfold Eager.segmentByte
    rw [zeroed, if_neg (by omega)]

theorem recordLoaded_aside (va : Nat) (midx : Option Nat) (perm : Flags) :
    wp (recordLoaded va midx perm) (fun _ m' => m'.mem = m.mem ∧ m'.proc.pagetable = m.proc.pagetable)
      (fun _ => False) m := by
  unfold recordLoaded
  cases midx with
  | some i => exact ⟨rfl, rfl⟩
  | none =>
    rw [wp_bind, wp_read, wp_bind, wp_modifyProc]
    cases (pgmetaAlloc m.proc.pgmeta va).2 <;> exact ⟨rfl, rfl⟩

-- The page at `vaPg` is in the frame `pa` with the contents of its segment.
def Holds (ip : Inode) (ph : Proghdr) (vaPg : Nat) (m : Machine) (pa : Nat) : Prop :=
  m.proc.pagetable.leaf vaPg = some ⟨pa, ph.seg.flags⟩ ∧
    ∀ k < 4096, m.mem pa k = Eager.segmentByte ip ph (vaPg - ph.vaddr + k)

theorem installPage_holds {vaPg pa : Nat} (midx : Option Nat) (free : pa ∉ m.freelist)
    (content : ∀ k < 4096, m.mem pa k = Eager.segmentByte ip ph (vaPg - ph.vaddr + k)) :
    wp (installPage b .own vaPg ph.seg midx pa) (fun r m' => ∀ pa ∈ r, Holds ip ph vaPg m' pa)
      (fun _ => True) m := by
  unfold installPage mapOrFree
  rw [wp_bind, wp_bind]
  apply wp_mono (mappages_effect .own vaPg pa ph.seg.flags) _ fun _ _ => trivial
  rintro ok m₁ ⟨_, below, step⟩
  cases ok with
  | false => exact wp_seq wp_trivial fun _ _ _ => by simp
  | true =>
    simp only [if_true]
    rw [wp_pure]
    apply wp_bind.mpr (wp_mono (recordLoaded_aside vaPg midx ph.seg.flags) _ fun _ none => none.elim)
    rintro _ m₂ ⟨mem, table⟩ _ ⟨⟩
    refine ⟨?_, fun k short => ?_⟩
    · rw [table]
      have here := step.leaf vaPg below
      rw [if_pos rfl, setLeaf, if_pos rfl] at here
      exact here
    · rw [mem, step.mem pa free]
      exact content k short

theorem loadPage_holds (sound : Sound b held m) (accepted : Accepted ip ph) (midx : Option Nat)
    {vaPg : Nat} (aligned : vaPg % 4096 = 0) :
    wp (loadPage b .own vaPg ph.seg ip midx .read) (fun r m' => ∀ pa ∈ r, Holds ip ph vaPg m' pa)
      (fun _ => True) m := by
  have start := accepted.sound.aligned
  unfold loadPage
  apply wp_seq (wp_mono (kallocOrEvict_kept sound.kept) (fun _ _ kept => kept) fun _ _ => trivial)
  intro r m₁ kept
  cases r with
  | none => simp
  | some pa =>
    simp only
    rw [wp_bind, wp_memset]
    have free : pa ∉ m₁.freelist := held_not_free kept.owned
    apply wp_bind.mpr (wp_mono (readSegment_holds accepted (x := vaPg - ph.vaddr) (by omega)
      (Function.update_self ..)) _ fun _ none => none.elim)
    rintro ok m₂ ⟨rfl, core, list, content⟩
    simp only [if_true, reduceCtorEq, false_and, if_false]
    exact installPage_holds midx (list ▸ free) content

def Reachable (va : Nat) (free : Nat) (m : Machine) : Prop :=
  (m.proc.pagetable.walk va).isSome = true ∨ 2 ≤ free

theorem mappages_succeeds {va : Nat} (pa : Nat) (flags : Flags) (below : va < maxva)
    (aligned : va % 4096 = 0) (absent : m.proc.pagetable.leaf va = none)
    (reachable : Reachable va m.freelist.length m) :
    wp (mappages .own va pa flags) (fun ok _ => ok = true) (fun _ => False) m := by
  have grown : (Radix.grow 2 m.proc.pagetable.entries (va / 4096) m.freelist).2.2 = true := by
    rcases reachable with reached | enough
    · exact Radix.grow_reached 2 _ _ _ reached
    · exact Radix.grow_supplied 2 _ _ enough
  have succeeds : wp (mappages .own va pa flags) (fun ok _ => ok = true) (fun _ => True) m := by
    unfold mappages walkAlloc
    rw [if_neg (by omega), if_neg (by omega), wp_bind, wp_bind, wp_read, wp_bind, wp_update, wp_pure]
    change wp (if (Radix.grow 2 m.proc.pagetable.entries (va / 4096) m.freelist).2.2 = true then _ else _) _ _ _
    rw [if_pos grown, wp_bind, wp_read]
    split
    · trivial
    · rfl
  apply wp_mono (wp_and (mappages_effect .own va pa flags) succeeds) (fun _ _ both => both.2)
  rintro e ⟨⟨_, odd⟩ | ⟨_, high⟩ | ⟨_, mapped, _⟩, _⟩
  · exact odd aligned
  · omega
  · change (m.proc.pagetable.leaf va).isSome = true at mapped
    rw [absent] at mapped
    contradiction

theorem loadPage_succeeds (accepted : Accepted ip ph) (midx : Option Nat) {vaPg pa : Nat} {rest : List Nat}
    (below : vaPg < maxva) (aligned : vaPg % 4096 = 0) (absent : m.proc.pagetable.leaf vaPg = none)
    (free : m.freelist = pa :: rest) (reachable : Reachable vaPg rest.length m) :
    wp (loadPage b .own vaPg ph.seg ip midx .read) (fun r _ => r.isSome = true) (fun _ => False) m := by
  have start := accepted.sound.aligned
  have obtained : wp (kallocOrEvict b) (fun r m' => r = some pa ∧ m' = m.taken pa rest) (fun _ => False) m := by
    unfold kallocOrEvict kalloc
    rw [wp_bind, wp_bind, wp_read, free]
    exact ⟨rfl, rfl⟩
  unfold loadPage
  apply wp_seq obtained
  rintro _ m₁ ⟨rfl, rfl⟩
  simp only
  rw [wp_bind, wp_memset]
  apply wp_seq (readSegment_holds accepted (x := vaPg - ph.vaddr) (by omega) (Function.update_self ..))
  rintro _ m₂ ⟨rfl, core, list, _⟩
  simp only [if_true, reduceCtorEq, false_and, if_false]
  have table : m₂.proc.pagetable = m.proc.pagetable := congrArg (fun c : Core => c.proc.pagetable) core
  have reachable₂ : Reachable vaPg m₂.freelist.length m₂ := by
    unfold Reachable
    rw [table, list]
    exact reachable
  unfold installPage mapOrFree
  rw [wp_bind, wp_bind]
  apply wp_mono (mappages_succeeds pa ph.seg.flags below aligned (by rw [table]; exact absent) reachable₂)
    _ fun _ panics => panics
  rintro ok m₃ rfl
  simp only [if_true]
  rw [wp_pure, if_pos rfl]
  exact wp_seq (recordLoaded_aside vaPg midx _) fun _ _ _ => rfl

-- The first read access to page `i`: it is neither mapped nor in the swap file.
structure FirstAccess (i : Nat) (m : Machine) : Prop where
  unmapped : m.proc.pagetable.leaf (i * 4096) = none
  unsaved : ∀ midx, pgmetaFind m.proc.pgmeta (i * 4096) = some midx → (metaAt m.proc.pgmeta midx).inSwap = false

theorem vmfault_loads {va : Nat} (below : va < maxva) (page : va / 4096 = i) (first : FirstAccess i m)
    (file : m.proc.execip = some ip) (segment : m.proc.segOf (i * 4096) = some ph.seg)
    {Q : Option Nat → Machine → Prop} {E : Panic → Prop}
    (loads : ∀ midx, wp (loadPage b .own (i * 4096) ph.seg ip midx .read) Q E m) :
    wp (vmfault b .own va .read) Q E m := by
  have rounded : pgrounddown va = i * 4096 := by
    unfold pgrounddown
    rw [page]
  unfold vmfault
  rw [if_neg (by omega)]
  simp only [rounded]
  rw [wp_bind, wp_read, wp_bind, wp_read]
  have absent : (m.table .own).leaf (i * 4096) = none := first.unmapped
  rw [absent]
  simp only
  rw [segment, file]
  simp only
  cases found : pgmetaFind m.proc.pgmeta (i * 4096) with
  | none => exact loads none
  | some midx =>
    simp only
    rw [if_neg (by simp [first.unsaved midx found])]
    exact loads (some midx)

end Loading

end Lazy

theorem lazy_exec_agrees {b b' : Build} {held held' : Nat → Nat} {ip : Inode} {elf : Elfhdr}
    (header : readElfhdr ip = some elf) (few : (elf.loadable ip).length ≤ 16) {m m' : Machine}
    {argv : Argv} {argc : Nat} (owned : Owned b held m) (root : m.proc.pagetable.pa ≠ 0)
    (eager : Eager.kexec b (some ip) argv.args m = .ok (some argc, m')) {l l' : Machine} {argv' : Argv}
    {created : Option Nat} {argc' : Nat} (array : l.proc.segs.length = 16)
    (deferred : kexec b' (some ip) argv'.args created l = .ok (some argc', l')) {s : Machine}
    (sound : Sound b' held' s) (same : s.proc.program = l'.proc.program) {i va : Nat} {ph : Proghdr}
    (one : (elf.loadable ip).filter (Proghdr.meets i) = [ph]) (page : va / 4096 = i)
    (first : Lazy.FirstAccess i s) :
    (∀ pa s', vmfault b' .own va .read s = .ok (some pa, s') → ∀ k < 4096,
      s'.pageByte i k = m'.pageByte i k ∧
      m'.pageByte i k = some (Eager.segmentByte ip ph (i * 4096 + k - ph.vaddr))) ∧
    (s.freelist ≠ [] → (s.proc.pagetable.walk (i * 4096)).isSome = true ∨ 3 ≤ s.freelist.length →
      ∃ pa s', vmfault b' .own va .read s = .ok (some pa, s')) := by
  obtain ⟨elf', header', loadable, contents⟩ := wp_ok (Eager.kexec_holds owned root ip argv) eager rfl
  obtain rfl : elf = elf' := Option.some.inj (header.symm.trans header')
  obtain ⟨elf', header', file, recorded⟩ := wp_ok (kexec_records argv' created array) deferred rfl
  obtain rfl : elf = elf' := Option.some.inj (header.symm.trans header')
  have program : s.proc.execip = some ip ∧ s.proc.activeSegs = (elf.loadable ip).map Proghdr.seg :=
    ⟨(congrArg Prod.fst same).trans file, (congrArg Prod.snd same).trans (recorded few)⟩
  have member : ph ∈ elf.loadable ip ∧ ph.meets i = true := by
    rw [← List.mem_filter, one]
    exact List.mem_singleton_self ph
  obtain ⟨soundHeader, reads, small⟩ := loadable ph member.1
  have accepted : Lazy.Accepted ip ph := ⟨soundHeader, reads, small⟩
  have segment := Lazy.segOf_only (fun ph member => (loadable ph member).1) program.2 one
  -- The page begins at or after the segment.
  have meets := member.2
  have aligned := soundHeader.aligned
  unfold Proghdr.meets at meets
  rw [decide_eq_true_iff] at meets
  have below : va < maxva := by
    unfold maxva
    omega
  have pageAligned : i * 4096 % 4096 = 0 := Nat.mul_mod_left i 4096
  constructor
  next =>
    intro pa s' served k short
    have holds := wp_ok (Lazy.vmfault_loads below page first program.1 segment fun midx =>
      Lazy.loadPage_holds sound accepted midx pageAligned) served pa rfl
    have offset : i * 4096 - ph.vaddr + k = i * 4096 + k - ph.vaddr := by omega
    have content := holds.2 k short
    rw [offset] at content
    rw [contents i ph one k short, Machine.pageByte, holds.1, Option.map_some, content]
    exact ⟨rfl, rfl⟩
  next =>
    intro some_ reachable
    obtain ⟨pa, rest, free⟩ := List.exists_cons_of_ne_nil some_
    have enough : Lazy.Reachable (i * 4096) rest.length s := by
      rw [free, List.length_cons] at reachable
      exact reachable.imp id fun many => by omega
    have pageBelow : i * 4096 < maxva := by omega
    obtain ⟨r, s', ran, served⟩ := wp_total (Lazy.vmfault_loads below page first program.1 segment fun midx =>
      Lazy.loadPage_succeeds accepted midx pageBelow pageAligned first.unmapped free enough)
    obtain ⟨pa', rfl⟩ := Option.isSome_iff_exists.mp served
    exact ⟨pa', s', ran⟩

-- Both kernels run `file` in the first process, and page 1 is still to be loaded.
def loadsOnePage (file : Inode) (m : Machine) : Bool :=
  match Eager.kexec .small (some file) shortArgv.args m, kexec .small (some file) shortArgv.args (some 9) m with
  | .ok (some _, _), .ok (some _, l) =>
    decide (m.proc.segs.length = 16 ∧ l.proc.pagetable.leaf (1 * 4096) = none ∧
      pgmetaFind l.proc.pgmeta (1 * 4096) = none ∧ 3 ≤ l.freelist.length)
  | _, _ => false

theorem first_sound {n : Nat} {m : Machine} (boot : Kernel.AtBoot .small (Kernel.boot n))
    (started : Machine.first .small n = some m) : ∃ held, Sound .small held m := by
  obtain ⟨k, ran, here⟩ := Option.bind_eq_some_iff.mp started
  obtain ⟨p, head, rfl⟩ := Option.map_eq_some_iff.mp here
  have sound := Kernel.userinit_sound (Kernel.reachable_sound (.initial boot)) ran
  exact ⟨_, sound.machine (i := 0) (by rwa [← List.head?_eq_getElem?]) []⟩

theorem loadsOnePage_runs {held : Nat → Nat} {file : Inode} {m : Machine} (sound : Sound .small held m)
    (loads : loadsOnePage file m = true) : ∃ m' l : Machine, ∃ argc argc' : Nat,
      Eager.kexec .small (some file) shortArgv.args m = .ok (some argc, m') ∧
      kexec .small (some file) shortArgv.args (some 9) m = .ok (some argc', l) ∧
      m.proc.segs.length = 16 ∧ Sound .small held l ∧ Lazy.FirstAccess 1 l ∧ 3 ≤ l.freelist.length := by
  unfold loadsOnePage at loads
  split at loads
  next argc m' argc' l eager deferred =>
    obtain ⟨array, unmapped, unsaved, free⟩ := of_decide_eq_true loads
    have kept := wp_ok (kexec_sound (some file) shortArgv.args (some 9) sound) deferred
    have first : Lazy.FirstAccess 1 l := ⟨unmapped, fun midx here => by rw [unsaved] at here; contradiction⟩
    exact ⟨m', l, argc, argc', eager, deferred, array, kept, first, free⟩
  next => contradiction

theorem lazy_exec_agrees_one : ∃ m m' l s : Machine, ∃ argc argc' pa : Nat,
    Eager.kexec .small (some (oneSegment 7)) shortArgv.args m = .ok (some argc, m') ∧
    kexec .small (some (oneSegment 7)) shortArgv.args (some 9) m = .ok (some argc', l) ∧
    vmfault .small .own 0x1004 .read l = .ok (some pa, s) ∧
    ∀ k < 4096, s.pageByte 1 k = m'.pageByte 1 k := by
  obtain ⟨m, started, loads⟩ : ∃ m, Machine.first .small 40 = some m ∧ loadsOnePage (oneSegment 7) m = true :=
    (Option.any_eq_true ..).mp (by decide +kernel)
  have boot : Kernel.AtBoot .small (Kernel.boot 40) := ⟨rfl, by decide +kernel, by decide +kernel, rfl⟩
  obtain ⟨held, sound⟩ := first_sound boot started
  obtain ⟨m', l, argc, argc', eager, deferred, array, sound', first, free⟩ := loadsOnePage_runs sound loads
  have header : readElfhdr (oneSegment 7) = some ⟨elfMagic, 0, 64, 1⟩ := by decide +kernel
  have one : (Elfhdr.loadable ⟨elfMagic, 0, 64, 1⟩ (oneSegment 7)).filter (Proghdr.meets 1) =
      [⟨1, 7, 0, 0x1000, 64, 64⟩] := by decide +kernel
  have few : (Elfhdr.loadable ⟨elfMagic, 0, 64, 1⟩ (oneSegment 7)).length ≤ 16 := by decide +kernel
  generalize oneSegment 7 = file at *
  have page : 0x1004 / 4096 = 1 := rfl
  have agrees := lazy_exec_agrees header few sound.owned sound.root eager array deferred sound' rfl one
    page first
  have some_ : l.freelist ≠ [] := List.ne_nil_of_length_pos (by omega)
  obtain ⟨pa, s, served⟩ := agrees.2 some_ (.inr free)
  exact ⟨m, m', l, s, argc, argc', pa, eager, deferred, served, fun k short => (agrees.1 pa s served k short).1⟩

end SystemsSuite.Paging
