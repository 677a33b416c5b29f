import SystemsSuite.Paging.Courses

set_option autoImplicit false

namespace SystemsSuite.Paging

open Lib Prog

variable {b : Build} {lent : Nat → Prop} {allowed : Act → Prop} {m₀ m m' : Machine} {t : Target} {va : Nat}

theorem unmapPage_frees (t : Target) (doFree : Bool) (a : Nat) :
    wp (unmapPage b t doFree a) (fun _ m' => FreesFrames b m m') (fun _ => True) m := by
  have cleared {m₁ : Machine} (frees : FreesFrames b m m₁) (node : PteSlot) :
      FreesFrames b m (m₁.setTable t ((m₁.table t).store a node)) := by
    intro f member
    rw [m₁.freelist_setTable t] at member
    exact frees f member
  unfold unmapPage
  rw [wp_bind, wp_walk]
  refine ⟨fun _ => trivial, fun _ => ?_⟩
  cases (m.table t).walk a with
  | none => exact .refl m
  | some node =>
    cases node with
    | empty => exact .refl m
    | leaf leaf =>
      cases doFree with
      | false => exact cleared (.refl m) .empty
      | true =>
        simp only [if_true, wp_bind]
        unfold kfree
        split_ifs with isFrame
        · rw [wp_update]
          refine cleared (fun f member => ?_) .empty
          rcases List.mem_cons.mp member with rfl | old
          · exact .inr isFrame
          · exact .inl old
        · trivial

theorem unmapLoop_frees (t : Target) (doFree : Bool) (n a : Nat) :
    wp (unmapLoop b t doFree n a) (fun _ m' => FreesFrames b m m') (fun _ => True) m := by
  induction n generalizing a m with
  | zero => exact .refl m
  | succ n ih =>
    apply wp_seq (unmapPage_frees t doFree a)
    intro _ m₁ first
    exact wp_mono (ih (a + 4096)) (fun _ _ rest => first.trans rest) fun _ _ => trivial

theorem Unmapped.remapped {a n : Nat} (unmapped : Unmapped t a n m m') (frees : FreesFrames b m m') :
    Remapped b lent m m' := by
  refine ⟨Machine.pager_of_rest unmapped.rest, frees, fun t' va leaf below here => .inl ⟨leaf, ?_, rfl⟩⟩
  by_cases same : t' = t
  · subst same
    by_cases inside : within a n va
    · rw [unmapped.gone va below inside] at here
      contradiction
    · rwa [unmapped.kept va below inside] at here
  · rwa [unmapped.other t' same] at here

theorem Unmapped.keepsPages {a n : Nat} (unmapped : Unmapped t a n m m') (t' : Target) (other : t' ≠ t) :
    m.KeepsPages m' t' := by
  intro va _ mapped
  rwa [unmapped.other t' other]

theorem Course.emptied (unmaps : allowed (.unmap t)) (so : Course b lent allowed m₀ m) (pa : Nat) :
    Course b lent allowed m₀ (m.setTable t (.empty pa)) := by
  refine so.move unmaps (.unmap m _ t ⟨?_, ?_, ?_⟩ fun t' other va _ mapped => ?_)
  · cases t <;> rfl
  · intro f member
    rw [m.freelist_setTable t] at member
    exact .inl member
  · intro t' va leaf _ here
    by_cases same : t' = t
    · subst same
      rw [Machine.table_setTable, PageTable.leaf, PageTable.empty, Radix.value_empty] at here
      contradiction
    · rw [m.table_setTable_other _ same] at here
      exact .inl ⟨leaf, here, rfl⟩
  · rwa [m.table_setTable_other _ other]

section Unmapping

variable (unmaps : allowed (.unmap t)) (plain : ∀ a, a.Plain → allowed a) (so : Course b lent allowed m₀ m)

include unmaps so

theorem uvmunmap_course (va npages : Nat) (doFree : Bool) :
    wp (uvmunmap b t va npages doFree) (fun _ m' => Course b lent allowed m₀ m') (fun _ => True) m := by
  unfold uvmunmap
  split_ifs with odd
  · trivial
  · apply wp_mono (wp_and (unmapLoop_effect t doFree _ va (by omega)) (unmapLoop_frees t doFree _ va)) _
      fun _ _ => trivial
    rintro _ m' ⟨unmapped, frees⟩
    exact so.move unmaps (.unmap m m' t (unmapped.remapped frees) unmapped.keepsPages)

theorem uvmdealloc_course (oldsz newsz : Nat) :
    wp (uvmdealloc b t oldsz newsz) (fun _ m' => Course b lent allowed m₀ m') (fun _ => True) m := by
  unfold uvmdealloc
  split_ifs
  · exact so
  · exact wp_seq (uvmunmap_course unmaps so _ _ true) fun _ _ done => done
  · exact so

include plain

omit unmaps in
theorem freeList_course (frames : List Nat) :
    wp (freeList b frames) (fun _ m' => Course b lent allowed m₀ m' ∧ m'.core = m.core) (fun _ => True) m := by
  induction frames generalizing m with
  | nil => exact ⟨so, rfl⟩
  | cons pa rest ih =>
    apply wp_seq (kfree_course plain so pa)
    rintro _ m₁ ⟨so₁, core⟩
    apply wp_mono (ih so₁) _ fun _ _ => trivial
    rintro _ m₂ ⟨so₂, core₂⟩
    exact ⟨so₂, core₂.trans core⟩

theorem uvmfree_course (sz : Nat) :
    wp (uvmfree b t sz) (fun _ m' => Course b lent allowed m₀ m' ∧ m'.table t = .empty 0) (fun _ => True) m := by
  have walked {m₁ : Machine} (so₁ : Course b lent allowed m₀ m₁) : wp (freewalk b t)
      (fun _ m' => Course b lent allowed m₀ m' ∧ m'.table t = .empty 0) (fun _ => True) m₁ := by
    unfold freewalk
    rw [wp_bind, wp_read, wp_bind, wp_update]
    apply wp_mono (freeList_course plain (so₁.emptied unmaps 0) _) _ fun _ _ => trivial
    rintro _ m₂ ⟨so₂, core⟩
    refine ⟨so₂, (Machine.table_of_core core t).trans ?_⟩
    exact m₁.table_setTable t _
  unfold uvmfree
  split_ifs
  · exact wp_seq (uvmunmap_course unmaps so 0 _ true) fun _ _ so₁ => walked so₁
  · exact walked so

theorem procFreepagetable_course (sz : Nat) :
    wp (procFreepagetable b t sz) (fun _ m' => Course b lent allowed m₀ m' ∧ m'.table t = .empty 0)
      (fun _ => True) m := by
  unfold procFreepagetable
  apply wp_seq (uvmunmap_course unmaps so trampolineVa 1 false)
  intro _ m₁ so₁
  apply wp_seq (uvmunmap_course unmaps so₁ trapframeVa 1 false)
  intro _ m₂ so₂
  exact uvmfree_course unmaps plain so₂ sz

end Unmapping

theorem PageTable.Framed.of_ptes {pt : PageTable} (ptes : pt.ptes = framePtes) : pt.Framed := by
  have mapped (va : Nat) (below : va < maxva) (present : (framePtes (va / 4096)).isSome = true) :
      (pt.leaf va).isSome = true := by
    rwa [← ptes, PageTable.ptes_leaf _ below, Option.isSome_map] at present
  exact ⟨mapped _ (by decide) (by decide), mapped _ (by decide) (by decide)⟩

section Building

variable (unmaps : allowed (.unmap .spare)) (plain : ∀ a, a.Plain → allowed a)
  (so : Course b lent allowed m₀ m)

include unmaps plain so

theorem uvmcreate_course :
    wp uvmcreate (fun _ m' => Course b lent allowed m₀ m') (fun _ => True) m := by
  unfold uvmcreate
  apply wp_seq (kalloc_course plain so)
  rintro r m₁ ⟨so₁, _, _⟩
  cases r with
  | none => exact so₁
  | some pa =>
    have filled : Course b lent allowed m₀ (m₁.fill pa fun _ => 0) := so₁.of_core plain rfl (.refl m₁)
    exact filled.emptied unmaps pa

theorem procPagetable_course (trapframe : Nat) :
    wp (procPagetable b trapframe) (fun ok m' => Course b lent allowed m₀ m' ∧
      (ok = true → (m'.table .spare).Framed)) (fun _ => True) m := by
  have course : wp (procPagetable b trapframe) (fun _ m' => Course b lent allowed m₀ m') (fun _ => True) m := by
    unfold procPagetable
    apply wp_seq (uvmcreate_course unmaps plain so)
    intro created m₁ so₁
    cases created with
    | false => exact so₁
    | true =>
      simp only [if_true]
      apply wp_seq (mappages_course plain so₁ .spare _ (.inr ⟨rfl, by decide⟩))
      rintro ok m₂ ⟨so₂, _⟩
      cases ok with
      | false => exact wp_seq (uvmfree_course unmaps plain so₂ 0) fun _ _ freed => freed.1
      | true =>
        simp only [if_true]
        apply wp_seq (mappages_course plain so₂ .spare _ (.inr ⟨rfl, by decide⟩))
        rintro ok m₃ ⟨so₃, _⟩
        cases ok with
        | true => exact so₃
        | false =>
          apply wp_seq (uvmunmap_course unmaps so₃ trampolineVa 1 false)
          intro _ m₄ so₄
          exact wp_seq (uvmfree_course unmaps plain so₄ 0) fun _ _ freed => freed.1
  apply wp_mono (wp_and course (procPagetable_books trapframe)) _ fun _ _ => trivial
  rintro ok m' ⟨so', books⟩
  refine ⟨so', fun built => .of_ptes ?_⟩
  rw [if_pos built] at books
  exact congrArg Books.spare books

end Building

-- What growing table `t` can do: when it fails, the new pages are taken away again.
def Act.Growing (t : Target) (a : Act) : Prop := a.Serving t ∨ a = .unmap t

theorem Act.Plain.growing {a : Act} (plain : a.Plain) : a.Growing t := .inl plain.serving

theorem recordAlloc_course (perm : Flags) (settled : Settled lent t va m) (aligned : va % 4096 = 0)
    (so : Course b lent (Act.Serving t) m₀ m) :
    wp (recordAlloc va perm) (fun _ m' => Course b lent (Act.Serving t) m₀ m') (fun _ => True) m := by
  unfold recordAlloc
  rw [wp_bind, wp_read, wp_bind, wp_modifyProc]
  have noted := so.note settled.below aligned
  have place := settled.of_tables (m.setMeta_table (pgmetaAlloc m.proc.pgmeta va).1)
  cases made : (pgmetaAlloc m.proc.pgmeta va).2 with
  | none => exact noted
  | some i =>
    refine noted.move (a := .arrive t va i) rfl (.arrive _ _ t va i { place with
      key := keys_alloc made
      entries := ⟨_, fun e => ?_, rfl⟩
      counter := rfl
      bitmap := .inl rfl
      swapip := rfl
      hand := rfl
      tables := fun t => by cases t <;> rfl
      freelist := rfl })
    exact ⟨rfl, rfl, rfl, id⟩

section Serving

variable (framed : t = .spare → (m₀.table .spare).Framed) (so : Course b lent (Act.Serving t) m₀ m)

include framed so

theorem allocPage_course (a : Nat) (perm : Flags) (aligned : a % 4096 = 0) :
    wp (allocPage b t a perm) (fun _ m' => Course b lent (Act.Serving t) m₀ m') (fun _ => True) m := by
  unfold allocPage
  apply wp_seq (kallocOrEvict_course (fun _ => Act.Plain.serving) so)
  rintro r m₁ ⟨so₁, obtained, given⟩
  cases r with
  | none => exact so₁
  | some pa =>
    simp only
    rw [wp_bind, wp_memset]
    have filled : Course b lent (Act.Serving t) m₀ (m₁.fill pa fun _ => 0) :=
      so₁.of_core (fun _ => Act.Plain.serving) rfl (.refl m₁)
    apply wp_seq (mappages_course (fun _ => Act.Plain.serving) filled t perm (.inl (given pa rfl)))
    rintro ok m₂ ⟨so₂, _, mapped⟩
    cases ok with
    | false => exact wp_seq (kfree_course (fun _ => Act.Plain.serving) so₂ pa) fun _ _ freed => freed.1
    | true =>
      obtain ⟨below, absent, here⟩ := mapped rfl
      have settled : Settled lent t a m₂ :=
        ⟨below, ⟨_, here, given pa rfl⟩, filled.ordinary framed below absent⟩
      exact wp_seq (recordAlloc_course perm settled aligned so₂) fun _ _ done => done

theorem allocLoop_course (start newsz : Nat) (perm : Flags) (n a : Nat) (aligned : a % 4096 = 0) :
    wp (allocLoop b t start newsz perm n a) (fun r m' => Course b lent (Act.Growing t) m₀ m' ∧
      (r ≠ 0 → Course b lent (Act.Serving t) m₀ m')) (fun _ => True) m := by
  induction n generalizing a m with
  | zero => exact ⟨so.mono fun _ => .inl, fun _ => so⟩
  | succ n ih =>
    rw [allocLoop_succ]
    apply wp_seq (allocPage_course framed so a perm aligned)
    intro ok m₁ so₁
    cases ok with
    | true => exact ih so₁ (a + 4096) (by omega)
    | false =>
      have growing : Course b lent (Act.Growing t) m₀ m₁ := so₁.mono fun _ => .inl
      apply wp_seq (uvmdealloc_course (.inr rfl) growing a start)
      exact fun _ m₂ so₂ => ⟨so₂, by simp⟩

theorem uvmalloc_course (oldsz newsz : Nat) (xperm : Flags) :
    wp (uvmalloc b t oldsz newsz xperm) (fun r m' => Course b lent (Act.Growing t) m₀ m' ∧
      (r ≠ 0 → Course b lent (Act.Serving t) m₀ m')) (fun _ => True) m := by
  unfold uvmalloc
  split_ifs
  · exact ⟨so.mono fun _ => .inl, fun _ => so⟩
  · exact allocLoop_course framed so _ _ _ _ _ (pgroundup_aligned oldsz)

theorem copyoutLoop_course (rounds dstva : Nat) (src : List UInt8) :
    wp (copyoutLoop b t rounds dstva src) (fun _ m' => Course b lent (Act.Serving t) m₀ m')
      (fun _ => True) m := by
  induction rounds generalizing dstva src m with
  | zero => exact so
  | succ rounds ih =>
    rw [copyoutLoop]
    split_ifs
    · exact so
    · simp only
      split_ifs with high
      · exact so
      · have reached : wp (walkaddrOrFault b t (pgrounddown dstva))
            (fun _ m' => Course b lent (Act.Serving t) m₀ m') (fun _ => True) m := by
          unfold walkaddrOrFault walkaddr
          rw [wp_bind, if_neg high, wp_bind, wp_read, wp_pure]
          cases ((m.table t).leaf (pgrounddown dstva)).filter fun leaf => leaf.flags.u with
          | some leaf => exact so
          | none =>
            apply wp_seq (vmfault_course so framed (pgrounddown dstva) .write)
            intro _ m₁ so₁
            rw [wp_bind, wp_read]
            exact so₁
        apply wp_seq reached
        intro r m₁ so₁
        cases r with
        | none => exact so₁
        | some pa0 =>
          simp only
          rw [wp_bind, wp_read]
          cases (m₁.table t).leaf (pgrounddown dstva) with
          | none => exact so₁
          | some leaf =>
            simp only
            split_ifs
            · exact so₁
            · unfold memmove
              rw [wp_bind, wp_update]
              apply ih
              exact so₁.of_core (fun _ => Act.Plain.serving) rfl (.refl m₁)

theorem pushArgs_course (stackbase : Nat) (argv : List (List UInt8)) (argc sp : Nat) (ustack : List Nat) :
    wp (pushArgs b t stackbase argv argc sp ustack) (fun _ m' => Course b lent (Act.Serving t) m₀ m')
      (fun _ => True) m := by
  induction argv generalizing argc sp ustack m with
  | nil => exact so
  | cons arg rest ih =>
    rw [pushArgs]
    split_ifs
    · exact so
    · simp only
      split_ifs
      · exact so
      · apply wp_seq (copyoutLoop_course framed so _ _ _)
        intro ok m₁ so₁
        cases ok with
        | true => exact ih so₁ _ _ _
        | false => exact so₁

theorem pushStack_course (sp stackbase : Nat) (argv : List (List UInt8)) :
    wp (pushStack b t sp stackbase argv) (fun _ m' => Course b lent (Act.Serving t) m₀ m')
      (fun _ => True) m := by
  unfold pushStack
  apply wp_seq (pushArgs_course framed so stackbase argv 0 sp [])
  intro pushed m₁ so₁
  cases pushed with
  | none => exact so₁
  | some pushed =>
    simp only
    split_ifs
    · exact so₁
    · apply wp_seq (copyoutLoop_course framed so₁ _ _ _)
      intro ok m₂ so₂
      cases ok <;> exact so₂

end Serving

theorem Machine.proc_of_rest (rest : m'.rest = m.rest) (table : m'.proc.pagetable = m.proc.pagetable) :
    m'.proc = m.proc := by
  have apart (p : Proc) : p = { ({ p with pagetable := .empty p.pagetable.pa } : Proc) with
      pagetable := p.pagetable } := rfl
  have same := congrArg Core.proc rest
  change ({ m'.proc with pagetable := .empty m'.proc.pagetable.pa } : Proc) =
    { m.proc with pagetable := .empty m.proc.pagetable.pa } at same
  rw [apart m'.proc, same, table]

theorem uvmunmap_spare_proc (va npages : Nat) (doFree : Bool) :
    wp (uvmunmap b .spare va npages doFree) (fun _ m' => m'.proc = m.proc) (fun _ => True) m := by
  unfold uvmunmap
  split_ifs with odd
  · trivial
  · apply wp_mono (unmapLoop_effect .spare doFree _ va (by omega)) _ fun _ _ => trivial
    exact fun _ m' unmapped => Machine.proc_of_rest unmapped.rest (unmapped.other .own (by simp))

theorem procFreepagetable_spare_proc (sz : Nat) :
    wp (procFreepagetable b .spare sz) (fun _ m' => m'.proc = m.proc) (fun _ => True) m := by
  have walked {m₁ : Machine} (same : m₁.proc = m.proc) :
      wp (freewalk b .spare) (fun _ m' => m'.proc = m.proc) (fun _ => True) m₁ := by
    unfold freewalk
    rw [wp_bind, wp_read, wp_bind, wp_update]
    apply wp_mono (freeList_core _) _ fun _ _ => trivial
    exact fun _ m₂ core => (congrArg Core.proc core).trans same
  unfold procFreepagetable
  apply wp_seq (uvmunmap_spare_proc trampolineVa 1 false)
  intro _ m₁ same₁
  apply wp_seq (uvmunmap_spare_proc trapframeVa 1 false)
  intro _ m₂ same₂
  unfold uvmfree
  split_ifs
  · apply wp_seq (uvmunmap_spare_proc 0 _ true)
    exact fun _ m₃ same₃ => walked (same₃.trans (same₂.trans same₁))
  · exact walked (same₂.trans same₁)

theorem commitImage_renewed (elf : Elfhdr) (sz sp oldsz : Nat) (created : Option Nat) :
    wp (commitImage b elf sz sp oldsz created) (fun _ m' => Renewed b m m') (fun _ => True) m := by
  unfold commitImage
  rw [wp_bind, wp_update]
  let m₁ : Machine := { m with
    spare := m.proc.pagetable
    proc := { m.proc with
      pagetable := m.spare
      sz := sz
      trapframe := { m.proc.trapframe with a1 := sp, epc := elf.entry, sp := sp }
      heapBrk := sub64 sz 8192
      pageSeqCtr := 1 } }
  have start : Course b (fun _ => True) (fun _ => True) m₁ m₁ := .refl fun _ _ => trivial
  change wp _ _ _ m₁
  apply wp_seq_and (procFreepagetable_course (t := .spare) trivial (fun _ _ => trivial) start oldsz)
    (procFreepagetable_spare_proc oldsz)
  rintro _ m₂ ⟨so, gone⟩ same
  have swapip : m₂.proc.swapip = m₁.proc.swapip := congrArg Proc.swapip same
  change m₂.proc.swapip = m.proc.swapip at swapip
  exact {
    own := fun va _ => congrArg (fun p : Proc => p.pagetable.leaf va) same
    spare := fun va _ => by
      change (m₂.table .spare).leaf va = none
      rw [gone, PageTable.leaf, PageTable.empty, Radix.value_empty]
    frees := so.frees
    pgmeta := rfl
    counter := congrArg Proc.pageSeqCtr same
    bitmap := rfl
    swapip := fun some_ => by
      obtain ⟨ip, here⟩ := Option.isSome_iff_exists.mp some_
      change m₂.proc.swapip.or _ = _
      rw [swapip, here]
      rfl
    fresh := fun ip here none_ => by
      change ip ∈ m₂.proc.swapip.or _ at here
      rw [swapip, none_, Option.none_or] at here
      obtain ⟨inum, _, rfl⟩ := Option.map_eq_some_iff.mp here
      rfl }

-- How a `kexec` gets from `m₀` to `m'`: only a successful one ends with a new image.
def Replaced (b : Build) (lent : Nat → Prop) (m₀ : Machine) (argc : Option Nat) (m' : Machine) : Prop :=
  match argc with
  | none => Course b lent (Act.Growing .spare) m₀ m'
  | some _ => ∃ m, Course b lent (Act.Growing .spare) m₀ m ∧ Renewed b m m'

theorem execBad_course (sz : Nat) (so : Course b lent (Act.Growing .spare) m₀ m) :
    wp (execBad b sz) (Replaced b lent m₀) (fun _ => True) m :=
  wp_seq (procFreepagetable_course (.inr rfl) (fun _ => Act.Plain.growing) so sz) fun _ _ freed => freed.1

theorem uvmclear_course (so : Course b lent (Act.Serving t) m₀ m) (va : Nat) :
    wp (uvmclear t va) (fun _ m' => Course b lent (Act.Serving t) m₀ m') (fun _ => True) m := by
  unfold uvmclear
  rw [wp_bind, wp_walk]
  refine ⟨fun _ => trivial, fun below => ?_⟩
  cases found : (m.table t).walk va with
  | none => trivial
  | some node =>
    cases node with
    | empty => exact so
    | leaf leaf =>
      apply wp_mono (setFlags_course (fun _ => Act.Plain.serving) so t _ below (PageTable.leaf_of_walk found))
        (fun _ _ set => set.1) fun _ _ => trivial

theorem buildStack_course (elf : Elfhdr) (argv : List (List UInt8)) (created : Option Nat) (sz : Nat)
    (framed : (m.table .spare).Framed) (so : Course b lent (Act.Growing .spare) m₀ m) :
    wp (buildStack b elf argv created sz) (Replaced b lent m₀) (fun _ => True) m := by
  unfold buildStack
  rw [wp_bind, wp_read]
  apply wp_seq (uvmalloc_course (fun _ => framed) (.refl so.given) _ _ _)
  rintro sz1 m₁ ⟨growing, serving⟩
  split_ifs with failed
  · exact execBad_course sz (so.trans growing)
  · apply wp_seq (uvmclear_course (serving failed) _)
    intro _ m₂ so₂
    apply wp_seq (pushStack_course (fun _ => framed) so₂ _ _ argv)
    intro pushed m₃ so₃
    have whole : Course b lent (Act.Growing .spare) m₀ m₃ := so.trans (so₃.mono fun _ => .inl)
    cases pushed with
    | none => exact execBad_course sz1 whole
    | some sp => exact wp_seq (commitImage_renewed elf sz1 sp _ created) fun _ m₄ renewed => ⟨m₃, whole, renewed⟩

theorem kexec_course (file : Option Inode) (argv : List (List UInt8)) (created : Option Nat)
    (so : Course b lent (Act.Growing .spare) m₀ m) :
    wp (kexec b file argv created) (Replaced b lent m₀) (fun _ => True) m := by
  unfold kexec
  cases file with
  | none => exact so
  | some ip =>
    cases header : readElfhdr ip with
    | none =>
      simp only
      rw [header]
      exact so
    | some elf =>
      simp only
      rw [header]
      simp only
      rw [wp_bind, wp_read]
      apply wp_seq (procPagetable_course (.inr rfl) (fun _ => Act.Plain.growing) so _)
      rintro ok m₁ ⟨so₁, framed⟩
      cases ok with
      | false => exact so₁
      | true =>
        rw [if_pos rfl, wp_bind, wp_read, wp_bind, wp_modifyProc]
        let m₂ : Machine := { m₁ with proc := { m₁.proc with
          execip := some ip
          nsegs := (elf.scan ip m₁.proc.segs).2.nsegs
          segs := (elf.scan ip m₁.proc.segs).2.segs } }
        have so₂ : Course b lent (Act.Growing .spare) m₀ m₂ :=
          so₁.aside (fun _ => Act.Plain.growing) rfl (fun t => by cases t <;> rfl) (.refl m₁)
        change wp _ _ _ m₂
        split_ifs
        · exact buildStack_course elf argv created _ (framed rfl) so₂
        · exact execBad_course _ so₂

-- What `kfork` can do to the parent.
def Act.Forking (a : Act) : Prop := a.Plain ∨ a = .unmap .spare

-- The child while `uvmcopy` works, as a machine of its own.
def Copied.machine (c : Copied) (m : Machine) : Machine :=
  ⟨m.freelist, m.mem, { Proc.unused with
    pagetable := m.spare
    pgmeta := c.pgmeta
    pageSeqCtr := c.pageSeqCtr }, .empty 0, [], false⟩

-- How the pager of a child comes about: from the blank table that `allocproc` makes, by the moves that map and
-- enter the copied pages.
structure Bred (b : Build) (lent : Nat → Prop) (m₀ : Machine) (child : Proc) : Prop where
  path : ∃ (m₁ m₂ : Machine) (c : Copied), Course b lent Act.Forking m₀ m₁ ∧
    Course b lent (Act.Serving .own) (Copied.initial.machine m₁) (c.machine m₂) ∧
    child.pagetable = m₂.spare ∧ child.pgmeta = c.pgmeta
  counter : child.pageSeqCtr = 1
  swapip : ∀ ip ∈ child.swapip, ip.size = 0
  bitmap : child.swapBitmap = List.replicate 128 0#8

theorem Copied.follow {c : Copied} {m₁ : Machine} (born : Course b lent (Act.Serving .own) m₁ (c.machine m))
    (spare : m'.spare = m.spare) (frees : FreesFrames b m m') :
    Course b lent (Act.Serving .own) m₁ (c.machine m') := by
  refine born.aside (fun _ => Act.Plain.serving) rfl (fun t => ?_) frees
  cases t with
  | own => exact spare
  | spare => rfl

theorem Copied.mapped {c : Copied} {m₁ : Machine} {i mem : Nat} {flags : Flags} (given : lent mem)
    (born : Course b lent (Act.Serving .own) m₁ (c.machine m))
    (step : TableStep .spare (setLeaf m.spare.leaf i (some ⟨mem, flags⟩)) m m') :
    Course b lent (Act.Serving .own) m₁ (c.machine m') := by
  have root : m'.spare.pa = m.spare.pa := congrArg (fun c : Core => c.spare.pa) step.rest
  have own : TableStep .own (setLeaf m.spare.leaf i (some ⟨mem, flags⟩)) (c.machine m) (c.machine m') := by
    refine ⟨step.leaf, fun t' other => ?_, ?_, step.free, step.mem⟩
    · cases t' with
      | own => exact absurd rfl other
      | spare => rfl
    · change Core.rest ⟨{ Proc.unused with
        pagetable := m'.spare, pgmeta := c.pgmeta, pageSeqCtr := c.pageSeqCtr }, .empty 0, []⟩ = _
      simp only [Core.rest, root]
      rfl
  refine TableStep.course (fun _ => Act.Plain.serving) born own ?_ fun _ => setLeaf_isSome
  intro va leaf _ here
  unfold setLeaf at here
  split_ifs at here
  · obtain rfl := Option.some.inj here
    exact .inr (.inl given)
  · exact .inl ⟨leaf, here, rfl⟩

theorem Copied.recorded {c : Copied} {m₁ : Machine} {i : Nat} (flags : Flags) (aligned : i % 4096 = 0)
    (settled : Settled lent .own i (c.machine m))
    (born : Course b lent (Act.Serving .own) m₁ (c.machine m)) :
    Course b lent (Act.Serving .own) m₁ ((c.record i flags).machine m) := by
  have noted := born.note settled.below aligned
  have place := settled.of_tables ((c.machine m).setMeta_table (pgmetaAlloc c.pgmeta i).1)
  cases made : (pgmetaAlloc c.pgmeta i).2 with
  | none =>
    have same : c.record i flags = ⟨(pgmetaAlloc c.pgmeta i).1, c.pageSeqCtr⟩ := by
      simp only [Copied.record, made]
    rw [same]
    exact noted
  | some midx =>
    have same : c.record i flags = ⟨(pgmetaAlloc c.pgmeta i).1.modify midx fun e => { e with
        resident := true, perm := flags, dirty := false, referenced := true, seq := c.pageSeqCtr },
        u64 (c.pageSeqCtr + 1)⟩ := by
      simp only [Copied.record, made]
    rw [same]
    refine noted.move (a := .arrive .own i midx) rfl (.arrive _ _ .own i midx { place with
      key := keys_alloc made
      entries := ⟨_, fun e => ?_, rfl⟩
      counter := rfl
      bitmap := .inl rfl
      swapip := rfl
      hand := rfl
      tables := fun t => by cases t <;> rfl
      freelist := rfl })
    exact ⟨rfl, rfl, rfl, id⟩

theorem copyFailed_course (i : Nat) (so : Course b lent Act.Forking m₀ m) :
    wp (copyFailed b i) (fun r m' => Course b lent Act.Forking m₀ m' ∧ r = none) (fun _ => True) m :=
  wp_seq (uvmunmap_course (t := .spare) (.inr rfl) so 0 _ true) fun _ _ done => ⟨done, rfl⟩

theorem copyLoop_course {m₁ : Machine} (n i : Nat) (c : Copied) (aligned : i % 4096 = 0)
    (so : Course b lent Act.Forking m₀ m) (born : Course b lent (Act.Serving .own) m₁ (c.machine m)) :
    wp (copyLoop b n i c) (fun r m' => Course b lent Act.Forking m₀ m' ∧
      ∀ c' ∈ r, Course b lent (Act.Serving .own) m₁ (c'.machine m')) (fun _ => True) m := by
  induction n generalizing i c m with
  | zero =>
    refine ⟨so, ?_⟩
    rintro c' ⟨⟩
    exact born
  | succ n ih =>
    have failed {m' : Machine} (so' : Course b lent Act.Forking m₀ m') : wp (copyFailed b i)
        (fun r m' => Course b lent Act.Forking m₀ m' ∧
          ∀ c' ∈ r, Course b lent (Act.Serving .own) m₁ (c'.machine m')) (fun _ => True) m' := by
      apply wp_mono (copyFailed_course i so') _ fun _ _ => trivial
      rintro r m'' ⟨so'', rfl⟩
      exact ⟨so'', by simp⟩
    have skip := ih (i + 4096) c (by omega) so born
    rw [copyLoop, wp_bind, wp_walk]
    refine ⟨fun _ => trivial, fun _ => ?_⟩
    cases (m.table .own).walk i with
    | none => exact skip
    | some node =>
      cases node with
      | empty => exact skip
      | leaf leaf =>
        apply wp_seq_and (kallocOrEvict_course (fun _ => .inl) so) kallocOrEvict_effect
        rintro r m₂ ⟨so₂, obtained, given⟩ ⟨_, frees, _⟩
        have born₂ := Copied.follow born obtained.spare frees
        cases r with
        | none => exact failed so₂
        | some mem =>
          simp only
          rw [wp_bind, copyPage, wp_update]
          let m₃ : Machine := m₂.fill mem (m₂.mem leaf.pa)
          have so₃ : Course b lent Act.Forking m₀ m₃ := so₂.of_core (fun _ => .inl) rfl (.refl m₂)
          have born₃ : Course b lent (Act.Serving .own) m₁ (c.machine m₃) :=
            Copied.follow born₂ rfl (.refl m₂)
          change wp _ _ _ m₃
          apply wp_seq_and (mappages_course (fun _ => .inl) so₃ .spare leaf.flags (.inl (given mem rfl)))
            (mappages_effect .spare i mem leaf.flags)
          rintro ok m₄ ⟨so₄, _, mapped⟩ ⟨_, _, step⟩
          cases ok with
          | true =>
            obtain ⟨below, _, here⟩ := mapped rfl
            have settled : Settled lent .own i (c.machine m₄) := ⟨below, ⟨_, here, given mem rfl⟩, by simp⟩
            exact ih (i + 4096) _ (by omega) so₄
              (Copied.recorded leaf.flags aligned settled (Copied.mapped (given mem rfl) born₃ step))
          | false => exact wp_seq (kfree_course (fun _ => .inl) so₄ mem) fun _ _ freed => failed freed.1

theorem allocproc_course (so : Course b lent Act.Forking m₀ m) :
    wp (allocproc b) (fun _ m' => Course b lent Act.Forking m₀ m') (fun _ => True) m := by
  unfold allocproc
  apply wp_seq (kalloc_course (fun _ => .inl) so)
  rintro r m₁ ⟨so₁, _, _⟩
  cases r with
  | none => exact so₁
  | some trapframe =>
    apply wp_seq (procPagetable_course (.inr rfl) (fun _ => .inl) so₁ trapframe)
    rintro ok m₂ ⟨so₂, _⟩
    cases ok with
    | true => exact so₂
    | false => exact wp_seq (kfree_course (fun _ => .inl) so₂ trapframe) fun _ _ freed => freed.1

theorem kfork_course (created : Option Nat) (so : Course b lent Act.Forking m₀ m) :
    wp (kfork b created) (fun r m' => Course b lent Act.Forking m₀ m' ∧ ∀ child ∈ r, Bred b lent m₀ child)
      (fun _ => True) m := by
  unfold kfork
  apply wp_seq (allocproc_course so)
  intro r m₁ so₁
  cases r with
  | none => exact ⟨so₁, by simp⟩
  | some trapframe =>
    simp only
    rw [wp_bind, wp_read]
    have blank : Course b lent (Act.Serving .own) (Copied.initial.machine m₁) (Copied.initial.machine m₁) :=
      .refl so₁.given
    apply wp_seq (copyLoop_course _ 0 .initial rfl so₁ blank)
    rintro copied m₂ ⟨so₂, born⟩
    cases copied with
    | none =>
      apply wp_seq (kfree_course (fun _ => .inl) so₂ trapframe)
      rintro _ m₃ ⟨so₃, _⟩
      apply wp_seq (procFreepagetable_course (t := .spare) (.inr rfl) (fun _ => .inl) so₃ 0)
      exact fun _ m₄ freed => ⟨freed.1, by simp⟩
    | some copied =>
      simp only
      rw [wp_bind, wp_read, wp_bind, wp_update]
      refine ⟨so₂.emptied (t := .spare) (.inr rfl) 0, ?_⟩
      rintro child ⟨⟩
      refine ⟨⟨m₁, m₂, copied, so₁, born copied rfl, rfl, rfl⟩, rfl, fun ip here => ?_, rfl⟩
      obtain ⟨inum, _, rfl⟩ := Option.map_eq_some_iff.mp here
      rfl

end SystemsSuite.Paging
