import SystemsSuite.Paging.Moves

set_option autoImplicit false

namespace SystemsSuite.Paging

open Lib Prog

variable {b : Build} {lent : Nat → Prop} {allowed : Act → Prop} {m₀ m m' : Machine} {t : Target} {va : Nat}

theorem Machine.KeepsPages.framed (keeps : m.KeepsPages m' t) (framed : (m.table t).Framed) :
    (m'.table t).Framed :=
  ⟨keeps trampolineVa (by decide) framed.1, keeps trapframeVa (by decide) framed.2⟩

theorem Move.framed {a : Act} (move : Move b lent m a m') (serving : a.Serving t)
    (framed : (m.table .spare).Framed) : (m'.table .spare).Framed := by
  cases move with
  | memory _ _ keeps => exact (keeps .spare).framed framed
  | unmap => exact serving.elim
  | note => exact framed
  | touch => exact framed
  | evict _ _ evicted =>
    change m'.spare.Framed
    rw [evicted.spare]
    exact framed
  | arrive _ _ _ _ arrived =>
    rw [arrived.tables .spare]
    exact framed
  | untracked => exact framed
  | exec => exact serving.elim

theorem Course.framed (so : Course b lent (Act.Serving t) m₀ m) (framed : (m₀.table .spare).Framed) :
    (m.table .spare).Framed :=
  so.invariant framed fun _ _ _ serving before move => move.framed serving before

theorem Course.ordinary (so : Course b lent (Act.Serving t) m₀ m)
    (framed : t = .spare → (m₀.table .spare).Framed) (below : va < maxva)
    (absent : (m.table t).leaf va = none) (spare : t = .spare) : special (va / 4096) = false := by
  subst spare
  exact special_eq_false ((so.framed (framed rfl)).below below absent)

theorem Course.note (so : Course b lent (Act.Serving t) m₀ m) (below : va < maxva) (aligned : va % 4096 = 0) :
    Course b lent (Act.Serving t) m₀ (m.setMeta (pgmetaAlloc m.proc.pgmeta va).1) :=
  so.move (a := .note va) trivial (.note m va below aligned)

theorem Settled.of_tables (settled : Settled lent t va m) (tables : ∀ t, m'.table t = m.table t) :
    Settled lent t va m' := by
  refine ⟨settled.below, ?_, settled.user⟩
  rw [tables]
  exact settled.mapped

theorem Machine.setMeta_table (m : Machine) (metas : List PageMeta) (t : Target) :
    (m.setMeta metas).table t = m.table t := by
  cases t <;> rfl

theorem recordResident_course (midx : Option Nat) (perm : Flags) (settled : Settled lent t va m)
    (keyed : ∀ i ∈ midx, (keys m.proc.pgmeta)[i]? = some va) (so : Course b lent (Act.Serving t) m₀ m) :
    wp (recordResident midx perm) (fun _ m' => Course b lent (Act.Serving t) m₀ m') (fun _ => True) m := by
  unfold recordResident
  cases midx with
  | none => exact so.move (a := .untracked) trivial (.untracked m)
  | some i =>
    refine so.move (a := .arrive t va i) rfl (.arrive m _ t va i { settled with
      key := keyed i rfl
      entries := ⟨_, fun e => ?_, rfl⟩
      counter := rfl
      bitmap := .inl rfl
      swapip := rfl
      hand := rfl
      tables := fun t => by cases t <;> rfl
      freelist := rfl })
    exact ⟨rfl, rfl, rfl, id⟩

theorem recordLoaded_course (midx : Option Nat) (perm : Flags) (aligned : va % 4096 = 0)
    (settled : Settled lent t va m) (keyed : ∀ i ∈ midx, (keys m.proc.pgmeta)[i]? = some va)
    (so : Course b lent (Act.Serving t) m₀ m) :
    wp (recordLoaded va midx perm) (fun _ m' => Course b lent (Act.Serving t) m₀ m') (fun _ => True) m := by
  unfold recordLoaded
  cases midx with
  | some i => exact recordResident_course _ perm settled keyed so
  | none =>
    rw [wp_bind, wp_read, wp_bind, wp_modifyProc]
    have noted := settled.of_tables (m.setMeta_table (pgmetaAlloc m.proc.pgmeta va).1)
    exact recordResident_course _ perm noted (fun _ made => keys_alloc made) (so.note settled.below aligned)

theorem upgrade_course {leaf : Leaf} (acc : Access) (below : va < maxva) (aligned : va % 4096 = 0)
    (here : (m.table t).leaf va = some leaf) (so : Course b lent (Act.Serving t) m₀ m) :
    wp (upgrade t va leaf acc) (fun _ m' => Course b lent (Act.Serving t) m₀ m') (fun _ => True) m := by
  unfold upgrade
  rw [wp_bind, wp_read]
  cases acc with
  | read => exact so
  | exec =>
    simp only
    split_ifs
    · exact wp_seq (setFlags_course (fun _ => Act.Plain.serving) so t _ below here) fun _ _ set => set.1
    · exact so
  | write =>
    simp only
    split_ifs
    · apply wp_seq (setFlags_course (fun _ => Act.Plain.serving) so t _ below here)
      rintro _ m₁ ⟨so₁, pager⟩
      have metas : m.proc.pgmeta = m₁.proc.pgmeta := (congrArg Pager.pgmeta pager).symm
      rw [wp_bind, wp_modifyProc, metas]
      have noted := so₁.note below aligned
      cases (pgmetaAlloc m₁.proc.pgmeta va).2 with
      | none => exact noted
      | some i => exact noted.move (a := .touch i) trivial (.touch _ i)
    · exact so

theorem readInto_course (plain : ∀ a, a.Plain → allowed a) (so : Course b lent allowed m₀ m) (ip : Inode)
    (pa off n : Nat) :
    wp (readInto ip pa off n) (fun _ m' => Course b lent allowed m₀ m' ∧ m'.core = m.core) (fun _ => True) m :=
  ⟨so.of_core plain rfl (.refl m), rfl⟩

theorem readSegment_course (plain : ∀ a, a.Plain → allowed a) (so : Course b lent allowed m₀ m) (seg : Seg)
    (execip : Inode) (pa pageOff : Nat) :
    wp (readSegment seg execip pa pageOff) (fun _ m' => Course b lent allowed m₀ m' ∧ m'.core = m.core)
      (fun _ => True) m := by
  unfold readSegment
  split_ifs
  · exact wp_seq (readInto_course plain so execip pa _ _) fun _ _ read => read
  · exact ⟨so, rfl⟩

theorem giveUp_course (plain : ∀ a, a.Plain → allowed a) (so : Course b lent allowed m₀ m) (pa : Nat) :
    wp (giveUp b pa) (fun _ m' => Course b lent allowed m₀ m') (fun _ => True) m :=
  wp_seq (kfree_course plain so pa) fun _ _ freed => freed.1

theorem keyed_of_rest {midx : Option Nat} (keyed : ∀ i ∈ midx, (keys m.proc.pgmeta)[i]? = some va)
    (rest : m'.rest = m.rest) : ∀ i ∈ midx, (keys m'.proc.pgmeta)[i]? = some va := by
  have same : m'.proc.pgmeta = m.proc.pgmeta := congrArg (fun c : Core => c.proc.pgmeta) rest
  rwa [same]

theorem keyed_obtained {midx : Option Nat} {pa : Nat} (keyed : ∀ i ∈ midx, (keys m.proc.pgmeta)[i]? = some va)
    (obtained : Obtained b m (some pa) m') : ∀ i ∈ midx, (keys m'.proc.pgmeta)[i]? = some va := by
  rwa [obtained.keys]

section Serving

variable (so : Course b lent (Act.Serving t) m₀ m) (framed : t = .spare → (m₀.table .spare).Framed)

include so framed

theorem mapOrFree_settles {pa : Nat} (perm : Flags) (given : lent pa) :
    wp (mapOrFree b t va pa perm) (fun ok m' => Course b lent (Act.Serving t) m₀ m' ∧ m'.rest = m.rest ∧
      (ok = true → Settled lent t va m')) (fun _ => True) m := by
  apply wp_mono (mapOrFree_course (fun _ => Act.Plain.serving) so t perm given) _ fun _ _ => trivial
  rintro ok m' ⟨so', rest, mapped⟩
  refine ⟨so', rest, fun done => ?_⟩
  obtain ⟨below, absent, here⟩ := mapped done
  exact ⟨below, ⟨_, here, given⟩, so.ordinary framed below absent⟩

theorem swapIn_course (seg : Seg) (midx : Nat) (keyed : ∀ i ∈ some midx, (keys m.proc.pgmeta)[i]? = some va) :
    wp (swapIn b t va seg midx) (fun _ m' => Course b lent (Act.Serving t) m₀ m') (fun _ => True) m := by
  unfold swapIn
  apply wp_seq (kallocOrEvict_course (fun _ => Act.Plain.serving) so)
  rintro r m₁ ⟨so₁, obtained, given⟩
  cases r with
  | none => exact so₁
  | some pa =>
    simp only
    rw [wp_bind, wp_read]
    cases m₁.proc.swapip with
    | none => trivial
    | some ip =>
      apply wp_seq (readInto_course (fun _ => Act.Plain.serving) so₁ ip pa _ _)
      rintro got m₂ ⟨so₂, core₂⟩
      split_ifs
      · exact giveUp_course (fun _ => Act.Plain.serving) so₂ pa
      · apply wp_seq (mapOrFree_settles so₂ framed _ (given pa rfl))
        rintro ok m₃ ⟨so₃, rest₃, settled⟩
        cases ok with
        | false => exact so₃
        | true =>
          have rest : m₃.rest = m₁.rest := rest₃.trans (congrArg Core.rest core₂)
          have counter : m₁.proc.pageSeqCtr = m₃.proc.pageSeqCtr :=
            (congrArg (fun c : Core => c.proc.pageSeqCtr) rest).symm
          refine so₃.move (a := .arrive t va midx) rfl (.arrive m₃ _ t va midx { settled rfl with
            key := keyed_of_rest (keyed_obtained keyed obtained) rest midx rfl
            entries := ⟨_, fun e => ?_, rfl⟩
            counter := rfl
            bitmap := .inr ⟨_, rfl⟩
            swapip := rfl
            hand := rfl
            tables := fun t => by cases t <;> rfl
            freelist := rfl })
          exact ⟨rfl, rfl, counter, by simp⟩

theorem installPage_course {pa : Nat} (seg : Seg) (midx : Option Nat) (aligned : va % 4096 = 0)
    (given : lent pa) (keyed : ∀ i ∈ midx, (keys m.proc.pgmeta)[i]? = some va) :
    wp (installPage b t va seg midx pa) (fun _ m' => Course b lent (Act.Serving t) m₀ m') (fun _ => True) m := by
  unfold installPage
  apply wp_seq (mapOrFree_settles so framed _ given)
  rintro ok m₁ ⟨so₁, rest, settled⟩
  cases ok with
  | false => exact so₁
  | true =>
    exact wp_seq (recordLoaded_course midx _ aligned (settled rfl) (keyed_of_rest keyed rest) so₁) fun _ _ done => done

theorem loadPage_course (seg : Seg) (execip : Inode) (midx : Option Nat) (acc : Access)
    (aligned : va % 4096 = 0) (keyed : ∀ i ∈ midx, (keys m.proc.pgmeta)[i]? = some va) :
    wp (loadPage b t va seg execip midx acc) (fun _ m' => Course b lent (Act.Serving t) m₀ m')
      (fun _ => True) m := by
  unfold loadPage
  apply wp_seq (kallocOrEvict_course (fun _ => Act.Plain.serving) so)
  rintro r m₁ ⟨so₁, obtained, given⟩
  cases r with
  | none => exact so₁
  | some pa =>
    simp only
    rw [wp_bind, wp_memset]
    have filled : Course b lent (Act.Serving t) m₀ (m₁.fill pa fun _ => 0) :=
      so₁.of_core (fun _ => Act.Plain.serving) rfl (.refl m₁)
    apply wp_seq (readSegment_course (fun _ => Act.Plain.serving) filled seg execip pa _)
    rintro ok m₂ ⟨so₂, core₂⟩
    cases ok with
    | false => exact giveUp_course (fun _ => Act.Plain.serving) so₂ pa
    | true =>
      simp only [if_true]
      split_ifs
      · exact giveUp_course (fun _ => Act.Plain.serving) so₂ pa
      · exact installPage_course so₂ framed seg midx aligned (given pa rfl)
          (keyed_of_rest (keyed_obtained keyed obtained) (congrArg Core.rest core₂))

theorem zeroPage_course (below : va < maxva) (aligned : va % 4096 = 0) :
    wp (zeroPage b t va) (fun _ m' => Course b lent (Act.Serving t) m₀ m') (fun _ => True) m := by
  unfold zeroPage
  rw [wp_bind, wp_read, wp_bind, wp_modifyProc]
  have keyed : ∀ i ∈ (pgmetaAlloc m.proc.pgmeta va).2, (keys (pgmetaAlloc m.proc.pgmeta va).1)[i]? = some va :=
    fun _ made => keys_alloc made
  apply wp_seq (kallocOrEvict_course (fun _ => Act.Plain.serving) (so.note below aligned))
  rintro r m₁ ⟨so₁, obtained, given⟩
  cases r with
  | none => exact so₁
  | some pa =>
    simp only
    rw [wp_bind, wp_memset]
    have filled : Course b lent (Act.Serving t) m₀ (m₁.fill pa fun _ => 0) :=
      so₁.of_core (fun _ => Act.Plain.serving) rfl (.refl m₁)
    apply wp_seq (mapOrFree_settles filled framed _ (given pa rfl))
    rintro ok m₂ ⟨so₂, rest, settled⟩
    cases ok with
    | false => exact so₂
    | true =>
      exact wp_seq (recordResident_course _ _ (settled rfl) (keyed_of_rest (keyed_obtained keyed obtained) rest) so₂)
        fun _ _ done => done

theorem vmfault_course (va : Nat) (acc : Access) :
    wp (vmfault b t va acc) (fun _ m' => Course b lent (Act.Serving t) m₀ m') (fun _ => True) m := by
  unfold vmfault
  split_ifs with high
  · exact so
  · have aligned : pgrounddown va % 4096 = 0 := Nat.mul_mod_left _ _
    have below : pgrounddown va < maxva := by
      unfold pgrounddown
      omega
    rw [wp_bind, wp_read, wp_bind, wp_read]
    cases mapped : (m.table t).leaf (pgrounddown va) with
    | some leaf => exact upgrade_course acc below aligned mapped so
    | none =>
      cases m.proc.segOf (pgrounddown va) with
      | some seg =>
        cases m.proc.execip with
        | none => exact so
        | some execip =>
          cases found : pgmetaFind m.proc.pgmeta (pgrounddown va) with
          | none => exact loadPage_course so framed seg execip none acc aligned (by simp)
          | some midx =>
            have keyed : ∀ i ∈ some midx, (keys m.proc.pgmeta)[i]? = some (pgrounddown va) := by
              rintro i ⟨⟩
              exact keys_find found
            simp only
            split_ifs
            · exact swapIn_course so framed seg midx keyed
            · exact loadPage_course so framed seg execip (some midx) acc aligned keyed
      | none =>
        simp only
        split_ifs
        · exact zeroPage_course so framed below aligned
        · exact so

end Serving

end SystemsSuite.Paging
