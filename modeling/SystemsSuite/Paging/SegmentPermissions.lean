import SystemsSuite.Paging.LineageBooks

set_option autoImplicit false

namespace SystemsSuite.Paging

open Lib Prog

variable {b : Build} {m : Machine}

-- No permission to write or execute that the segment lacks.
def Flags.Within (flags : Flags) (seg : Seg) : Prop :=
  (flags.w = true → seg.permW = true) ∧ (flags.x = true → seg.permX = true)

instance (flags : Flags) (seg : Seg) : Decidable (flags.Within seg) :=
  inferInstanceAs (Decidable (_ ∧ _))

theorem Flags.Within.none {seg : Seg} : Flags.none.Within seg := ⟨nofun, nofun⟩

theorem Proc.segOf_covers {p : Proc} {vaPg : Nat} {seg : Seg} (region : p.segOf vaPg = some seg) :
    seg ∈ p.activeSegs ∧ seg.covers vaPg = true :=
  ⟨List.mem_of_find?_eq_some region, List.find?_some (p := fun s : Seg => s.covers vaPg) region⟩

theorem Proc.stop_le_progEnd {p : Proc} {seg : Seg} (member : seg ∈ p.activeSegs) :
    seg.stop ≤ p.progEnd := by
  have bounds (stops : List Nat) : ∀ start, (start ≤ stops.foldl max start) ∧
      ∀ stop ∈ stops, stop ≤ stops.foldl max start := by
    induction stops with
    | nil => exact fun start => ⟨le_rfl, by simp⟩
    | cons head rest ih =>
      intro start
      have later := ih (max start head)
      refine ⟨(le_max_left _ _).trans later.1, fun stop found => ?_⟩
      rcases List.mem_cons.mp found with rfl | inRest
      · exact (le_max_right _ _).trans later.1
      · exact later.2 stop inRest
  exact (bounds _ 0).2 _ (List.mem_map_of_mem member)

-- A page of a segment is never a heap page.
theorem Proc.isHeap_of_covers {p : Proc} {vaPg : Nat} {seg : Seg} (member : seg ∈ p.activeSegs)
    (covers : seg.covers vaPg = true) : p.isHeap vaPg = false := by
  have inside := of_decide_eq_true covers
  have high := p.stop_le_progEnd member
  simp only [isHeap, decide_eq_false_iff_not]
  omega

theorem Proc.segOf_none {p : Proc} {vaPg : Nat} (region : p.segOf vaPg = none) {seg : Seg}
    (member : seg ∈ p.activeSegs) : seg.covers vaPg = false :=
  Bool.eq_false_iff.mpr (List.find?_eq_none.mp region seg member)

def Proc.Recorded (p : Proc) (vaPg : Nat) (seg : Seg) : Prop :=
  seg ∈ p.activeSegs ∧ seg.covers vaPg = true

theorem Kin.recorded {p q : Proc} (kin : Kin p q) (vaPg : Nat) (seg : Seg) :
    q.Recorded vaPg seg ↔ p.Recorded vaPg seg := by
  obtain ⟨k, segs⟩ := kin.segs
  unfold Proc.Recorded
  rw [segs, List.mem_append]
  constructor
  · rintro ⟨member | padding, covers⟩
    · exact ⟨member, covers⟩
    · rw [List.eq_of_mem_replicate padding, noSeg_covers] at covers
      contradiction
  · rintro ⟨member, covers⟩
    exact ⟨.inl member, covers⟩

-- Every PTE, and every permission kept for a page that is swapped out, is within each segment of the page.
structure Books.Permitted (v : Books) : Prop where
  pages : ∀ vpn flags seg, v.pte vpn = some flags → v.image.Recorded (vpn * 4096) seg →
    flags.Within seg
  entries : ∀ e ∈ v.entries, ∀ seg, v.image.Recorded e.va seg → e.perm.Within seg
  frames : ∀ vpn flags, framePtes vpn = some flags → ∀ seg, ¬ v.image.Recorded (vpn * 4096) seg

namespace Books.Permitted

variable {v v' : Books}

theorem evict {ok : Bool} (permitted : v.Permitted) (evict : v.Evict ok v') : v'.Permitted := by
  have image := evict.image
  refine ⟨fun vpn flags seg here => ?_, ?_, ?_⟩
  · rw [image]
    exact permitted.pages vpn flags seg (evict.removes here)
  · rw [image]
    intro e member
    rcases evict.mem member with rfl | ⟨old, before, va, perm, _⟩
    · exact fun _ _ => .none
    · rw [va, perm]
      exact permitted.entries old before
  · rw [image]
    exact permitted.frames

theorem obtain_ {ok : Bool} (permitted : v.Permitted) (obtained : v.Obtain ok v') : v'.Permitted := by
  cases obtained with
  | free => exact permitted
  | evicted _ _ evict => exact permitted.evict evict
  | failed _ evict => exact permitted.evict evict

theorem noted (permitted : v.Permitted) (va : Nat) : (v.noted va).Permitted := by
  have image : (v.noted va).image = v.image := by rw [noted_eq]
  refine ⟨?_, ?_, ?_⟩
  · rw [noted_pte, image]
    exact permitted.pages
  · rw [image]
    intro e member
    rcases mem_noted member with old | rfl
    · exact permitted.entries e old
    · exact fun _ _ => .none
  · rw [image]
    exact permitted.frames

theorem mapped (permitted : v.Permitted) {va : Nat} {flags : Flags} (aligned : va % 4096 = 0)
    (allowed : ∀ seg, v.image.Recorded va seg → flags.Within seg) :
    (v.mapped .own va flags).Permitted := by
  refine ⟨fun vpn flags' seg here region => ?_, permitted.entries, permitted.frames⟩
  change Function.update v.pte (va / 4096) (some flags) vpn = some flags' at here
  by_cases same : vpn = va / 4096
  · subst same
    rw [Function.update_self] at here
    obtain rfl := Option.some.inj here
    rw [Nat.div_mul_cancel (Nat.dvd_of_mod_eq_zero aligned)] at region
    exact allowed seg region
  · rw [Function.update_of_ne same] at here
    exact permitted.pages vpn flags' seg here region

theorem madeResident (permitted : v.Permitted) {va : Nat} {flags : Flags}
    (allowed : ∀ seg, v.image.Recorded va seg → flags.Within seg) :
    (v.madeResident va flags).Permitted := by
  have image : (v.madeResident va flags).image = v.image := by rw [madeResident_eq]
  have pte : (v.madeResident va flags).pte = v.pte := by rw [madeResident_eq]
  refine ⟨?_, ?_, ?_⟩
  · rw [pte, image]
    exact permitted.pages
  · rw [image]
    intro e member
    rcases mem_madeResident member with old | ⟨old, _, rfl, rfl⟩
    · exact permitted.entries e old
    · exact allowed
  · rw [image]
    exact permitted.frames

theorem installed (permitted : v.Permitted) {va : Nat} {flags : Flags} (aligned : va % 4096 = 0)
    (allowed : ∀ seg, v.image.Recorded va seg → flags.Within seg) :
    (v.installed .own va flags).Permitted := by
  have image : ((v.mapped .own va flags).noted va).image = v.image := by
    rw [noted_eq]
    rfl
  apply ((permitted.mapped aligned allowed).noted va).madeResident
  rw [image]
  exact allowed

end Books.Permitted

-- A store to a mapped page that its segment protects and the stack pointer claims.
def Machine.StackWrite (m : Machine) (va : Nat) (acc : Access) : Prop :=
  va < maxva ∧ acc = .write ∧ m.proc.isStack (pgrounddown va) = true ∧
    (∃ leaf ∈ m.proc.pagetable.leaf va, leaf.flags.w = false) ∧
    ∃ seg ∈ m.proc.segOf (pgrounddown va), seg.permW = false

instance (m : Machine) (va : Nat) (acc : Access) : Decidable (m.StackWrite va acc) :=
  inferInstanceAs (Decidable (_ ∧ _))

-- The first recorded segment of the page, whose permissions count, has one that another lacks.
def Machine.Overlaid (m : Machine) (va : Nat) : Prop :=
  ∃ first ∈ m.proc.segOf (pgrounddown va), ∃ seg ∈ m.proc.activeSegs,
    seg.covers (pgrounddown va) = true ∧ ¬ first.flags.Within seg

instance (m : Machine) (va : Nat) : Decidable (m.Overlaid va) :=
  inferInstanceAs (Decidable (∃ _ ∈ _, _))

namespace Books.Permitted

variable {v v' : Books}

theorem fault {va : Nat} {acc : Access} {ok : Bool} (permitted : m.books.Permitted)
    (protects : ¬ m.StackWrite va acc) (layered : ¬ m.Overlaid va)
    (faulted : m.books.Faulted (pgrounddown va) acc ok v') : v'.Permitted := by
  have aligned : pgrounddown va % 4096 = 0 := Nat.mul_mod_left _ _
  have back : pgrounddown va / 4096 * 4096 = pgrounddown va :=
    Nat.div_mul_cancel (Nat.dvd_of_mod_eq_zero aligned)
  have first_within {first : Seg} (region : m.proc.segOf (pgrounddown va) = some first) (seg : Seg)
      (recorded : m.books.image.Recorded (pgrounddown va) seg) : first.flags.Within seg := by
    by_contra more
    exact layered ⟨first, region, seg, recorded.1, recorded.2, more⟩
  cases faulted with
  | refused => exact permitted
  | widened flags here write noWrite allowed =>
    refine (permitted.mapped aligned fun seg recorded => ?_).noted _
    have old := permitted.pages _ flags seg here (by rw [back]; exact recorded)
    refine ⟨fun _ => ?_, old.2⟩
    obtain ⟨first, region⟩ : ∃ first, m.proc.segOf (pgrounddown va) = some first := by
      apply Option.ne_none_iff_exists'.mp
      intro none_
      exact Bool.false_ne_true ((Proc.segOf_none none_ recorded.1).symm.trans recorded.2)
    apply (first_within region seg recorded).1
    by_contra noPerm
    have noPerm : first.permW = false := Bool.eq_false_iff.mpr noPerm
    obtain ⟨low, leaf, mapped, rfl⟩ := PageTable.leaf_of_ptes here
    have below : va < maxva := by
      unfold pgrounddown maxva at *
      omega
    have samePage : m.proc.pagetable.leaf va = some leaf := by
      rw [← mapped]
      apply PageTable.leaf_page
      unfold pgrounddown
      omega
    have stack : m.books.image.isStack (pgrounddown va) = true := by
      have noHeap := Proc.isHeap_of_covers recorded.1 recorded.2
      have region' : m.books.image.segOf (pgrounddown va) = some first := region
      simpa [Books.allowsWrite, noHeap, region', noPerm] using allowed
    exact protects ⟨below, write, stack, ⟨leaf, samePage, noWrite⟩, first, region, noPerm⟩
  | madeExec flags first here _ region exec =>
    refine permitted.mapped aligned fun seg recorded => ?_
    have old := permitted.pages _ flags seg here (by rw [back]; exact recorded)
    exact ⟨old.1, fun _ => (first_within region seg recorded).2 exec⟩
  | starved _ _ obtained => exact permitted.obtain_ obtained
  | zeroStarved _ _ _ obtained => exact (permitted.noted _).obtain_ obtained
  | swappedIn first i v₁ absent region found inSwap obtained =>
    have permitted₁ := permitted.obtain_ obtained
    obtain ⟨e, here, key⟩ := Books.find_spec ((obtained.find _).trans found)
    have entry : v₁.entryAt i = e := by
      unfold Books.entryAt
      rw [List.getD_eq_getElem?_getD, here]
      rfl
    have allowed (seg : Seg) (recorded : v₁.image.Recorded (pgrounddown va) seg) :
        (Books.swapPerm (v₁.entryAt i) first).Within seg := by
      unfold Books.swapPerm
      split_ifs
      · rw [obtained.image] at recorded
        exact first_within region seg recorded
      · rw [entry]
        refine permitted₁.entries e (List.mem_iff_getElem?.mpr ⟨i, here⟩) seg ?_
        rwa [key]
    have mapped := permitted₁.mapped aligned allowed
    refine ⟨mapped.pages, fun e member => ?_, mapped.frames⟩
    rcases Books.mem_modify (v := v₁) member with old | ⟨old, before, _, rfl⟩
    · exact permitted₁.entries e old
    · exact permitted₁.entries old before
  | loaded first v₁ absent region _ obtained =>
    refine (permitted.obtain_ obtained).installed aligned fun seg recorded => ?_
    rw [obtained.image] at recorded
    exact first_within region seg recorded
  | zeroed v₁ absent region _ obtained =>
    refine ((permitted.noted _).obtain_ obtained).installed aligned fun seg recorded => ?_
    rw [obtained.image, Books.noted_eq] at recorded
    exact absurd ((Proc.segOf_none region recorded.1).symm.trans recorded.2) Bool.false_ne_true

theorem born {im : Proc} (permitted : v.Permitted) (kin : Kin v.image im) (born : v.Born im v') :
    v'.Permitted := by
  have frames (vpn : Nat) (flags : Flags) (here : framePtes vpn = some flags) (seg : Seg) :
      ¬ im.Recorded (vpn * 4096) seg := by
    rw [kin.recorded]
    exact permitted.frames vpn flags here seg
  induction born with
  | blank =>
    refine ⟨fun vpn flags seg here recorded => ?_, fun e member => ?_, frames⟩
    · exact absurd recorded (frames vpn flags here seg)
    · rw [List.eq_of_mem_replicate member]
      exact fun _ _ => .none
  | copied w i flags born aligned here absent ih =>
    refine ih.installed aligned fun seg recorded => ?_
    rw [born.rest.2.2.2, kin.recorded] at recorded
    refine permitted.pages _ flags seg here ?_
    rwa [Nat.div_mul_cancel (Nat.dvd_of_mod_eq_zero aligned)]

theorem fresh (fresh : v.Fresh) (placed : ∀ seg ∈ v.image.activeSegs, seg.stop ≤ v.image.heapBrk) :
    v.Permitted := by
  have high {vpn : Nat} {seg : Seg} (recorded : v.image.Recorded (vpn * 4096) seg) :
      vpn * 4096 < v.image.heapBrk :=
    lt_of_lt_of_le (of_decide_eq_true recorded.2).2 (placed seg recorded.1)
  have frames (vpn : Nat) (flags : Flags) (here : framePtes vpn = some flags) (seg : Seg) :
      ¬ v.image.Recorded (vpn * 4096) seg := by
    intro recorded
    have low := high recorded
    have size := fresh.size
    have below := fresh.below
    have frameless : vpn < trapframeVa / 4096 := by
      unfold trapframeVa trampolineVa maxva at *
      omega
    rw [framePtes_below frameless] at here
    contradiction
  refine ⟨fun vpn flags seg here recorded => ?_, fun e member => ?_, frames⟩
  · have low := high recorded
    have aligned := fresh.aligned
    rw [fresh.pte] at here
    unfold stackPtes at here
    rw [Function.update_of_ne (by omega), Function.update_of_ne (by omega)] at here
    exact absurd recorded (frames vpn flags here seg)
  · rw [fresh.entries] at member
    rw [List.eq_of_mem_replicate member]
    exact fun _ _ => .none

end Books.Permitted

-- Only user accesses, faults, evictions and forks, and no fault that gives a page more than its
-- segments allow.
def Machine.KeepsPermissions (m : Machine) : Event → Prop
  | .fault va acc => ¬ m.StackWrite va acc ∧ ¬ m.Overlaid va
  | .sbrk _ _ => False
  | .exec _ _ _ => False
  | _ => True

instance (m : Machine) : (e : Event) → Decidable (m.KeepsPermissions e)
  | .fault _ _ => inferInstanceAs (Decidable (¬ _ ∧ ¬ _))
  | .sbrk _ _ | .exec _ _ _ => inferInstanceAs (Decidable False)
  | .other _ _ _ | .setSp _ | .evict | .fork _ _ => inferInstanceAs (Decidable True)

theorem segment_permissions {m₀ : Machine} (execed : m₀.Execed b)
    (placed : ∀ seg ∈ m₀.proc.activeSegs, seg.stop ≤ m₀.proc.heapBrk)
    (reached : (m₀.lineage b).ReachableVia Machine.KeepsPermissions m) {va : Nat} (below : va < maxva)
    {leaf : Leaf} {seg : Seg} (mapped : m.proc.pagetable.leaf va = some leaf)
    (member : seg ∈ m.proc.activeSegs) (covers : seg.covers (pgrounddown va) = true) :
    (leaf.flags.w = true → seg.permW = true) ∧ (leaf.flags.x = true → seg.permX = true) := by
  have permitted : m.books.Permitted := by
    refine Machine.lineage_invariant execed.fresh (.fresh execed.fresh placed) ?_ reached
    intro m m' e permitted keeps _ happens
    generalize m'.books = v' at happens
    cases happens with
    | other => exact permitted
    | setSp sp => exact ⟨permitted.pages, permitted.entries, permitted.frames⟩
    | fault va acc ok _ faulted => exact permitted.fault keeps.1 keeps.2 faulted
    | evict ok _ evict => exact permitted.evict evict
    | parent created follow _ evictions =>
      exact evictions.preserves (fun _ _ _ kept evict => kept.evict evict)
        (fun _ _ kept => ⟨kept.pages, kept.entries, kept.frames⟩) permitted
    | child created _ born kin => exact permitted.born kin born
    | sbrk => exact keeps.elim
    | execed => exact keeps.elim
    | execFailed => exact keeps.elim
  refine permitted.pages (va / 4096) leaf.flags seg ?_ ⟨member, covers⟩
  have here := PageTable.ptes_leaf m.proc.pagetable below
  rw [mapped] at here
  exact here

def reloaded : List Event := [.fault 0x1000 .read, .evict, .fault 0x1000 .exec, .fork (some 10) true]

theorem segment_permissions_reloaded : ∃ m₀ m : Machine, m₀.Execed .small ∧
    (m₀.lineage .small).ReachableVia Machine.KeepsPermissions m ∧
    ∃ leaf seg, m.proc.pagetable.leaf 0x1000 = some leaf ∧ seg ∈ m.proc.activeSegs ∧
      (leaf.flags.w = true → seg.permW = true) ∧ (leaf.flags.x = true → seg.permX = true) := by
  obtain ⟨m₀, m, execed, reached, shown⟩ := Machine.run_shows (b := .small) 40 (oneSegment 5)
    shortArgv reloaded (fun m e => decide (m.KeepsPermissions e))
    (fun m₀ m => decide ((∀ seg ∈ m₀.proc.activeSegs, seg.stop ≤ m₀.proc.heapBrk) ∧
      ∃ leaf ∈ m.proc.pagetable.leaf 0x1000, ∃ seg ∈ m.proc.activeSegs, seg.covers 0x1000 = true))
    (fun m e => of_decide_eq_true) (by decide +kernel)
  obtain ⟨placed, leaf, mapped, seg, member, covers⟩ := of_decide_eq_true shown
  exact ⟨m₀, m, execed, reached, leaf, seg, mapped, member,
    segment_permissions execed placed reached (by decide) mapped member covers⟩

-- With the stack pointer just above it, the text page becomes writable.
theorem text_page_widened : ∃ m₀ m : Machine, m₀.Execed .small ∧
    (m₀.lineage .small).ReachableVia (fun _ e => e.resizes = false) m ∧
    ∃ leaf seg, m.proc.pagetable.leaf 0x1000 = some leaf ∧ seg ∈ m.proc.activeSegs ∧
      seg.covers 0x1000 = true ∧ leaf.flags.w = true ∧ seg.permW = false := by
  obtain ⟨m₀, m, execed, reached, shown⟩ := Machine.run_shows (b := .small) 40 (oneSegment 5)
    shortArgv [.fault 0x1000 .read, .setSp 0x2000, .fault 0x1000 .write]
    (fun _ e => !e.resizes)
    (fun _ m => decide (∃ leaf ∈ m.proc.pagetable.leaf 0x1000, ∃ seg ∈ m.proc.activeSegs,
      seg.covers 0x1000 = true ∧ leaf.flags.w = true ∧ seg.permW = false))
    (fun _ e fixed => (Bool.not_eq_true' e.resizes).mp fixed) (by decide +kernel)
  obtain ⟨leaf, mapped, seg, member, rest⟩ := of_decide_eq_true shown
  exact ⟨m₀, m, execed, reached, leaf, seg, mapped, member, rest⟩

end SystemsSuite.Paging
