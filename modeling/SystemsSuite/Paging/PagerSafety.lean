import SystemsSuite.Paging.ImageCourses

set_option autoImplicit false

namespace SystemsSuite.Paging

open Lib Prog

variable {b : Build} {lent : Nat → Prop} {allowed : Act → Prop} {m₀ m m' : Machine} {t : Target} {va : Nat}

theorem mem_victim {e : PageMeta} (member : e ∈ (m.victim b).2) : ∃ old ∈ m.proc.pgmeta, old.entry = e.entry := by
  have entry := List.mem_map_of_mem (f := PageMeta.entry) member
  rw [entries_victim] at entry
  exact List.mem_map.mp entry

theorem mem_metaAt {metas : List PageMeta} {i : Nat} (made : metaAt metas i ≠ .cleared) :
    metaAt metas i ∈ metas := by
  unfold metaAt at *
  rw [List.getD_eq_getElem?_getD] at *
  cases here : metas[i]? with
  | none => simp [here] at made
  | some e => exact List.mem_iff_getElem?.mpr ⟨i, here⟩

theorem Machine.victim_entry {best : Nat} (picked : (m.victim b).1 = some best) :
    ∃ e ∈ m.proc.pgmeta, e.va = (metaAt (m.victim b).2 best).va ∧ e.resident = true ∧ e.va ≠ 0 := by
  obtain ⟨resident, other⟩ := selectVictim_evictable picked
  have made : metaAt (m.victim b).2 best ≠ .cleared := by
    intro none
    exact other (congrArg PageMeta.va none)
  obtain ⟨e, member, same⟩ := mem_victim (mem_metaAt made)
  have key : e.va = (metaAt (m.victim b).2 best).va := congrArg Entry.va same
  refine ⟨e, member, key, ?_, ?_⟩
  · exact (congrArg Entry.resident same).trans resident
  · rw [key]
    exact other

theorem mem_modifyMeta {metas : List PageMeta} {i : Nat} {f : PageMeta → PageMeta} {e : PageMeta}
    (member : e ∈ metas.modify i f) :
    e ∈ metas ∨ ∃ old, metas[i]? = some old ∧ old ∈ metas ∧ e = f old := by
  obtain ⟨j, here⟩ := List.mem_iff_getElem?.mp member
  rw [List.getElem?_modify] at here
  cases found : metas[j]? with
  | none => simp [found] at here
  | some old =>
    have before := List.mem_iff_getElem?.mpr ⟨j, found⟩
    by_cases hit : i = j
    · subst hit
      simp only [found, if_true, Option.map_eq_map, Option.map_some, Option.some.injEq] at here
      exact .inr ⟨old, found, before, here.symm⟩
    · simp only [found, hit, if_false, Option.map_eq_map, Option.map_some, Option.some.injEq] at here
      subst here
      exact .inl before

-- An entry after an eviction: it is about the same page, becomes resident in no case, and can be in swap only if
-- it was or if there is a swap file.
structure Lasting (file : Option Inode) (old e : PageMeta) : Prop where
  va : e.va = old.va
  resident : e.resident = true → old.resident = true
  inSwap : e.inSwap = true → old.inSwap = true ∨ file.isSome = true

theorem Lasting.of_entry {file : Option Inode} {old e : PageMeta} (same : old.entry = e.entry) :
    Lasting file old e := by
  have va : old.va = e.va := congrArg Entry.va same
  have resident : old.resident = e.resident := congrArg Entry.resident same
  have inSwap : old.inSwap = e.inSwap := congrArg Entry.inSwap same
  refine ⟨va.symm, fun here => ?_, fun here => .inl ?_⟩
  · rwa [resident]
  · rwa [inSwap]

theorem Lasting.trans {file : Option Inode} {old mid e : PageMeta} (first : Lasting file old mid)
    (rest : Lasting file mid e) : Lasting file old e := by
  refine ⟨rest.va.trans first.va, fun here => first.resident (rest.resident here), fun here => ?_⟩
  rcases rest.inSwap here with before | file
  · exact first.inSwap before
  · exact .inr file

theorem Lasting.modify {file : Option Inode} {metas : List PageMeta} {i : Nat} {f : PageMeta → PageMeta}
    {e : PageMeta} (member : e ∈ metas.modify i f) (keeps : ∀ old, Lasting file old (f old)) :
    ∃ old ∈ metas, Lasting file old e := by
  rcases mem_modifyMeta member with before | ⟨old, _, before, rfl⟩
  · exact ⟨e, before, .of_entry rfl⟩
  · exact ⟨old, before, keeps old⟩

theorem Evicted.lasting {ok : Bool} {e : PageMeta} (evicted : Evicted b m ok m')
    (member : e ∈ m'.proc.pgmeta) : e = .cleared ∨ ∃ old ∈ m.proc.pgmeta, Lasting m.proc.swapip old e := by
  have chosen {e : PageMeta} (member : e ∈ (m.victim b).2) : ∃ old ∈ m.proc.pgmeta, Lasting m.proc.swapip old e := by
    obtain ⟨old, before, same⟩ := mem_victim member
    exact ⟨old, before, .of_entry same⟩
  have follow {e mid : PageMeta} (member : mid ∈ (m.victim b).2) (rest : Lasting m.proc.swapip mid e) :
      ∃ old ∈ m.proc.pgmeta, Lasting m.proc.swapip old e := by
    obtain ⟨old, before, first⟩ := chosen member
    exact ⟨old, before, first.trans rest⟩
  cases evicted with
  | noVictim => exact .inr (chosen member)
  | stale best =>
    rcases List.mem_or_eq_of_mem_set member with before | same
    · exact .inr (chosen before)
    · exact .inl same
  | unsaved best leaf _ _ _ failed =>
    have same : m'.proc.pgmeta = (m.victim b).2 := by
      cases failed <;> rfl
    rw [same] at member
    exact .inr (chosen member)
  | discarded best leaf =>
    obtain ⟨mid, before, rest⟩ := Lasting.modify member fun _ => ⟨rfl, by simp, .inl⟩
    exact .inr (follow before rest)
  | saved best leaf m₁ _ _ _ saved =>
    cases saved with
    | saved ip ip' slot bitmap file =>
      have some_ : m.proc.swapip.isSome = true := by
        change m.proc.swapip = some ip at file
        rw [file]
        rfl
      obtain ⟨mid, before, rest⟩ := Lasting.modify member fun _ => ⟨rfl, by simp, .inl⟩
      obtain ⟨mid', before', rest'⟩ := Lasting.modify before fun _ => ⟨rfl, id, fun _ => .inr some_⟩
      exact .inr (follow before' (rest'.trans rest))

theorem Evicted.swapip {ok : Bool} (evicted : Evicted b m ok m') (file : m.proc.swapip.isSome = true) :
    m'.proc.swapip.isSome = true := by
  cases evicted with
  | noVictim => exact file
  | stale => exact file
  | unsaved _ _ _ _ _ failed =>
    cases failed with
    | noFile => exact file
    | full => exact file
    | short => rfl
  | discarded => exact file
  | saved _ _ _ _ _ _ saved =>
    cases saved
    rfl

theorem Evicted.leaf {ok : Bool} {leaf : Leaf} (evicted : Evicted b m ok m') (below : va < maxva)
    (here : m'.proc.pagetable.leaf va = some leaf) : m.proc.pagetable.leaf va = some leaf := by
  have dropped (m₁ : Machine) {best page pa : Nat} {leaf' : Leaf} (table : m₁.proc.pagetable = m.proc.pagetable)
      (below' : page < maxva) (mapped : m.proc.pagetable.leaf page = some leaf')
      (here : (m₁.dropped best page pa).proc.pagetable.leaf va = some leaf) :
      m.proc.pagetable.leaf va = some leaf := by
    have reached : (m.proc.pagetable.walk page).isSome = true := by
      rw [PageTable.walk, Radix.find_of_value mapped]
      rfl
    change (m₁.proc.pagetable.store page .empty).leaf va = some leaf at here
    rw [table, PageTable.leaf_store _ .empty below' below reached] at here
    split_ifs at here
    · contradiction
    · exact here
  cases evicted with
  | noVictim => exact here
  | stale => exact here
  | unsaved _ _ _ _ _ failed => cases failed <;> exact here
  | discarded best _ _ below' mapped => exact dropped (m.chosen b) rfl below' mapped here
  | saved best _ m₁ _ below' mapped saved => exact dropped m₁ saved.table below' mapped here

-- The pages of a table are frames, the two special ones apart.
def PageTable.Safe (b : Build) (pt : PageTable) : Prop :=
  ∀ va leaf, va < maxva → pt.leaf va = some leaf → b.isFrame leaf.pa = true ∨ special (va / 4096) = true

structure Proc.Safe (b : Build) (p : Proc) : Prop where
  leaves : p.pagetable.Safe b
  entries : ∀ e ∈ p.pgmeta, e.va < maxva ∧ e.va % 4096 = 0
  saved : ∀ e ∈ p.pgmeta, e.inSwap = true → p.swapip.isSome = true
  resident : ∀ e ∈ p.pgmeta, e.resident = true → ∀ leaf, p.pagetable.leaf e.va = some leaf →
    b.isFrame leaf.pa = true

structure Machine.Safe (b : Build) (m : Machine) : Prop where
  free : ∀ f ∈ m.freelist, b.isFrame f = true
  proc : m.proc.Safe b
  spare : m.spare.Safe b

theorem Machine.Safe.table (safe : m.Safe b) (t : Target) : (m.table t).Safe b := by
  cases t with
  | own => exact safe.proc.leaves
  | spare => exact safe.spare

theorem PageMeta.cleared_placed : PageMeta.cleared.va < maxva ∧ PageMeta.cleared.va % 4096 = 0 :=
  ⟨by decide, rfl⟩

theorem pgmetaAlloc_mem {metas : List PageMeta} {e : PageMeta} (member : e ∈ (pgmetaAlloc metas va).1) :
    e ∈ metas ∨ e = { PageMeta.cleared with va := va } := by
  unfold pgmetaAlloc at member
  split at member
  · exact .inl member
  · split at member
    · exact List.mem_or_eq_of_mem_set member
    · exact .inl member

theorem Remapped.safe (step : Remapped b (fun f => b.isFrame f = true) m m') (safe : m.Safe b) : m'.Safe b := by
  have metas : m'.proc.pgmeta = m.proc.pgmeta := congrArg Pager.pgmeta step.pager
  have file : m'.proc.swapip = m.proc.swapip := congrArg Pager.swapip step.pager
  have tables (t : Target) : (m'.table t).Safe b := by
    intro va leaf below here
    rcases step.leaves t va leaf below here with ⟨old, before, same⟩ | frame | page
    · rw [← same]
      exact safe.table t va old below before
    · exact .inl frame
    · exact .inr page.2
  refine ⟨fun f member => ?_, ⟨tables .own, ?_, ?_, ?_⟩, tables .spare⟩
  · rcases step.frees f member with free | frame
    · exact safe.free f free
    · exact frame
  · rw [metas]
    exact safe.proc.entries
  · rw [metas, file]
    exact safe.proc.saved
  · rw [metas]
    intro e member resident leaf here
    rcases step.leaves .own e.va leaf (safe.proc.entries e member).1 here with ⟨old, before, same⟩ | frame | page
    · rw [← same]
      exact safe.proc.resident e member resident old before
    · exact frame
    · exact absurd page.1 (by simp)

theorem Evicted.safe {ok : Bool} (evicted : Evicted b m ok m') (frees : FreesFrames b m m') (safe : m.Safe b) :
    m'.Safe b := by
  refine ⟨fun f member => ?_, ⟨fun va leaf below here => ?_, fun e member => ?_, fun e member inSwap => ?_,
    fun e member resident leaf here => ?_⟩, ?_⟩
  · rcases frees f member with free | frame
    · exact safe.free f free
    · exact frame
  · exact safe.proc.leaves va leaf below (evicted.leaf below here)
  · rcases evicted.lasting member with rfl | ⟨old, before, lasting⟩
    · exact PageMeta.cleared_placed
    · rw [lasting.va]
      exact safe.proc.entries old before
  · rcases evicted.lasting member with rfl | ⟨old, before, lasting⟩
    · contradiction
    · rcases lasting.inSwap inSwap with earlier | file
      · exact evicted.swapip (safe.proc.saved old before earlier)
      · exact evicted.swapip file
  · rcases evicted.lasting member with rfl | ⟨old, before, lasting⟩
    · contradiction
    · rw [lasting.va] at here
      exact safe.proc.resident old before (lasting.resident resident) leaf
        (evicted.leaf (safe.proc.entries old before).1 here)
  · rw [evicted.spare]
    exact safe.spare

theorem Arrived.safe {i : Nat} (arrived : Arrived (fun f => b.isFrame f = true) t va i m m') (safe : m.Safe b) :
    m'.Safe b := by
  obtain ⟨f, entered, metas⟩ := arrived.entries
  have own : m'.proc.pagetable = m.proc.pagetable := arrived.tables .own
  have spare : m'.spare = m.spare := arrived.tables .spare
  have origin {e : PageMeta} (member : e ∈ m'.proc.pgmeta) : ∃ old ∈ m.proc.pgmeta, e.va = old.va ∧
      (e.inSwap = true → old.inSwap = true) ∧ (e.resident = true → old.resident = true ∨ old.va = va) := by
    rw [metas] at member
    rcases mem_modifyMeta member with before | ⟨old, found, before, rfl⟩
    · exact ⟨e, before, rfl, id, .inl⟩
    · refine ⟨old, before, (entered old).va, (entered old).inSwap, fun _ => .inr ?_⟩
      have key := arrived.key
      unfold keys at key
      rw [List.getElem?_map, found] at key
      exact Option.some.inj key
  refine ⟨?_, ⟨?_, fun e member => ?_, fun e member inSwap => ?_, fun e member resident leaf here => ?_⟩, ?_⟩
  · rw [arrived.freelist]
    exact safe.free
  · rw [own]
    exact safe.proc.leaves
  · obtain ⟨old, before, same, _⟩ := origin member
    rw [same]
    exact safe.proc.entries old before
  · obtain ⟨old, before, _, earlier, _⟩ := origin member
    rw [arrived.swapip]
    exact safe.proc.saved old before (earlier inSwap)
  · obtain ⟨old, before, same, _, from_⟩ := origin member
    rw [own, same] at here
    rcases from_ resident with earlier | key
    · exact safe.proc.resident old before earlier leaf here
    · rw [key] at here
      cases t with
      | own =>
        obtain ⟨mapped, there, frame⟩ := arrived.mapped
        have same : leaf = mapped := Option.some.inj (here.symm.trans there)
        rwa [same]
      | spare =>
        refine (safe.proc.leaves va leaf arrived.below here).resolve_right ?_
        rw [arrived.user rfl]
        simp
  · rw [spare]
    exact safe.spare

theorem cleared_safe {p : Proc} (metas : p.pgmeta = List.replicate pgmetaSize .cleared)
    (leaves : p.pagetable.Safe b) : p.Safe b := by
  have cleared {e : PageMeta} (member : e ∈ p.pgmeta) : e = .cleared := by
    rw [metas] at member
    exact List.eq_of_mem_replicate member
  refine ⟨leaves, fun e member => ?_, fun e member inSwap => ?_, fun e member resident => ?_⟩
  · rw [cleared member]
    exact PageMeta.cleared_placed
  · rw [cleared member] at inSwap
    contradiction
  · rw [cleared member] at resident
    contradiction

theorem Renewed.safe (renewed : Renewed b m m') (safe : m.Safe b) : m'.Safe b := by
  refine ⟨fun f member => ?_, cleared_safe renewed.pgmeta fun va leaf below here => ?_, fun va leaf below here => ?_⟩
  · rcases renewed.frees f member with free | frame
    · exact safe.free f free
    · exact frame
  · rw [renewed.own va below] at here
    exact safe.spare va leaf below here
  · rw [renewed.spare va below] at here
    contradiction

theorem Move.safe {a : Act} (move : Move b (fun f => b.isFrame f = true) m a m') (safe : m.Safe b) :
    m'.Safe b := by
  cases move with
  | memory _ step => exact step.safe safe
  | unmap _ _ step => exact step.safe safe
  | note va below aligned =>
    refine ⟨safe.free, ⟨safe.proc.leaves, fun e member => ?_, fun e member inSwap => ?_,
      fun e member resident => ?_⟩, safe.spare⟩
    · rcases pgmetaAlloc_mem member with before | rfl
      · exact safe.proc.entries e before
      · exact ⟨below, aligned⟩
    · rcases pgmetaAlloc_mem member with before | rfl
      · exact safe.proc.saved e before inSwap
      · contradiction
    · rcases pgmetaAlloc_mem member with before | rfl
      · exact safe.proc.resident e before resident
      · contradiction
  | touch i =>
    refine ⟨safe.free, ⟨safe.proc.leaves, fun e member => ?_, fun e member inSwap => ?_,
      fun e member resident => ?_⟩, safe.spare⟩
    · rcases mem_modifyMeta member with before | ⟨old, _, before, rfl⟩
      · exact safe.proc.entries e before
      · exact safe.proc.entries old before
    · rcases mem_modifyMeta member with before | ⟨old, _, before, rfl⟩
      · exact safe.proc.saved e before inSwap
      · exact safe.proc.saved old before inSwap
    · rcases mem_modifyMeta member with before | ⟨old, _, before, rfl⟩
      · exact safe.proc.resident e before resident
      · exact safe.proc.resident old before resident
  | evict _ _ evicted frees => exact evicted.safe frees safe
  | arrive _ _ _ _ arrived => exact arrived.safe safe
  | untracked => exact ⟨safe.free, ⟨safe.proc.leaves, safe.proc.entries, safe.proc.saved, safe.proc.resident⟩,
      safe.spare⟩
  | exec _ renewed => exact renewed.safe safe

theorem Course.safe (so : Course b (fun f => b.isFrame f = true) allowed m₀ m) (safe : m₀.Safe b) : m.Safe b :=
  so.invariant safe fun _ _ _ _ before move => move.safe before

theorem Machine.Safe.gives (safe : m.Safe b) : m.Gives b fun f => b.isFrame f = true := by
  intro f given
  rcases given with free | frame
  · exact safe.free f free
  · exact frame

theorem Machine.Safe.start (safe : m.Safe b) : Course b (fun f => b.isFrame f = true) allowed m m :=
  .refl safe.gives

end SystemsSuite.Paging
