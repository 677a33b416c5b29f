import SystemsSuite.Paging.FailedEviction
import SystemsSuite.Paging.SegmentPermissions

set_option autoImplicit false

namespace SystemsSuite.Paging

open Lib Prog

-- The byte at `va` of a segment: of the file, and zero behind the part that the file has.
def Seg.byteAt (s : Seg) (ip : Inode) (va : Nat) : UInt8 :=
  if va - s.va < s.filesz then ip.data (s.off + (va - s.va)) else 0

-- The slot of the page, if the entry is about it and the page is in swap.
def PageMeta.slotFor (e : PageMeta) (vaPg : Nat) : Option Nat := if e.va = vaPg then e.entry.held else none

namespace Proc

-- What a page holds that is neither mapped nor in swap.
def backing (p : Proc) (va : Nat) : UInt8 :=
  match p.segOf (pgrounddown va), p.execip with
  | some seg, some ip => seg.byteAt ip va
  | _, _ => 0

def slotOf (p : Proc) (vaPg : Nat) : Option Nat :=
  p.pgmeta.findSome? fun e => e.slotFor vaPg

def slotByte (p : Proc) (slot off : Nat) : UInt8 :=
  match p.swapip with
  | some ip => ip.data (slot * 4096 + off)
  | none => 0

def stored (p : Proc) (va : Nat) : UInt8 :=
  match p.slotOf (pgrounddown va) with
  | some slot => p.slotByte slot (va % 4096)
  | none => p.backing va

end Proc

-- The byte at `va` as the process would read it: from the frame, else from the swap slot, else from the file of
-- the segment, else zero.
def Machine.content (m : Machine) (va : Nat) : UInt8 :=
  match m.proc.pagetable.leaf va with
  | some leaf => m.mem leaf.pa (va % 4096)
  | none => m.proc.stored va

theorem Machine.content_mapped {m : Machine} {va : Nat} {leaf : Leaf} (here : m.proc.pagetable.leaf va = some leaf) :
    m.content va = m.mem leaf.pa (va % 4096) := by
  unfold content
  rw [here]

theorem Machine.content_unmapped {m : Machine} {va : Nat} (unmapped : m.proc.pagetable.leaf va = none) :
    m.content va = m.proc.stored va := by
  unfold content
  rw [unmapped]

section Finding

variable {α β : Type} {g : α → Option β}

theorem findSome?_modify {l : List α} {i : Nat} {f : α → α}
    (same : ∀ a, l[i]? = some a → g (f a) = g a) : (l.modify i f).findSome? g = l.findSome? g := by
  induction l generalizing i with
  | nil => simp
  | cons a rest ih =>
    cases i with
    | zero => simp [List.findSome?_cons, same a rfl]
    | succ i =>
      rw [List.modify_succ_cons, List.findSome?_cons, List.findSome?_cons, ih fun a here => same a here]

theorem findSome?_unique {l : List α} {a : α} {x : β} (member : a ∈ l) (here : g a = some x)
    (only : ∀ a' ∈ l, ∀ x', g a' = some x' → x' = x) : l.findSome? g = some x := by
  cases found : l.findSome? g with
  | none =>
    have absent := List.findSome?_eq_none_iff.mp found a member
    rw [absent] at here
    contradiction
  | some x' =>
    obtain ⟨a', member', here'⟩ := List.exists_of_findSome?_eq_some found
    rw [only a' member' x' here']

end Finding

namespace Proc

variable {p p' : Proc} {vaPg : Nat}

theorem backing_congr (program : p'.program = p.program) : p'.backing = p.backing := by
  have file : p'.execip = p.execip := congrArg Prod.fst program
  have segs : p'.activeSegs = p.activeSegs := congrArg Prod.snd program
  funext va
  unfold backing segOf
  rw [file, segs]

theorem slotOf_entries (p : Proc) (vaPg : Nat) :
    p.slotOf vaPg = (p.pgmeta.map PageMeta.entry).findSome? fun e => if e.va = vaPg then e.held else none := by
  unfold slotOf
  rw [List.findSome?_map]
  rfl

theorem slotOf_congr (entries : p'.pgmeta.map PageMeta.entry = p.pgmeta.map PageMeta.entry) (vaPg : Nat) :
    p'.slotOf vaPg = p.slotOf vaPg := by
  rw [slotOf_entries, slotOf_entries, entries]

theorem slotOf_modify {i : Nat} {f : PageMeta → PageMeta} (metas : p'.pgmeta = p.pgmeta.modify i f)
    (same : ∀ e, p.pgmeta[i]? = some e → (f e).slotFor vaPg = e.slotFor vaPg) :
    p'.slotOf vaPg = p.slotOf vaPg := by
  unfold slotOf
  rw [metas]
  exact findSome?_modify same

theorem slotOf_set {i : Nat} {e' : PageMeta} (metas : p'.pgmeta = p.pgmeta.set i e')
    (unsaved : e'.slotFor vaPg = none) (old : ∀ e, p.pgmeta[i]? = some e → e.slotFor vaPg = none) :
    p'.slotOf vaPg = p.slotOf vaPg := by
  apply slotOf_modify (i := i) (f := fun _ => e')
  · rw [metas, List.set_eq_modify]
  · exact fun e here => unsaved.trans (old e here).symm

theorem slotOf_some {slot : Nat} (found : p.slotOf vaPg = some slot) :
    ∃ e ∈ p.pgmeta, e.va = vaPg ∧ e.inSwap = true ∧ e.slot = slot := by
  obtain ⟨e, member, here⟩ := List.exists_of_findSome?_eq_some found
  obtain ⟨key, held⟩ := Option.ite_none_right_eq_some.mp here
  obtain ⟨inSwap, same⟩ := Option.ite_none_right_eq_some.mp held
  exact ⟨e, member, key, inSwap, Option.some.inj same⟩

theorem slotOf_none (unsaved : ∀ e ∈ p.pgmeta, e.va = vaPg → e.inSwap = false) : p.slotOf vaPg = none := by
  cases found : p.slotOf vaPg with
  | none => rfl
  | some slot =>
    obtain ⟨e, member, key, inSwap, _⟩ := slotOf_some found
    rw [unsaved e member key] at inSwap
    contradiction

theorem slotOf_find {midx : Nat} (found : pgmetaFind p.pgmeta vaPg = some midx)
    (inSwap : (metaAt p.pgmeta midx).inSwap = true) : p.slotOf vaPg = some (metaAt p.pgmeta midx).slot := by
  unfold slotOf
  generalize p.pgmeta = metas at found inSwap
  induction metas generalizing midx with
  | nil => simp [pgmetaFind] at found
  | cons e rest ih =>
    unfold pgmetaFind at found
    rw [List.findIdx?_cons] at found
    rw [List.findSome?_cons]
    by_cases key : e.va = vaPg
    · rw [if_pos (by simpa using key)] at found
      obtain rfl := Option.some.inj found
      have held : e.entry.held = some e.slot := if_pos inSwap
      have slot : e.slotFor vaPg = some e.slot := (if_pos key).trans held
      rw [slot]
      rfl
    · rw [if_neg (by simpa using key)] at found
      obtain ⟨i, later, rfl⟩ := Option.map_eq_some_iff.mp found
      have elsewhere : e.slotFor vaPg = none := if_neg key
      rw [elsewhere]
      exact ih later inSwap

theorem stored_congr {va : Nat} (slots : p'.slotOf (pgrounddown va) = p.slotOf (pgrounddown va))
    (bytes : ∀ slot, p.slotOf (pgrounddown va) = some slot → ∀ off < 4096, p'.slotByte slot off = p.slotByte slot off)
    (program : p'.program = p.program) : p'.stored va = p.stored va := by
  unfold stored
  rw [slots, backing_congr program]
  cases found : p.slotOf (pgrounddown va) with
  | none => rfl
  | some slot => exact bytes slot found _ (Nat.mod_lt _ (by decide))

theorem slotByte_congr (swapip : p'.swapip = p.swapip) (slot off : Nat) :
    p'.slotByte slot off = p.slotByte slot off := by
  unfold slotByte
  rw [swapip]

theorem slotByte_same {slot : Nat} (same : SameSlot p.swapip p'.swapip slot) {ip : Inode}
    (file : p.swapip = some ip) : ∀ off < 4096, p'.slotByte slot off = p.slotByte slot off := by
  intro off short
  obtain ⟨ip', file', _, bytes⟩ := same ip file
  unfold slotByte
  rw [file, show p'.swapip = some ip' from file']
  exact bytes off short

end Proc

section Frames

variable {b : Build} {held : Nat → Nat} {m : Machine} {pt : PageTable} {va va' : Nat} {leaf leaf' : Leaf}

theorem page_below {va : Nat} (low : va < trapframeVa) : va / 4096 ∈ Finset.range pageCount := by
  rw [Finset.mem_range]
  unfold trapframeVa trampolineVa maxva at low
  unfold pageCount
  omega

theorem leafWeight_mapped (low : va < trapframeVa) (here : pt.leaf va = some leaf) :
    leafWeight leaf.pa (va / 4096) (Radix.value 2 pt.entries (va / 4096)) = 1 := by
  have mapped : Radix.value 2 pt.entries (va / 4096) = some leaf := here
  rw [mapped]
  simp [leafWeight, special_eq_false low]

theorem PageTable.leaves_mapped (low : va < trapframeVa) (here : pt.leaf va = some leaf) :
    1 ≤ pt.leaves leaf.pa := by
  have part := Finset.single_le_sum (f := fun vpn => leafWeight leaf.pa vpn (Radix.value 2 pt.entries vpn))
    (fun _ _ => Nat.zero_le _) (page_below low)
  rw [leafWeight_mapped low here] at part
  exact part

theorem PageTable.leaves_twice (low : va < trapframeVa) (low' : va' < trapframeVa)
    (other : va' / 4096 ≠ va / 4096) (here : pt.leaf va = some leaf) (there : pt.leaf va' = some leaf')
    (same : leaf'.pa = leaf.pa) : 2 ≤ pt.leaves leaf.pa := by
  have pair : {va / 4096, va' / 4096} ⊆ Finset.range pageCount := by
    intro vpn member
    rcases Finset.mem_insert.mp member with rfl | last
    · exact page_below low
    · rw [Finset.mem_singleton.mp last]
      exact page_below low'
  have part := Finset.sum_le_sum_of_subset (f := fun vpn =>
    leafWeight leaf.pa vpn (Radix.value 2 pt.entries vpn)) pair
  rw [Finset.sum_pair (Ne.symm other), leafWeight_mapped low here, ← same, leafWeight_mapped low' there] at part
  rw [← same]
  exact part

theorem Owned.mapped (owned : Owned b held m) (low : va < trapframeVa)
    (here : m.proc.pagetable.leaf va = some leaf) : leaf.pa ∉ m.freelist ∧ held leaf.pa = 0 := by
  have once := owned.single leaf.pa
  have counted := PageTable.leaves_mapped low here
  have atMost : (if b.isFrame leaf.pa then 1 else 0) ≤ 1 := by split_ifs <;> omega
  unfold Machine.owners Proc.owners PageTable.owners at once
  constructor
  · intro free
    have positive := List.count_pos_iff.mpr free
    omega
  · omega

theorem Owned.apart (owned : Owned b held m) (low : va < trapframeVa) (low' : va' < trapframeVa)
    (other : va' / 4096 ≠ va / 4096) (here : m.proc.pagetable.leaf va = some leaf)
    (there : m.proc.pagetable.leaf va' = some leaf') : leaf'.pa ≠ leaf.pa := by
  intro same
  have once := owned.single leaf.pa
  have counted := PageTable.leaves_twice low low' other here there same
  have atMost : (if b.isFrame leaf.pa then 1 else 0) ≤ 1 := by split_ifs <;> omega
  unfold Machine.owners Proc.owners PageTable.owners at once
  omega

theorem Owned.unheld {pa : Nat} (owned : Owned b (holding (some pa) held) m) (low : va < trapframeVa)
    (here : m.proc.pagetable.leaf va = some leaf) : leaf.pa ≠ pa := by
  rintro rfl
  have none_ := (owned.mapped low here).2
  simp [holding] at none_

end Frames

-- What the books say of the pages in `watch`: one that is in swap is not mapped, and one in a segment has the
-- permissions of the segment, which is writable.
structure Books.Filed (watch : Nat → Prop) (v : Books) : Prop where
  keyed : v.Keyed
  apart : v.SlotsApart
  zero : ∀ e ∈ v.entries, e.va = 0 → e.inSwap = false
  watched : ∀ vaPg, watch vaPg → vaPg % 4096 = 0 ∧ vaPg < trapframeVa ∧
    ∀ seg, v.image.segOf vaPg = some seg → seg.permW = true
  settled : ∀ e ∈ v.entries, watch e.va → e.inSwap = true → e.resident = false ∧ v.pte (e.va / 4096) = none
  perms : ∀ e ∈ v.entries, watch e.va → ∀ seg, v.image.segOf e.va = some seg →
    e.perm = .none ∨ e.perm = seg.flags
  pages : ∀ vaPg, watch vaPg → ∀ flags seg, v.pte (vaPg / 4096) = some flags →
    v.image.segOf vaPg = some seg → flags = seg.flags

namespace Books

variable {v : Books}

theorem entryAt_eq {i : Nat} {e : Entry} (here : v.entries[i]? = some e) : v.entryAt i = e := by
  unfold entryAt
  rw [List.getD_eq_getElem?_getD, here]
  rfl

theorem saved_dropped (v : Books) (best slot : Nat) (bitmap : Bitmap) :
    ((v.saved best slot bitmap).dropped best).entries = (v.modify best fun e =>
      { e with resident := false, inSwap := true, slot := slot }).entries := by
  let save : Entry → Entry := fun e => { e with inSwap := true, slot := slot }
  exact List.modify_modify_eq save (fun e => { e with resident := false }) best v.entries

end Books

namespace Books.Filed

variable {watch : Nat → Prop} {v v' : Books}

theorem fewer (filed : v.Filed watch) (keyed : v'.Keyed) (apart : v'.SlotsApart) (image : v'.image = v.image)
    (pte : ∀ vpn flags, v'.pte vpn = some flags → v.pte vpn = some flags)
    (entries : ∀ e ∈ v'.entries, e.inSwap = false ∧ e.perm = .none ∨ ∃ old ∈ v.entries,
      e.va = old.va ∧ e.perm = old.perm ∧ (e.resident = true → old.resident = true) ∧
        (e.inSwap = true → old.inSwap = true ∨
          old.va ≠ 0 ∧ e.resident = false ∧ v'.pte (old.va / 4096) = none)) : v'.Filed watch := by
  have gone {vpn : Nat} (absent : v.pte vpn = none) : v'.pte vpn = none := by
    cases here : v'.pte vpn with
    | none => rfl
    | some flags =>
      rw [pte vpn flags here] at absent
      contradiction
  constructor
  next => exact keyed
  next => exact apart
  next =>
    intro e member key
    rcases entries e member with ⟨unsaved, _⟩ | ⟨old, before, va, _, _, inSwap⟩
    · exact unsaved
    · by_contra saved
      rw [Bool.not_eq_false] at saved
      rcases inSwap saved with earlier | ⟨key', _⟩
      · rw [filed.zero old before (va.symm.trans key)] at earlier
        contradiction
      · exact key' (va.symm.trans key)
  next =>
    rw [image]
    exact filed.watched
  next =>
    intro e member watched saved
    rcases entries e member with ⟨unsaved, _⟩ | ⟨old, before, va, _, resident, inSwap⟩
    · rw [unsaved] at saved
      contradiction
    · rw [va] at watched ⊢
      rcases inSwap saved with earlier | ⟨_, out, absent⟩
      · have known := filed.settled old before watched earlier
        refine ⟨Bool.eq_false_iff.mpr fun here => ?_, gone known.2⟩
        rw [resident here] at known
        exact Bool.noConfusion known.1
      · exact ⟨out, absent⟩
  next =>
    rw [image]
    intro e member watched seg region
    rcases entries e member with ⟨_, none_⟩ | ⟨old, before, va, perm, _⟩
    · exact .inl none_
    · rw [va] at watched region
      rw [perm]
      exact filed.perms old before watched seg region
  next =>
    rw [image]
    exact fun vaPg watched flags seg here => filed.pages vaPg watched flags seg (pte _ flags here)

theorem obtain_ {ok : Bool} (filed : v.Filed watch) (obtained : v.Obtain ok v') : v'.Filed watch := by
  have keyed := filed.keyed.obtain_ obtained
  have apart := filed.apart.obtain_ obtained
  have removes (vpn : Nat) (flags : Flags) : v'.pte vpn = some flags → v.pte vpn = some flags :=
    obtained.removes
  have evicted {ok : Bool} {w : Books} (keyed : w.Keyed) (apart : w.SlotsApart) (evict : v.Evict ok w) :
      w.Filed watch := by
    have kept {e : Entry} (member : e ∈ v.entries) : e.inSwap = false ∧ e.perm = .none ∨
        ∃ old ∈ v.entries, e.va = old.va ∧ e.perm = old.perm ∧ (e.resident = true → old.resident = true) ∧
          (e.inSwap = true → old.inSwap = true ∨
            old.va ≠ 0 ∧ e.resident = false ∧ w.pte (old.va / 4096) = none) :=
      .inr ⟨e, member, rfl, rfl, id, .inl⟩
    refine filed.fewer keyed apart evict.image (fun vpn flags => evict.removes) fun e member => ?_
    cases evict with
    | nothing => exact kept member
    | stale best =>
      rcases List.mem_or_eq_of_mem_set member with old | rfl
      · exact kept old
      · exact .inl ⟨rfl, rfl⟩
    | discarded best =>
      rcases mem_modify (v := v) member with old | ⟨old, before, _, rfl⟩
      · exact kept old
      · exact .inr ⟨old, before, rfl, rfl, nofun, .inl⟩
    | saved best _ slot bitmap victim =>
      rw [saved_dropped] at member
      rcases mem_modify (v := v) member with old | ⟨old, before, here, rfl⟩
      · exact kept old
      · have entry := entryAt_eq here
        have key : ((v.saved best slot bitmap).entryAt best).va = old.va := by
          unfold Books.saved entryAt
          rw [List.getD_eq_getElem?_getD, List.getElem?_modify, here]
          simp
        refine .inr ⟨old, before, rfl, rfl, nofun, fun _ => .inr ⟨entry ▸ victim.2, rfl, ?_⟩⟩
        change Function.update v.pte (((v.saved best slot bitmap).entryAt best).va / 4096) none _ = none
        rw [key, Function.update_self]
  cases obtained with
  | free => exact filed
  | evicted _ _ evict => exact evicted keyed apart evict
  | failed _ evict => exact evicted keyed apart evict

theorem noted (filed : v.Filed watch) {va : Nat} (aligned : va % 4096 = 0) : (v.noted va).Filed watch := by
  refine filed.fewer (filed.keyed.noted aligned) (filed.apart.noted va) (by rw [noted_eq])
    (fun vpn flags => by rw [noted_pte]; exact id) fun e member => ?_
  rcases mem_noted member with old | rfl
  · exact .inr ⟨e, old, rfl, rfl, id, .inl⟩
  · exact .inl ⟨rfl, rfl⟩

end Books.Filed

namespace Books

variable {watch : Nat → Prop} {v v' : Books} {vaPg : Nat}

def Unsaved (v : Books) (vaPg : Nat) : Prop := ∀ e ∈ v.entries, e.va = vaPg → e.inSwap = false

theorem Filed.unsaved (filed : v.Filed watch)
    (notInSwap : ∀ i, v.find vaPg = some i → (v.entryAt i).inSwap = false) : v.Unsaved vaPg := by
  intro e member key
  by_cases zero : vaPg = 0
  · exact filed.zero e member (key.trans zero)
  · obtain ⟨i, found, here⟩ := find_member filed.keyed member key zero
    have entry := entryAt_eq here
    rw [← entry]
    exact notInSwap i found

theorem Filed.mapped_unsaved (filed : v.Filed watch) {flags : Flags} (here : v.pte (vaPg / 4096) = some flags)
    (watched : watch vaPg) : v.Unsaved vaPg := by
  intro e member key
  by_contra saved
  rw [Bool.not_eq_false] at saved
  have absent := (filed.settled e member (key ▸ watched) saved).2
  rw [key, here] at absent
  exact nomatch absent

theorem Unsaved.noted (unsaved : v.Unsaved vaPg) (va : Nat) : (v.noted va).Unsaved vaPg := by
  intro e member key
  rcases mem_noted member with old | rfl
  · exact unsaved e old key
  · rfl

theorem Unsaved.obtain_ {ok : Bool} (unsaved : v.Unsaved vaPg) (absent : v.pte (vaPg / 4096) = none)
    (obtained : v.Obtain ok v') : v'.Unsaved vaPg := by
  have evicted {ok : Bool} {w : Books} (evict : v.Evict ok w) : w.Unsaved vaPg := by
    intro e member key
    cases evict with
    | nothing => exact unsaved e member key
    | stale best =>
      rcases List.mem_or_eq_of_mem_set member with old | rfl
      · exact unsaved e old key
      · rfl
    | discarded best =>
      rcases mem_modify (v := v) member with old | ⟨old, before, _, rfl⟩
      · exact unsaved e old key
      · exact unsaved old before key
    | saved best flags slot bitmap victim here =>
      rw [saved_dropped] at member
      rcases mem_modify (v := v) member with old | ⟨old, before, there, rfl⟩
      · exact unsaved e old key
      · have entry := entryAt_eq there
        have key' : old.va = vaPg := key
        rw [entry, key', absent] at here
        exact nomatch here
  cases obtained with
  | free => exact unsaved
  | evicted _ _ evict => exact evicted evict
  | failed _ evict => exact evicted evict

namespace Filed

theorem mapped (filed : v.Filed watch) {va : Nat} {flags : Flags} (aligned : va % 4096 = 0)
    (unsaved : watch va → v.Unsaved va)
    (granted : watch va → ∀ seg, v.image.segOf va = some seg → flags = seg.flags) :
    (v.mapped .own va flags).Filed watch := by
  refine ⟨filed.keyed, filed.apart, filed.zero, filed.watched, ?_, filed.perms, ?_⟩
  · intro e member watched saved
    have known := filed.settled e member watched saved
    refine ⟨known.1, ?_⟩
    change Function.update v.pte (va / 4096) (some flags) (e.va / 4096) = none
    have rounded := (filed.watched e.va watched).1
    rw [Function.update_of_ne]
    · exact known.2
    · intro page
      have same : e.va = va := by omega
      rw [unsaved (same ▸ watched) e member same] at saved
      contradiction
  · intro vaPg watched flags' seg here region
    have rounded := (filed.watched vaPg watched).1
    change Function.update v.pte (va / 4096) (some flags) (vaPg / 4096) = some flags' at here
    by_cases page : vaPg / 4096 = va / 4096
    · obtain rfl : vaPg = va := by omega
      rw [Function.update_self] at here
      rw [← Option.some.inj here]
      exact granted watched seg region
    · rw [Function.update_of_ne page] at here
      exact filed.pages vaPg watched flags' seg here region

theorem madeResident (filed : v.Filed watch) {va : Nat} {flags : Flags} (unsaved : watch va → v.Unsaved va)
    (granted : watch va → ∀ seg, v.image.segOf va = some seg → flags = seg.flags) :
    (v.madeResident va flags).Filed watch := by
  have image : (v.madeResident va flags).image = v.image := by rw [madeResident_eq]
  have pte : (v.madeResident va flags).pte = v.pte := by rw [madeResident_eq]
  have keyed : (v.madeResident va flags).Keyed := by
    unfold Books.madeResident
    split
    next => exact filed.keyed
    next i _ => exact filed.keyed.congr (v.keys_modify i _ fun _ => rfl)
  have apart : (v.madeResident va flags).SlotsApart := by
    unfold Books.madeResident
    split
    next => exact filed.apart
    next i _ => exact filed.apart.modify i _ rfl rfl fun _ => rfl
  refine ⟨keyed, apart, ?_, ?_, ?_, ?_, ?_⟩
  · intro e member key
    rcases mem_madeResident member with old | ⟨old, before, _, rfl⟩
    · exact filed.zero e old key
    · exact filed.zero old before key
  · rw [image]
    exact filed.watched
  · rw [pte]
    intro e member watched saved
    rcases mem_madeResident member with old | ⟨old, before, rfl, rfl⟩
    · exact filed.settled e old watched saved
    · rw [unsaved watched old before rfl] at saved
      contradiction
  · rw [image]
    intro e member watched seg region
    rcases mem_madeResident member with old | ⟨old, _, rfl, rfl⟩
    · exact filed.perms e old watched seg region
    · exact .inr (granted watched seg region)
  · rw [pte, image]
    exact filed.pages

theorem installed (filed : v.Filed watch) {va : Nat} {flags : Flags} (aligned : va % 4096 = 0)
    (unsaved : watch va → v.Unsaved va)
    (granted : watch va → ∀ seg, v.image.segOf va = some seg → flags = seg.flags) :
    (v.installed .own va flags).Filed watch := by
  have mapped := (filed.mapped aligned unsaved granted).noted aligned
  have same : (v.mapped .own va flags).Unsaved va ↔ v.Unsaved va := Iff.rfl
  have image : ((v.mapped .own va flags).noted va).image = v.image := by
    rw [noted_eq]
    rfl
  apply mapped.madeResident
  · exact fun watched => (same.mpr (unsaved watched)).noted va
  · rw [image]
    exact granted

theorem swappedIn (filed : v.Filed watch) {i : Nat} {seg : Seg} (aligned : vaPg % 4096 = 0)
    (region : v.image.segOf vaPg = some seg) (found : v.find vaPg = some i)
    (inSwap : (v.entryAt i).inSwap = true) : (v.swappedIn vaPg i seg).Filed watch := by
  obtain ⟨e, here, key⟩ := find_spec found
  have entry := entryAt_eq here
  have member₀ := List.mem_iff_getElem?.mpr ⟨i, here⟩
  rw [entry] at inSwap
  have notZero : vaPg ≠ 0 := by
    rintro rfl
    rw [filed.zero e member₀ key] at inSwap
    contradiction
  have keyed : (v.swappedIn vaPg i seg).Keyed :=
    filed.keyed.congr (v.keys_modify i (fun e => { e with resident := true, inSwap := false, slot := 0xffff })
      fun _ => rfl)
  refine ⟨keyed, filed.apart.swappedIn (entry ▸ inSwap), ?_, filed.watched, ?_, ?_, ?_⟩
  · intro e' member key'
    rcases mem_modify (v := v) member with old | ⟨old, _, _, rfl⟩
    · exact filed.zero e' old key'
    · rfl
  · intro e' member watched saved
    obtain ⟨j, there⟩ := List.mem_iff_getElem?.mp member
    change (v.entries.modify i _)[j]? = some e' at there
    rw [List.getElem?_modify] at there
    by_cases hit : i = j
    · subst hit
      rw [here] at there
      simp only [if_true, Option.map_eq_map, Option.map_some, Option.some.injEq] at there
      rw [← there] at saved
      contradiction
    · have before : v.entries[j]? = some e' := by simpa [hit] using there
      have known := filed.settled e' (List.mem_iff_getElem?.mpr ⟨j, before⟩) watched saved
      refine ⟨known.1, ?_⟩
      change Function.update v.pte (vaPg / 4096) _ (e'.va / 4096) = none
      rw [Function.update_of_ne]
      · exact known.2
      · intro page
        have rounded := (filed.watched e'.va watched).1
        have same : e'.va = vaPg := by omega
        apply hit
        apply filed.keyed.unique i j vaPg notZero
        · rw [List.getElem?_map, here, Option.map_some, key]
        · rw [List.getElem?_map, before, Option.map_some, same]
  · intro e' member watched seg' region'
    rcases mem_modify (v := v) member with old | ⟨old, before, _, rfl⟩
    · exact filed.perms e' old watched seg' region'
    · exact filed.perms old before watched seg' region'
  · intro page watched flags seg' mapped region'
    have rounded := (filed.watched page watched).1
    change Function.update v.pte (vaPg / 4096) (some (swapPerm (v.entryAt i) seg)) (page / 4096) = _ at mapped
    by_cases same : page / 4096 = vaPg / 4096
    · obtain rfl : page = vaPg := by omega
      rw [same, Function.update_self] at mapped
      obtain rfl : seg' = seg := Option.some.inj (region'.symm.trans region)
      rw [← Option.some.inj mapped, entry]
      unfold swapPerm
      split_ifs with none_
      · rfl
      · exact (filed.perms e member₀ (key ▸ watched) seg' (key ▸ region)).resolve_left none_
    · rw [Function.update_of_ne same] at mapped
      exact filed.pages page watched flags seg' mapped region'

theorem fault {acc : Access} {ok : Bool} (filed : v.Filed watch) (aligned : vaPg % 4096 = 0)
    (keeps : watch vaPg → v.pte (vaPg / 4096) = none → v.image.segOf vaPg = none → v.Unsaved vaPg)
    (faulted : Faulted vaPg acc v ok v') : v'.Filed watch := by
  cases faulted with
  | refused => exact filed
  | widened flags here write readOnly =>
    refine (filed.mapped aligned (filed.mapped_unsaved here) fun watched seg region => ?_).noted aligned
    have writable := (filed.watched vaPg watched).2.2 seg region
    rw [filed.pages vaPg watched flags seg here region] at readOnly
    exact absurd (readOnly.symm.trans writable) Bool.false_ne_true
  | madeExec flags seg here _ region exec =>
    refine filed.mapped aligned (filed.mapped_unsaved here) fun watched seg' region' => ?_
    obtain rfl : seg' = seg := Option.some.inj (region'.symm.trans region)
    rw [filed.pages vaPg watched flags seg' here region]
    unfold Seg.flags
    rw [exec]
  | starved _ _ obtained => exact filed.obtain_ obtained
  | zeroStarved _ _ _ obtained => exact (filed.noted aligned).obtain_ obtained
  | swappedIn seg i w _ region found inSwap obtained =>
    refine (filed.obtain_ obtained).swappedIn aligned ?_ ((obtained.find vaPg).trans found)
      (SlotsApart.inSwap_obtained obtained inSwap)
    rw [obtained.image]
    exact region
  | loaded seg w absent region notInSwap obtained =>
    refine (filed.obtain_ obtained).installed aligned
      (fun _ => (filed.unsaved notInSwap).obtain_ absent obtained) fun _ seg' region' => ?_
    rw [obtained.image] at region'
    obtain rfl : seg' = seg := Option.some.inj (region'.symm.trans region)
    rfl
  | zeroed w absent region _ obtained =>
    have noted : (v.noted vaPg).pte (vaPg / 4096) = none := by
      rw [noted_pte]
      exact absent
    refine ((filed.noted aligned).obtain_ obtained).installed aligned
      (fun watched => ((keeps watched absent region).noted vaPg).obtain_ noted obtained) fun _ seg region' => ?_
    rw [obtained.image, noted_eq] at region'
    exact absurd (region'.symm.trans region) nofun

end Filed

end Books

end SystemsSuite.Paging
