import SystemsSuite.Paging.SwapAccounts

set_option autoImplicit false

namespace SystemsSuite.Paging

open Lib Prog

variable {b : Build} {m : Machine}

theorem slotUsed_alloc_self {bitmap : Bitmap} {slot : Nat} (inside : slot / 8 < bitmap.length) :
    slotUsed (bitmap.modify (slot / 8) (· ||| slotBit slot)) slot = true := by
  rw [slotUsed_iff, getD_modify, if_pos ⟨rfl, inside⟩, BitVec.getLsbD_or]
  have below : slot % 8 < 8 := Nat.mod_lt _ (by decide)
  simp [slotBit, below]

theorem slotUsed_alloc_of {bitmap : Bitmap} (slot : Nat) {used : Nat} (taken : slotUsed bitmap used = true) :
    slotUsed (bitmap.modify (slot / 8) (· ||| slotBit slot)) used = true := by
  rw [slotUsed_iff] at *
  rw [getD_modify]
  split_ifs
  · rw [BitVec.getLsbD_or, taken, Bool.true_or]
  · exact taken

theorem slotUsed_free_of {bitmap : Bitmap} {slot used : Nat} (other : used ≠ slot)
    (taken : slotUsed bitmap used = true) : slotUsed (swapFreeSlot bitmap slot) used = true := by
  unfold swapFreeSlot
  split_ifs
  · rw [slotUsed_iff] at *
    rw [getD_modify]
    split_ifs with byte
    · have below : used % 8 < 8 := Nat.mod_lt _ (by decide)
      have apart : used % 8 ≠ slot % 8 := by omega
      rw [BitVec.getLsbD_and, taken, Bool.true_and]
      simp [slotBit, below]
      omega
    · exact taken
  · exact taken

-- The slots of a list of holders: each is marked in the bitmap, and no two holders share one.
structure SlotsHeld (holders : List (Option Nat)) (bitmap : Bitmap) : Prop where
  whole : bitmap.length = 128
  used : ∀ (i slot : Nat), holders[i]? = some (some slot) → slot < swapSlots ∧ slotUsed bitmap slot = true
  apart : ∀ (i j slot : Nat), holders[i]? = some (some slot) → holders[j]? = some (some slot) → i = j

namespace SlotsHeld

variable {holders : List (Option Nat)} {bitmap : Bitmap}

theorem none {n : Nat} : SlotsHeld (List.replicate n none) (List.replicate 128 0#8) := by
  have nothing {i slot : Nat} : (List.replicate n (Option.none : Option Nat))[i]? ≠ some (some slot) := by
    intro here
    have member := List.mem_iff_getElem?.mpr ⟨i, here⟩
    exact nomatch List.eq_of_mem_replicate member
  exact ⟨List.length_replicate, fun _ _ here => absurd here nothing,
    fun _ _ _ here _ => absurd here nothing⟩

-- Who still holds a slot after holder `i` has changed.
theorem of_set {i j : Nat} {new : Option Nat} {slot : Nat} (here : (holders.set i new)[j]? = some (some slot)) :
    i = j ∧ new = some slot ∨ i ≠ j ∧ holders[j]? = some (some slot) := by
  rw [List.getElem?_set] at here
  split_ifs at here with hit inside
  · exact .inl ⟨hit, Option.some.inj here⟩
  · exact .inr ⟨hit, here⟩

theorem drop (held : SlotsHeld holders bitmap) (i : Nat) : SlotsHeld (holders.set i .none) bitmap := by
  have old {j slot : Nat} (here : (holders.set i .none)[j]? = some (some slot)) :
      holders[j]? = some (some slot) := by
    rcases of_set here with ⟨_, gone⟩ | ⟨_, before⟩
    · contradiction
    · exact before
  exact ⟨held.whole, fun j slot here => held.used j slot (old here),
    fun j k slot here there => held.apart j k slot (old here) (old there)⟩

theorem take (held : SlotsHeld holders bitmap) (i : Nat) {slot : Nat} {bitmap' : Bitmap}
    (found : swapAllocSlot bitmap = some (slot, bitmap')) : SlotsHeld (holders.set i (some slot)) bitmap' := by
  obtain ⟨small, unused, rfl⟩ := swapAllocSlot_spec found
  have fresh {j : Nat} (here : holders[j]? = some (some slot)) : False := by
    have taken := (held.used j slot here).2
    rw [unused] at taken
    exact Bool.false_ne_true taken
  refine ⟨by rw [List.length_modify]; exact held.whole, fun j slot' here => ?_, fun j k slot' here there => ?_⟩
  · rcases of_set here with ⟨_, same⟩ | ⟨_, before⟩
    · obtain rfl := Option.some.inj same
      refine ⟨small, slotUsed_alloc_self ?_⟩
      rw [held.whole]
      unfold swapSlots at small
      omega
    · have old := held.used j slot' before
      exact ⟨old.1, slotUsed_alloc_of slot old.2⟩
  · rcases of_set here with ⟨hit, same⟩ | ⟨_, before⟩
    · rcases of_set there with ⟨hit', _⟩ | ⟨_, before'⟩
      · exact hit.symm.trans hit'
      · obtain rfl := Option.some.inj same
        exact (fresh before').elim
    · rcases of_set there with ⟨_, same⟩ | ⟨_, before'⟩
      · obtain rfl := Option.some.inj same
        exact (fresh before).elim
      · exact held.apart j k slot' before before'

theorem free (held : SlotsHeld holders bitmap) {i slot : Nat} (here : holders[i]? = some (some slot)) :
    SlotsHeld (holders.set i .none) (swapFreeSlot bitmap slot) := by
  have dropped := held.drop i
  refine ⟨?_, fun j slot' there => ?_, dropped.apart⟩
  · unfold swapFreeSlot
    split_ifs
    · rw [List.length_modify]
      exact held.whole
    · exact held.whole
  · have old := dropped.used j slot' there
    refine ⟨old.1, slotUsed_free_of (fun same => ?_) old.2⟩
    subst same
    rcases of_set there with ⟨_, gone⟩ | ⟨other, before⟩
    · contradiction
    · exact other (held.apart i j slot' here before)

-- A slot that is handed out is held by nobody.
theorem alloc_free (held : SlotsHeld holders bitmap) {slot : Nat} {bitmap' : Bitmap}
    (found : swapAllocSlot bitmap = some (slot, bitmap')) (i : Nat) : holders[i]? ≠ some (some slot) := by
  intro here
  have taken := (held.used i slot here).2
  rw [(swapAllocSlot_spec found).2.1] at taken
  exact Bool.false_ne_true taken

end SlotsHeld

def Entry.held (e : Entry) : Option Nat := if e.inSwap then some e.slot else none

def Books.SlotsApart (v : Books) : Prop := SlotsHeld (v.entries.map Entry.held) v.bitmap

namespace Books.SlotsApart

variable {v v' : Books}

theorem congr (apart : v.SlotsApart) (entries : v'.entries.map Entry.held = v.entries.map Entry.held)
    (bitmap : v'.bitmap = v.bitmap) : v'.SlotsApart := by
  unfold SlotsApart at *
  rwa [entries, bitmap]

theorem modify (apart : v.SlotsApart) (i : Nat) (f : Entry → Entry)
    (entries : v'.entries = v.entries.modify i f) (bitmap : v'.bitmap = v.bitmap)
    (keeps : ∀ e, (f e).held = e.held) : v'.SlotsApart := by
  apply apart.congr _ bitmap
  rw [entries, map_modify_self Entry.held _ i keeps]

theorem evict {ok : Bool} (apart : v.SlotsApart) (evict : v.Evict ok v') : v'.SlotsApart := by
  cases evict with
  | nothing => exact apart
  | stale best =>
    unfold SlotsApart
    rw [List.map_set]
    exact apart.drop best
  | discarded best => exact apart.modify best _ rfl rfl fun _ => rfl
  | saved best _ slot bitmap _ _ found =>
    have stored := SlotsHeld.take apart best found
    have saved : (v.saved best slot bitmap).SlotsApart := by
      unfold SlotsApart Books.saved
      rw [map_modify Entry.held v.entries best (h := fun _ => some slot) fun _ => rfl, ← List.set_eq_modify]
      exact stored
    exact saved.modify best _ rfl rfl fun _ => rfl

theorem obtain_ {ok : Bool} (apart : v.SlotsApart) (obtained : v.Obtain ok v') : v'.SlotsApart := by
  cases obtained with
  | free => exact apart
  | evicted _ _ evict => exact apart.evict evict
  | failed _ evict => exact apart.evict evict

theorem noted (apart : v.SlotsApart) (va : Nat) : (v.noted va).SlotsApart := by
  unfold Books.noted
  split
  next i _ _ =>
    unfold SlotsApart
    rw [List.map_set]
    exact apart.drop i
  next => exact apart

theorem installed (apart : v.SlotsApart) (t : Target) (va : Nat) (perm : Flags) :
    (v.installed t va perm).SlotsApart := by
  have mapped : (v.mapped t va perm).SlotsApart := by
    cases t <;> exact apart
  have noted := mapped.noted va
  unfold Books.installed madeResident
  split
  next => exact noted
  next i _ => exact noted.modify i _ rfl rfl fun _ => rfl

theorem inSwap_obtained {i : Nat} (obtained : v.Obtain true v') (inSwap : (v.entryAt i).inSwap = true) :
    (v'.entryAt i).inSwap = true := by
  unfold entryAt at *
  cases obtained with
  | free => exact inSwap
  | evicted _ _ evict =>
    cases evict with
    | discarded best =>
      change ((v.entries.modify best _).getD i _).inSwap = true
      rw [getD_modify]
      split_ifs <;> exact inSwap
    | saved best =>
      change (((v.entries.modify best _).modify best _).getD i _).inSwap = true
      rw [getD_modify, getD_modify]
      split_ifs <;> first | rfl | exact inSwap

theorem swappedIn (apart : v.SlotsApart) {vaPg i : Nat} {seg : Seg}
    (inSwap : (v.entryAt i).inSwap = true) : (v.swappedIn vaPg i seg).SlotsApart := by
  have here : (v.entries.map Entry.held)[i]? = some (some (v.entryAt i).slot) := by
    unfold entryAt at *
    rw [List.getD_eq_getElem?_getD] at *
    rw [List.getElem?_map]
    cases there : v.entries[i]? with
    | none =>
      rw [there] at inSwap
      contradiction
    | some e =>
      rw [there] at inSwap
      exact congrArg some (if_pos inSwap)
  unfold SlotsApart Books.swappedIn
  rw [map_modify Entry.held v.entries i (h := fun _ => none) fun _ => rfl, ← List.set_eq_modify]
  exact apart.free here

theorem fault {vaPg : Nat} {acc : Access} {ok : Bool} (apart : v.SlotsApart)
    (faulted : Faulted vaPg acc v ok v') : v'.SlotsApart := by
  cases faulted with
  | refused => exact apart
  | widened flags =>
    have mapped : (v.mapped .own vaPg { flags with w := true }).SlotsApart := apart
    exact mapped.noted vaPg
  | madeExec => exact apart
  | starved _ _ obtained => exact apart.obtain_ obtained
  | zeroStarved _ _ _ obtained => exact (apart.noted vaPg).obtain_ obtained
  | swappedIn _ _ _ _ _ _ inSwap obtained =>
    exact (apart.obtain_ obtained).swappedIn (inSwap_obtained obtained inSwap)
  | loaded _ _ _ _ _ obtained => exact (apart.obtain_ obtained).installed _ _ _
  | zeroed _ _ _ _ obtained => exact ((apart.noted vaPg).obtain_ obtained).installed _ _ _

theorem grow {t : Target} {perm : Flags} {n a stop : Nat} {ok : Bool} (apart : v.SlotsApart)
    (grow : Grow t perm n a v ok stop v') : v'.SlotsApart := by
  induction grow with
  | done => exact apart
  | starved _ _ _ _ obtained => exact apart.obtain_ obtained
  | page _ _ _ _ _ _ _ obtained _ _ _ ih => exact ih ((apart.obtain_ obtained).installed _ _ _)

theorem moved {n t : Nat} {ok : Bool} (apart : v.SlotsApart) (moved : Moved n t v ok v') : v'.SlotsApart := by
  cases moved with
  | kept => exact apart
  | refused => exact apart
  | shrunk => exact apart
  | grown _ _ _ _ _ grow => exact (apart.grow grow).congr rfl rfl
  | failed _ _ _ _ _ grow => exact (apart.grow grow).congr rfl rfl
  | lazy => exact apart

theorem cleared (entries : ∀ e ∈ v.entries, e.inSwap = false) (bitmap : v.bitmap = List.replicate 128 0#8) :
    v.SlotsApart := by
  have nothing : v.entries.map Entry.held = List.replicate v.entries.length none := by
    rw [List.eq_replicate_iff]
    refine ⟨List.length_map _, fun slot member => ?_⟩
    obtain ⟨e, found, rfl⟩ := List.mem_map.mp member
    simp [Entry.held, entries e found]
  unfold SlotsApart
  rw [nothing, bitmap]
  exact .none

theorem happens {e : Event} (apart : v.SlotsApart) (happens : v.Happens e v') : v'.SlotsApart := by
  cases happens with
  | other => exact apart
  | setSp => exact apart
  | fault _ _ _ _ faulted => exact apart.fault faulted
  | evict _ _ evict => exact apart.evict evict
  | sbrk _ _ _ _ sbrk =>
    cases sbrk with
    | failed _ moved => exact apart.moved moved
    | unmoved _ moved => exact apart.moved moved
    | moved _ moved => exact (apart.moved moved).congr rfl rfl
  | parent _ _ _ evictions =>
    exact evictions.preserves (fun _ _ _ apart evict => apart.evict evict)
      (fun _ _ apart => apart) apart
  | child _ _ born => exact cleared born.noneInSwap born.rest.2.1
  | execed _ _ _ _ fresh => exact cleared fresh.noneInSwap fresh.bitmap
  | execFailed _ _ _ _ failed =>
    cases failed with
    | early alike => exact apart.congr (congrArg _ alike.entries) alike.bitmap
    | late _ _ _ w w' _ before _ grow after =>
      have started : w.SlotsApart := apart.congr (congrArg _ before.entries) before.bitmap
      exact (started.grow grow).congr (congrArg _ after.entries) after.bitmap

end Books.SlotsApart

theorem Machine.slots_apart {m₀ : Machine} (execed : m₀.Execed b) (reached : (m₀.lineage b).Reachable m) :
    m.books.SlotsApart := by
  refine Machine.lineage_invariant (I := Books.SlotsApart) execed.fresh
    (.cleared execed.fresh.noneInSwap execed.fresh.bitmap) ?_ reached
  exact fun _ _ _ apart _ _ happens => apart.happens happens

theorem Machine.held_slot {i : Nat} {e : PageMeta} (here : m.proc.pgmeta[i]? = some e)
    (inSwap : e.inSwap = true) : (m.books.entries.map Entry.held)[i]? = some (some e.slot) := by
  change ((m.proc.pgmeta.map PageMeta.entry).map Entry.held)[i]? = _
  rw [List.getElem?_map, List.getElem?_map, here]
  exact congrArg some (if_pos inSwap)

theorem Books.SlotsApart.unheld (apart : m.books.SlotsApart) {slot : Nat} {bitmap : Bitmap}
    (found : swapAllocSlot m.proc.swapBitmap = some (slot, bitmap)) :
    ∀ e ∈ m.proc.pgmeta, e.inSwap = true → e.slot ≠ slot := by
  intro e member inSwap same
  obtain ⟨i, here⟩ := List.mem_iff_getElem?.mp member
  have held := Machine.held_slot here inSwap
  rw [same] at held
  exact apart.alloc_free found i held

theorem swap_slots_distinct {m₀ : Machine} (execed : m₀.Execed b) (reached : (m₀.lineage b).Reachable m) :
    (∀ (i j : Nat) (e e' : PageMeta), m.proc.pgmeta[i]? = some e → m.proc.pgmeta[j]? = some e' → i ≠ j →
      e.inSwap = true → e'.inSwap = true → e.slot ≠ e'.slot) ∧
      (∀ e ∈ m.proc.pgmeta, e.inSwap = true → e.slot < swapSlots ∧ slotUsed m.proc.swapBitmap e.slot = true) ∧
      ∀ slot bitmap, swapAllocSlot m.proc.swapBitmap = some (slot, bitmap) →
        ∀ e ∈ m.proc.pgmeta, e.inSwap = true → e.slot ≠ slot := by
  have apart := Machine.slots_apart execed reached
  refine ⟨fun i j e e' here there other inSwap inSwap' same => ?_, fun e member inSwap => ?_,
    fun slot bitmap found => apart.unheld found⟩
  · have held := Machine.held_slot there inSwap'
    rw [← same] at held
    exact other (apart.apart i j e.slot (Machine.held_slot here inSwap) held)
  · obtain ⟨i, here⟩ := List.mem_iff_getElem?.mp member
    exact apart.used i e.slot (Machine.held_slot here inSwap)

-- Two heap pages are written and go to swap, one of them twice.
theorem swap_slots_distinct_two : ∃ m₀ m : Machine, m₀.Execed .small ∧ (m₀.lineage .small).Reachable m ∧
    m.proc.pgmeta.countP PageMeta.inSwap = 2 ∧
    ∀ (i j : Nat) (e e' : PageMeta), m.proc.pgmeta[i]? = some e → m.proc.pgmeta[j]? = some e' → i ≠ j →
      e.inSwap = true → e'.inSwap = true → e.slot ≠ e'.slot := by
  obtain ⟨m₀, m, execed, reached, shown⟩ := Machine.run_shows (b := .small) 40 (oneSegment 7) shortArgv
    [.sbrk 16384 2, .fault 0x4000 .read, .fault 0x4000 .write, .fault 0x5000 .read, .fault 0x5000 .write,
      .evict, .evict, .fault 0x4000 .read, .fault 0x4000 .write, .evict]
    (fun _ _ => true) (fun _ m => decide (m.proc.pgmeta.countP PageMeta.inSwap = 2))
    (fun _ _ _ => trivial) (by decide +kernel)
  exact ⟨m₀, m, execed, reached, of_decide_eq_true shown, (swap_slots_distinct execed reached).1⟩

end SystemsSuite.Paging
