import SystemsSuite.Paging.EntryKeys

set_option autoImplicit false

namespace SystemsSuite.Paging

open Lib Prog

variable {b : Build} {m : Machine}

theorem slotUsed_iff (bitmap : Bitmap) (slot : Nat) :
    slotUsed bitmap slot = true ↔ (bitmap.getD (slot / 8) 0#8).getLsbD (slot % 8) = true := by
  have bit (x : BitVec 8) : x &&& slotBit slot = 0#8 ↔ x.getLsbD (slot % 8) = false := by
    have inside : slot % 8 < 8 := Nat.mod_lt _ (by decide)
    constructor
    · intro clear
      have same := congrArg (fun y => y.getLsbD (slot % 8)) clear
      simpa [slotBit, inside] using same
    · intro clear
      ext i below
      by_cases here : i = slot % 8
      · subst here
        rw [BitVec.getLsbD_eq_getElem below] at clear
        simp [clear]
      · have other : (slotBit slot)[i] = false := by
          simp [slotBit]
          omega
        simp [other]
  unfold slotUsed
  rw [bne_iff_ne, Ne, bit, Bool.not_eq_false]

theorem slotUsed_alloc {bitmap : Bitmap} {slot used : Nat}
    (taken : slotUsed (bitmap.modify (slot / 8) (· ||| slotBit slot)) used = true) :
    used = slot ∨ slotUsed bitmap used = true := by
  rw [slotUsed_iff] at *
  rw [getD_modify] at taken
  split_ifs at taken with byte
  · rw [BitVec.getLsbD_or, Bool.or_eq_true] at taken
    rcases taken with old | new
    · exact .inr old
    · have inside : used % 8 < 8 := Nat.mod_lt _ (by decide)
      simp [slotBit, inside] at new
      exact .inl (by omega)
  · exact .inr taken

theorem slotUsed_free {bitmap : Bitmap} {slot used : Nat} (small : used < swapSlots)
    (left : slotUsed (swapFreeSlot bitmap slot) used = true) :
    used ≠ slot ∧ slotUsed bitmap used = true := by
  unfold swapFreeSlot at left
  split_ifs at left with inside
  · rw [slotUsed_iff] at *
    rw [getD_modify] at left
    split_ifs at left with byte
    · rw [BitVec.getLsbD_and, Bool.and_eq_true] at left
      refine ⟨?_, left.1⟩
      rintro rfl
      have below : used % 8 < 8 := Nat.mod_lt _ (by decide)
      have cleared := left.2
      simp [slotBit, below] at cleared
    · refine ⟨?_, left⟩
      rintro rfl
      have outside : bitmap.length ≤ used / 8 := by
        by_contra within
        exact byte ⟨rfl, by omega⟩
      rw [List.getD_eq_getElem?_getD, List.getElem?_eq_none outside] at left
      simp at left
  · exact ⟨by omega, left⟩

theorem countP_modify {α : Type} (p : α → Bool) {l : List α} {i : Nat} (f : α → α) {a : α}
    (here : l[i]? = some a) :
    (l.modify i f).countP p + (if p a then 1 else 0) = l.countP p + if p (f a) then 1 else 0 := by
  induction l generalizing i with
  | nil => simp at here
  | cons head rest ih =>
    cases i with
    | zero =>
      rw [List.getElem?_cons_zero] at here
      obtain rfl := Option.some.inj here
      rw [List.modify_zero_cons, List.countP_cons, List.countP_cons]
      omega
    | succ i =>
      rw [List.getElem?_cons_succ] at here
      have later := ih here
      rw [List.modify_succ_cons, List.countP_cons, List.countP_cons]
      omega

theorem modify_outside {α : Type} {l : List α} {i : Nat} (f : α → α) (outside : l[i]? = none) :
    l.modify i f = l := by
  apply List.ext_getElem?
  intro j
  rw [List.getElem?_modify]
  by_cases hit : i = j
  · subst hit
    simp [outside]
  · simp [hit]

-- Every used slot belongs to an entry that says so, and all such entries are counted.
structure Books.SwapBalanced (v : Books) : Prop where
  exclusive : ∀ e ∈ v.entries, e.inSwap = true → e.resident = false
  keyed : ∀ e ∈ v.entries, e.inSwap = true → e.va ≠ 0
  used : ∀ slot < swapSlots, slotUsed v.bitmap slot = true → ∃ e ∈ v.entries, e.inSwap = true ∧ e.slot = slot
  counted : v.swapPages = v.entries.countP Entry.inSwap

theorem Books.Fresh.noneInSwap {v : Books} (fresh : v.Fresh) : ∀ e ∈ v.entries, e.inSwap = false := by
  intro e member
  rw [fresh.entries] at member
  rw [List.eq_of_mem_replicate member]
  rfl

theorem Books.Born.noneInSwap {v v' : Books} {im : Proc} (born : v.Born im v') :
    ∀ e ∈ v'.entries, e.inSwap = false := by
  induction born with
  | blank =>
    intro e member
    rw [List.eq_of_mem_replicate member]
    rfl
  | copied w i flags _ _ _ _ ih =>
    intro e member
    rcases mem_madeResident member with noted | ⟨old, noted, _, rfl⟩
    · rcases mem_noted noted with old | rfl
      · exact ih e (by rwa [entries_mapped] at old)
      · rfl
    · rcases mem_noted noted with older | rfl
      · exact ih old (by rwa [entries_mapped] at older)
      · rfl

namespace Books.SwapBalanced

variable {v v' : Books}

theorem congr (balanced : v.SwapBalanced) (entries : v'.entries = v.entries)
    (bitmap : v'.bitmap = v.bitmap) (swapPages : v'.swapPages = v.swapPages) : v'.SwapBalanced := by
  refine ⟨?_, ?_, ?_, ?_⟩
  · rw [entries]
    exact balanced.exclusive
  · rw [entries]
    exact balanced.keyed
  · rw [entries, bitmap]
    exact balanced.used
  · rw [entries, swapPages]
    exact balanced.counted

theorem getElem?_self {l : List Entry} {i : Nat} {e : Entry} {f : Entry → Entry} (here : l[i]? = some e) :
    (l.modify i f)[i]? = some (f e) := by
  rw [List.getElem?_modify, here]
  simp

theorem modify (balanced : v.SwapBalanced) {i : Nat} {f : Entry → Entry}
    (keeps : ∀ e, v.entries[i]? = some e → (f e).inSwap = e.inSwap ∧
      (e.inSwap = true → (f e).slot = e.slot ∧ (f e).va = e.va ∧ (f e).resident = false)) :
    (v.modify i f).SwapBalanced := by
  cases here : v.entries[i]? with
  | none => exact balanced.congr (modify_outside f here) rfl rfl
  | some e =>
    obtain ⟨same, kept⟩ := keeps e here
    have member := List.mem_iff_getElem?.mpr ⟨i, here⟩
    refine ⟨fun e' found inSwap => ?_, fun e' found inSwap => ?_, fun slot small used => ?_, ?_⟩
    · rcases mem_modify found with old | ⟨old, _, at_, rfl⟩
      · exact balanced.exclusive e' old inSwap
      · obtain rfl := Option.some.inj (here.symm.trans at_)
        exact (kept (same.symm.trans inSwap)).2.2
    · rcases mem_modify found with old | ⟨old, _, at_, rfl⟩
      · exact balanced.keyed e' old inSwap
      · obtain rfl := Option.some.inj (here.symm.trans at_)
        rw [(kept (same.symm.trans inSwap)).2.1]
        exact balanced.keyed e member (same.symm.trans inSwap)
    · obtain ⟨owner, found, inSwap, slot_⟩ := balanced.used slot small used
      obtain ⟨j, at_⟩ := List.mem_iff_getElem?.mp found
      by_cases hit : i = j
      · subst hit
        obtain rfl := Option.some.inj (here.symm.trans at_)
        refine ⟨f e, List.mem_iff_getElem?.mpr ⟨i, getElem?_self here⟩, same.trans inSwap, ?_⟩
        exact (kept inSwap).1.trans slot_
      · refine ⟨owner, List.mem_iff_getElem?.mpr ⟨j, ?_⟩, inSwap, slot_⟩
        change (v.entries.modify i f)[j]? = some owner
        rw [List.getElem?_modify, at_]
        simp [hit]
    · have count := countP_modify Entry.inSwap f here
      rw [same] at count
      change v.swapPages = (v.entries.modify i f).countP Entry.inSwap
      rw [balanced.counted]
      omega

theorem set (balanced : v.SwapBalanced) {i : Nat} (e' : Entry) (empty : e'.inSwap = false)
    (free : ∀ e, v.entries[i]? = some e → e.inSwap = false) :
    ({ v with entries := v.entries.set i e' } : Books).SwapBalanced := by
  have modified := balanced.modify (i := i) (f := fun _ => e') fun e here =>
    ⟨empty.trans (free e here).symm, fun inSwap => absurd (free e here) (by simp [inSwap])⟩
  refine modified.congr ?_ rfl rfl
  exact List.set_eq_modify e' i v.entries

theorem victim (balanced : v.SwapBalanced) {best : Nat} (victim : v.Victim best) :
    ∃ e, v.entries[best]? = some e ∧ v.entryAt best = e ∧ e.inSwap = false := by
  have resident := victim.1
  unfold entryAt at *
  rw [List.getD_eq_getElem?_getD] at *
  cases here : v.entries[best]? with
  | none =>
    rw [here] at resident
    contradiction
  | some e =>
    rw [here] at resident
    refine ⟨e, rfl, rfl, Bool.eq_false_iff.mpr fun inSwap => ?_⟩
    have gone := balanced.exclusive e (List.mem_iff_getElem?.mpr ⟨best, here⟩) inSwap
    exact absurd (gone.symm.trans resident) Bool.false_ne_true

theorem saved (balanced : v.SwapBalanced) {best slot : Nat} {bitmap : Bitmap} (victim : v.Victim best)
    (found : swapAllocSlot v.bitmap = some (slot, bitmap)) :
    ((v.saved best slot bitmap).dropped best).SwapBalanced := by
  obtain ⟨_, _, rfl⟩ := swapAllocSlot_spec found
  obtain ⟨e, here, same, notInSwap⟩ := balanced.victim victim
  let save : Entry → Entry := fun e => { e with inSwap := true, slot := slot, resident := false }
  let after : Books := { v.modify best save with
    bitmap := v.bitmap.modify (slot / 8) (· ||| slotBit slot), swapPages := v.swapPages + 1 }
  have stored : after.entries[best]? = some (save e) := getElem?_self here
  have balanced' : after.SwapBalanced := by
    refine ⟨fun e' member inSwap => ?_, fun e' member inSwap => ?_, fun slot' small used => ?_, ?_⟩
    · rcases mem_modify (v := v) member with old | ⟨_, _, _, rfl⟩
      · exact balanced.exclusive e' old inSwap
      · rfl
    · rcases mem_modify (v := v) member with old | ⟨old, _, at_, rfl⟩
      · exact balanced.keyed e' old inSwap
      · obtain rfl := Option.some.inj (here.symm.trans at_)
        have key := victim.2
        rwa [same] at key
    · rcases slotUsed_alloc used with rfl | before
      · exact ⟨save e, List.mem_iff_getElem?.mpr ⟨best, stored⟩, rfl, rfl⟩
      · obtain ⟨owner, member, inSwap, slot_⟩ := balanced.used slot' small before
        obtain ⟨j, at_⟩ := List.mem_iff_getElem?.mp member
        have apart : best ≠ j := by
          rintro rfl
          obtain rfl := Option.some.inj (here.symm.trans at_)
          exact absurd (notInSwap.symm.trans inSwap) Bool.false_ne_true
        refine ⟨owner, List.mem_iff_getElem?.mpr ⟨j, ?_⟩, inSwap, slot_⟩
        change (v.entries.modify best save)[j]? = some owner
        rw [List.getElem?_modify, at_]
        simp [apart]
    · have count := countP_modify Entry.inSwap save here
      have now : (save e).inSwap = true := rfl
      rw [notInSwap, now] at count
      change v.swapPages + 1 = (v.entries.modify best save).countP Entry.inSwap
      rw [balanced.counted]
      simpa using count.symm
  refine balanced'.congr ?_ rfl rfl
  exact List.modify_modify_eq (fun e => { e with inSwap := true, slot := slot })
    (fun e => { e with resident := false }) best v.entries

theorem evict {ok : Bool} (balanced : v.SwapBalanced) (evict : v.Evict ok v') : v'.SwapBalanced := by
  cases evict with
  | nothing => exact balanced
  | stale best victim =>
    obtain ⟨e, here, _, notInSwap⟩ := balanced.victim victim
    refine balanced.set .cleared rfl fun e' here' => ?_
    obtain rfl := Option.some.inj (here.symm.trans here')
    exact notInSwap
  | discarded best _ victim =>
    refine (balanced.modify (i := best) (f := fun e => { e with resident := false }) ?_).congr rfl rfl rfl
    exact fun _ _ => ⟨rfl, fun _ => ⟨rfl, rfl, rfl⟩⟩
  | saved best _ slot bitmap victim _ found => exact balanced.saved victim found

theorem obtain_ {ok : Bool} (balanced : v.SwapBalanced) (obtained : v.Obtain ok v') : v'.SwapBalanced := by
  cases obtained with
  | free => exact balanced
  | evicted _ _ evict => exact balanced.evict evict
  | failed _ evict => exact balanced.evict evict

theorem noted (balanced : v.SwapBalanced) (va : Nat) : (v.noted va).SwapBalanced := by
  unfold Books.noted
  split
  next i _ free =>
    refine balanced.set _ rfl fun e here => Bool.eq_false_iff.mpr fun inSwap => ?_
    obtain ⟨e', here', key⟩ := find_spec free
    obtain rfl := Option.some.inj (here.symm.trans here')
    exact balanced.keyed e (List.mem_iff_getElem?.mpr ⟨i, here⟩) inSwap key
  next => exact balanced

theorem installed (balanced : v.SwapBalanced) (t : Target) {va : Nat} (perm : Flags)
    (absent : ∀ e ∈ v.entries, e.va = va → e.inSwap = false) : (v.installed t va perm).SwapBalanced := by
  have mapped : (v.mapped t va perm).SwapBalanced := by
    cases t with
    | own => exact balanced.congr rfl rfl rfl
    | spare => exact balanced.congr rfl rfl rfl
  have noted := mapped.noted va
  unfold Books.installed madeResident
  split
  next => exact noted
  next i found =>
    refine noted.modify fun e here => ⟨rfl, fun inSwap => ?_⟩
    obtain ⟨e', here', key⟩ := find_spec found
    obtain rfl := Option.some.inj (here.symm.trans here')
    have member := List.mem_iff_getElem?.mpr ⟨i, here⟩
    have notInSwap : e.inSwap = false := by
      rcases mem_noted member with old | rfl
      · exact absent e (by rwa [entries_mapped] at old) key
      · rfl
    exact absurd (notInSwap.symm.trans inSwap) Bool.false_ne_true

-- An entry in swap is no victim, so it survives an eviction.
theorem kept {ok : Bool} (balanced : v.SwapBalanced) (obtained : v.Obtain ok v') {i : Nat} {e : Entry}
    (here : v.entries[i]? = some e) (inSwap : e.inSwap = true) : v'.entries[i]? = some e := by
  have survives {ok : Bool} {w : Books} (evict : v.Evict ok w) : w.entries[i]? = some e := by
    have apart {best : Nat} (victim : v.Victim best) : best ≠ i := by
      rintro rfl
      obtain ⟨e', here', _, notInSwap⟩ := balanced.victim victim
      obtain rfl := Option.some.inj (here.symm.trans here')
      exact absurd (notInSwap.symm.trans inSwap) Bool.false_ne_true
    cases evict with
    | nothing => exact here
    | stale best victim =>
      change (v.entries.set best _)[i]? = _
      rw [List.getElem?_set_ne (apart victim), here]
    | discarded best _ victim =>
      change (v.entries.modify best _)[i]? = _
      rw [List.getElem?_modify, here]
      simp [apart victim]
    | saved best _ slot bitmap victim =>
      change ((v.entries.modify best _).modify best _)[i]? = _
      rw [List.getElem?_modify, List.getElem?_modify, here]
      simp [apart victim]
  cases obtained with
  | free => exact here
  | evicted _ _ evict => exact survives evict
  | failed _ evict => exact survives evict

theorem swappedIn (balanced : v.SwapBalanced) {vaPg i : Nat} {seg : Seg} {e : Entry}
    (here : v.entries[i]? = some e) (inSwap : e.inSwap = true) : (v.swappedIn vaPg i seg).SwapBalanced := by
  have entry : v.entryAt i = e := by
    unfold entryAt
    rw [List.getD_eq_getElem?_getD, here]
    rfl
  let back : Entry → Entry := fun e => { e with resident := true, inSwap := false, slot := 0xffff }
  have member := List.mem_iff_getElem?.mpr ⟨i, here⟩
  refine ⟨fun e' found inSwap' => ?_, fun e' found inSwap' => ?_, fun slot small used => ?_, ?_⟩
  · rcases mem_modify (v := v) found with old | ⟨_, _, _, rfl⟩
    · exact balanced.exclusive e' old inSwap'
    · contradiction
  · rcases mem_modify (v := v) found with old | ⟨_, _, _, rfl⟩
    · exact balanced.keyed e' old inSwap'
    · contradiction
  · obtain ⟨other, before⟩ := slotUsed_free small used
    obtain ⟨owner, found, ownerInSwap, slot_⟩ := balanced.used slot small before
    obtain ⟨j, at_⟩ := List.mem_iff_getElem?.mp found
    have apart : i ≠ j := by
      rintro rfl
      obtain rfl := Option.some.inj (here.symm.trans at_)
      rw [entry] at other
      exact other slot_.symm
    refine ⟨owner, List.mem_iff_getElem?.mpr ⟨j, ?_⟩, ownerInSwap, slot_⟩
    change (v.entries.modify i back)[j]? = some owner
    rw [List.getElem?_modify, at_]
    simp [apart]
  · have count := countP_modify Entry.inSwap back here
    have gone : (back e).inSwap = false := rfl
    rw [inSwap, gone] at count
    change v.swapPages - 1 = (v.entries.modify i back).countP Entry.inSwap
    rw [balanced.counted]
    simp only [if_true, Bool.false_eq_true, if_false] at count
    omega

-- A page that is not mapped is not evicted, so its entry does not go to swap.
theorem absent_obtained {ok : Bool} (balanced : v.SwapBalanced) (obtained : v.Obtain ok v') {va : Nat}
    (unmapped : v.pte (va / 4096) = none) (absent : ∀ e ∈ v.entries, e.va = va → e.inSwap = false) :
    ∀ e ∈ v'.entries, e.va = va → e.inSwap = false := by
  have survives {ok : Bool} {w : Books} (evict : v.Evict ok w) :
      ∀ e ∈ w.entries, e.va = va → e.inSwap = false := by
    intro e member key
    cases evict with
    | nothing => exact absent e member key
    | stale best =>
      rcases List.mem_or_eq_of_mem_set member with old | rfl
      · exact absent e old key
      · rfl
    | discarded best =>
      rcases mem_modify (v := v) member with old | ⟨old, before, _, rfl⟩
      · exact absent e old key
      · exact absent old before key
    | saved best flags slot bitmap victim mapped =>
      have once := List.modify_modify_eq (fun e : Entry => { e with inSwap := true, slot := slot })
        (fun e => { e with resident := false }) best v.entries
      change e ∈ (v.entries.modify best _).modify best _ at member
      rw [once] at member
      rcases mem_modify (v := v) member with old | ⟨old, before, at_, rfl⟩
      · exact absent e old key
      · obtain ⟨e', here, same, _⟩ := balanced.victim victim
        obtain rfl := Option.some.inj (here.symm.trans at_)
        change e'.va = va at key
        rw [same, key, unmapped] at mapped
        exact nomatch mapped
  cases obtained with
  | free => exact absent
  | evicted _ _ evict => exact survives evict
  | failed _ evict => exact survives evict

theorem empty (entries : ∀ e ∈ v.entries, e.inSwap = false) (bitmap : v.bitmap = List.replicate 128 0#8)
    (swapPages : v.swapPages = 0) : v.SwapBalanced := by
  have none_ {P : Prop} {e : Entry} (member : e ∈ v.entries) (inSwap : e.inSwap = true) : P :=
    absurd ((entries e member).symm.trans inSwap) Bool.false_ne_true
  refine ⟨fun _ member => none_ member, fun _ member => none_ member, fun slot _ used => ?_, ?_⟩
  · have zero (n : Nat) : (List.replicate n 0#8).getD (slot / 8) 0#8 = 0#8 := by
      rw [List.getD_eq_getElem?_getD, List.getElem?_replicate]
      split_ifs <;> rfl
    rw [slotUsed_iff, bitmap, zero, BitVec.getLsbD_zero] at used
    contradiction
  · rw [swapPages, eq_comm, List.countP_eq_zero]
    intro e member
    rw [entries e member]
    exact Bool.false_ne_true

theorem fresh (fresh : v.Fresh) : v.SwapBalanced := empty fresh.noneInSwap fresh.bitmap fresh.swapPages

theorem born {im : Proc} (born : v.Born im v') : v'.SwapBalanced :=
  empty born.noneInSwap born.rest.2.1 born.rest.2.2.1

theorem of_alike (balanced : v.SwapBalanced) (alike : v.Alike v') : v'.SwapBalanced :=
  balanced.congr alike.entries alike.bitmap alike.swapPages

end Books.SwapBalanced

-- No page from `start` up to `stop` is in swap, and none with an entry is mapped.
def Books.ClearOf (v : Books) (start stop : Nat) : Prop :=
  ∀ e ∈ v.entries, e.va ≠ 0 → start ≤ e.va → e.va < stop → e.inSwap = false ∧ v.pte (e.va / 4096) = none

namespace Books.SwapBalanced

variable {v v' : Books}

theorem clear_obtained {ok : Bool} {start stop : Nat} (balanced : v.SwapBalanced)
    (obtained : v.Obtain ok v') (clear : v.ClearOf start stop) : v'.ClearOf start stop := by
  intro e member key low high
  rcases obtained.mem member with rfl | ⟨old, before, va, _⟩
  · exact absurd rfl key
  · rw [va] at key low high ⊢
    have unmapped := (clear old before key low high).2
    refine ⟨balanced.absent_obtained obtained unmapped ?_ e member va, ?_⟩
    · intro e' member' same
      rw [← same] at key low high
      exact (clear e' member' key low high).1
    · cases here : v'.pte (old.va / 4096) with
      | none => rfl
      | some flags =>
        rw [obtained.evictions.removes here] at unmapped
        contradiction

theorem grow {t : Target} {perm : Flags} {n a stop top : Nat} {ok : Bool} (balanced : v.SwapBalanced)
    (grow : Grow t perm n a v ok stop v') (aligned : a % 4096 = 0) (range : n = 0 ∨ a + n * 4096 ≤ top + 4095)
    (clear : v.ClearOf a top) : v'.SwapBalanced := by
  induction grow with
  | done => exact balanced
  | starved _ _ _ _ obtained => exact balanced.obtain_ obtained
  | page n a stop ok v v₁ _ obtained absent below _ ih =>
    have clear₁ := balanced.clear_obtained obtained clear
    have balanced₁ := balanced.obtain_ obtained
    refine ih (balanced₁.installed t perm ?_) (by omega) (by omega) ?_
    · intro e member key
      by_cases zero : e.va = 0
      · exact Bool.eq_false_iff.mpr fun inSwap => balanced₁.keyed e member inSwap zero
      · exact (clear₁ e member zero key.ge (by omega)).1
    · intro e member key low high
      have untouched : (v₁.installed t a perm).pte (e.va / 4096) = v₁.pte (e.va / 4096) := by
        rw [installed_eq]
        cases t with
        | own => exact Function.update_of_ne (by omega) ..
        | spare => rfl
      rw [untouched]
      have old (e' : Entry) (noted : e' ∈ ((v₁.mapped t a perm).noted a).entries) (other : e'.va ≠ a) :
          e' ∈ v₁.entries := by
        rcases mem_noted noted with before | rfl
        · rwa [entries_mapped] at before
        · exact absurd rfl other
      rcases mem_madeResident member with noted | ⟨was, noted, same, rfl⟩
      · exact clear₁ e (old e noted (by omega)) key (by omega) high
      · change a + 4096 ≤ was.va at low
        omega

theorem fault {vaPg : Nat} {acc : Access} {ok : Bool} (balanced : v.SwapBalanced) (keyed : v.Keyed)
    (keeps : vaPg < maxva → v.pte (vaPg / 4096) = none → v.image.segOf vaPg = none →
      (v.image.isHeap vaPg || v.image.isStack vaPg) = true →
      ∀ e ∈ v.entries, e.va = vaPg → e.inSwap = false)
    (faulted : Faulted vaPg acc v ok v') : v'.SwapBalanced := by
  cases faulted with
  | refused => exact balanced
  | widened flags =>
    have mapped : (v.mapped .own vaPg { flags with w := true }).SwapBalanced := balanced.congr rfl rfl rfl
    exact mapped.noted vaPg
  | madeExec => exact balanced.congr rfl rfl rfl
  | starved _ _ obtained => exact balanced.obtain_ obtained
  | zeroStarved _ _ _ obtained => exact (balanced.noted vaPg).obtain_ obtained
  | swappedIn seg i v₁ _ _ found inSwap obtained =>
    obtain ⟨e, here, _⟩ := find_spec found
    have entry : v.entryAt i = e := by
      unfold entryAt
      rw [List.getD_eq_getElem?_getD, here]
      rfl
    rw [entry] at inSwap
    exact (balanced.obtain_ obtained).swappedIn (balanced.kept obtained here inSwap) inSwap
  | loaded seg v₁ unmapped _ notInSwap obtained =>
    refine (balanced.obtain_ obtained).installed .own _ (balanced.absent_obtained obtained unmapped ?_)
    intro e member key
    by_cases zero : vaPg = 0
    · exact Bool.eq_false_iff.mpr fun inSwap => balanced.keyed e member inSwap (key.trans zero)
    · obtain ⟨i, found, here⟩ := find_member keyed member key zero
      have absent := notInSwap i found
      unfold entryAt at absent
      rw [List.getD_eq_getElem?_getD, here] at absent
      exact absent
  | zeroed v₁ unmapped region anonymous obtained below =>
    have noted := balanced.noted vaPg
    refine (noted.obtain_ obtained).installed .own _ (noted.absent_obtained obtained ?_ ?_)
    · rw [noted_pte]
      exact unmapped
    · intro e member key
      rcases mem_noted member with old | rfl
      · exact keeps below unmapped region anonymous e old key
      · rfl

theorem moved {n t : Nat} {ok : Bool} (balanced : v.SwapBalanced)
    (keeps : u32 t = sbrkEager → ¬ isNegative n → v.ClearOf (pgroundup v.image.sz) (v.newSize n))
    (moved : Moved n t v ok v') : v'.SwapBalanced := by
  have range : v.growPages n = 0 ∨
      pgroundup v.image.sz + v.growPages n * 4096 ≤ v.newSize n + 4095 := by
    unfold growPages
    omega
  cases moved with
  | kept => exact balanced
  | refused => exact balanced
  | shrunk => exact balanced.congr rfl rfl rfl
  | grown _ _ eager positive _ grow =>
    exact (balanced.grow grow (pgroundup_aligned _) range (keeps eager positive)).congr rfl rfl rfl
  | failed _ _ eager positive _ grow =>
    exact (balanced.grow grow (pgroundup_aligned _) range (keeps eager positive)).congr rfl rfl rfl
  | lazy => exact balanced.congr rfl rfl rfl

theorem sbrk {n t : Nat} {ok : Bool} (balanced : v.SwapBalanced)
    (keeps : u32 t = sbrkEager → ¬ isNegative n → v.ClearOf (pgroundup v.image.sz) (v.newSize n))
    (sbrk : Sbrk n t v ok v') : v'.SwapBalanced := by
  cases sbrk with
  | failed _ moved => exact balanced.moved keeps moved
  | unmoved _ moved => exact balanced.moved keeps moved
  | moved _ moved => exact (balanced.moved keeps moved).congr rfl rfl rfl

-- The entries of the old image that a failing `kexec` takes for its own stack are not in swap.
theorem execFailed {file : Option Inode} (balanced : v.SwapBalanced)
    (keeps : ∀ guard, v.stackAt file = some guard → v.ClearOf guard (guard + 8192))
    (failed : v.ExecFailed file v') : v'.SwapBalanced := by
  cases failed with
  | early alike => exact balanced.of_alike alike
  | late guard _ _ w w' stack before _ grow after =>
    have clear : w.ClearOf guard (guard + 8192) := by
      unfold ClearOf
      rw [before.entries, before.pte]
      exact keeps guard stack
    exact ((balanced.of_alike before).grow grow (stackAt_aligned stack) (.inr (by omega)) clear).of_alike after

end Books.SwapBalanced

-- No page of the process between two addresses is in swap, and none with an entry is mapped.
def Machine.ClearOf (m : Machine) (start stop : Nat) : Prop :=
  ∀ e ∈ m.proc.pgmeta, e.va ≠ 0 → start ≤ e.va → e.va < stop →
    e.inSwap = false ∧ (e.va < maxva → m.proc.pagetable.leaf e.va = none)

-- No zero-filling fault at a page in swap, no eager growth over such a page or one that may go
-- there, no failed `kexec` whose stack pages are such pages of the old image.
def Machine.KeepsSwap (b : Build) (m : Machine) : Event → Prop
  | .fault va _ => va < maxva → m.proc.pagetable.leaf (pgrounddown va) = none →
    m.proc.segOf (pgrounddown va) = none →
    (m.proc.isHeap (pgrounddown va) || m.proc.isStack (pgrounddown va)) = true →
    ∀ e ∈ m.proc.pgmeta, e.va = pgrounddown va → e.inSwap = false
  | .sbrk n t => u32 t = sbrkEager → ¬ isNegative n →
    m.ClearOf (pgroundup m.proc.sz) (u64 (m.proc.sz + throughInt n))
  | .exec file argv created => m.execFails b file argv created = true →
    ∀ guard ∈ m.books.stackAt file, m.ClearOf guard (guard + 8192)
  | _ => True

instance (m : Machine) (start stop : Nat) : Decidable (m.ClearOf start stop) :=
  inferInstanceAs (Decidable (∀ e ∈ m.proc.pgmeta, _ → _ → _ → _ ∧ (_ → _)))

instance (b : Build) (m : Machine) : (e : Event) → Decidable (m.KeepsSwap b e)
  | .fault _ _ => inferInstanceAs (Decidable (_ → _ → _ → _ → ∀ e ∈ m.proc.pgmeta, _ → _))
  | .sbrk _ _ => inferInstanceAs (Decidable (_ → ¬ _ → _))
  | .exec _ _ _ => inferInstanceAs (Decidable (_ → ∀ guard ∈ m.books.stackAt _, _))
  | .other _ _ _ | .setSp _ | .evict | .fork _ _ => inferInstanceAs (Decidable True)

theorem Machine.ClearOf.books {start stop : Nat} (clear : m.ClearOf start stop) :
    m.books.ClearOf start stop := by
  intro e member key low high
  obtain ⟨old, before, rfl⟩ := List.mem_map.mp member
  obtain ⟨notInSwap, unmapped⟩ := clear old before key low high
  refine ⟨notInSwap, ?_⟩
  by_cases below : old.va < maxva
  · refine (PageTable.ptes_leaf _ below).trans ?_
    rw [unmapped below]
    rfl
  · have outside : ¬ old.va / 4096 < maxva / 4096 := by
      unfold maxva at *
      omega
    exact if_neg outside

theorem Books.SwapBalanced.after {m' : Machine} {e : Event} (balanced : m.books.SwapBalanced)
    (keyed : m.books.Keyed) (keeps : m.KeepsSwap b e) (taken : m.after b e = some m')
    (happens : m.books.Happens e m'.books) : m'.books.SwapBalanced := by
  cases e with
  | exec file argv created =>
    rcases Machine.after_exec taken with fresh | ⟨ran, failed⟩
    · exact .fresh fresh
    · exact balanced.execFailed (fun guard stack => (keeps ran guard stack).books) failed
  | fault va acc =>
    generalize m'.books = v' at happens
    cases happens with
    | fault _ _ ok _ faulted =>
      refine balanced.fault keyed (fun below unmapped region anonymous e member key => ?_) faulted
      obtain ⟨old, before, rfl⟩ := List.mem_map.mp member
      have here := (PageTable.ptes_leaf m.proc.pagetable below).symm.trans unmapped
      refine keeps ?_ (Option.map_eq_none_iff.mp here) region anonymous old before key
      unfold pgrounddown maxva at *
      omega
  | sbrk n t =>
    generalize m'.books = v' at happens
    cases happens with
    | sbrk _ _ _ _ sbrk => exact balanced.sbrk (fun eager positive => (keeps eager positive).books) sbrk
  | fork created follow =>
    generalize m'.books = v' at happens
    cases happens with
    | parent _ _ _ evictions =>
      exact evictions.preserves (fun _ _ _ balanced evict => balanced.evict evict)
        (fun _ _ balanced => balanced.congr rfl rfl rfl) balanced
    | child _ _ born => exact .born born
  | evict =>
    generalize m'.books = v' at happens
    cases happens with
    | evict _ _ evict => exact balanced.evict evict
  | setSp sp =>
    generalize m'.books = v' at happens
    cases happens
    exact balanced.congr rfl rfl rfl
  | other freelist mem writeBlocks =>
    generalize m'.books = v' at happens
    cases happens
    exact balanced

theorem swap_space_balanced {m₀ : Machine} (execed : m₀.Execed b)
    (reached : (m₀.lineage b).ReachableVia (Machine.KeepsSwap b) m) :
    (∀ e ∈ m.proc.pgmeta, ¬ (e.resident = true ∧ e.inSwap = true)) ∧
      (∀ slot < swapSlots, slotUsed m.proc.swapBitmap slot = true →
        ∃ e ∈ m.proc.pgmeta, e.inSwap = true ∧ e.slot = slot) ∧
      m.proc.swapPages = m.proc.pgmeta.countP PageMeta.inSwap ∧
      ((∀ e ∈ m.proc.pgmeta, e.inSwap = false) →
        ∀ slot < swapSlots, slotUsed m.proc.swapBitmap slot = false) := by
  have both : m.books.Keyed ∧ m.books.SwapBalanced := by
    refine Machine.lineage_invariant (I := fun v => v.Keyed ∧ v.SwapBalanced) execed.fresh
      ⟨.cleared execed.fresh.entries, .fresh execed.fresh⟩ ?_ reached
    exact fun m m' e held keeps taken happens =>
      ⟨held.1.happens happens, held.2.after held.1 keeps taken happens⟩
  have balanced := both.2
  have used (slot : Nat) (small : slot < swapSlots) (taken : slotUsed m.proc.swapBitmap slot = true) :
      ∃ e ∈ m.proc.pgmeta, e.inSwap = true ∧ e.slot = slot := by
    obtain ⟨e, member, inSwap, slot_⟩ := balanced.used slot small taken
    obtain ⟨old, before, rfl⟩ := List.mem_map.mp member
    exact ⟨old, before, inSwap, slot_⟩
  refine ⟨fun e member => ?_, used, ?_, fun none_ slot small => ?_⟩
  · rintro ⟨resident, inSwap⟩
    have gone := balanced.exclusive e.entry (List.mem_map_of_mem member) inSwap
    exact absurd (gone.symm.trans resident) Bool.false_ne_true
  · refine balanced.counted.trans ?_
    exact List.countP_map
  · refine Bool.eq_false_iff.mpr fun taken => ?_
    obtain ⟨e, member, inSwap, _⟩ := used slot small taken
    exact absurd ((none_ e member).symm.trans inSwap) Bool.false_ne_true

-- A heap page is written, goes to swap and keeps its slot there.
theorem swap_space_balanced_evicting : ∃ m₀ m : Machine, m₀.Execed .small ∧
    (m₀.lineage .small).ReachableVia (Machine.KeepsSwap .small) m ∧ m.proc.swapPages = 1 ∧
    m.proc.swapPages = m.proc.pgmeta.countP PageMeta.inSwap := by
  obtain ⟨m₀, m, execed, reached, shown⟩ := Machine.run_shows (b := .small) 40 (oneSegment 7) shortArgv
    [.sbrk 12288 2, .fault 0x4000 .read, .fault 0x4000 .write, .evict]
    (fun m e => decide (m.KeepsSwap .small e)) (fun _ m => decide (m.proc.swapPages = 1))
    (fun m e => of_decide_eq_true) (by decide +kernel)
  exact ⟨m₀, m, execed, reached, of_decide_eq_true shown, (swap_space_balanced execed reached).2.2.1⟩

-- A heap page in swap is filled with zeros at the next access, and its slot is never given back.
theorem zero_fill_leaks_slot : ∃ m₀ m : Machine, m₀.Execed .small ∧ (m₀.lineage .small).Reachable m ∧
    (∃ e ∈ m.proc.pgmeta, e.resident = true ∧ e.inSwap = true) := by
  obtain ⟨m₀, m, execed, reached, shown⟩ := Machine.run_shows (b := .small) 40 (oneSegment 7) shortArgv
    [.sbrk 12288 2, .fault 0x4000 .read, .fault 0x4000 .write, .evict, .fault 0x4000 .read]
    (fun _ _ => true) (fun _ m => decide (∃ e ∈ m.proc.pgmeta, e.resident = true ∧ e.inSwap = true))
    (fun _ _ _ => trivial) (by decide +kernel)
  exact ⟨m₀, m, execed, reached, of_decide_eq_true shown⟩

end SystemsSuite.Paging
