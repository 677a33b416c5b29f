import SystemsSuite.User.FreeList

set_option autoImplicit false

namespace SystemsSuite.User

open Lib

namespace Heap

variable {h h' : Heap} {base fuel fuel' : Nat}

theorem findPlace_mono {bp p r : Nat} (more : fuel ≤ fuel') (found : h.findPlace bp fuel p = some r) :
    h.findPlace bp fuel' p = some r := by
  induction fuel generalizing fuel' p with
  | zero => cases found
  | succ fuel ih =>
    obtain ⟨spare, rfl⟩ := Nat.exists_eq_add_of_le more
    rw [Nat.add_right_comm]
    simp only [findPlace] at found ⊢
    split
    next first => rwa [if_pos first] at found
    next first =>
      rw [if_neg first] at found
      split
      next second => rwa [if_pos second] at found
      next second =>
        rw [if_neg second] at found
        exact ih (Nat.le_add_right fuel spare) found

theorem free_mono {ap : Nat} (more : fuel ≤ fuel') (freed : h.free fuel ap = some h') : h.free fuel' ap = some h' := by
  obtain ⟨p, found, rfl⟩ := Option.map_eq_some_iff.mp freed
  exact Option.map_eq_some_iff.mpr ⟨p, findPlace_mono more found, rfl⟩

theorem morecore_mono {grants : Nat → Bool} {nu : Nat} {got : Heap × Nat} (more : fuel ≤ fuel')
    (ran : h.morecore grants fuel nu = some got) : h.morecore grants fuel' nu = some got := by
  simp only [morecore] at ran ⊢
  split
  next granted =>
    rw [if_pos granted] at ran
    obtain ⟨after, freed, rfl⟩ := Option.map_eq_some_iff.mp ran
    exact Option.map_eq_some_iff.mpr ⟨after, free_mono more freed, rfl⟩
  next refused => rwa [if_neg refused] at ran

theorem mallocLoop_mono {grants : Nat → Bool} {nunits prevp p : Nat} {got : Heap × Nat} (more : fuel ≤ fuel')
    (ran : mallocLoop grants nunits fuel h prevp p = some got) : mallocLoop grants nunits fuel' h prevp p = some got := by
  induction fuel generalizing fuel' h prevp p with
  | zero => cases ran
  | succ fuel ih =>
    obtain ⟨spare, rfl⟩ := Nat.exists_eq_add_of_le more
    have least := Nat.le_add_right fuel spare
    rw [Nat.add_right_comm]
    simp only [mallocLoop] at ran ⊢
    split
    next fits => rwa [if_pos fits] at ran
    next unfit =>
      rw [if_neg unfit] at ran
      split
      next round =>
        rw [if_pos round] at ran
        obtain ⟨grown, first, second⟩ := Option.bind_eq_some_iff.mp ran
        refine Option.bind_eq_some_iff.mpr ⟨grown, morecore_mono least first, ?_⟩
        split
        next empty => rwa [if_pos empty] at second
        next full =>
          rw [if_neg full] at second
          exact ih least second
      next onward =>
        rw [if_neg onward] at ran
        exact ih least ran

theorem malloc_mono {grants : Nat → Bool} {nbytes : Nat} {got : Heap × Nat} (more : fuel ≤ fuel')
    (ran : h.malloc base grants fuel nbytes = some got) : h.malloc base grants fuel' nbytes = some got := by
  simp only [malloc] at ran ⊢
  split
  next fresh =>
    rw [if_pos fresh] at ran
    exact mallocLoop_mono more ran
  next used =>
    rw [if_neg used] at ran
    exact mallocLoop_mono more ran

structure Sound (base : Nat) (h : Heap) (g : Holding) : Prop where
  address : 0 < base
  above : base + headerSize ≤ h.brk
  state : (h.freep = 0 ∧ g = ⟨[], 0⟩) ∨
    ∃ free, Owns base h free g.live ∧ 0 < h.freep ∧ units free + units g.live = g.obtained

theorem Sound.live {g : Holding} (sound : Sound base h g) :
    ∀ b ∈ g.live, base + headerSize ≤ b.1 ∧ b.stop ≤ h.brk ∧ h.sizeAt b.1 = b.2 := by
  intro b held
  obtain ⟨-, rfl⟩ | ⟨free, owns, -, -⟩ := sound.state
  · cases held
  · have bounds := owns.within b (List.mem_append_right _ held)
    exact ⟨bounds.1, bounds.2.trans (Nat.min_le_left ..), owns.headers b held⟩

theorem Sound.apart {g : Holding} (sound : Sound base h g) :
    g.live.Pairwise fun b c => b.stop ≤ c.1 ∨ c.stop ≤ b.1 := by
  obtain ⟨-, rfl⟩ | ⟨free, owns, -, -⟩ := sound.state
  · exact .nil
  · refine pairwise_of_cover (fun a => ?_) fun b held => owns.positive b (List.mem_append_right _ held)
    have all := owns.once a
    rw [cover_append] at all
    omega

theorem nunitsOf_bounds {nbytes : Nat} (small : nbytes + 32 ≤ 2 ^ 31) :
    0 < nunitsOf nbytes ∧ nunitsOf nbytes < 2 ^ 27 ∧ headerSize + nbytes ≤ headerSize * nunitsOf nbytes := by
  unfold nunitsOf headerSize
  omega

theorem owns_static (h : Heap) :
    Owns base { (h.setPtr base base).setSize base 0 with freep := base } [] [] := by
  constructor
  case ring =>
    refine ⟨rfl, sizeAt_setSize_self, ?_⟩
    exact ptrAt_setSize.trans ptrAt_setPtr_self
  case sorted => exact List.pairwise_singleton ..
  case starts => exact ⟨0, (base, 0), rfl, rfl⟩
  case headers => exact fun b member => absurd member List.not_mem_nil
  case once => exact fun a => Nat.zero_le 1
  case positive => exact fun b member => absurd member List.not_mem_nil
  case within => exact fun b member => absurd member List.not_mem_nil

theorem malloc_begins {g : Holding} (sound : Sound base h g) :
    ∃ h₀ free, (∀ grants fuel nbytes, h.malloc base grants fuel nbytes =
        mallocLoop grants (nunitsOf nbytes) fuel h₀ h₀.freep (h₀.mem h₀.freep).ptr) ∧
      Owns base h₀ free g.live ∧ 0 < h₀.freep ∧ h₀.brk = h.brk ∧ units free + units g.live = g.obtained := by
  obtain ⟨fresh, rfl⟩ | ⟨free, owns, freep, count⟩ := sound.state
  · refine ⟨_, [], fun grants fuel nbytes => ?_, owns_static h, sound.address, rfl, rfl⟩
    unfold malloc
    rw [if_pos fresh]
  · refine ⟨h, free, fun grants fuel nbytes => ?_, owns, freep, rfl, count⟩
    unfold malloc
    rw [if_neg freep.ne']

theorem malloc_ends {g : Holding} {nbytes : Nat} (sound : Sound base h g) (grants : Nat → Bool)
    (small : nbytes + 32 ≤ 2 ^ 31) (room : h.brk + 2 ^ 31 ≤ 2 ^ 36) :
    ∃ h' ap least, (∀ fuel, least ≤ fuel → h.malloc base grants fuel nbytes = some (h', ap)) ∧
      Sound base h' (g.note h (.malloc nbytes grants ap) h') ∧ (ap = 0 → grants h.brk = false) ∧
      (ap ≠ 0 → headerSize ≤ ap ∧ ap + nbytes ≤ Extent.stop (ap - headerSize, nunitsOf nbytes)) := by
  obtain ⟨positive, limit, payload⟩ := nunitsOf_bounds small
  obtain ⟨h₀, free, begins, owns, freep, brk, count⟩ := malloc_begins sound
  obtain ⟨h', ap, least, goes, outcome⟩ := owns.mallocs grants sound.address (brk.symm ▸ sound.above) positive limit
    (brk.symm ▸ room)
  refine ⟨h', ap, least, fun fuel enough => (begins grants fuel nbytes).trans (goes fuel enough), ?_⟩
  obtain ⟨rfl, rfl, refused⟩ | ⟨a, free', rfl, owns', freep', up, count'⟩ := outcome
  · refine ⟨⟨sound.address, brk.symm ▸ sound.above, .inr ⟨free, ?_, freep, ?_⟩⟩, fun _ => brk ▸ refused, fun got => absurd rfl got⟩
    · exact owns
    · have same : h'.brk - h.brk = 0 := by omega
      simp only [Holding.note, same, Nat.zero_div, Nat.add_zero]
      exact count
  · have notNull : a + headerSize ≠ 0 := by
      unfold headerSize
      omega
    have back : a + headerSize - headerSize = a := Nat.add_sub_cancel ..
    refine ⟨⟨sound.address, sound.above.trans (brk ▸ up), .inr ⟨free', ?_, freep', ?_⟩⟩, fun null => absurd null notNull,
      fun _ => ⟨Nat.le_add_left .., ?_⟩⟩
    · simp only [Holding.note, if_neg notNull, back]
      exact owns'
    · simp only [Holding.note, if_neg notNull, back, units_cons]
      rw [brk] at count'
      omega
    · unfold Extent.stop
      simp only [back]
      omega

theorem Owns.perm {free live live' : List Extent} (owns : Owns base h free live) (perm : live.Perm live') :
    Owns base h free live' := by
  have all : (free ++ live).Perm (free ++ live') := perm.append_left free
  refine ⟨owns.ring, owns.sorted, owns.starts, fun b held => owns.headers b (perm.mem_iff.mpr held), fun a => ?_,
    fun b member => owns.positive b (all.mem_iff.mpr member), fun b member => owns.within b (all.mem_iff.mpr member)⟩
  rw [cover, ← all.countP_eq]
  exact owns.once a

theorem free_ends {g : Holding} {b : Extent} (sound : Sound base h g) (held : b ∈ g.live) :
    ∃ h' least, (∀ fuel, least ≤ fuel → h.free fuel (b.1 + headerSize) = some h') ∧
      Sound base h' (g.note h (.free (b.1 + headerSize)) h') := by
  obtain ⟨-, rfl⟩ | ⟨free, owns, -, count⟩ := sound.state
  · cases held
  · obtain ⟨⟨bp, m⟩, front, back, -, start, split, erased⟩ :=
      List.exists_of_eraseP (p := fun c : Extent => decide (c.1 = b.1)) held (decide_eq_true rfl)
    obtain rfl : bp = b.1 := of_decide_eq_true start
    have perm : g.live.Perm ((b.1, m) :: (front ++ back)) := split ▸ List.perm_middle
    obtain ⟨h', free', freed, owns', count', -, brk, freep⟩ := (owns.perm perm).release sound.address
    have back_ : b.1 + headerSize - headerSize = b.1 := Nat.add_sub_cancel ..
    refine ⟨h', free.length + 1, freed, sound.address, brk.symm ▸ sound.above, .inr ⟨free', ?_, freep, ?_⟩⟩
    · simp only [Holding.note, back_, erased]
      exact owns'
    · simp only [Holding.note, back_, erased]
      rw [split] at count
      simp only [units_append, units_cons] at count ⊢
      omega

theorem Owns.moved {free live : List Extent} (owns : Owns base h free live) (n : Nat) :
    Owns base { h with brk := h.brk + n } free live := by
  refine ⟨owns.ring, owns.sorted, owns.starts, owns.headers, owns.once, owns.positive, fun b member => ?_⟩
  have bounds := owns.within b member
  simp only
  omega

theorem Owns.stored {free live : List Extent} {a : Nat} {b : Extent} (owns : Owns base h free live) (value : Header)
    (held : b ∈ live) (inside : b.1 + headerSize ≤ a ∧ a + headerSize ≤ b.stop) :
    Owns base { h with mem := Function.update h.mem a value } free live := by
  obtain ⟨low, high⟩ := inside
  have apart : ∀ c : Extent, c ∈ nodes base free ∨ c ∈ live → c.1 ≠ a := by
    intro c member same
    unfold Extent.stop headerSize at *
    obtain node | other := member
    · have beside := owns.apart node held
      have above := (owns.within b (List.mem_append_right _ held)).1
      obtain rfl | inFree := List.mem_cons.mp node
      · simp only at same
        unfold headerSize at above
        omega
      · have filled := owns.positive c (List.mem_append_left _ inFree)
        unfold Extent.stop headerSize at beside
        omega
    · obtain ⟨front, back, split⟩ := List.append_of_mem held
      have perm : live.Perm (b :: (front ++ back)) := split ▸ List.perm_middle
      obtain rfl | another := List.mem_cons.mp (perm.mem_iff.mp other)
      · omega
      · have beside := (owns.perm perm).starts_apart another
        have filled := owns.positive c (List.mem_append_right _ other)
        unfold Extent.stop headerSize at beside
        omega
  have frame : ∀ c : Extent, c ∈ nodes base free ∨ c ∈ live →
      Function.update h.mem a value c.1 = h.mem c.1 := fun c member => Function.update_of_ne (apart c member) ..
  refine ⟨?_, owns.sorted, owns.starts, fun c member => ?_, owns.once, owns.positive, owns.within⟩
  · refine chain_frame owns.ring fun node member => ?_
    have same := frame node (.inl member)
    exact ⟨congrArg Header.ptr same, congrArg Header.size same⟩
  · exact (congrArg Header.size (frame c (.inr member))).trans (owns.headers c member)

end Heap

variable {base : Nat} {h h' : Heap} {g : Holding}

-- Calls have one outcome, however much fuel finds it.
theorem malloc_unique {nbytes ap ap' : Nat} {grants : Nat → Bool} {h'' : Heap}
    (one : HeapStep.Does base h (.malloc nbytes grants ap) h') (other : HeapStep.Does base h (.malloc nbytes grants ap') h'') :
    h' = h'' ∧ ap = ap' := by
  obtain ⟨fuel, ran⟩ := one
  obtain ⟨fuel', ran'⟩ := other
  have same := (Heap.malloc_mono (Nat.le_max_left fuel fuel') ran).symm.trans (Heap.malloc_mono (Nat.le_max_right fuel fuel') ran')
  exact Prod.mk.inj (Option.some.inj same)

theorem free_unique {ap : Nat} {h'' : Heap} (base : Nat) (one : HeapStep.Does base h (.free ap) h')
    (other : HeapStep.Does base h (.free ap) h'') : h' = h'' := by
  obtain ⟨fuel, ran⟩ := one
  obtain ⟨fuel', ran'⟩ := other
  exact Option.some.inj ((Heap.free_mono (Nat.le_max_left fuel fuel') ran).symm.trans
    (Heap.free_mono (Nat.le_max_right fuel fuel') ran'))

theorem sound_step {l : HeapStep} (sound : Heap.Sound base h g) (proper : Proper h g l) (does : l.Does base h h') :
    Heap.Sound base h' (g.note h l h') := by
  cases l with
  | malloc nbytes grants ap =>
    obtain ⟨h'', ap', least, goes, sound', -⟩ := Heap.malloc_ends sound grants proper.1 proper.2
    obtain ⟨rfl, rfl⟩ := malloc_unique does ⟨least, goes least le_rfl⟩
    exact sound'
  | free ap =>
    obtain ⟨b, held, rfl⟩ := proper
    obtain ⟨h'', least, goes, sound'⟩ := Heap.free_ends sound held
    obtain rfl := free_unique base does ⟨least, goes least le_rfl⟩
    exact sound'
  | sbrk n =>
    obtain rfl := does
    refine ⟨sound.address, sound.above.trans (Nat.le_add_right ..), ?_⟩
    obtain fresh | ⟨free, owns, rest⟩ := sound.state
    · exact .inl fresh
    · exact .inr ⟨free, owns.moved n, rest⟩
  | store a value =>
    obtain rfl := does
    obtain ⟨b, held, inside⟩ := proper
    refine ⟨sound.address, sound.above, ?_⟩
    obtain ⟨-, rfl⟩ | ⟨free, owns, rest⟩ := sound.state
    · cases held
    · exact .inr ⟨free, owns.stored value held inside, rest⟩

theorem sound_of_reached (reached : (heapRuns base).ReachableVia (fun s => Proper s.1 s.2) (h, g)) :
    Heap.Sound base h g := by
  refine System.ReachableVia.invariant (I := fun s : Heap × Holding => Heap.Sound base s.1 s.2) ?_ ?_ reached
  · rintro s ⟨⟨fresh, address, above⟩, same⟩
    rw [same]
    exact ⟨address, above, .inl ⟨fresh, rfl⟩⟩
  · rintro s l t sound proper ⟨does, same⟩
    rw [same]
    exact sound_step sound proper does

-- Whatever the calls and the writes inside the blocks: each block is as large as it was asked to be, the blocks
-- of a process do not overlap, and the rest of what `sbrk` gave is in the list that `freep` points into.
theorem malloc_blocks_disjoint (reached : (heapRuns base).ReachableVia (fun s => Proper s.1 s.2) (h, g)) :
    (∀ b ∈ g.live, base + headerSize ≤ b.1 ∧ b.stop ≤ h.brk ∧ h.sizeAt b.1 = b.2) ∧
      g.live.Pairwise (fun b c => b.stop ≤ c.1 ∨ c.stop ≤ b.1) ∧
      (h.freep = 0 ∧ g = ⟨[], 0⟩ ∨ ∃ free : List Extent, Heap.Owns base h free g.live ∧
        units free + units g.live = g.obtained ∧ ∀ b ∈ free, ∀ c ∈ g.live, b.stop ≤ c.1 ∨ c.stop ≤ b.1) := by
  have sound := sound_of_reached reached
  refine ⟨sound.live, sound.apart, ?_⟩
  obtain fresh | ⟨free, owns, -, count⟩ := sound.state
  · exact .inl fresh
  · refine .inr ⟨free, owns, count, fun b inFree c held => ?_⟩
    exact apart_of_cover owns.once inFree held (owns.positive b (List.mem_append_left _ inFree))
      (owns.positive c (List.mem_append_right _ held))

-- Every call ends: `malloc` with a new block that has room for the request or, only when the kernel refuses
-- memory, with 0; and `free`.
theorem malloc_and_free_end (reached : (heapRuns base).ReachableVia (fun s => Proper s.1 s.2) (h, g)) :
    (∀ nbytes grants, nbytes + 32 ≤ 2 ^ 31 → h.brk + 2 ^ 31 ≤ 2 ^ 36 →
      ∃ h' ap, HeapStep.Does base h (.malloc nbytes grants ap) h' ∧ (ap = 0 → grants h.brk = false) ∧
        (ap ≠ 0 → ∃ bp, ap = bp + headerSize ∧ base + headerSize ≤ bp ∧ ap + nbytes ≤ Extent.stop (bp, h'.sizeAt bp) ∧
          Extent.stop (bp, h'.sizeAt bp) ≤ h'.brk ∧
          ∀ c ∈ g.live, Extent.stop (bp, h'.sizeAt bp) ≤ c.1 ∨ c.stop ≤ bp)) ∧
      ∀ b ∈ g.live, ∃ h', HeapStep.Does base h (.free (b.1 + headerSize)) h' := by
  have sound := sound_of_reached reached
  constructor
  · intro nbytes grants small room
    obtain ⟨h', ap, least, goes, sound', refused, payload⟩ := Heap.malloc_ends sound grants small room
    refine ⟨h', ap, ⟨least, goes least le_rfl⟩, refused, fun got => ?_⟩
    obtain ⟨above, fits⟩ := payload got
    have noted : (g.note h (.malloc nbytes grants ap) h').live = (ap - headerSize, Heap.nunitsOf nbytes) :: g.live := by
      unfold Holding.note
      simp only [if_neg got]
    have live := sound'.live
    have apart := sound'.apart
    rw [noted] at live apart
    obtain ⟨low, high, size⟩ := live _ List.mem_cons_self
    refine ⟨ap - headerSize, (Nat.sub_add_cancel above).symm, low, ?_⟩
    simp only at size
    rw [size]
    exact ⟨fits, high, fun c held => List.rel_of_pairwise_cons apart held⟩
  · intro b held
    obtain ⟨h', least, goes, -⟩ := Heap.free_ends sound held
    exact ⟨h', least, goes least le_rfl⟩

def onePage : Heap := ⟨fun _ => ⟨0, 0⟩, 0, 4096⟩

-- Two calls of `malloc`, of 20 and of 5 bytes.
def twoMallocs : Option (Heap × Nat × Heap × Nat) :=
  (onePage.malloc 100 (fun _ => true) 9 20).bind fun first =>
    (first.1.malloc 100 (fun _ => true) 9 5).map fun second => (first.1, first.2, second)

theorem twoMallocs_reached : ∃ (h : Heap) (g : Holding),
    (heapRuns 100).ReachableVia (fun s => Proper s.1 s.2) (h, g) ∧ g.live = [(69552, 2), (69584, 3)] ∧ g.obtained = 4096 ∧
      h.brk = 69632 := by
  obtain ⟨⟨h₁, ap₁, h₂, ap₂⟩, executed, shown⟩ := Option.any_eq_true .. |>.mp (show twoMallocs.any (fun t =>
    decide (t.1.brk = 69632 ∧ t.2.1 = 69600 ∧ t.2.2.1.brk = 69632 ∧ t.2.2.2 = 69568)) = true by decide +kernel)
  obtain ⟨brk₁, rfl, brk₂, rfl⟩ := of_decide_eq_true shown
  simp only at brk₁ brk₂
  unfold twoMallocs at executed
  obtain ⟨first, ran, rest⟩ := Option.bind_eq_some_iff.mp executed
  obtain ⟨second, ran', same⟩ := Option.map_eq_some_iff.mp rest
  obtain ⟨same₁, both⟩ := Prod.mk.inj same
  obtain ⟨same₂, rfl⟩ := Prod.mk.inj both
  obtain rfl : first = (h₁, 69600) := Prod.ext same₁ same₂
  have start : (heapRuns 100).ReachableVia (fun s => Proper s.1 s.2) (onePage, ⟨[], 0⟩) :=
    .initial ⟨⟨rfl, by decide, by decide⟩, rfl⟩
  have once : (heapRuns 100).ReachableVia (fun s => Proper s.1 s.2) (h₁, ⟨[(69584, 3)], 4096⟩) := by
    refine .step start (l := .malloc 20 (fun _ => true) 69600) ⟨by decide, by decide⟩ ⟨⟨9, ran⟩, ?_⟩
    simp [Holding.note, brk₁, onePage, headerSize, Heap.nunitsOf]
  have twice : (heapRuns 100).ReachableVia (fun s => Proper s.1 s.2) (h₂, ⟨[(69552, 2), (69584, 3)], 4096⟩) := by
    refine .step once (l := .malloc 5 (fun _ => true) 69568) ⟨by decide, by rw [brk₁]; decide⟩ ⟨⟨9, ran'⟩, ?_⟩
    simp [Holding.note, brk₁, brk₂, headerSize, Heap.nunitsOf]
  exact ⟨h₂, _, twice, rfl, rfl, brk₂⟩

theorem malloc_blocks_disjoint_two : ∃ (h : Heap) (g : Holding), g.live = [(69552, 2), (69584, 3)] ∧
    (∀ b ∈ g.live, 116 ≤ b.1 ∧ b.stop ≤ h.brk ∧ h.sizeAt b.1 = b.2) ∧
    g.live.Pairwise (fun b c => b.stop ≤ c.1 ∨ c.stop ≤ b.1) ∧
      ∃ free : List Extent, Heap.Owns 100 h free g.live ∧ units free + 5 = 4096 := by
  obtain ⟨h, g, reached, live, obtained, -⟩ := twoMallocs_reached
  obtain ⟨within, apart, ⟨-, empty⟩ | ⟨free, owns, count, -⟩⟩ := malloc_blocks_disjoint reached
  · rw [empty] at live
    contradiction
  · refine ⟨h, g, live, within, apart, free, owns, ?_⟩
    rw [live, obtained] at count
    exact count

theorem malloc_and_free_end_two : ∃ (h h' : Heap), HeapStep.Does 100 h (.free 69568) h' ∧
    ∃ h'' ap bp, HeapStep.Does 100 h (.malloc 7 (fun _ => true) ap) h'' ∧ ap = bp + headerSize ∧
      ap + 7 ≤ Extent.stop (bp, h''.sizeAt bp) ∧ Extent.stop (bp, h''.sizeAt bp) ≤ h''.brk := by
  obtain ⟨h, g, reached, live, -, brk⟩ := twoMallocs_reached
  obtain ⟨mallocs, frees⟩ := malloc_and_free_end reached
  obtain ⟨h', freed⟩ := frees (69552, 2) (by rw [live]; exact List.mem_cons_self)
  obtain ⟨h'', ap, got, refused, block⟩ := mallocs 7 (fun _ => true) (by decide) (by rw [brk]; decide)
  have some_ : ap ≠ 0 := fun null => absurd (refused null) (by decide)
  obtain ⟨bp, start, -, fits, inside, -⟩ := block some_
  exact ⟨h, h', freed, h'', ap, bp, got, start, fits, inside⟩

end SystemsSuite.User
