import SystemsSuite.Files.BufferCache

set_option autoImplicit false

namespace SystemsSuite.Files

open Lib

section Uses

variable {uses : List Use} {u u' : Nat} {old new : Use} {p : Use → Bool}

theorem count_set (new : Use) (here : uses[u]? = some old) :
    (uses.set u new).countP p + (p old).toNat = uses.countP p + (p new).toNat := by
  obtain ⟨inside, rfl⟩ := List.getElem?_eq_some_iff.mp here
  have before := (List.getElem_cons_eraseIdx_perm inside).countP_eq p
  have after := (List.set_perm_cons_eraseIdx inside new).countP_eq p
  rw [List.countP_cons] at before after
  cases first : p uses[u] <;> cases second : p new <;> simp [first, second] at before after ⊢ <;> omega

theorem count_erase (here : uses[u]? = some old) : (uses.eraseIdx u).countP p + (p old).toNat = uses.countP p := by
  obtain ⟨inside, rfl⟩ := List.getElem?_eq_some_iff.mp here
  have before := (List.getElem_cons_eraseIdx_perm inside).countP_eq p
  rw [List.countP_cons] at before
  cases first : p uses[u] <;> simp [first] at before ⊢ <;> omega

theorem count_add : (uses ++ [new]).countP p = uses.countP p + (p new).toNat := by
  rw [List.countP_append]
  cases first : p new <;> simp [first]

theorem count_pos (here : uses[u]? = some old) (counted : p old = true) : 0 < uses.countP p :=
  List.countP_pos_iff.mpr ⟨old, List.mem_of_getElem? here, counted⟩

theorem place_unique {old' : Use} (once : uses.countP p ≤ 1) (here : uses[u]? = some old) (there : uses[u']? = some old')
    (counted : p old = true) (counted' : p old' = true) : u = u' := by
  by_contra other
  have fewer : (uses.eraseIdx u).countP p + (p old).toNat = uses.countP p := count_erase here
  rw [counted, Bool.toNat_true] at fewer
  have none_ : (uses.eraseIdx u).countP p = 0 := by omega
  obtain ⟨inside, rfl⟩ := List.getElem?_eq_some_iff.mp there
  have member : uses[u'] ∈ uses.eraseIdx u := List.mem_eraseIdx_iff_getElem?.mpr ⟨u', Ne.symm other, there⟩
  exact absurd counted' (by simpa using List.countP_eq_zero.mp none_ _ member)

theorem stays {other : Use} (here : uses[u]? = some old) (member : other ∈ uses) (different : other ≠ old) :
    other ∈ uses.set u new := by
  obtain ⟨u', there⟩ := List.mem_iff_getElem?.mp member
  have place : u ≠ u' := by
    rintro rfl
    exact different (Option.some.inj (there.symm.trans here))
  exact List.mem_of_getElem? ((List.getElem?_set_ne place).trans there)

theorem remains {other : Use} (here : uses[u]? = some old) (member : other ∈ uses) (different : other ≠ old) :
    other ∈ uses.eraseIdx u := by
  obtain ⟨u', there⟩ := List.mem_iff_getElem?.mp member
  refine List.mem_eraseIdx_iff_getElem?.mpr ⟨u', ?_, there⟩
  rintro rfl
  exact different (Option.some.inj (there.symm.trans here))

end Uses

inductive Moves (c : Cache) (g : Versions) : CacheStep → Cache → Versions → Prop
  | share (dev blockno b : Nat) :
      c.cached dev blockno = some b → Moves c g (.bget dev blockno) (c.share b) (g.asks dev blockno)
  | recycle (dev blockno b : Nat) :
      c.cached dev blockno = none → c.unused = some b →
        Moves c g (.bget dev blockno) (c.recycle dev blockno b) (g.asks dev blockno)
  | acquiresleep (u b : Nat) :
      c.uses[u]? = some (.waiting b) → (c.buf b).locked = false →
        Moves c g (.acquiresleep u) ((c.setBuf b { c.buf b with locked := true }).setUse u (.locked b)) g
  | fill (u b : Nat) : c.uses[u]? = some (.locked b) → Moves c g (.fill u) (c.fill u b) g
  | modify (u b : Nat) (data : Block) :
      c.uses[u]? = some (.holding b) → Moves c g (.modify u data) (c.modify b data) (g.changed (c.buf b) b data)
  | bwrite (u b : Nat) : c.uses[u]? = some (.holding b) → Moves c g (.bwrite u) (c.bwrite b) (g.written b)
  | releasesleep (u b : Nat) :
      c.uses[u]? = some (.holding b) → Moves c g (.releasesleep u) (c.releasesleep u b) g
  | drop (u b : Nat) : c.uses[u]? = some (.leaving b) → Moves c g (.drop u) (c.drop u b) (g.dropped (c.buf b) u b)
  | bpin (u b : Nat) : c.uses[u]? = some (.holding b) → Moves c g (.bpin u) (c.bpin b) (g.pinned b)
  | bunpin (u b : Nat) : c.uses[u]? = some (.holding b) → Moves c g (.bunpin u) (c.bunpin b) (g.unpinned b)

theorem putBlock_self {blocks : Nat → Nat → Block} {dev blockno : Nat} {data : Block} :
    putBlock blocks dev blockno data dev blockno = data := by
  rw [putBlock, Function.update_self, Function.update_self]

theorem putBlock_other {blocks : Nat → Nat → Block} {dev blockno dev' blockno' : Nat} {data : Block}
    (other : ¬ (dev' = dev ∧ blockno' = blockno)) : putBlock blocks dev blockno data dev' blockno' = blocks dev' blockno' := by
  unfold putBlock
  by_cases same : dev' = dev
  · subst same
    rw [Function.update_self, Function.update_of_ne fun equal => other ⟨rfl, equal⟩]
  · rw [Function.update_of_ne same]

theorem Versions.changed_dirty {g : Versions} {x : Buf} {b : Nat} {data : Block} :
    (g.changed x b data).dirty = Function.update g.dirty b true := rfl

theorem Versions.written_dirty {g : Versions} {b : Nat} : (g.written b).dirty = Function.update g.dirty b false := rfl

namespace Cache

variable {c c' : Cache} {g g' : Versions} {l : CacheStep} {b b' u : Nat}

theorem held_iff : c.held u = some b ↔ c.uses[u]? = some (.holding b) := by
  unfold held
  split
  next b' here => rw [here]; simp
  next other =>
    constructor
    · intro impossible
      cases impossible
    · intro here
      exact absurd here (other b)

theorem bget_cases {dev blockno : Nat} (called : c.bget dev blockno = some c') :
    (∃ b, c.cached dev blockno = some b ∧ c' = c.share b) ∨
      c.cached dev blockno = none ∧ ∃ b, c.unused = some b ∧ c' = c.recycle dev blockno b := by
  unfold bget at called
  split at called
  next b found => exact .inl ⟨b, found, (Option.some.inj called).symm⟩
  next missing =>
    obtain ⟨b, free, rfl⟩ := Option.map_eq_some_iff.mp called
    exact .inr ⟨missing, b, free, rfl⟩

theorem moves_of_next (taken : c.next l = some c') : Moves c g l c' (g.note c l c') := by
  cases l with
  | bget dev blockno =>
    obtain ⟨b, found, rfl⟩ | ⟨missing, b, free, rfl⟩ := bget_cases taken
    · exact .share dev blockno b found
    · exact .recycle dev blockno b missing free
  | acquiresleep u =>
    simp only [next] at taken
    split at taken
    next b here =>
      unfold acquiresleep at taken
      split at taken
      next => contradiction
      next unlocked =>
        obtain rfl := Option.some.inj taken
        exact .acquiresleep u b here (Bool.not_eq_true _ ▸ unlocked)
    next => contradiction
  | fill u =>
    simp only [next] at taken
    split at taken
    next b here =>
      obtain rfl := Option.some.inj taken
      exact .fill u b here
    next => contradiction
  | modify u data =>
    obtain ⟨b, held, rfl⟩ := Option.map_eq_some_iff.mp taken
    simp only [Versions.note, held, Option.elim_some]
    exact .modify u b data (held_iff.mp held)
  | bwrite u =>
    obtain ⟨b, held, rfl⟩ := Option.map_eq_some_iff.mp taken
    simp only [Versions.note, held, Option.elim_some]
    exact .bwrite u b (held_iff.mp held)
  | releasesleep u =>
    obtain ⟨b, held, rfl⟩ := Option.map_eq_some_iff.mp taken
    exact .releasesleep u b (held_iff.mp held)
  | drop u =>
    simp only [next] at taken
    split at taken
    next b here =>
      obtain rfl := Option.some.inj taken
      simp only [Versions.note, here]
      exact .drop u b here
    next => contradiction
  | bpin u =>
    obtain ⟨b, held, rfl⟩ := Option.map_eq_some_iff.mp taken
    simp only [Versions.note, held, Option.elim_some]
    exact .bpin u b (held_iff.mp held)
  | bunpin u =>
    obtain ⟨b, held, rfl⟩ := Option.map_eq_some_iff.mp taken
    simp only [Versions.note, held, Option.elim_some]
    exact .bunpin u b (held_iff.mp held)

@[simp] theorem setBuf_self {x : Buf} : (c.setBuf b x).buf b = x := Function.update_self ..

@[simp] theorem setBuf_uses {x : Buf} : (c.setBuf b x).uses = c.uses := rfl

@[simp] theorem setUse_uses {use : Use} : (c.setUse u use).uses = c.uses.set u use := rfl

@[simp] theorem setUse_buf {use : Use} : (c.setUse u use).buf = c.buf := rfl

theorem setBuf_other {x : Buf} (other : b' ≠ b) : (c.setBuf b x).buf b' = c.buf b' := Function.update_of_ne other ..

def refers (b : Nat) (use : Use) : Bool := decide (use.buf = b)

def locks (b : Nat) (use : Use) : Bool := use.locks && decide (use.buf = b)

-- The references of a buffer are those of the calls and of the pins, and one call has its lock.
structure Counted (c : Cache) (pins : Nat → Nat) : Prop where
  users : ∀ use ∈ c.uses, use.buf < nbuf
  refs : ∀ b, (c.buf b).refcnt = c.uses.countP (refers b) + pins b
  lock : ∀ b, c.uses.countP (locks b) = (c.buf b).locked.toNat

namespace Counted

variable {pins : Nat → Nat} {old : Use} {x : Buf}

theorem user (counted : c.Counted pins) (here : c.uses[u]? = some old) : old.buf < nbuf :=
  counted.users old (List.mem_of_getElem? here)

theorem referred (counted : c.Counted pins) (here : c.uses[u]? = some old) : 0 < (c.buf old.buf).refcnt := by
  have counts : 0 < c.uses.countP (refers old.buf) := count_pos here (decide_eq_true rfl)
  have refs := counted.refs old.buf
  omega

theorem turn (new : Use) (counted : c.Counted pins) (here : c.uses[u]? = some old) (same : new.buf = old.buf)
    (refcnt : x.refcnt = (c.buf old.buf).refcnt)
    (locked : x.locked.toNat + old.locks.toNat = (c.buf old.buf).locked.toNat + new.locks.toNat) :
    ((c.setBuf old.buf x).setUse u new).Counted pins := by
  constructor
  case users =>
    intro use member
    obtain member | rfl := List.mem_or_eq_of_mem_set member
    · exact counted.users use member
    · exact same ▸ counted.user here
  case refs =>
    intro b
    have counts := count_set (p := refers b) new here
    have alike : refers b new = refers b old := by rw [refers, refers, same]
    rw [alike] at counts
    have refs := counted.refs b
    by_cases own : b = old.buf
    · subst own
      rw [setUse_uses, setBuf_uses, setUse_buf, setBuf_self, refcnt]
      omega
    · rw [setUse_uses, setBuf_uses, setUse_buf, setBuf_other own]
      omega
  case lock =>
    intro b
    have counts := count_set (p := locks b) new here
    have lock := counted.lock b
    by_cases own : b = old.buf
    · subst own
      have whole : locks old.buf new = new.locks ∧ locks old.buf old = old.locks := by simp [locks, same]
      rw [whole.1, whole.2] at counts
      rw [setUse_uses, setBuf_uses, setUse_buf, setBuf_self]
      omega
    · have others : locks b new = false ∧ locks b old = false := by simp [locks, same, Ne.symm own]
      rw [others.1, others.2] at counts
      rw [setUse_uses, setBuf_uses, setUse_buf, setBuf_other own]
      omega

theorem join (counted : c.Counted pins) (inside : b < nbuf) (refcnt : x.refcnt = (c.buf b).refcnt + 1)
    (locked : x.locked = (c.buf b).locked) :
    Cache.Counted { c.setBuf b x with uses := c.uses ++ [.waiting b] } pins := by
  constructor
  case users =>
    intro use member
    obtain member | member := List.mem_append.mp member
    · exact counted.users use member
    · obtain rfl := List.mem_singleton.mp member
      exact inside
  case refs =>
    intro b'
    have refs := counted.refs b'
    rw [count_add]
    by_cases own : b' = b
    · subst own
      have refers_ : refers b' (.waiting b') = true := decide_eq_true rfl
      rw [setBuf_self, refcnt, refers_, Bool.toNat_true]
      omega
    · have others : refers b' (.waiting b) = false := decide_eq_false (Ne.symm own)
      rw [setBuf_other own, others, Bool.toNat_false]
      omega
  case lock =>
    intro b'
    have lock := counted.lock b'
    have unlocked : locks b' (.waiting b) = false := rfl
    rw [count_add, unlocked, Bool.toNat_false, lock]
    by_cases own : b' = b
    · subst own
      rw [setBuf_self, locked]
      rfl
    · rw [setBuf_other own]
      rfl

theorem leave (counted : c.Counted pins) (here : c.uses[u]? = some (.leaving b)) : (c.drop u b).Counted pins := by
  constructor
  case users => exact fun use member => counted.users use (List.mem_of_mem_eraseIdx member)
  case refs =>
    intro b'
    have counts := count_erase (p := refers b') here
    have refs := counted.refs b'
    by_cases own : b' = b
    · subst own
      have refers_ : refers b' (.leaving b') = true := decide_eq_true rfl
      rw [refers_, Bool.toNat_true] at counts
      simp only [drop, setBuf_self]
      omega
    · have others : refers b' (.leaving b) = false := decide_eq_false (Ne.symm own)
      rw [others, Bool.toNat_false] at counts
      simp only [drop, setBuf_other own]
      omega
  case lock =>
    intro b'
    have counts := count_erase (p := locks b') here
    have unlocked : locks b' (.leaving b) = false := rfl
    rw [unlocked, Bool.toNat_false] at counts
    have lock := counted.lock b'
    by_cases own : b' = b
    · subst own
      simp only [drop, setBuf_self]
      omega
    · simp only [drop, setBuf_other own]
      omega

theorem pin {after : Nat} (counted : c.Counted pins) (locked : x.locked = (c.buf b).locked)
    (refcnt : x.refcnt + pins b = (c.buf b).refcnt + after) :
    (c.setBuf b x).Counted (Function.update pins b after) := by
  constructor
  case users => exact counted.users
  case refs =>
    intro b'
    have refs := counted.refs b'
    by_cases own : b' = b
    · subst own
      rw [setBuf_self, setBuf_uses, Function.update_self]
      omega
    · rw [setBuf_other own, setBuf_uses, Function.update_of_ne own]
      exact refs
  case lock =>
    intro b'
    rw [setBuf_uses, counted.lock b']
    by_cases own : b' = b
    · subst own
      rw [setBuf_self, locked]
    · rw [setBuf_other own]

theorem touch (counted : c.Counted pins) (locked : x.locked = (c.buf b).locked)
    (refcnt : x.refcnt = (c.buf b).refcnt) : (c.setBuf b x).Counted pins := by
  have kept : (c.setBuf b x).Counted (Function.update pins b (pins b)) := counted.pin locked (by omega)
  rwa [Function.update_eq_self] at kept

theorem unused (counted : c.Counted pins) (free : (c.buf b).refcnt = 0) :
    (∀ use ∈ c.uses, use.buf ≠ b) ∧ pins b = 0 := by
  have refs := counted.refs b
  constructor
  · intro use member same
    have counts : 0 < c.uses.countP (refers b) := List.countP_pos_iff.mpr ⟨use, member, decide_eq_true same⟩
    omega
  · omega

end Counted

-- The list has every buffer once, and those released later are before the others.
structure Listed (c : Cache) (g : Versions) : Prop where
  nodup : c.order.Nodup
  members : ∀ b, b ∈ c.order ↔ b < nbuf
  recent : c.order.Pairwise fun b b' => g.freed b' ≤ g.freed b
  past : ∀ b, g.freed b ≤ g.now

theorem cached_some {dev blockno : Nat} (found : c.cached dev blockno = some b) :
    b ∈ c.order ∧ (c.buf b).dev = dev ∧ (c.buf b).blockno = blockno :=
  ⟨List.mem_of_find?_eq_some found, by simpa using List.find?_some found⟩

theorem cached_none {dev blockno : Nat} (missing : c.cached dev blockno = none) (member : b ∈ c.order) :
    ¬ ((c.buf b).dev = dev ∧ (c.buf b).blockno = blockno) :=
  of_decide_eq_false (Bool.not_eq_true _ ▸ List.find?_eq_none.mp missing b member)

theorem unused_some (free : c.unused = some b) : b ∈ c.order ∧ (c.buf b).refcnt = 0 :=
  ⟨List.mem_reverse.mp (List.mem_of_find?_eq_some free), by simpa using List.find?_some free⟩

theorem unused_none (full : c.unused = none) (member : b ∈ c.order) : 0 < (c.buf b).refcnt := by
  have used := of_decide_eq_false (Bool.not_eq_true _ ▸ List.find?_eq_none.mp full b (List.mem_reverse.mpr member))
  omega

theorem unused_oldest (listed : c.Listed g) (free : c.unused = some b) (inside : b' < nbuf)
    (unused : (c.buf b').refcnt = 0) : g.freed b ≤ g.freed b' := by
  have member := (listed.members b').mpr inside
  obtain ⟨-, older, newer, split, before⟩ := List.find?_eq_some_iff_append.mp free
  have sorted := List.pairwise_reverse.mpr listed.recent
  rw [split] at sorted
  have place : b' ∈ older ++ b :: newer := split ▸ List.mem_reverse.mpr member
  obtain earlier | rfl | later := by simpa using place
  · exact absurd unused (by simpa using before b' earlier)
  · exact le_rfl
  · exact List.rel_of_pairwise_cons (List.pairwise_append.mp sorted).2.1 later

theorem Listed.promote (listed : c.Listed g) (inside : b < nbuf) (order : c'.order = b :: c.order.erase b)
    (freed : g'.freed = Function.update g.freed b (g.now + 1)) (now : g'.now = g.now + 1) : c'.Listed g' := by
  have member := (listed.members b).mpr inside
  have turned : (b :: c.order.erase b).Perm c.order := (List.perm_cons_erase member).symm
  have different : ∀ b' ∈ c.order.erase b, b' ≠ b := fun b' others same =>
    listed.nodup.not_mem_erase (same ▸ others)
  constructor
  case nodup => exact order ▸ turned.nodup_iff.mpr listed.nodup
  case members => exact fun b' => order ▸ (turned.mem_iff.trans (listed.members b'))
  case recent =>
    rw [order, List.pairwise_cons]
    constructor
    · intro b' others
      have past := listed.past b'
      rw [freed, Function.update_self, Function.update_of_ne (different b' others)]
      omega
    · have kept := listed.recent.sublist (List.erase_sublist (a := b))
      refine kept.imp_of_mem fun one other before => ?_
      rw [freed, Function.update_of_ne (different _ one), Function.update_of_ne (different _ other)]
      exact before
  case past =>
    intro b'
    have past := listed.past b'
    rw [freed, now]
    by_cases own : b' = b
    · rw [own, Function.update_self]
    · rw [Function.update_of_ne own]
      omega

theorem Listed.move (listed : c.Listed g) (counted : c.Counted g.pins) (moves : Moves c g l c' g') : c'.Listed g' := by
  cases moves with
  | share | recycle | acquiresleep | modify | bwrite | releasesleep | bpin | bunpin =>
    exact ⟨listed.nodup, listed.members, listed.recent, listed.past⟩
  | fill u b =>
    unfold fill
    split
    · exact ⟨listed.nodup, listed.members, listed.recent, listed.past⟩
    · exact ⟨listed.nodup, listed.members, listed.recent, listed.past⟩
  | drop u b here =>
    by_cases last : (c.buf b).refcnt = 1
    · exact listed.promote (counted.user here) (if_pos last) (if_pos last) (if_pos last)
    · unfold drop Versions.dropped
      simp only [if_neg last]
      exact ⟨listed.nodup, listed.members, listed.recent, listed.past⟩

theorem setBuf_same : c.setBuf b (c.buf b) = c := by rw [setBuf, Function.update_eq_self]

theorem Counted.move (counted : c.Counted g.pins) (listed : c.Listed g) (allowed : Disciplines c g l)
    (moves : Moves c g l c' g') : c'.Counted g'.pins := by
  cases moves with
  | share dev blockno b found => exact counted.join ((listed.members b).mp (cached_some found).1) rfl rfl
  | recycle dev blockno b missing free =>
    obtain ⟨member, unused⟩ := unused_some free
    exact counted.join ((listed.members b).mp member) (by rw [unused]) rfl
  | acquiresleep u b here unlocked => exact counted.turn (.locked b) here rfl rfl (by simp [Use.buf, Use.locks, unlocked])
  | fill u b here =>
    unfold fill
    split
    · have kept := counted.turn (x := c.buf b) (.holding b) here rfl rfl rfl
      rwa [Use.buf, setBuf_same] at kept
    · exact counted.turn (.holding b) here rfl rfl rfl
  | modify u b data here => exact counted.touch rfl rfl
  | bwrite u b here => exact ⟨counted.users, counted.refs, counted.lock⟩
  | releasesleep u b here =>
    have lock := counted.lock b
    have locked : 0 < c.uses.countP (locks b) := count_pos here (by simp [locks, Use.locks, Use.buf])
    refine counted.turn (.leaving b) here rfl rfl ?_
    cases value : (c.buf b).locked with
    | false =>
      rw [value, Bool.toNat_false] at lock
      omega
    | true => simp [Use.buf, value, Use.locks]
  | drop u b here => exact counted.leave here
  | bpin u b here =>
    refine counted.pin rfl ?_
    simp only
    omega
  | bunpin u b here =>
    have pinned := allowed b (held_iff.mpr here)
    have refs := counted.refs b
    refine counted.pin rfl ?_
    simp only
    omega

-- A block that has been read is in one buffer, which has it as it was last changed; what is not as on the disk is
-- pinned or held.
structure Stored (c : Cache) (g : Versions) : Prop where
  apart : ∀ b < nbuf, ∀ b' < nbuf, (c.buf b).dev ≠ 0 → (c.buf b').dev = (c.buf b).dev →
    (c.buf b').blockno = (c.buf b).blockno → b' = b
  known : ∀ b, 0 < (c.buf b).refcnt → (c.buf b).dev ≠ 0
  filled : ∀ b, .holding b ∈ c.uses → (c.buf b).valid = true
  fresh : ∀ b < nbuf, (c.buf b).valid = true → (c.buf b).dev ≠ 0 →
    (c.buf b).data = g.latest (c.buf b).dev (c.buf b).blockno
  stored : ∀ dev blockno, (∀ b < nbuf, (c.buf b).dev = dev → (c.buf b).blockno = blockno → g.dirty b = false) →
    c.disk dev blockno = g.latest dev blockno
  owed : ∀ b < nbuf, g.dirty b = true → (c.buf b).valid = true ∧ (0 < g.pins b ∨ .holding b ∈ c.uses)

namespace Stored

theorem steady (stored : c.Stored g)
    (same : ∀ b, (c'.buf b).dev = (c.buf b).dev ∧ (c'.buf b).blockno = (c.buf b).blockno ∧
      (c'.buf b).valid = (c.buf b).valid ∧ (c'.buf b).data = (c.buf b).data)
    (disk : c'.disk = c.disk) (latest : g'.latest = g.latest) (dirty : g'.dirty = g.dirty)
    (known : ∀ b, 0 < (c'.buf b).refcnt → (c.buf b).dev ≠ 0)
    (filled : ∀ b, .holding b ∈ c'.uses → .holding b ∈ c.uses ∨ (c.buf b).valid = true)
    (owed : ∀ b < nbuf, g.dirty b = true → 0 < g.pins b ∨ .holding b ∈ c.uses →
      0 < g'.pins b ∨ .holding b ∈ c'.uses) : c'.Stored g' := by
  constructor
  case apart =>
    intro b inside b' inside'
    rw [(same b).1, (same b).2.1, (same b').1, (same b').2.1]
    exact stored.apart b inside b' inside'
  case known => exact fun b used => (same b).1 ▸ known b used
  case filled =>
    intro b held
    rw [(same b).2.2.1]
    exact (filled b held).elim (stored.filled b) id
  case fresh =>
    intro b inside
    obtain ⟨dev, blockno, valid, data⟩ := same b
    rw [dev, blockno, valid, data, latest]
    exact stored.fresh b inside
  case stored =>
    intro dev blockno clean
    rw [disk, latest]
    apply stored.stored dev blockno
    intro b inside
    rw [← (same b).1, ← (same b).2.1, ← dirty]
    exact clean b inside
  case owed =>
    intro b inside changed
    rw [dirty] at changed
    obtain ⟨valid, kept⟩ := stored.owed b inside changed
    exact ⟨(same b).2.2.1 ▸ valid, owed b inside changed kept⟩

theorem upkeep {x : Buf} (stored : c.Stored g) (buf : c'.buf = (c.setBuf b x).buf)
    (same : x.dev = (c.buf b).dev ∧ x.blockno = (c.buf b).blockno ∧ x.valid = (c.buf b).valid ∧ x.data = (c.buf b).data)
    (disk : c'.disk = c.disk) (latest : g'.latest = g.latest) (dirty : g'.dirty = g.dirty)
    (known : 0 < x.refcnt → (c.buf b).dev ≠ 0)
    (filled : ∀ b, .holding b ∈ c'.uses → .holding b ∈ c.uses)
    (owed : ∀ b < nbuf, g.dirty b = true → 0 < g.pins b ∨ .holding b ∈ c.uses →
      0 < g'.pins b ∨ .holding b ∈ c'.uses) : c'.Stored g' := by
  refine stored.steady ?_ disk latest dirty ?_ (fun b held => .inl (filled b held)) owed
  · intro b'
    rw [buf]
    by_cases own : b' = b
    · subst own
      rwa [setBuf_self]
    · rw [setBuf_other own]
      exact ⟨rfl, rfl, rfl, rfl⟩
  · intro b'
    rw [buf]
    by_cases own : b' = b
    · subst own
      rwa [setBuf_self]
    · rw [setBuf_other own]
      exact stored.known b'

theorem clean (stored : c.Stored g) (counted : c.Counted g.pins) (inside : b < nbuf)
    (unused : (c.buf b).refcnt = 0) : g.dirty b = false := by
  obtain ⟨unreferred, unpinned⟩ := counted.unused unused
  by_contra changed
  obtain pinned | held := (stored.owed b inside (Bool.not_eq_false _ ▸ changed)).2
  · omega
  · exact unreferred _ held rfl

theorem recycle {dev blockno : Nat} (stored : c.Stored g) (counted : c.Counted g.pins) (device : dev ≠ 0)
    (missing : ∀ b < nbuf, ¬ ((c.buf b).dev = dev ∧ (c.buf b).blockno = blockno)) (inside : b < nbuf)
    (unused : (c.buf b).refcnt = 0) : (c.recycle dev blockno b).Stored g := by
  have unheld : .holding b ∉ c.uses := fun held => (counted.unused unused).1 _ held rfl
  have clean := stored.clean counted inside unused
  have holding : ∀ b', .holding b' ∈ (c.recycle dev blockno b).uses ↔ .holding b' ∈ c.uses := by
    simp [Cache.recycle]
  have own : (c.recycle dev blockno b).buf b =
      { c.buf b with dev := dev, blockno := blockno, valid := false, refcnt := 1 } := Function.update_self ..
  have others : ∀ b' ≠ b, (c.recycle dev blockno b).buf b' = c.buf b' := fun b' other => setBuf_other other
  constructor
  case apart =>
    intro b₁ inside₁ b₂ inside₂ known dev' blockno'
    by_cases first : b₁ = b
    · by_cases second : b₂ = b
      · rw [first, second]
      · rw [first, own, others b₂ second] at dev' blockno'
        exact absurd ⟨dev', blockno'⟩ (missing b₂ inside₂)
    · rw [others b₁ first] at known dev' blockno'
      by_cases second : b₂ = b
      · rw [second, own] at dev' blockno'
        exact absurd ⟨dev'.symm, blockno'.symm⟩ (missing b₁ inside₁)
      · rw [others b₂ second] at dev' blockno'
        exact stored.apart b₁ inside₁ b₂ inside₂ known dev' blockno'
  case known =>
    intro b' used
    by_cases same : b' = b
    · rwa [same, own]
    · rw [others b' same] at used ⊢
      exact stored.known b' used
  case filled =>
    intro b' held
    have before := (holding b').mp held
    have other : b' ≠ b := fun same => unheld (same ▸ before)
    rw [others b' other]
    exact stored.filled b' before
  case fresh =>
    intro b' inside' valid known
    by_cases same : b' = b
    · rw [same, own] at valid
      contradiction
    · rw [others b' same] at valid known ⊢
      exact stored.fresh b' inside' valid known
  case stored =>
    intro dev' blockno' unchanged
    apply stored.stored dev' blockno'
    intro b' inside' sameDev sameBlockno
    by_cases same : b' = b
    · rw [same, clean]
    · apply unchanged b' inside'
      · rwa [others b' same]
      · rwa [others b' same]
  case owed =>
    intro b' inside' changed
    have other : b' ≠ b := by
      rintro rfl
      rw [clean] at changed
      contradiction
    rw [others b' other, holding b']
    exact stored.owed b' inside' changed

theorem readIn {x : Buf} (stored : c.Stored g) (counted : c.Counted g.pins) (here : c.uses[u]? = some (.locked b))
    (empty : (c.buf b).valid = false)
    (read : x = { c.buf b with data := c.disk (c.buf b).dev (c.buf b).blockno, valid := true }) :
    ((c.setBuf b x).setUse u (.holding b)).Stored g := by
  have inside : b < nbuf := counted.user here
  have device := stored.known b (counted.referred here)
  have current : c.disk (c.buf b).dev (c.buf b).blockno = g.latest (c.buf b).dev (c.buf b).blockno := by
    apply stored.stored
    intro b' inside' sameDev sameBlockno
    obtain rfl := stored.apart b inside b' inside' device sameDev sameBlockno
    by_contra changed
    have valid := (stored.owed b' inside (Bool.not_eq_false _ ▸ changed)).1
    rw [empty] at valid
    contradiction
  have holding : ∀ b', .holding b' ∈ c.uses.set u (.holding b) → .holding b' ∈ c.uses ∨ b' = b := by
    intro b' held
    obtain before | same := List.mem_or_eq_of_mem_set held
    · exact .inl before
    · exact .inr (Use.holding.inj same)
  have keys : ∀ b', ((c.setBuf b x).buf b').dev = (c.buf b').dev ∧ ((c.setBuf b x).buf b').blockno = (c.buf b').blockno := by
    intro b'
    by_cases same : b' = b
    · rw [same, setBuf_self, read]
      exact ⟨rfl, rfl⟩
    · rw [setBuf_other same]
      exact ⟨rfl, rfl⟩
  constructor
  case apart =>
    intro b₁ inside₁ b₂ inside₂
    rw [setUse_buf, (keys b₁).1, (keys b₁).2, (keys b₂).1, (keys b₂).2]
    exact stored.apart b₁ inside₁ b₂ inside₂
  case known =>
    intro b' used
    rw [setUse_buf] at used ⊢
    rw [(keys b').1]
    by_cases same : b' = b
    · rwa [same]
    · rw [setBuf_other same] at used
      exact stored.known b' used
  case filled =>
    intro b' held
    rw [setUse_buf]
    by_cases same : b' = b
    · rw [same, setBuf_self, read]
    · rw [setBuf_other same]
      exact stored.filled b' ((holding b' held).resolve_right same)
  case fresh =>
    intro b' inside' valid known
    rw [setUse_buf] at valid known ⊢
    by_cases same : b' = b
    · rw [same, setBuf_self, read]
      exact current
    · rw [setBuf_other same] at valid known ⊢
      exact stored.fresh b' inside' valid known
  case stored =>
    intro dev blockno clean
    apply stored.stored dev blockno
    intro b' inside'
    have unchanged := clean b' inside'
    rwa [setUse_buf, (keys b').1, (keys b').2] at unchanged
  case owed =>
    intro b' inside' changed
    obtain ⟨valid, kept⟩ := stored.owed b' inside' changed
    rw [setUse_buf]
    by_cases same : b' = b
    · rw [same, setBuf_self, read]
      exact ⟨rfl, .inr (List.mem_set (List.getElem?_eq_some_iff.mp here).1 _)⟩
    · rw [setBuf_other same]
      refine ⟨valid, kept.imp_right fun held => ?_⟩
      exact stays here held nofun

theorem modify {data : Block} (stored : c.Stored g) (inside : b < nbuf) (device : (c.buf b).dev ≠ 0)
    (held : .holding b ∈ c.uses) : (c.modify b data).Stored (g.changed (c.buf b) b data) := by
  have valid := stored.filled b held
  have own : (c.modify b data).buf b = { c.buf b with data := data } := Function.update_self ..
  have others : ∀ b' ≠ b, (c.modify b data).buf b' = c.buf b' := fun b' other => setBuf_other other
  have same : ∀ b', ((c.modify b data).buf b').dev = (c.buf b').dev ∧
      ((c.modify b data).buf b').blockno = (c.buf b').blockno ∧ ((c.modify b data).buf b').valid = (c.buf b').valid ∧
      ((c.modify b data).buf b').refcnt = (c.buf b').refcnt := by
    intro b'
    by_cases same : b' = b
    · rw [same, own]
      exact ⟨rfl, rfl, rfl, rfl⟩
    · rw [others b' same]
      exact ⟨rfl, rfl, rfl, rfl⟩
  constructor
  case apart =>
    intro b₁ inside₁ b₂ inside₂
    rw [(same b₁).1, (same b₁).2.1, (same b₂).1, (same b₂).2.1]
    exact stored.apart b₁ inside₁ b₂ inside₂
  case known =>
    intro b'
    rw [(same b').1, (same b').2.2.2]
    exact stored.known b'
  case filled =>
    intro b' held'
    rw [(same b').2.2.1]
    exact stored.filled b' held'
  case fresh =>
    intro b' inside' valid' known
    rw [(same b').1, (same b').2.1]
    rw [(same b').1] at known
    rw [(same b').2.2.1] at valid'
    by_cases here : b' = b
    · rw [here, own]
      exact putBlock_self.symm
    · rw [others b' here]
      have apart : ¬ ((c.buf b').dev = (c.buf b).dev ∧ (c.buf b').blockno = (c.buf b).blockno) :=
        fun equal => here (stored.apart b inside b' inside' device equal.1 equal.2)
      exact (stored.fresh b' inside' valid' known).trans (putBlock_other apart).symm
  case stored =>
    intro dev blockno clean
    have elsewhere : ¬ (dev = (c.buf b).dev ∧ blockno = (c.buf b).blockno) := by
      rintro ⟨rfl, rfl⟩
      have unchanged : (g.changed (c.buf b) b data).dirty b = false := by
        apply clean b inside
        · exact (same b).1
        · exact (same b).2.1
      rw [Versions.changed_dirty, Function.update_self] at unchanged
      contradiction
    refine Eq.trans (stored.stored dev blockno ?_) (putBlock_other elsewhere).symm
    intro b' inside' sameDev sameBlockno
    have other : b' ≠ b := by
      rintro rfl
      exact elsewhere ⟨sameDev.symm, sameBlockno.symm⟩
    have unchanged : (g.changed (c.buf b) b data).dirty b' = false := by
      apply clean b' inside'
      · rw [(same b').1, sameDev]
      · rw [(same b').2.1, sameBlockno]
    rwa [Versions.changed_dirty, Function.update_of_ne other] at unchanged
  case owed =>
    intro b' inside' changed
    rw [(same b').2.2.1]
    by_cases here : b' = b
    · rw [here]
      exact ⟨valid, .inr held⟩
    · rw [Versions.changed_dirty, Function.update_of_ne here] at changed
      exact stored.owed b' inside' changed

theorem bwrite (stored : c.Stored g) (inside : b < nbuf) (device : (c.buf b).dev ≠ 0)
    (held : .holding b ∈ c.uses) : (c.bwrite b).Stored (g.written b) := by
  have current := stored.fresh b inside (stored.filled b held) device
  constructor
  case apart => exact stored.apart
  case known => exact stored.known
  case filled => exact stored.filled
  case fresh => exact stored.fresh
  case stored =>
    intro dev blockno clean
    by_cases here : dev = (c.buf b).dev ∧ blockno = (c.buf b).blockno
    · obtain ⟨rfl, rfl⟩ := here
      exact putBlock_self.trans current
    · refine (putBlock_other here).trans (stored.stored dev blockno ?_)
      intro b' inside' sameDev sameBlockno
      have other : b' ≠ b := by
        rintro rfl
        exact here ⟨sameDev.symm, sameBlockno.symm⟩
      have unchanged := clean b' inside' sameDev sameBlockno
      rwa [Versions.written_dirty, Function.update_of_ne other] at unchanged
  case owed =>
    intro b' inside' changed
    by_cases here : b' = b
    · rw [here, Versions.written_dirty, Function.update_self] at changed
      contradiction
    · rw [Versions.written_dirty, Function.update_of_ne here] at changed
      exact stored.owed b' inside' changed

end Stored

theorem repinned {pins : Nat → Nat} {after : Nat} (held : .holding b ∈ c.uses)
    (kept : 0 < pins b' ∨ .holding b' ∈ c.uses) :
    0 < Function.update pins b after b' ∨ .holding b' ∈ c.uses := by
  by_cases same : b' = b
  · rw [same]
    exact .inr held
  · rwa [Function.update_of_ne same]

theorem Stored.move (stored : c.Stored g) (counted : c.Counted g.pins) (listed : c.Listed g)
    (allowed : Disciplines c g l) (moves : Moves c g l c' g') : c'.Stored g' := by
  cases moves with
  | share dev blockno b found =>
    obtain ⟨-, rfl, -⟩ := cached_some found
    refine stored.upkeep (b := b) rfl ⟨rfl, rfl, rfl, rfl⟩ rfl rfl rfl (fun _ => allowed) ?_ ?_
    · intro b' held
      simpa [share] using held
    · exact fun b' _ _ kept => kept.imp_right (List.mem_append_left _)
  | recycle dev blockno b missing free =>
    obtain ⟨member, unused⟩ := unused_some free
    have absent : ∀ b' < nbuf, ¬ ((c.buf b').dev = dev ∧ (c.buf b').blockno = blockno) :=
      fun b' inside => cached_none missing ((listed.members b').mpr inside)
    have kept := stored.recycle counted allowed absent ((listed.members b).mp member) unused
    exact ⟨kept.apart, kept.known, kept.filled, kept.fresh, kept.stored, kept.owed⟩
  | acquiresleep u b here unlocked =>
    have device := stored.known b (counted.referred here)
    refine stored.upkeep (b := b) rfl ⟨rfl, rfl, rfl, rfl⟩ rfl rfl rfl (fun _ => device) ?_ ?_
    · exact fun b' held => (List.mem_or_eq_of_mem_set held).resolve_right nofun
    · exact fun b' _ _ kept => kept.imp_right fun held => stays here held nofun
  | fill u b here =>
    unfold fill
    split
    next valid =>
      have device := stored.known b (counted.referred here)
      refine stored.steady (fun _ => ⟨rfl, rfl, rfl, rfl⟩) rfl rfl rfl stored.known ?_ ?_
      · intro b' held
        obtain before | same := List.mem_or_eq_of_mem_set held
        · exact .inl before
        · exact .inr (Use.holding.inj same ▸ valid)
      · exact fun b' _ _ kept => kept.imp_right fun held => stays here held nofun
    next empty => exact stored.readIn counted here (Bool.not_eq_true _ ▸ empty) rfl
  | modify u b data here =>
    exact stored.modify (counted.user here) (stored.known b (counted.referred here)) (List.mem_of_getElem? here)
  | bwrite u b here =>
    exact stored.bwrite (counted.user here) (stored.known b (counted.referred here)) (List.mem_of_getElem? here)
  | releasesleep u b here =>
    have device := stored.known b (counted.referred here)
    refine stored.upkeep (b := b) rfl ⟨rfl, rfl, rfl, rfl⟩ rfl rfl rfl (fun _ => device) ?_ ?_
    · exact fun b' held => (List.mem_or_eq_of_mem_set held).resolve_right nofun
    · intro b' inside changed kept
      by_cases same : b' = b
      · subst same
        exact .inl (allowed b' (held_iff.mpr here) changed)
      · exact kept.imp_right fun held => stays here held fun equal => same (Use.holding.inj equal)
  | drop u b here =>
    have device := stored.known b (counted.referred here)
    refine stored.upkeep (b := b) rfl ⟨rfl, rfl, rfl, rfl⟩ rfl rfl rfl (fun _ => device) ?_ ?_
    · exact fun b' held => List.mem_of_mem_eraseIdx held
    · exact fun b' _ _ kept => kept.imp_right fun held => remains here held nofun
  | bpin u b here =>
    have device := stored.known b (counted.referred here)
    refine stored.upkeep (b := b) rfl ⟨rfl, rfl, rfl, rfl⟩ rfl rfl rfl (fun _ => device) (fun _ held => held) ?_
    exact fun b' _ _ kept => repinned (List.mem_of_getElem? here) kept
  | bunpin u b here =>
    have device := stored.known b (counted.referred here)
    refine stored.upkeep (b := b) rfl ⟨rfl, rfl, rfl, rfl⟩ rfl rfl rfl (fun _ => device) (fun _ held => held) ?_
    exact fun b' _ _ kept => repinned (List.mem_of_getElem? here) kept

def key (c : Cache) (use : Use) : Nat × Nat := ((c.buf use.buf).dev, (c.buf use.buf).blockno)

def Keyed (c : Cache) (g : Versions) : Prop := g.asked = c.uses.map c.key

theorem key_kept {x : Buf} (buf : c'.buf = (c.setBuf b x).buf) (dev : x.dev = (c.buf b).dev)
    (blockno : x.blockno = (c.buf b).blockno) : c'.key = c.key := by
  funext use
  by_cases same : use.buf = b
  · rw [key, key, buf, same, setBuf_self, dev, blockno]
  · rw [key, key, buf, setBuf_other same]

theorem map_key_set {old : Use} (new : Use) (here : c.uses[u]? = some old) (same : new.buf = old.buf) :
    (c.uses.set u new).map c.key = c.uses.map c.key := by
  obtain ⟨inside, rfl⟩ := List.getElem?_eq_some_iff.mp here
  have alike : c.key new = c.key c.uses[u] := by rw [key, key, same]
  have self : (c.uses.set u c.uses[u]).map c.key = c.uses.map c.key := by rw [List.set_getElem_self]
  rwa [List.map_set, alike, ← List.map_set]

theorem Keyed.move (keyed : c.Keyed g) (counted : c.Counted g.pins) (moves : Moves c g l c' g') : c'.Keyed g' := by
  unfold Keyed at keyed ⊢
  cases moves with
  | share dev blockno b found =>
    obtain ⟨-, dev, blockno⟩ := cached_some found
    have kept : (c.share b).key = c.key := key_kept (b := b) rfl rfl rfl
    have uses : (c.share b).uses = c.uses ++ [.waiting b] := rfl
    rw [kept, uses, List.map_append, ← keyed, List.map_singleton, key, Use.buf, dev, blockno]
    rfl
  | recycle dev blockno b missing free =>
    have unreferred := (counted.unused (unused_some free).2).1
    have others : c.uses.map (c.recycle dev blockno b).key = c.uses.map c.key := by
      refine List.map_congr_left fun use member => ?_
      have own : (c.recycle dev blockno b).buf use.buf = c.buf use.buf := setBuf_other (unreferred use member)
      rw [key, key, own]
    have uses : (c.recycle dev blockno b).uses = c.uses ++ [.waiting b] := rfl
    have own : (c.recycle dev blockno b).buf b =
        { c.buf b with dev := dev, blockno := blockno, valid := false, refcnt := 1 } := Function.update_self ..
    rw [uses, List.map_append, others, ← keyed, List.map_singleton, key, Use.buf, own]
    rfl
  | acquiresleep u b here unlocked =>
    have kept : ((c.setBuf b { c.buf b with locked := true }).setUse u (.locked b)).key = c.key :=
      key_kept (b := b) rfl rfl rfl
    rw [kept, setUse_uses, setBuf_uses, map_key_set (.locked b) here rfl, keyed]
  | fill u b here =>
    unfold fill
    split
    · exact keyed.trans (map_key_set (.holding b) here rfl).symm
    · have kept : ((c.setBuf b { c.buf b with data := c.disk (c.buf b).dev (c.buf b).blockno, valid := true }).setUse u
          (.holding b)).key = c.key := key_kept (b := b) rfl rfl rfl
      rw [kept, setUse_uses, setBuf_uses, map_key_set (.holding b) here rfl, keyed]
  | modify u b data here =>
    have kept : (c.modify b data).key = c.key := key_kept (b := b) rfl rfl rfl
    rw [kept]
    exact keyed
  | bwrite u b here => exact keyed
  | releasesleep u b here =>
    have kept : (c.releasesleep u b).key = c.key := key_kept (b := b) rfl rfl rfl
    have uses : (c.releasesleep u b).uses = c.uses.set u (.leaving b) := rfl
    rw [kept, uses, map_key_set (.leaving b) here rfl, keyed]
  | drop u b here =>
    have kept : (c.drop u b).key = c.key := key_kept (b := b) rfl rfl rfl
    have uses : (c.drop u b).uses = c.uses.eraseIdx u := rfl
    have asked : (g.dropped (c.buf b) u b).asked = g.asked.eraseIdx u := rfl
    rw [kept, uses, asked, keyed, List.eraseIdx_map]
  | bpin u b here =>
    have kept : (c.bpin b).key = c.key := key_kept (b := b) rfl rfl rfl
    rw [kept]
    exact keyed
  | bunpin u b here =>
    have kept : (c.bunpin b).key = c.key := key_kept (b := b) rfl rfl rfl
    rw [kept]
    exact keyed

structure Coherent (c : Cache) (g : Versions) : Prop where
  counted : c.Counted g.pins
  listed : c.Listed g
  stored : c.Stored g
  keyed : c.Keyed g

theorem coherent_binit (disk : Nat → Nat → Block) : (binit disk).Coherent (.start (binit disk)) := by
  have order : (binit disk).order = (List.range nbuf).reverse := rfl
  refine ⟨⟨?_, ?_, ?_⟩, ⟨?_, ?_, ?_, ?_⟩, ⟨?_, ?_, ?_, ?_, ?_, ?_⟩, rfl⟩
  · exact fun use member => absurd member List.not_mem_nil
  · exact fun b => rfl
  · exact fun b => rfl
  · exact order ▸ List.nodup_reverse.mpr List.nodup_range
  · intro b
    rw [order, List.mem_reverse, List.mem_range]
  · exact List.pairwise_of_forall fun _ _ => le_rfl
  · exact fun b => le_rfl
  · exact fun b _ b' _ device => absurd rfl device
  · exact fun b used => absurd used (Nat.lt_irrefl 0)
  · exact fun b held => absurd held List.not_mem_nil
  · exact fun b _ valid => absurd valid Bool.false_ne_true
  · exact fun dev blockno _ => rfl
  · exact fun b _ changed => absurd changed Bool.false_ne_true

theorem coherent_of_reached (reached : cacheRuns.ReachableVia (fun s => Disciplines s.1 s.2) (c, g)) : c.Coherent g := by
  refine System.ReachableVia.invariant (I := fun s : Cache × Versions => s.1.Coherent s.2) ?_ ?_ reached
  · rintro s ⟨⟨disk, first⟩, same⟩
    rw [same, first]
    exact coherent_binit disk
  · rintro s l t coherent allowed ⟨taken, same⟩
    have moves := moves_of_next (g := s.2) taken
    rw [← same] at moves
    exact ⟨coherent.counted.move coherent.listed allowed moves, coherent.listed.move coherent.counted moves,
      coherent.stored.move coherent.counted coherent.listed allowed moves, coherent.keyed.move coherent.counted moves⟩

namespace Coherent

theorem held (coherent : c.Coherent g) (has : c.held u = some b) :
    g.asked[u]? = some ((c.buf b).dev, (c.buf b).blockno) ∧
      (c.buf b).data = g.latest (c.buf b).dev (c.buf b).blockno := by
  have here := held_iff.mp has
  have device := coherent.stored.known b (coherent.counted.referred here)
  have valid := coherent.stored.filled b (List.mem_of_getElem? here)
  refine ⟨?_, coherent.stored.fresh b (coherent.counted.user here) valid device⟩
  rw [coherent.keyed, List.getElem?_map, here]
  rfl

theorem alone {u' : Nat} (coherent : c.Coherent g) (has : c.held u = some b) (has' : c.held u' = some b')
    (same : g.asked[u']? = g.asked[u]?) : u' = u := by
  have here := held_iff.mp has
  have there := held_iff.mp has'
  rw [(coherent.held has).1, (coherent.held has').1] at same
  obtain ⟨dev, blockno⟩ := Prod.mk.inj (Option.some.inj same)
  have device := coherent.stored.known b (coherent.counted.referred here)
  obtain rfl := coherent.stored.apart b (coherent.counted.user here) b' (coherent.counted.user there) device dev blockno
  have lock := coherent.counted.lock b'
  have once : c.uses.countP (locks b') ≤ 1 := by
    rw [lock]
    exact Bool.toNat_le _
  apply place_unique once there here
  · simp [locks, Use.locks, Use.buf]
  · simp [locks, Use.locks, Use.buf]

theorem onDisk {dev blockno : Nat} (coherent : c.Coherent g)
    (unused : ∀ b < nbuf, (c.buf b).dev = dev → (c.buf b).blockno = blockno → (c.buf b).refcnt = 0) :
    c.disk dev blockno = g.latest dev blockno := by
  apply coherent.stored.stored
  intro b inside sameDev sameBlockno
  exact coherent.stored.clean coherent.counted inside (unused b inside sameDev sameBlockno)

end Coherent

theorem references_total (counted : c.Counted g.pins) :
    ∑ b ∈ Finset.range nbuf, (c.buf b).refcnt = c.uses.length + ∑ b ∈ Finset.range nbuf, g.pins b := by
  have calls : ∀ uses : List Use, (∀ use ∈ uses, use.buf < nbuf) →
      ∑ b ∈ Finset.range nbuf, uses.countP (refers b) = uses.length := by
    intro uses
    induction uses with
    | nil => simp
    | cons use rest ih =>
      intro inside
      have rest_ := ih fun other member => inside other (List.mem_cons_of_mem _ member)
      have own := inside use List.mem_cons_self
      simp only [List.countP_cons, Finset.sum_add_distrib, rest_, List.length_cons, refers, decide_eq_true_eq]
      rw [Finset.sum_ite_eq, if_pos (Finset.mem_range.mpr own)]
  rw [Finset.sum_congr rfl fun b _ => counted.refs b, Finset.sum_add_distrib, calls c.uses counted.users]

end Cache

variable {c : Cache} {g : Versions}

-- A call that `bread` has returned to has, alone, the block it asked for as it was last changed; a block that no
-- call and no pin has is so on the disk.
theorem buffer_cache_is_coherent (reached : cacheRuns.ReachableVia (fun s => Disciplines s.1 s.2) (c, g)) :
    (∀ u b, c.held u = some b →
      ∃ dev blockno, g.asked[u]? = some (dev, blockno) ∧ (c.buf b).data = g.latest dev blockno) ∧
      (∀ u u' b b', c.held u = some b → c.held u' = some b' → g.asked[u']? = g.asked[u]? → u' = u) ∧
      ∀ dev blockno, (∀ b < nbuf, (c.buf b).dev = dev → (c.buf b).blockno = blockno → (c.buf b).refcnt = 0) →
        c.disk dev blockno = g.latest dev blockno := by
  have coherent := Cache.coherent_of_reached reached
  refine ⟨fun u b has => ?_, fun u u' b b' has has' => coherent.alone has has', fun dev blockno => coherent.onDisk⟩
  exact ⟨_, _, (coherent.held has).1, (coherent.held has).2⟩

-- `bget` takes a buffer from no one, of the free ones the one that was given back first, and panics only when
-- calls and pins have them all.
theorem buffer_cache_recycles_oldest (reached : cacheRuns.ReachableVia (fun s => Disciplines s.1 s.2) (c, g))
    (dev blockno : Nat) :
    (∀ c', c.bget dev blockno = some c' → ∃ b < nbuf, c'.uses = c.uses ++ [.waiting b] ∧
      (c' = c.share b ∧ (c.buf b).dev = dev ∧ (c.buf b).blockno = blockno ∨
        c' = c.recycle dev blockno b ∧ (∀ b' < nbuf, ¬ ((c.buf b').dev = dev ∧ (c.buf b').blockno = blockno)) ∧
          (∀ use ∈ c.uses, use.buf ≠ b) ∧ g.pins b = 0 ∧ g.dirty b = false ∧
            ∀ b' < nbuf, (c.buf b').refcnt = 0 → g.freed b ≤ g.freed b')) ∧
      (c.bget dev blockno = none → (∀ b < nbuf, 0 < (c.buf b).refcnt) ∧
        nbuf ≤ c.uses.length + ∑ b ∈ Finset.range nbuf, g.pins b) := by
  have coherent := Cache.coherent_of_reached reached
  have listed := coherent.listed
  constructor
  case left =>
    intro c' called
    obtain ⟨b, found, rfl⟩ | ⟨missing, b, free, rfl⟩ := Cache.bget_cases called
    · obtain ⟨member, sameDev, sameBlockno⟩ := Cache.cached_some found
      exact ⟨b, (listed.members b).mp member, rfl, .inl ⟨rfl, sameDev, sameBlockno⟩⟩
    · obtain ⟨member, unused⟩ := Cache.unused_some free
      have inside := (listed.members b).mp member
      obtain ⟨unreferred, unpinned⟩ := coherent.counted.unused unused
      have clean := coherent.stored.clean coherent.counted inside unused
      have absent : ∀ b' < nbuf, ¬ ((c.buf b').dev = dev ∧ (c.buf b').blockno = blockno) :=
        fun b' inside' => Cache.cached_none missing ((listed.members b').mpr inside')
      have oldest : ∀ b' < nbuf, (c.buf b').refcnt = 0 → g.freed b ≤ g.freed b' :=
        fun b' inside' free' => Cache.unused_oldest listed free inside' free'
      exact ⟨b, inside, rfl, .inr ⟨rfl, absent, unreferred, unpinned, clean, oldest⟩⟩
  case right =>
    intro stopped
    have full : c.unused = none := by
      unfold Cache.bget at stopped
      split at stopped
      next => contradiction
      next => exact Option.map_eq_none_iff.mp stopped
    have used : ∀ b < nbuf, 0 < (c.buf b).refcnt :=
      fun b inside => Cache.unused_none full ((listed.members b).mpr inside)
    refine ⟨used, ?_⟩
    rw [← Cache.references_total coherent.counted]
    have one := Finset.card_nsmul_le_sum (Finset.range nbuf) (fun b => (c.buf b).refcnt) 1
      fun b inside => used b (Finset.mem_range.mp inside)
    simpa using one

def disciplinesCheck (s : Cache × Versions) : CacheStep → Bool
  | .bget dev _ => decide (dev ≠ 0)
  | .releasesleep u => (s.1.held u).all fun b => !s.2.dirty b || decide (0 < s.2.pins b)
  | .bunpin u => (s.1.held u).all fun b => decide (0 < s.2.pins b)
  | .acquiresleep _ | .fill _ | .modify _ _ | .bwrite _ | .drop _ | .bpin _ => true

theorem disciplinesCheck_sound (s : Cache × Versions) (l : CacheStep) (checked : disciplinesCheck s l = true) :
    Disciplines s.1 s.2 l := by
  cases l with
  | bget dev blockno => exact of_decide_eq_true (p := dev ≠ 0) checked
  | releasesleep u =>
    intro b held dirty
    simp only [disciplinesCheck, held, Option.all_some, dirty, Bool.not_true, Bool.false_or] at checked
    exact of_decide_eq_true checked
  | bunpin u =>
    intro b held
    simp only [disciplinesCheck, held, Option.all_some] at checked
    exact of_decide_eq_true checked
  | acquiresleep | fill | modify | bwrite | drop | bpin => trivial

-- A `log_write` of a block that has `value` then.
def logged (blockno : Nat) (value : UInt8) : List CacheStep :=
  [.bget 1 blockno, .acquiresleep 0, .fill 0, .modify 0 fun _ => value, .bpin 0, .releasesleep 0, .drop 0]

theorem buffer_cache_is_coherent_logged : ∃ (c : Cache) (g : Versions),
    cacheRuns.ReachableVia (fun s => Disciplines s.1 s.2) (c, g) ∧ c.disk 1 5 0 = 0 ∧ g.latest 1 5 0 = 9 ∧
      ∃ b, c.held 0 = some b ∧ (c.buf b).data 0 = 9 := by
  let blank : Cache := .binit fun _ _ _ => 0
  obtain ⟨⟨c, g⟩, executed, shown⟩ := Option.any_eq_true .. |>.mp (show (System.execute
    (fun s l => (Cache.next s.1 l).map fun t => (t, Versions.note s.2 s.1 l t)) disciplinesCheck (blank, .start blank)
      (logged 5 9 ++ [.bget 1 5, .acquiresleep 0, .fill 0])).any (fun t => decide
        (t.1.disk 1 5 0 = 0 ∧ t.2.latest 1 5 0 = 9 ∧ t.2.asked = [(1, 5)] ∧ t.1.held 0 = some 0)) = true by decide +kernel)
  obtain ⟨disk, latest, asked, held⟩ := of_decide_eq_true shown
  have empty : ∃ disk, blank = .binit disk := ⟨_, rfl⟩
  have reached : cacheRuns.ReachableVia (fun s => Disciplines s.1 s.2) (c, g) :=
    System.execute_recorded disciplinesCheck_sound empty executed
  obtain ⟨dev, blockno, asks, data⟩ := (buffer_cache_is_coherent reached).1 0 0 held
  rw [asked] at asks
  obtain ⟨rfl, rfl⟩ := Prod.mk.inj (Option.some.inj asks)
  exact ⟨c, g, reached, disk, latest, 0, held, by rw [data, latest]⟩

-- A log as long as it can be pins every buffer, and nothing else can be read.
theorem buffer_cache_recycles_oldest_pinned : ∃ (c : Cache) (g : Versions),
    cacheRuns.ReachableVia (fun s => Disciplines s.1 s.2) (c, g) ∧ c.bget 1 (100 + logBlocks) = none ∧
      nbuf ≤ ∑ b ∈ Finset.range nbuf, g.pins b := by
  let blank : Cache := .binit fun _ _ _ => 0
  obtain ⟨⟨c, g⟩, executed, shown⟩ := Option.any_eq_true .. |>.mp (show (System.execute
    (fun s l => (Cache.next s.1 l).map fun t => (t, Versions.note s.2 s.1 l t)) disciplinesCheck (blank, .start blank)
      ((List.range logBlocks).flatMap fun i => logged (100 + i) 9)).any (fun t =>
        decide (t.1.uses = []) && (t.1.bget 1 (100 + logBlocks)).isNone) = true by decide +kernel)
  obtain ⟨idle, stops⟩ := Bool.and_eq_true _ _ ▸ shown
  have empty : ∃ disk, blank = .binit disk := ⟨_, rfl⟩
  have reached : cacheRuns.ReachableVia (fun s => Disciplines s.1 s.2) (c, g) :=
    System.execute_recorded disciplinesCheck_sound empty executed
  have stopped := Option.isNone_iff_eq_none.mp stops
  have full := ((buffer_cache_recycles_oldest reached 1 (100 + logBlocks)).2 stopped).2
  rw [of_decide_eq_true idle] at full
  exact ⟨c, g, reached, stopped, by simpa using full⟩

end SystemsSuite.Files
