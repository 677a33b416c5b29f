import SystemsSuite.Files.CacheCoherence

set_option autoImplicit false

namespace SystemsSuite.Files

open Lib

namespace Cache

variable {c c' : Cache} {g g' : Versions} {b b' u dev blockno : Nat}

def view (c : Cache) (dev blockno : Nat) : Option Block :=
  match c.cached dev blockno with
  | some b => if (c.buf b).valid then some (c.buf b).data else none
  | none => none

def pinsOf (c : Cache) (g : Versions) (dev blockno : Nat) : Nat :=
  match c.cached dev blockno with
  | some b => g.pins b
  | none => 0

-- The disk and the buffers of one device, with the log at rest.
def onto (c : Cache) (g : Versions) (dev : Nat) : Fs where
  disk := c.disk dev
  cached := c.view dev
  pins := c.pinsOf g dev
  outstanding := 0
  committing := false
  header := []
  stage := .idle

-- What the log sees of a step that has to do with buffer `b`.
def touches (c : Cache) (dev b : Nat) (effect : Nat → Fs) (s : Fs) : Fs :=
  if (c.buf b).dev = dev then effect (c.buf b).blockno else s

def seen (c : Cache) (dev : Nat) (s : Fs) : CacheStep → Fs
  | .bget dev' blockno =>
    match c.cached dev' blockno, c.unused with
    | none, some b => c.touches dev b (fun old => { s with cached := Function.update s.cached old none }) s
    | _, _ => s
  | .fill u =>
    match c.uses[u]? with
    | some (.locked b) => c.touches dev b s.bread s
    | _ => s
  | .modify u data => (c.held u).elim s fun b => c.touches dev b (fun blockno => s.modify blockno data) s
  | .bwrite u => (c.held u).elim s fun b => c.touches dev b (fun blockno => s.bwrite blockno (s.block blockno)) s
  | .bpin u => (c.held u).elim s fun b => c.touches dev b s.bpin s
  | .bunpin u => (c.held u).elim s fun b => c.touches dev b s.bunpin s
  | .acquiresleep _ | .releasesleep _ | .drop _ => s

theorem cached_iff (coherent : c.Coherent g) (device : dev ≠ 0) :
    c.cached dev blockno = some b ↔ b < nbuf ∧ (c.buf b).dev = dev ∧ (c.buf b).blockno = blockno := by
  constructor
  · intro found
    obtain ⟨member, keyed⟩ := cached_some found
    exact ⟨(coherent.listed.members b).mp member, keyed⟩
  · rintro ⟨inside, rfl, rfl⟩
    cases found : c.cached (c.buf b).dev (c.buf b).blockno with
    | none => exact absurd ⟨rfl, rfl⟩ (cached_none found ((coherent.listed.members b).mpr inside))
    | some b' =>
      obtain ⟨member, sameDev, sameBlockno⟩ := cached_some found
      have inside' := (coherent.listed.members b').mp member
      rw [coherent.stored.apart b inside b' inside' device sameDev sameBlockno]

theorem view_here (coherent : c.Coherent g) (inside : b < nbuf) (device : (c.buf b).dev ≠ 0) :
    c.view (c.buf b).dev (c.buf b).blockno = if (c.buf b).valid then some (c.buf b).data else none := by
  have found : c.cached (c.buf b).dev (c.buf b).blockno = some b := (cached_iff coherent device).mpr ⟨inside, rfl, rfl⟩
  rw [view, found]

theorem pinsOf_here (coherent : c.Coherent g) (inside : b < nbuf) (device : (c.buf b).dev ≠ 0) :
    c.pinsOf g (c.buf b).dev (c.buf b).blockno = g.pins b := by
  have found : c.cached (c.buf b).dev (c.buf b).blockno = some b := (cached_iff coherent device).mpr ⟨inside, rfl, rfl⟩
  rw [pinsOf, found]

-- Two caches with one buffer that differs, which has not got to another block.
structure Alike (c c' : Cache) (g g' : Versions) (b : Nat) : Prop where
  keys : ∀ b', (c'.buf b').dev = (c.buf b').dev ∧ (c'.buf b').blockno = (c.buf b').blockno
  others : ∀ b' ≠ b, (c'.buf b').valid = (c.buf b').valid ∧ (c'.buf b').data = (c.buf b').data ∧ g'.pins b' = g.pins b'

theorem Alike.cached (alike : Alike c c' g g' b) (coherent : c.Coherent g) (coherent' : c'.Coherent g')
    (device : dev ≠ 0) : c'.cached dev blockno = c.cached dev blockno := by
  apply Option.ext
  intro b'
  rw [cached_iff coherent device, cached_iff coherent' device, (alike.keys b').1, (alike.keys b').2]

theorem Alike.elsewhere (alike : Alike c c' g g' b) (coherent : c.Coherent g) (coherent' : c'.Coherent g')
    (device : dev ≠ 0) (other : ¬ (dev = (c.buf b).dev ∧ blockno = (c.buf b).blockno)) :
    c'.view dev blockno = c.view dev blockno ∧ c'.pinsOf g' dev blockno = c.pinsOf g dev blockno := by
  rw [view, view, pinsOf, pinsOf, alike.cached coherent coherent' device]
  split
  next b' found =>
    obtain ⟨-, sameDev, sameBlockno⟩ := cached_some found
    have different : b' ≠ b := by
      rintro rfl
      exact other ⟨sameDev.symm, sameBlockno.symm⟩
    obtain ⟨valid, data, pins⟩ := alike.others b' different
    rw [valid, data, pins]
    exact ⟨rfl, rfl⟩
  next => exact ⟨rfl, rfl⟩

theorem Alike.onto (alike : Alike c c' g g' b) (coherent : c.Coherent g) (coherent' : c'.Coherent g')
    (inside : b < nbuf) (known : (c.buf b).dev ≠ 0) (device : dev ≠ 0) :
    c'.onto g' dev = c.touches dev b
      (fun blockno => { c.onto g dev with
        disk := c'.disk dev
        cached := Function.update (c.view dev) blockno (if (c'.buf b).valid then some (c'.buf b).data else none)
        pins := Function.update (c.pinsOf g dev) blockno (g'.pins b) })
      { c.onto g dev with disk := c'.disk dev } := by
  have elsewhere : ∀ blockno, ¬ (dev = (c.buf b).dev ∧ blockno = (c.buf b).blockno) →
      c'.view dev blockno = c.view dev blockno ∧ c'.pinsOf g' dev blockno = c.pinsOf g dev blockno :=
    fun blockno => alike.elsewhere coherent coherent' device
  unfold touches
  by_cases here : (c.buf b).dev = dev
  · subst here
    rw [if_pos rfl]
    obtain ⟨sameDev, sameBlockno⟩ := alike.keys b
    have known' : (c'.buf b).dev ≠ 0 := sameDev ▸ known
    have shown := view_here coherent' inside known'
    have pinned := pinsOf_here coherent' inside known'
    rw [sameDev, sameBlockno] at shown pinned
    have views : c'.view (c.buf b).dev = Function.update (c.view (c.buf b).dev) (c.buf b).blockno
        (if (c'.buf b).valid then some (c'.buf b).data else none) := by
      funext blockno
      by_cases own : blockno = (c.buf b).blockno
      · rw [own, Function.update_self, shown]
      · rw [Function.update_of_ne own, (elsewhere blockno fun both => own both.2).1]
    have pins : c'.pinsOf g' (c.buf b).dev = Function.update (c.pinsOf g (c.buf b).dev) (c.buf b).blockno (g'.pins b) := by
      funext blockno
      by_cases own : blockno = (c.buf b).blockno
      · rw [own, Function.update_self, pinned]
      · rw [Function.update_of_ne own, (elsewhere blockno fun both => own both.2).2]
    rw [Cache.onto, views, pins]
    rfl
  · rw [if_neg here]
    have apart : ∀ blockno, ¬ (dev = (c.buf b).dev ∧ blockno = (c.buf b).blockno) := fun _ both => here both.1.symm
    have views : c'.view dev = c.view dev := funext fun blockno => (elsewhere blockno (apart blockno)).1
    have pins : c'.pinsOf g' dev = c.pinsOf g dev := funext fun blockno => (elsewhere blockno (apart blockno)).2
    rw [Cache.onto, views, pins]
    rfl

theorem alike_of_buf {x : Buf} (buf : c'.buf = (c.setBuf b x).buf) (dev : x.dev = (c.buf b).dev)
    (blockno : x.blockno = (c.buf b).blockno) (pins : ∀ b' ≠ b, g'.pins b' = g.pins b') : Alike c c' g g' b := by
  constructor
  case keys =>
    intro b'
    rw [buf]
    by_cases same : b' = b
    · rw [same, setBuf_self]
      exact ⟨dev, blockno⟩
    · rw [setBuf_other same]
      exact ⟨rfl, rfl⟩
  case others =>
    intro b' other
    rw [buf, setBuf_other other]
    exact ⟨rfl, rfl, pins b' other⟩

theorem upkept {x : Buf} (coherent : c.Coherent g) (coherent' : c'.Coherent g') (device : dev ≠ 0)
    (buf : c'.buf = (c.setBuf b x).buf)
    (same : x.dev = (c.buf b).dev ∧ x.blockno = (c.buf b).blockno ∧ x.valid = (c.buf b).valid ∧ x.data = (c.buf b).data)
    (pins : g'.pins = g.pins) (disk : c'.disk = c.disk) : c'.onto g' dev = c.onto g dev := by
  have alike : Alike c c' g g' b := alike_of_buf buf same.1 same.2.1 fun _ _ => by rw [pins]
  have contents : ∀ b', (c'.buf b').valid = (c.buf b').valid ∧ (c'.buf b').data = (c.buf b').data := by
    intro b'
    by_cases own : b' = b
    · rw [own, buf, setBuf_self]
      exact same.2.2
    · exact ⟨(alike.others b' own).1, (alike.others b' own).2.1⟩
  have views : c'.view dev = c.view dev := by
    funext blockno
    rw [view, view, alike.cached coherent coherent' device]
    split
    next b' _ => rw [(contents b').1, (contents b').2]
    next => rfl
  have counts : c'.pinsOf g' dev = c.pinsOf g dev := by
    funext blockno
    rw [pinsOf, pinsOf, alike.cached coherent coherent' device, pins]
  rw [onto, onto, views, counts, disk]

theorem touches_congr {effect effect' : Nat → Fs} {s s' : Fs}
    (here : (c.buf b).dev = dev → effect (c.buf b).blockno = effect' (c.buf b).blockno)
    (away : (c.buf b).dev ≠ dev → s = s') : c.touches dev b effect s = c.touches dev b effect' s' := by
  unfold touches
  split
  next same => exact here same
  next other => exact away other

theorem block_here (coherent : c.Coherent g) (inside : b < nbuf) (device : (c.buf b).dev ≠ 0) :
    (c.onto g (c.buf b).dev).block (c.buf b).blockno =
      if (c.buf b).valid then (c.buf b).data else c.disk (c.buf b).dev (c.buf b).blockno := by
  have shown := view_here coherent inside device
  change (c.view (c.buf b).dev (c.buf b).blockno).getD (c.disk (c.buf b).dev (c.buf b).blockno) = _
  rw [shown]
  split <;> rfl

theorem pins_same (coherent : c.Coherent g) (inside : b < nbuf) (device : (c.buf b).dev ≠ 0) :
    Function.update (c.pinsOf g (c.buf b).dev) (c.buf b).blockno (g.pins b) = c.pinsOf g (c.buf b).dev := by
  rw [← pinsOf_here coherent inside device, Function.update_eq_self]

theorem view_same (coherent : c.Coherent g) (inside : b < nbuf) (device : (c.buf b).dev ≠ 0) :
    Function.update (c.view (c.buf b).dev) (c.buf b).blockno (if (c.buf b).valid then some (c.buf b).data else none) =
      c.view (c.buf b).dev := by
  rw [← view_here coherent inside device, Function.update_eq_self]

theorem recycle_cached {dev' blockno' : Nat} (coherent : c.Coherent g)
    (coherent' : (c.recycle dev' blockno' b).Coherent g') (device : dev ≠ 0)
    (elsewhere : ¬ (dev = dev' ∧ blockno = blockno')) (other : ¬ (dev = (c.buf b).dev ∧ blockno = (c.buf b).blockno)) :
    (c.recycle dev' blockno' b).cached dev blockno = c.cached dev blockno := by
  apply Option.ext
  intro b'
  rw [cached_iff coherent device, cached_iff coherent' device]
  by_cases same : b' = b
  · have own : (c.recycle dev' blockno' b).buf b =
        { c.buf b with dev := dev', blockno := blockno', valid := false, refcnt := 1 } := Function.update_self ..
    rw [same, own]
    constructor
    · exact fun moved => absurd ⟨moved.2.1.symm, moved.2.2.symm⟩ elsewhere
    · exact fun stays => absurd ⟨stays.2.1.symm, stays.2.2.symm⟩ other
  · have kept : (c.recycle dev' blockno' b).buf b' = c.buf b' := setBuf_other same
    rw [kept]

theorem recycle_onto {dev' blockno' : Nat} (coherent : c.Coherent g)
    (coherent' : (c.recycle dev' blockno' b).Coherent (g.asks dev' blockno')) (device : dev ≠ 0)
    (missing : c.cached dev' blockno' = none) (free : c.unused = some b) :
    (c.recycle dev' blockno' b).onto (g.asks dev' blockno') dev = c.touches dev b
      (fun old => { c.onto g dev with cached := Function.update (c.view dev) old none }) (c.onto g dev) := by
  obtain ⟨member, unused⟩ := unused_some free
  have inside := (coherent.listed.members b).mp member
  have unpinned := (coherent.counted.unused unused).2
  have own : (c.recycle dev' blockno' b).buf b =
      { c.buf b with dev := dev', blockno := blockno', valid := false, refcnt := 1 } := Function.update_self ..
  -- Nothing is cached of a block that the buffer is for before or after.
  have fresh : ∀ blockno, dev = dev' ∧ blockno = blockno' →
      (c.recycle dev' blockno' b).view dev blockno = none ∧
        (c.recycle dev' blockno' b).pinsOf (g.asks dev' blockno') dev blockno = 0 ∧
          c.view dev blockno = none ∧ c.pinsOf g dev blockno = 0 := by
    rintro blockno ⟨rfl, rfl⟩
    have found : (c.recycle dev blockno b).cached dev blockno = some b := by
      rw [cached_iff coherent' device, own]
      exact ⟨inside, rfl, rfl⟩
    rw [view, view, pinsOf, pinsOf, found, missing]
    simp [own, Versions.asks, unpinned]
  have left_ : ∀ blockno, ¬ (dev = dev' ∧ blockno = blockno') → dev = (c.buf b).dev ∧ blockno = (c.buf b).blockno →
      (c.recycle dev' blockno' b).view dev blockno = none ∧
        (c.recycle dev' blockno' b).pinsOf (g.asks dev' blockno') dev blockno = 0 ∧ c.pinsOf g dev blockno = 0 := by
    rintro blockno elsewhere ⟨rfl, rfl⟩
    have gone : (c.recycle dev' blockno' b).cached (c.buf b).dev (c.buf b).blockno = none := by
      refine Option.eq_none_iff_forall_ne_some.mpr fun b' found => ?_
      obtain ⟨inside', sameDev, sameBlockno⟩ := (cached_iff coherent' device).mp found
      by_cases same : b' = b
      · rw [same, own] at sameDev sameBlockno
        exact elsewhere ⟨sameDev.symm, sameBlockno.symm⟩
      · have kept : (c.recycle dev' blockno' b).buf b' = c.buf b' := setBuf_other same
        rw [kept] at sameDev sameBlockno
        exact same (coherent.stored.apart b inside b' inside' device sameDev sameBlockno)
    rw [pinsOf_here coherent inside device, view, pinsOf, gone]
    exact ⟨rfl, rfl, unpinned⟩
  have pins : (c.recycle dev' blockno' b).pinsOf (g.asks dev' blockno') dev = c.pinsOf g dev := by
    funext blockno
    by_cases elsewhere : dev = dev' ∧ blockno = blockno'
    · rw [(fresh blockno elsewhere).2.1, (fresh blockno elsewhere).2.2.2]
    · by_cases old : dev = (c.buf b).dev ∧ blockno = (c.buf b).blockno
      · rw [(left_ blockno elsewhere old).2.1, (left_ blockno elsewhere old).2.2]
      · rw [pinsOf, pinsOf, recycle_cached coherent coherent' device elsewhere old]
        rfl
  have views : ∀ blockno, (c.recycle dev' blockno' b).view dev blockno =
      if dev = (c.buf b).dev ∧ blockno = (c.buf b).blockno then none else c.view dev blockno := by
    intro blockno
    by_cases elsewhere : dev = dev' ∧ blockno = blockno'
    · rw [(fresh blockno elsewhere).1, (fresh blockno elsewhere).2.2.1, ite_self]
    · by_cases old : dev = (c.buf b).dev ∧ blockno = (c.buf b).blockno
      · rw [if_pos old, (left_ blockno elsewhere old).1]
      · rw [if_neg old, view, view, recycle_cached coherent coherent' device elsewhere old]
        split
        next b' found =>
          obtain ⟨-, sameDev, sameBlockno⟩ := cached_some found
          have different : b' ≠ b := by
            rintro rfl
            exact old ⟨sameDev.symm, sameBlockno.symm⟩
          have kept : (c.recycle dev' blockno' b).buf b' = c.buf b' := setBuf_other different
          rw [kept]
        next => rfl
  have disk : (c.recycle dev' blockno' b).disk = c.disk := rfl
  unfold touches
  split
  next same =>
    have all : (c.recycle dev' blockno' b).view dev = Function.update (c.view dev) (c.buf b).blockno none := by
      funext blockno
      by_cases old : blockno = (c.buf b).blockno
      · rw [old, Function.update_self, views, if_pos ⟨same.symm, rfl⟩]
      · rw [Function.update_of_ne old, views, if_neg fun both => old both.2]
    rw [onto, pins, all, disk]
    rfl
  next other =>
    have all : (c.recycle dev' blockno' b).view dev = c.view dev := by
      funext blockno
      rw [views, if_neg fun both => other both.1.symm]
    rw [onto, pins, all, disk]
    rfl

theorem onto_move {l : CacheStep} (coherent : c.Coherent g) (coherent' : c'.Coherent g') (device : dev ≠ 0)
    (moves : Moves c g l c' g') : c'.onto g' dev = c.seen dev (c.onto g dev) l := by
  cases moves with
  | share dev' blockno b found =>
    simp only [seen, found]
    exact upkept (b := b) coherent coherent' device rfl ⟨rfl, rfl, rfl, rfl⟩ rfl rfl
  | recycle dev' blockno b missing free =>
    simp only [seen, missing, free]
    exact recycle_onto coherent coherent' device missing free
  | acquiresleep u b here unlocked =>
    exact upkept (b := b) coherent coherent' device rfl ⟨rfl, rfl, rfl, rfl⟩ rfl rfl
  | releasesleep u b here => exact upkept (b := b) coherent coherent' device rfl ⟨rfl, rfl, rfl, rfl⟩ rfl rfl
  | drop u b here => exact upkept (b := b) coherent coherent' device rfl ⟨rfl, rfl, rfl, rfl⟩ rfl rfl
  | fill u b here =>
    have inside : b < nbuf := coherent.counted.user here
    have known := coherent.stored.known b (coherent.counted.referred here)
    have alike : Alike c (c.fill u b) g g b := by
      unfold fill
      split
      · exact alike_of_buf (x := c.buf b) (by rw [setBuf_same]; rfl) rfl rfl fun _ _ => rfl
      · exact alike_of_buf (b := b) rfl rfl rfl fun _ _ => rfl
    have disk : (c.fill u b).disk = c.disk := by
      unfold fill
      split <;> rfl
    have filled : (if ((c.fill u b).buf b).valid then some ((c.fill u b).buf b).data else none) =
        some ((c.onto g (c.buf b).dev).block (c.buf b).blockno) := by
      rw [block_here coherent inside known]
      unfold fill
      split
      next valid => rw [setUse_buf, if_pos valid]
      next => rw [setUse_buf, setBuf_self, if_pos rfl]
    simp only [seen, here]
    rw [alike.onto coherent coherent' inside known device, disk]
    refine touches_congr ?_ fun _ => rfl
    rintro rfl
    rw [filled, pins_same coherent inside known]
    rfl
  | modify u b data here =>
    have inside : b < nbuf := coherent.counted.user here
    have known := coherent.stored.known b (coherent.counted.referred here)
    have valid := coherent.stored.filled b (List.mem_of_getElem? here)
    have alike : Alike c (c.modify b data) g (g.changed (c.buf b) b data) b :=
      alike_of_buf (b := b) rfl rfl rfl fun _ _ => rfl
    have own : (c.modify b data).buf b = { c.buf b with data := data } := Function.update_self ..
    have held : c.held u = some b := held_iff.mpr here
    simp only [seen, held, Option.elim_some]
    rw [alike.onto coherent coherent' inside known device, own]
    refine touches_congr ?_ fun _ => rfl
    rintro rfl
    have pins : (g.changed (c.buf b) b data).pins = g.pins := rfl
    rw [pins, pins_same coherent inside known, if_pos valid]
    rfl
  | bwrite u b here =>
    have inside : b < nbuf := coherent.counted.user here
    have known := coherent.stored.known b (coherent.counted.referred here)
    have valid := coherent.stored.filled b (List.mem_of_getElem? here)
    have alike : Alike c (c.bwrite b) g (g.written b) b := ⟨fun _ => ⟨rfl, rfl⟩, fun _ _ => ⟨rfl, rfl, rfl⟩⟩
    have held : c.held u = some b := held_iff.mpr here
    simp only [seen, held, Option.elim_some]
    rw [alike.onto coherent coherent' inside known device]
    refine touches_congr ?_ ?_
    · rintro rfl
      have pins : (g.written b).pins = g.pins := rfl
      have buf : (c.bwrite b).buf = c.buf := rfl
      have disk : (c.bwrite b).disk (c.buf b).dev =
          Function.update (c.disk (c.buf b).dev) (c.buf b).blockno (c.buf b).data := Function.update_self ..
      rw [block_here coherent inside known, pins, pins_same coherent inside known, buf, disk, if_pos valid, if_pos valid]
      rfl
    · intro other
      have disk : (c.bwrite b).disk dev = c.disk dev := Function.update_of_ne (Ne.symm other) ..
      rw [disk]
      rfl
  | bpin u b here =>
    have inside : b < nbuf := coherent.counted.user here
    have known := coherent.stored.known b (coherent.counted.referred here)
    have alike : Alike c (c.bpin b) g (g.pinned b) b :=
      alike_of_buf (b := b) rfl rfl rfl fun _ other => Function.update_of_ne other ..
    have own : (c.bpin b).buf b = { c.buf b with refcnt := (c.buf b).refcnt + 1 } := Function.update_self ..
    have pins : (g.pinned b).pins b = g.pins b + 1 := Function.update_self ..
    have held : c.held u = some b := held_iff.mpr here
    simp only [seen, held, Option.elim_some]
    rw [alike.onto coherent coherent' inside known device, own, pins]
    refine touches_congr ?_ fun _ => rfl
    rintro rfl
    rw [view_same coherent inside known, ← pinsOf_here coherent inside known]
    rfl
  | bunpin u b here =>
    have inside : b < nbuf := coherent.counted.user here
    have known := coherent.stored.known b (coherent.counted.referred here)
    have alike : Alike c (c.bunpin b) g (g.unpinned b) b :=
      alike_of_buf (b := b) rfl rfl rfl fun _ other => Function.update_of_ne other ..
    have own : (c.bunpin b).buf b = { c.buf b with refcnt := (c.buf b).refcnt - 1 } := Function.update_self ..
    have pins : (g.unpinned b).pins b = g.pins b - 1 := Function.update_self ..
    have held : c.held u = some b := held_iff.mpr here
    simp only [seen, held, Option.elim_some]
    rw [alike.onto coherent coherent' inside known device, own, pins]
    refine touches_congr ?_ fun _ => rfl
    rintro rfl
    rw [view_same coherent inside known, ← pinsOf_here coherent inside known]
    rfl

theorem block_latest {dev blockno : Nat} (coherent : c.Coherent g) (device : dev ≠ 0) :
    (c.onto g dev).block blockno = g.latest dev blockno := by
  change (c.view dev blockno).getD (c.disk dev blockno) = _
  have clean : (∀ b < nbuf, (c.buf b).dev = dev → (c.buf b).blockno = blockno → (c.buf b).valid = false) →
      c.disk dev blockno = g.latest dev blockno := by
    intro unread
    apply coherent.stored.stored
    intro b inside sameDev sameBlockno
    by_contra changed
    have valid := (coherent.stored.owed b inside (Bool.not_eq_false _ ▸ changed)).1
    rw [unread b inside sameDev sameBlockno] at valid
    contradiction
  unfold view
  split
  next b found =>
    obtain ⟨inside, rfl, rfl⟩ := (cached_iff coherent device).mp found
    split
    next valid => exact coherent.stored.fresh b inside valid device
    next invalid =>
      apply clean
      intro b' inside' sameDev sameBlockno
      rw [coherent.stored.apart b inside b' inside' device sameDev sameBlockno]
      exact Bool.not_eq_true _ ▸ invalid
  next missing =>
    apply clean
    intro b inside sameDev sameBlockno
    exact absurd ⟨sameDev, sameBlockno⟩ (cached_none missing ((coherent.listed.members b).mpr inside))

theorem touches_keeps {s : Fs} (effect : Nat → Fs) (blockno : Nat)
    (kept : ∀ n, (effect n).cached blockno = none → s.cached blockno = none)
    (gone : (c.touches dev b effect s).cached blockno = none) : s.cached blockno = none := by
  unfold touches at gone
  split at gone
  next => exact kept _ gone
  next => exact gone

theorem update_some {cached : Nat → Option Block} {n blockno : Nat} {data : Block}
    (gone : Function.update cached n (some data) blockno = none) : cached blockno = none := by
  by_cases same : blockno = n
  · rw [same, Function.update_self] at gone
    contradiction
  · rwa [Function.update_of_ne same] at gone

theorem gone_unpinned {l : CacheStep} (coherent : c.Coherent g) (device : dev ≠ 0) (moves : Moves c g l c' g') (blockno : Nat)
    (present : (c.onto g dev).cached blockno ≠ none)
    (gone : (c.seen dev (c.onto g dev) l).cached blockno = none) : (c.onto g dev).pins blockno = 0 := by
  by_contra pinned
  apply present
  cases moves with
  | share dev' blockno' b found =>
    simp only [seen, found] at gone
    exact gone
  | recycle dev' blockno' b missing free =>
    simp only [seen, missing, free, touches] at gone
    split at gone
    next same =>
      obtain ⟨member, unused⟩ := unused_some free
      have inside := (coherent.listed.members b).mp member
      have unpinned := (coherent.counted.unused unused).2
      by_cases old : blockno = (c.buf b).blockno
      · subst same
        rw [old] at pinned
        exact absurd ((pinsOf_here coherent inside device).trans unpinned) pinned
      · exact (Function.update_of_ne old ..).symm.trans gone
    next => exact gone
  | acquiresleep | releasesleep | drop => exact gone
  | fill u b here =>
    simp only [seen, here] at gone
    exact touches_keeps _ blockno (fun _ => update_some) gone
  | modify u b data here =>
    simp only [seen, held_iff.mpr here, Option.elim_some] at gone
    exact touches_keeps _ blockno (fun _ => update_some) gone
  | bwrite u b here =>
    simp only [seen, held_iff.mpr here, Option.elim_some] at gone
    exact touches_keeps _ blockno (fun _ => update_some) gone
  | bpin u b here =>
    simp only [seen, held_iff.mpr here, Option.elim_some] at gone
    exact touches_keeps (c.onto g dev).bpin blockno (fun _ => id) gone
  | bunpin u b here =>
    simp only [seen, held_iff.mpr here, Option.elim_some] at gone
    exact touches_keeps (c.onto g dev).bunpin blockno (fun _ => id) gone

end Cache

variable {c c' : Cache} {g : Versions}

-- Seen block by block, the buffers are the cache that the log is over: each step has the effect that the log counts
-- on, only a block without pins leaves, and what a `bread` gets is the block as it was last changed.
theorem buffer_cache_refines_log_blocks (reached : cacheRuns.ReachableVia (fun s => Disciplines s.1 s.2) (c, g))
    {dev : Nat} (device : dev ≠ 0) :
    (∀ blockno, (c.onto g dev).block blockno = g.latest dev blockno) ∧
      ∀ l c', Disciplines c g l → c.next l = some c' →
        c'.onto (g.note c l c') dev = c.seen dev (c.onto g dev) l ∧
          ∀ blockno, (c.onto g dev).cached blockno ≠ none →
            (c'.onto (g.note c l c') dev).cached blockno = none → (c.onto g dev).pins blockno = 0 := by
  have coherent := Cache.coherent_of_reached reached
  refine ⟨fun blockno => Cache.block_latest coherent device, fun l c' allowed taken => ?_⟩
  have after : cacheRuns.ReachableVia (fun s => Disciplines s.1 s.2) (c', g.note c l c') :=
    .step reached allowed ⟨taken, rfl⟩
  have coherent' := Cache.coherent_of_reached after
  have moves := Cache.moves_of_next (g := g) taken
  have shown := Cache.onto_move coherent coherent' device moves
  refine ⟨shown, fun blockno present gone => ?_⟩
  rw [shown] at gone
  exact Cache.gone_unpinned coherent device moves blockno present gone

theorem buffer_cache_refines_log_blocks_logged : ∃ (c : Cache) (g : Versions),
    cacheRuns.ReachableVia (fun s => Disciplines s.1 s.2) (c, g) ∧ c.disk 1 5 0 = 0 ∧
      (c.onto g 1).pins 5 = 1 ∧ (c.onto g 1).block 5 0 = 9 := by
  let blank : Cache := .binit fun _ _ _ => 0
  obtain ⟨⟨c, g⟩, executed, shown⟩ := Option.any_eq_true .. |>.mp (show (System.execute
    (fun s l => (Cache.next s.1 l).map fun t => (t, Versions.note s.2 s.1 l t)) disciplinesCheck (blank, .start blank)
      (logged 5 9)).any (fun t => decide
        (t.1.disk 1 5 0 = 0 ∧ (t.1.onto t.2 1).pins 5 = 1 ∧ t.2.latest 1 5 0 = 9)) = true by decide +kernel)
  obtain ⟨disk, pins, latest⟩ := of_decide_eq_true shown
  have empty : ∃ disk, blank = .binit disk := ⟨_, rfl⟩
  have reached : cacheRuns.ReachableVia (fun s => Disciplines s.1 s.2) (c, g) :=
    System.execute_recorded disciplinesCheck_sound empty executed
  have blocks := (buffer_cache_refines_log_blocks reached Nat.one_ne_zero).1 5
  exact ⟨c, g, reached, disk, pins, by rw [blocks, latest]⟩

end SystemsSuite.Files
