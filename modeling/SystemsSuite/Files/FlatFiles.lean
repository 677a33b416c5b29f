import SystemsSuite.Files.BlockOwnership

set_option autoImplicit false

namespace SystemsSuite.Files

open Lib
open Paging (bsize maxfile)

def Dinode.byteAt (ip : Dinode) (v : Volume) (k : Nat) : UInt8 := v (ip.blockAt v (slot (k / bsize))) (k % bsize)

-- `m` bytes from `base` on.
def overwritten (data : Nat → UInt8) (base m : Nat) (src : Nat → UInt8) : Nat → UInt8 := fun k =>
  if base ≤ k ∧ k < base + m then src (k - base) else data k

namespace Superblock

variable {sb : Superblock} {view view' : Nat → Dinode} {v v' : Volume} {inum b k : Nat}

theorem Sound.place (sound : sb.Sound view v) (inside : inum < sb.ninodes) (below : k < (view inum).size) :
    ∃ b, sb.holds view v (inum, slot (k / bsize)) = some b := by
  have first : k / bsize * bsize < (view inum).size := (Nat.div_mul_le_self k bsize).trans_lt below
  exact ⟨_, holds_of inside (slot_lt (sound.bounded inum inside) first) rfl (sound.filled inum inside _ first)⟩

theorem byteAt_of (here : sb.holds view v (inum, slot (k / bsize)) = some b) :
    (view inum).byteAt v k = v b (k % bsize) := by
  unfold Dinode.byteAt
  rw [(holds_some here).2.2.2]

theorem Extends.byteAt (extended : sb.Extends view v view' v') (here : sb.holds view v (inum, slot (k / bsize)) = some b) :
    (view' inum).byteAt v' k = (view inum).byteAt v k := by
  rw [byteAt_of here, byteAt_of (extended.kept _ b here), extended.data _ b here (slot_ne _)]

-- After `tot` bytes of a write at `base`; the bytes of the file up to there are those of `file` with `done` bytes
-- of the source written over them.
structure Writes (sb : Superblock) (view : Nat → Dinode) (v : Volume) (inum : Nat) (file : Nat → UInt8) (base : Nat)
    (src : Nat → UInt8) (tot done : Nat) (ip : Dinode) (v' : Volume) : Prop where
  sound : sb.Sound (Function.update view inum ip) v'
  size : ip.size = (view inum).size
  type : ip.type = (view inum).type
  low : ∀ c < sb.bmapstart, v' c = v c
  others : ∀ inum' < sb.ninodes, inum' ≠ inum → ∀ k < (view inum').size,
    (view inum').byteAt v' k = (view inum').byteAt v k
  mine : ∀ k < max (view inum).size (base + tot),
    (∃ b, sb.holds (Function.update view inum ip) v' (inum, slot (k / bsize)) = some b) ∧
      ip.byteAt v' k = overwritten file base done src k

variable {file src : Nat → UInt8} {base tot done : Nat} {ip : Dinode} {place : Mapped}

-- `bmap` changes no byte that is there.
theorem Writes.mapped (writes : sb.Writes view v inum file base src tot done ip v') {i : Nat}
    (placed : sb.Placed (Function.update view inum ip) v' inum i place) :
    sb.Writes view v inum file base src tot done place.ip place.volume := by
  have own : Function.update view inum ip inum = ip := Function.update_self ..
  have twice (ip' : Dinode) : Function.update (Function.update view inum ip) inum ip' = Function.update view inum ip' :=
    Function.update_idem ..
  have sound := placed.sound
  have extended := placed.extended
  rw [twice] at sound extended
  refine ⟨sound, ?_, ?_, fun c low => (extended.low c low).trans (writes.low c low), fun inum' inside other k below => ?_,
    fun k below => ?_⟩
  · rw [placed.size, own, writes.size]
  · rw [placed.type, own, writes.type]
  · have view' : Function.update view inum ip inum' = view inum' := Function.update_of_ne other ..
    have view'' : Function.update view inum place.ip inum' = view inum' := Function.update_of_ne other ..
    have below' : k < (Function.update view inum ip inum').size := by rwa [view']
    obtain ⟨b, here⟩ := writes.sound.place inside below'
    have same := extended.byteAt here
    rw [view', view''] at same
    exact same.trans (writes.others inum' inside other k below)
  · obtain ⟨⟨b, here⟩, byte⟩ := writes.mine k below
    have same := extended.byteAt here
    rw [own, Function.update_self] at same
    exact ⟨⟨b, extended.kept _ b here⟩, same.trans byte⟩

-- `m` bytes go into the block of the next position.
theorem Writes.filled (writes : sb.Writes view v inum file base src tot tot ip v')
    (here : sb.holds (Function.update view inum ip) v' (inum, slot ((base + tot) / bsize)) = some b) (m tot' : Nat)
    (fits : (base + tot) % bsize + m ≤ bsize) (counted : tot' ≤ tot + m) :
    sb.Writes view v inum file base src tot' (tot + m) ip (Function.update v' b
      ((v' b).fill ((base + tot) % bsize) m fun k => src (tot + k))) := by
  obtain ⟨sound, places⟩ := writes.sound.written here (slot_ne _)
    ((v' b).fill ((base + tot) % bsize) m fun k => src (tot + k))
  have own : Function.update view inum ip inum = ip := Function.update_self ..
  have taken := writes.sound.held.taken_of here
  have order := bmapstart_lt sb
  -- Every byte of the file, but for those that are written, stays.
  have stays {inum' k c : Nat} (there : sb.holds (Function.update view inum ip) v' (inum', slot (k / bsize)) = some c)
      (outside : inum' = inum → ¬(base + tot ≤ k ∧ k < base + tot + m)) :
      (Function.update view inum ip inum').byteAt (Function.update v' b
        ((v' b).fill ((base + tot) % bsize) m fun k => src (tot + k))) k =
          (Function.update view inum ip inum').byteAt v' k := by
    rw [byteAt_of there, byteAt_of ((places _).trans there)]
    by_cases same : c = b
    · subst same
      have one := writes.sound.held.apart _ _ _ there here
      have index := slot_inj (congrArg Prod.snd one)
      have away := outside (congrArg Prod.fst one)
      rw [Function.update_self, Block.fill, if_neg]
      have wide : bsize = 1024 := rfl
      rw [wide] at index ⊢
      omega
    · rw [Function.update_of_ne same]
  refine ⟨sound, writes.size, writes.type, fun c low => ?_, fun inum' inside' other k below => ?_, fun k below => ?_⟩
  · have data := taken.1
    rw [Function.update_of_ne (by omega)]
    exact writes.low c low
  · have view' : Function.update view inum ip inum' = view inum' := Function.update_of_ne other ..
    have below' : k < (Function.update view inum ip inum').size := by rwa [view']
    obtain ⟨c, there⟩ := writes.sound.place inside' below'
    have same := stays there fun mine => absurd mine other
    rw [view'] at same
    exact same.trans (writes.others inum' inside' other k below)
  · by_cases chunk : base + tot ≤ k ∧ k < base + tot + m
    · have wide : bsize = 1024 := rfl
      have index : k / bsize = (base + tot) / bsize := by
        rw [wide] at fits ⊢
        omega
      rw [← index] at here
      have there := (places (inum, slot (k / bsize))).trans here
      refine ⟨⟨b, there⟩, ?_⟩
      have byte := byteAt_of there
      rw [own] at byte
      rw [byte, Function.update_self, Block.fill, if_pos, overwritten, if_pos (by omega)]
      · congr 1
        rw [wide] at index ⊢
        omega
      · rw [wide] at index ⊢
        omega
    · have before : k < max (view inum).size (base + tot) := by omega
      obtain ⟨⟨c, there⟩, byte⟩ := writes.mine k before
      refine ⟨⟨c, (places _).trans there⟩, ?_⟩
      have same := stays there fun _ => chunk
      rw [own] at same
      rw [same, byte]
      unfold overwritten
      have cases_ : (base ≤ k ∧ k < base + tot) ↔ (base ≤ k ∧ k < base + (tot + m)) := by omega
      simp only [cases_]

theorem Writes.loop (layout : sb.Layout) (inside : inum < sb.ninodes) (used : (view inum).type ≠ 0) {n : Nat}
    (short : base + n ≤ maxfile * bsize) (fails : Nat → Option Nat) (fuel : Nat)
    (writes : sb.Writes view v inum file base src tot tot ip v') (bound : tot ≤ n) :
    ∃ got, sb.writeLoop src fails n fuel v' ip (base + tot) tot = some got ∧ got.off = base + got.tot ∧
      got.tot + got.stray ≤ n ∧
      sb.Writes view v inum file base src got.tot (got.tot + got.stray) got.ip got.volume := by
  induction fuel generalizing tot ip v' with
  | zero => exact ⟨_, rfl, rfl, bound, writes⟩
  | succ fuel ih =>
    rw [writeLoop]
    split_ifs with more
    · have own : Function.update view inum ip inum = ip := Function.update_self ..
      have twice (ip' : Dinode) : Function.update (Function.update view inum ip) inum ip' = Function.update view inum ip' :=
        Function.update_idem ..
      have below : (base + tot) / bsize < maxfile := by
        apply Nat.div_lt_of_lt_mul
        rw [Nat.mul_comm]
        omega
      have used' : (Function.update view inum ip inum).type ≠ 0 := by
        rw [own, writes.type]
        exact used
      obtain ⟨place, mapped, placed⟩ := writes.sound.bmap layout inside used' below
      have next := writes.mapped placed
      rw [own] at mapped
      rw [mapped, Option.bind_some]
      simp only
      split_ifs with full
      · exact ⟨_, rfl, rfl, bound, next⟩
      · have here := placed.here full
        rw [twice] at here
        have wide : (base + tot) % bsize < bsize := Nat.mod_lt _ (by decide)
        split
        next some_ _ =>
          have stray := next.filled here (min some_ (min (n - tot) (bsize - (base + tot) % bsize))) tot (by omega)
            (by omega)
          refine ⟨_, rfl, rfl, ?_, stray⟩
          change tot + min some_ (min (n - tot) (bsize - (base + tot) % bsize)) ≤ n
          omega
        next =>
          have done := next.filled here (min (n - tot) (bsize - (base + tot) % bsize))
            (tot + min (n - tot) (bsize - (base + tot) % bsize)) (by omega) le_rfl
          have later := ih done (by omega)
          rw [← Nat.add_assoc] at later
          exact later
    · exact ⟨_, rfl, rfl, bound, writes⟩

theorem Sound.resized (sound : sb.Sound (Function.update view inum ip) v) {size : Nat} (bounded : size ≤ maxfile * bsize)
    (filled : ∀ bn, bn * bsize < size → ip.blockAt v (slot bn) ≠ 0) :
    sb.Sound (Function.update view inum { ip with size := size }) v := by
  have number : maxfile * bsize < 2 ^ 32 := by decide
  refine ⟨sound.metadata, sound.held.congr (fun q => ?_) fun _ => Iff.rfl, fun inum' inside => ?_, fun inum' inside => ?_,
    fun inum' inside => ?_, fun inum' inside => ?_⟩
  · refine holds_congr fun _ _ => ?_
    by_cases own : q.1 = inum
    · rw [own, Function.update_self, Function.update_self]
      rfl
    · rw [Function.update_of_ne own, Function.update_of_ne own]
  · have before := sound.sized inum' inside
    by_cases own : inum' = inum
    · rw [own, Function.update_self] at before ⊢
      exact ⟨before.type, before.major, before.minor, before.nlink, bounded.trans_lt number, before.addrs, before.only⟩
    · rw [Function.update_of_ne own] at before ⊢
      exact before
  · have before := sound.blank inum' inside
    by_cases own : inum' = inum
    · rw [own, Function.update_self] at before ⊢
      exact before
    · rw [Function.update_of_ne own] at before ⊢
      exact before
  · have before := sound.bounded inum' inside
    by_cases own : inum' = inum
    · rw [own, Function.update_self]
      exact bounded
    · rw [Function.update_of_ne own] at before ⊢
      exact before
  · have before := sound.filled inum' inside
    by_cases own : inum' = inum
    · rw [own, Function.update_self]
      exact filled
    · rw [Function.update_of_ne own] at before ⊢
      exact before

theorem Writes.resized (writes : sb.Writes view v inum file base src tot done ip v') (short : base + tot ≤ maxfile * bsize)
    (bounded : (view inum).size ≤ maxfile * bsize) :
    sb.Sound (Function.update view inum { ip with size := max (view inum).size (base + tot) }) v' := by
  refine writes.sound.resized (by omega) fun bn below => ?_
  obtain ⟨⟨b, here⟩, -⟩ := writes.mine _ below
  obtain ⟨-, -, some_, block⟩ := holds_some here
  rw [Function.update_self, Nat.mul_div_cancel _ (by decide)] at block
  rw [block]
  exact some_

theorem grown (ip : Dinode) (off : Nat) :
    (if off > ip.size then { ip with size := off } else ip) = { ip with size := max ip.size off } := by
  split_ifs with more
  · rw [Nat.max_eq_right (by omega)]
  · rw [Nat.max_eq_left (by omega)]

structure Shows (sb : Superblock) (v : Volume) (files : Nat → Paging.Inode) : Prop where
  size : ∀ inum < sb.ninodes, (files inum).size = (sb.dinode v inum).size
  data : ∀ inum < sb.ninodes, ∀ k < (sb.dinode v inum).size, (files inum).data k = (sb.dinode v inum).byteAt v k

variable {files : Nat → Paging.Inode}

-- What a write of `tot` bytes is to a flat file; `stray` more bytes may be changed, not more than it has.
def written (file : Paging.Inode) (src : Nat → UInt8) (off tot stray : Nat) : Paging.Inode :=
  { file with size := max file.size (off + tot), data := overwritten file.data off (tot + stray) src }

theorem Sound.byteAt_low (sound : sb.Sound view v) (inside : inum < sb.ninodes) (below : k < (view inum).size)
    (high : ∀ c, sb.bmapstart ≤ c → v' c = v c) : (view inum).byteAt v' k = (view inum).byteAt v k := by
  obtain ⟨b, here⟩ := sound.place inside below
  have order := bmapstart_lt sb
  have block : (view inum).blockAt v' (slot (k / bsize)) = (view inum).blockAt v (slot (k / bsize)) := by
    refine blockAt_congr fun some_ => high _ ?_
    exact order.le.trans (sound.held.taken_of (holds_top inside some_)).1
  unfold Dinode.byteAt
  rw [block, (holds_some here).2.2.2, high b (order.le.trans (sound.held.taken_of here).1)]

-- What the result of `writei` is to the files.
def noteWrite (files : Nat → Paging.Inode) (inum off : Nat) (src : Nat → UInt8) (result : Option Nat × Nat) :
    Nat → Paging.Inode :=
  match result.1 with
  | some tot => Function.update files inum (written (files inum) src off tot result.2)
  | none => files

theorem Shows.writei (shows_ : sb.Shows v files) (sound : sb.Sound (sb.dinode v) v) (layout : sb.Layout)
    (inside : inum < sb.ninodes) (used : (sb.dinode v inum).type ≠ 0) (fails : Nat → Option Nat) (src : Nat → UInt8)
    (off n : Nat) : ∃ result, sb.writei v inum src fails off n = some result ∧
      sb.Sound (sb.dinode result.2.2) result.2.2 ∧
      sb.Shows result.2.2 (noteWrite files inum off src (result.1, result.2.1)) := by
  unfold Superblock.writei
  simp only
  split_ifs with refused long
  · exact ⟨_, rfl, sound, shows_⟩
  · exact ⟨_, rfl, sound, shows_⟩
  · have start : sb.Writes (sb.dinode v) v inum (files inum).data off src 0 0 (sb.dinode v inum) v := by
      have same : Function.update (sb.dinode v) inum (sb.dinode v inum) = sb.dinode v := Function.update_eq_self ..
      refine ⟨?_, rfl, rfl, fun _ _ => rfl, fun _ _ _ _ _ => rfl, fun k below => ?_⟩
      · rw [same]
        exact sound
      · have inFile : k < (sb.dinode v inum).size := by omega
        obtain ⟨b, here⟩ := sound.place inside inFile
        rw [same]
        refine ⟨⟨b, here⟩, ?_⟩
        rw [← shows_.data inum inside k inFile]
        exact (if_neg (by omega)).symm
    obtain ⟨got, ran, ends, count, writes⟩ := start.loop layout inside used (by omega) fails n (Nat.zero_le n)
    rw [Nat.add_zero] at ran
    rw [ran, Option.map_some, grown, writes.size, ends]
    have bounded := sound.bounded inum inside
    have resized := writes.resized (by omega) bounded
    have after := resized.iupdate layout inside writes.low
    have mine : sb.dinode (sb.iupdate got.volume inum
        { got.ip with size := max (sb.dinode v inum).size (off + got.tot) }) inum =
          { got.ip with size := max (sb.dinode v inum).size (off + got.tot) } := by
      have sized := resized.sized inum inside
      rw [Function.update_self] at sized
      exact dinode_iupdate_self sized
    have others (inum' : Nat) (inside' : inum' < sb.ninodes) (other : inum' ≠ inum) :
        sb.dinode (sb.iupdate got.volume inum { got.ip with size := max (sb.dinode v inum).size (off + got.tot) }) inum' =
          sb.dinode v inum' :=
      (dinode_iupdate_other other).trans (dinode_congr (writes.low _ (layout.iblock_lt inside')))
    have high (c : Nat) (above : sb.bmapstart ≤ c) :
        sb.iupdate got.volume inum { got.ip with size := max (sb.dinode v inum).size (off + got.tot) } c = got.volume c := by
      have below := layout.iblock_lt inside
      exact iupdate_of_ne (by omega)
    refine ⟨_, rfl, after, ⟨fun inum' inside' => ?_, fun inum' inside' k below => ?_⟩⟩
    · by_cases own : inum' = inum
      · rw [own, mine]
        unfold noteWrite written
        simp only
        rw [Function.update_self, shows_.size inum inside]
      · rw [others inum' inside' own, ← shows_.size inum' inside']
        unfold noteWrite
        simp only
        rw [Function.update_of_ne own]
    · by_cases own : inum' = inum
      · subst own
        rw [mine] at below ⊢
        have byte := resized.byteAt_low inside' (k := k) (by rw [Function.update_self]; exact below) high
        rw [Function.update_self] at byte
        rw [byte]
        unfold noteWrite written
        simp only
        rw [Function.update_self]
        exact (writes.mine k below).2.symm
      · rw [others inum' inside' own] at below ⊢
        have byte := resized.byteAt_low inside' (k := k) (by rw [Function.update_of_ne own]; exact below) high
        rw [Function.update_of_ne own] at byte
        rw [byte, writes.others inum' inside' own k below, ← shows_.data inum' inside' k below]
        unfold noteWrite
        simp only
        rw [Function.update_of_ne own]

-- The inode `inum` becomes an empty file; all blocks of the others stay.
theorem Shows.cleared {ip : Dinode} (shows_ : sb.Shows v files) (sound : sb.Sound (sb.dinode v) v)
    (empty : ip.size = 0) (mine : sb.dinode v' inum = ip)
    (others : ∀ inum' < sb.ninodes, inum' ≠ inum → sb.dinode v' inum' = sb.dinode v inum')
    (high : ∀ c, sb.dataStart ≤ c → v' c = v c) {file : Paging.Inode} (gone : file.size = 0) :
    sb.Shows v' (Function.update files inum file) := by
  refine ⟨fun inum' inside' => ?_, fun inum' inside' k below => ?_⟩
  · by_cases own : inum' = inum
    · rw [own, Function.update_self, mine, gone, empty]
    · rw [Function.update_of_ne own, others inum' inside' own, shows_.size inum' inside']
  · by_cases own : inum' = inum
    · rw [own, mine, empty] at below
      exact absurd below (Nat.not_lt_zero k)
    · rw [Function.update_of_ne own, others inum' inside' own]
      rw [others inum' inside' own] at below
      rw [shows_.data inum' inside' k below]
      obtain ⟨b, here⟩ := sound.place inside' below
      have block : (sb.dinode v inum').blockAt v' (slot (k / bsize)) = (sb.dinode v inum').blockAt v (slot (k / bsize)) :=
        blockAt_congr fun some_ => high _ (sound.held.taken_of (holds_top inside' some_)).1
      unfold Dinode.byteAt
      rw [block, (holds_some here).2.2.2, high b (sound.held.taken_of here).1]

def truncated (file : Paging.Inode) : Paging.Inode := { file with size := 0 }

theorem Shows.itrunc (shows_ : sb.Shows v files) (sound : sb.Sound (sb.dinode v) v) (layout : sb.Layout)
    (inside : inum < sb.ninodes) : ∃ left, sb.itrunc v inum = some left ∧ sb.Sound (sb.dinode left.1) left.1 ∧
      sb.Shows left.1 (Function.update files inum (truncated (files inum))) := by
  obtain ⟨v₁, ran, sound₁, same⟩ := sound.itrunc inside
  have order := bmapstart_lt sb
  have sized := emptied_sized (sound.sized inum inside)
  refine ⟨_, ran, sound₁.iupdate layout inside fun c low => same c (.inl low), ?_⟩
  refine shows_.cleared sound rfl (dinode_iupdate_self sized) (fun inum' inside' other => ?_) (fun c high => ?_) rfl
  · exact (dinode_iupdate_other other).trans (dinode_congr (same _ (.inl (layout.iblock_lt inside'))))
  · have below := layout.iblock_lt inside
    exact (iupdate_of_ne (by omega)).trans (same c (.inr high))

theorem Shows.ifree (shows_ : sb.Shows v files) (sound : sb.Sound (sb.dinode v) v) (layout : sb.Layout)
    (inside : inum < sb.ninodes) : ∃ v', sb.ifree v inum = some v' ∧ sb.Sound (sb.dinode v') v' ∧
      sb.Shows v' (Function.update files inum (truncated (files inum))) := by
  obtain ⟨v', ran, sound'⟩ := sound.ifree layout inside
  refine ⟨v', ran, sound', ?_⟩
  obtain ⟨v₁, freed, sound₁, same⟩ := sound.itrunc inside
  have order := bmapstart_lt sb
  have sized := emptied_sized (sound.sized inum inside)
  have blank : ({ emptied (sb.dinode v inum) with type := 0 } : Dinode).Sized :=
    ⟨Nat.two_pow_pos 16, sized.major, sized.minor, sized.nlink, sized.size, sized.addrs, sized.only⟩
  unfold Superblock.ifree at ran
  rw [freed, Option.map_some] at ran
  obtain rfl := Option.some.inj ran
  refine shows_.cleared sound rfl (dinode_iupdate_self blank) (fun inum' inside' other => ?_) (fun c high => ?_) rfl
  · rw [dinode_iupdate_other other, dinode_iupdate_other other]
    exact dinode_congr (same _ (.inl (layout.iblock_lt inside')))
  · have below := layout.iblock_lt inside
    have other : c ≠ sb.iblock inum := by omega
    exact (iupdate_of_ne other).trans ((iupdate_of_ne other).trans (same c (.inr high)))

def noteCreate (files : Nat → Paging.Inode) (inum : Nat) : Nat → Paging.Inode :=
  if inum = 0 then files else Function.update files inum (truncated (files inum))

theorem Shows.ialloc (shows_ : sb.Shows v files) (sound : sb.Sound (sb.dinode v) v) (layout : sb.Layout) {type : Nat}
    (small : type < 2 ^ 16) : sb.Shows (sb.ialloc v type).2 (noteCreate files (sb.ialloc v type).1) := by
  unfold Superblock.ialloc
  cases found : (List.range sb.ninodes).find? fun inum => decide (0 < inum ∧ (sb.dinode v inum).type = 0) with
  | none => exact shows_
  | some inum =>
    have inside : inum < sb.ninodes := List.mem_range.mp (List.mem_of_find?_eq_some found)
    have free := List.find?_some found
    rw [decide_eq_true_eq] at free
    have order := bmapstart_lt sb
    have sized : ({ Dinode.zero with type := type } : Dinode).Sized := ⟨small, Nat.two_pow_pos 16, Nat.two_pow_pos 16,
      Nat.two_pow_pos 16, Nat.two_pow_pos 32, fun _ => Nat.two_pow_pos 32, fun _ _ => rfl⟩
    unfold noteCreate
    simp only
    rw [if_neg (by omega)]
    refine shows_.cleared sound rfl (dinode_iupdate_self sized) (fun inum' _ other => dinode_iupdate_other other)
      (fun c high => ?_) rfl
    have below := layout.iblock_lt inside
    exact iupdate_of_ne (by omega)

theorem Sound.bmap_here (sound : sb.Sound view v) (layout : sb.Layout) (inside : inum < sb.ninodes)
    (used : (view inum).type ≠ 0) (below : k < (view inum).size) :
    ∃ b, b ≠ 0 ∧ sb.bmap v (view inum) (k / bsize) = some ⟨b, view inum, v⟩ ∧
      ∀ j, j / bsize = k / bsize → v b (j % bsize) = (view inum).byteAt v j := by
  obtain ⟨b, here⟩ := sound.place inside below
  have short : k / bsize < maxfile := by
    have bounded := sound.bounded inum inside
    apply Nat.div_lt_of_lt_mul
    rw [Nat.mul_comm]
    omega
  obtain ⟨place, mapped, placed⟩ := sound.bmap layout inside used short
  rw [placed.already b here] at mapped
  refine ⟨b, (holds_some here).2.2.1, mapped, fun j same => ?_⟩
  rw [← same] at here
  exact (byteAt_of here).symm

theorem Sound.readLoop (sound : sb.Sound view v) (layout : sb.Layout) (inside : inum < sb.ninodes)
    (used : (view inum).type ≠ 0) (copies : Nat → Bool) {base n : Nat} (ends : base + n ≤ (view inum).size)
    (fuel tot : Nat) (bound : tot ≤ n) (enough : n ≤ tot + fuel) :
    ∃ got, sb.readLoop copies n fuel v (view inum) (base + tot) tot
        ((List.range tot).map fun k => (view inum).byteAt v (base + k)) = some got ∧
      got.volume = v ∧ ((∀ k, copies k = true) →
        got.count = some n ∧ got.bytes = (List.range n).map fun k => (view inum).byteAt v (base + k)) := by
  induction fuel generalizing tot with
  | zero =>
    obtain rfl : tot = n := by omega
    exact ⟨_, rfl, rfl, fun _ => ⟨rfl, rfl⟩⟩
  | succ fuel ih =>
    rw [Superblock.readLoop]
    by_cases more : tot < n
    · rw [if_pos more]
      obtain ⟨b, some_, mapped, bytes⟩ := sound.bmap_here layout inside used (k := base + tot) (by omega)
      rw [mapped, Option.bind_some]
      simp only
      rw [if_neg some_]
      split_ifs with copied
      · have wide : bsize = 1024 := rfl
        have chunk : ((List.range (min (n - tot) (bsize - (base + tot) % bsize))).map fun k =>
            v b ((base + tot) % bsize + k)) =
              (List.range (min (n - tot) (bsize - (base + tot) % bsize))).map fun k =>
                (view inum).byteAt v (base + (tot + k)) := by
          apply List.map_congr_left
          intro k member
          have below := List.mem_range.mp member
          rw [← bytes (base + (tot + k)) (by rw [wide] at below ⊢; omega)]
          congr 1
          rw [wide] at below ⊢
          omega
        have next := ih (tot + min (n - tot) (bsize - (base + tot) % bsize)) (by omega) (by
          have wide' : (base + tot) % bsize < bsize := Nat.mod_lt _ (by decide)
          omega)
        rw [List.range_add, List.map_append, List.map_map, ← Nat.add_assoc] at next
        rw [chunk]
        exact next
      · exact ⟨_, rfl, rfl, fun all => absurd (all tot) copied⟩
    · obtain rfl : tot = n := by omega
      exact ⟨_, if_neg more, rfl, fun _ => ⟨rfl, rfl⟩⟩

-- No `copyin` fails in the middle of a block. The bytes that such a one has copied are in a buffer that is
-- released without `log_write`: the file has them only until the buffer is used for another block.
def Whole (n : Nat) (fails : Nat → Option Nat) : Prop := ∀ tot < n, (fails tot).getD 0 = 0

instance (n : Nat) (fails : Nat → Option Nat) : Decidable (Whole n fails) := inferInstanceAs (Decidable (∀ tot < n, _))

theorem Shows.readi (shows_ : sb.Shows v files) (sound : sb.Sound (sb.dinode v) v) (layout : sb.Layout)
    (inside : inum < sb.ninodes) (used : (sb.dinode v inum).type ≠ 0) (copies : Nat → Bool) (off n : Nat) :
    ∃ got, sb.readi v inum copies off n = some got ∧ got.volume = v ∧ ((∀ k, copies k = true) →
      got.count = some (Paging.readi (files inum) off n).1 ∧
        got.bytes = (List.range (Paging.readi (files inum) off n).1).map (Paging.readi (files inum) off n).2) := by
  unfold Superblock.readi Paging.readi
  rw [shows_.size inum inside]
  simp only
  by_cases refused : off > (sb.dinode v inum).size ∨ u32 (off + n) < off
  · rw [if_pos refused, if_pos refused]
    exact ⟨_, rfl, rfl, fun _ => ⟨rfl, rfl⟩⟩
  · rw [if_neg refused, if_neg refused]
    have ends : off + (if off + n > (sb.dinode v inum).size then (sb.dinode v inum).size - off else n) ≤
        (sb.dinode v inum).size := by
      split_ifs <;> omega
    generalize (if off + n > (sb.dinode v inum).size then (sb.dinode v inum).size - off else n) = m at ends
    obtain ⟨got, ran, volume, whole⟩ := sound.readLoop layout inside used copies ends m 0 (Nat.zero_le m) (by omega)
    refine ⟨got, ran, volume, fun all => ?_⟩
    obtain ⟨count, bytes⟩ := whole all
    refine ⟨count, bytes.trans (List.map_congr_left fun k member => ?_)⟩
    have below := List.mem_range.mp member
    exact (shows_.data inum inside (off + k) (by omega)).symm

end Superblock

def Superblock.Used (sb : Superblock) (v : Volume) (inum : Nat) : Prop :=
  inum < sb.ninodes ∧ (sb.dinode v inum).type ≠ 0

instance (sb : Superblock) (v : Volume) (inum : Nat) : Decidable (sb.Used v inum) :=
  inferInstanceAs (Decidable (_ ∧ _))

def Superblock.Within (sb : Superblock) (v : Volume) : FileStep → Prop
  | .create type => type < 2 ^ 16
  | .read inum _ _ _ | .write inum _ _ _ _ | .trunc inum | .free inum => sb.Used v inum

def FileStep.Whole : FileStep → Prop
  | .write _ _ n _ fails => Superblock.Whole n fails
  | .create _ | .read _ _ _ _ | .trunc _ | .free _ => True

instance : DecidablePred FileStep.Whole
  | .write _ _ n _ fails => inferInstanceAs (Decidable (Superblock.Whole n fails))
  | .create _ | .read _ _ _ _ | .trunc _ | .free _ => instDecidableTrue

def Superblock.filesOf (sb : Superblock) (v : Volume) (inum : Nat) : Paging.Inode :=
  ⟨inum, (sb.dinode v inum).size, (sb.dinode v inum).byteAt v⟩

def Superblock.note (sb : Superblock) (files : Nat → Paging.Inode) (v : Volume) (l : FileStep) (_ : Volume) :
    Nat → Paging.Inode :=
  match l with
  | .create type => Superblock.noteCreate files (sb.ialloc v type).1
  | .read _ _ _ _ => files
  | .write inum off n src fails =>
    match sb.writei v inum src fails off n with
    | some result => Superblock.noteWrite files inum off src (result.1, result.2.1)
    | none => files
  | .trunc inum | .free inum => Function.update files inum (Superblock.truncated (files inum))

def fileSystem (sb : Superblock) : System Volume FileStep :=
  System.ofNext (fun v => sb.Sound (sb.dinode v) v) (FileStep.run sb)

def fileRuns (sb : Superblock) : System (Volume × (Nat → Paging.Inode)) FileStep :=
  (fileSystem sb).recorded sb.filesOf sb.note

variable {sb : Superblock} {v v' : Volume} {files : Nat → Paging.Inode}

theorem Superblock.Shows.step {l : FileStep} (shows_ : sb.Shows v files) (sound : sb.Sound (sb.dinode v) v)
    (layout : sb.Layout) (within : sb.Within v l) : ∃ v', l.run sb v = some v' ∧ sb.Sound (sb.dinode v') v' ∧
      sb.Shows v' (sb.note files v l v') := by
  cases l with
  | create type => exact ⟨_, rfl, sound.ialloc layout within, shows_.ialloc sound layout within⟩
  | read inum off n copies =>
    obtain ⟨got, ran, volume, -⟩ := shows_.readi sound layout within.1 within.2 copies off n
    unfold FileStep.run
    simp only
    rw [ran, Option.map_some, volume]
    exact ⟨v, rfl, sound, shows_⟩
  | write inum off n src fails =>
    obtain ⟨result, ran, sound', shows'⟩ := shows_.writei sound layout within.1 within.2 fails src off n
    unfold FileStep.run Superblock.note
    simp only
    rw [ran, Option.map_some]
    exact ⟨_, rfl, sound', shows'⟩
  | trunc inum =>
    obtain ⟨left, ran, sound', shows'⟩ := shows_.itrunc sound layout within.1
    unfold FileStep.run
    simp only
    rw [ran, Option.map_some]
    exact ⟨_, rfl, sound', shows'⟩
  | free inum => exact shows_.ifree sound layout within.1

theorem filesOf_shows (v : Volume) : sb.Shows v (sb.filesOf v) := ⟨fun _ _ => rfl, fun _ _ _ _ => rfl⟩

theorem shows_of_reached (layout : sb.Layout) (reached : (fileRuns sb).ReachableVia (fun s => sb.Within s.1) (v, files)) :
    sb.Sound (sb.dinode v) v ∧ sb.Shows v files := by
  refine System.ReachableVia.invariant (I := fun s : Volume × (Nat → Paging.Inode) =>
    sb.Sound (sb.dinode s.1) s.1 ∧ sb.Shows s.1 s.2) (fun s first => ?_) (fun s l s' before within taken => ?_) reached
  · rw [first.2]
    exact ⟨first.1, filesOf_shows s.1⟩
  · obtain ⟨v', ran, sound, shows_⟩ := before.2.step before.1 layout within
    obtain rfl : s'.1 = v' := Option.some.inj (taken.1.symm.trans ran)
    rw [taken.2]
    exact ⟨sound, shows_⟩

theorem sound_of_reached (layout : sb.Layout) (reached : (fileSystem sb).ReachableVia sb.Within v) :
    sb.Sound (sb.dinode v) v := by
  obtain ⟨files, runs⟩ := reached.recorded sb.filesOf sb.note
  exact (shows_of_reached layout runs).1

-- Whatever calls came before: a block of the data area is in use in the free map exactly when some inode holds it,
-- no block is held twice, all held ones are in the data area, and no call panics.
theorem blocks_have_one_holder (layout : sb.Layout) (reached : (fileSystem sb).ReachableVia sb.Within v) :
    (∀ b, sb.dataStart ≤ b → b < sb.size → (sb.marked v b = true ↔
      ∃ inum < sb.ninodes, ∃ i < places, (sb.dinode v inum).blockAt v i = b)) ∧
    (∀ inum < sb.ninodes, ∀ i < places, ∀ inum' < sb.ninodes, ∀ i' < places,
      (sb.dinode v inum).blockAt v i ≠ 0 → (sb.dinode v inum).blockAt v i = (sb.dinode v inum').blockAt v i' →
        inum = inum' ∧ i = i') ∧
    (∀ inum < sb.ninodes, ∀ i < places, (sb.dinode v inum).blockAt v i ≠ 0 →
      sb.dataStart ≤ (sb.dinode v inum).blockAt v i ∧ (sb.dinode v inum).blockAt v i < sb.size) ∧
    ∀ l, sb.Within v l → (l.run sb v).isSome = true := by
  have sound := sound_of_reached layout reached
  refine ⟨fun b data inside => ?_, fun inum inside i place inum' inside' i' place' some_ same => ?_,
    fun inum inside i place some_ => ?_, fun l within => ?_⟩
  · constructor
    · intro marked
      obtain ⟨p, here⟩ := (sound.held.taken_iff b).mp ⟨data, inside, marked⟩
      obtain ⟨inside', place, -, block⟩ := Superblock.holds_some here
      exact ⟨p.1, inside', p.2, place, block⟩
    · rintro ⟨inum, inside', i, place, block⟩
      have first := Superblock.dataStart_pos sb
      exact (sound.held.taken_of (Superblock.holds_of inside' place block (by omega))).2.2
  · have here : sb.holds (sb.dinode v) v (inum, i) = some _ := Superblock.holds_of inside place rfl some_
    have there := Superblock.holds_of inside' place' same.symm some_
    have one := sound.held.apart _ _ _ here there
    exact ⟨congrArg Prod.fst one, congrArg Prod.snd one⟩
  · have taken := sound.held.taken_of (Superblock.holds_of inside place rfl some_)
    exact ⟨taken.1, taken.2.1⟩
  · obtain ⟨v', ran, -⟩ := (filesOf_shows v).step sound layout within
    rw [ran]
    rfl

theorem zero_blockAt (v : Volume) (i : Nat) : Dinode.zero.blockAt v i = 0 := by
  unfold Dinode.blockAt
  by_cases direct : i ≤ ndirect
  · exact if_pos direct
  · rw [if_neg direct]
    exact if_pos rfl

theorem sound_of_blank (inodes : ∀ inum < sb.ninodes, sb.dinode v inum = Dinode.zero)
    (marks : ∀ b < sb.size, sb.marked v b = decide (b < sb.dataStart)) : sb.Sound (sb.dinode v) v := by
  refine ⟨fun b low inside => (marks b inside).trans (decide_eq_true low), ⟨fun p q b here => ?_, fun b => ?_⟩,
    fun inum inside => ?_, fun inum inside => ?_, fun inum inside => ?_, fun inum inside bn below => ?_⟩
  · obtain ⟨inside, -, some_, block⟩ := Superblock.holds_some here
    rw [inodes p.1 inside, zero_blockAt] at block
    exact absurd block.symm some_
  · constructor
    · rintro ⟨data, inside, marked⟩
      rw [marks b inside, decide_eq_true_eq] at marked
      omega
    · rintro ⟨p, here⟩
      obtain ⟨inside, -, some_, block⟩ := Superblock.holds_some here
      rw [inodes p.1 inside, zero_blockAt] at block
      exact absurd block.symm some_
  · rw [inodes inum inside]
    exact Dinode.zero_sized
  · rw [inodes inum inside]
    exact fun _ _ => rfl
  · rw [inodes inum inside]
    exact Nat.zero_le _
  · rw [inodes inum inside] at below
    exact absurd below (Nat.not_lt_zero _)

def smallSuper : Superblock := ⟨40, 16, 2, 4⟩

def smallVolume : Volume := fun b k => if b = 4 ∧ k = 0 then 31 else 0

theorem smallSuper_layout : smallSuper.Layout := ⟨by decide, by decide, by decide⟩

theorem smallVolume_sound : smallSuper.Sound (smallSuper.dinode smallVolume) smallVolume := by
  refine sound_of_blank (fun inum inside => ?_) (by decide)
  have block : smallVolume (smallSuper.iblock inum) = fun _ => 0 := by
    have below := smallSuper_layout.iblock_lt inside
    have top : smallSuper.bmapstart = 4 := rfl
    funext k
    exact if_neg fun same => by omega
  unfold Superblock.dinode
  rw [block]
  unfold Dinode.decode
  simp only [Superblock.field_zero, ite_self]
  rfl

def withinCheck (sb : Superblock) (v : Volume) : FileStep → Bool
  | .create type => decide (type < 2 ^ 16)
  | .read inum _ _ _ | .write inum _ _ _ _ | .trunc inum | .free inum => decide (sb.Used v inum)

theorem withinCheck_sound (sb : Superblock) (v : Volume) (l : FileStep) (checked : withinCheck sb v l = true) :
    sb.Within v l := by
  have used {inum : Nat} (checked : decide (sb.Used v inum) = true) : sb.Used v inum := of_decide_eq_true checked
  cases l with
  | create type =>
    have small : type < 2 ^ 16 := of_decide_eq_true checked
    exact small
  | read inum off n copies => exact used checked
  | write inum off n src fails => exact used checked
  | trunc inum => exact used checked
  | free inum => exact used checked

-- A file is made and gets three bytes; a `copyin` of two more fails.
def writtenFile : List FileStep :=
  [.create 2, .write 1 0 3 (fun k => UInt8.ofNat (k + 7)) fun _ => none, .write 1 1 2 (fun _ => 0) fun _ => some 0]

theorem blocks_have_one_holder_written : ∃ v : Volume, smallSuper.marked v 5 = true ∧
    (∃ inum < smallSuper.ninodes, ∃ i < places, (smallSuper.dinode v inum).blockAt v i = 5) ∧
    ((FileStep.free 1).run smallSuper v).isSome = true := by
  obtain ⟨v, executed, shown⟩ := Option.any_eq_true .. |>.mp (show (System.execute (FileStep.run smallSuper)
    (withinCheck smallSuper) smallVolume writtenFile).any (fun v : Volume =>
      decide (smallSuper.marked v 5 = true ∧ smallSuper.Used v 1)) = true by decide +kernel)
  obtain ⟨marked, used⟩ := of_decide_eq_true shown
  have first : (fileSystem smallSuper).ReachableVia smallSuper.Within smallVolume := .initial smallVolume_sound
  have reached := System.execute_reachableVia (withinCheck_sound smallSuper) first executed
  obtain ⟨held, -, -, runs⟩ := blocks_have_one_holder smallSuper_layout reached
  exact ⟨v, marked, (held 5 (by decide) (by decide)).mp marked, runs (.free 1) used⟩

end SystemsSuite.Files
