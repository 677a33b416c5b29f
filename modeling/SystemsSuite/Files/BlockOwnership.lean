import SystemsSuite.Lib.Holdings
import SystemsSuite.Files.Inodes

set_option autoImplicit false

namespace SystemsSuite.Files

open Lib
open Paging (bsize maxfile)

theorem mask_bit (i j : Nat) (inside : j < 8) : (mask i).toBitVec.getLsbD j = decide (j = i % 8) := by
  unfold mask
  rw [UInt8.toBitVec_ofNat', BitVec.getLsbD_ofNat, Nat.shiftLeft_eq, Nat.one_mul, Nat.testBit_two_pow]
  simp only [inside, decide_true, Bool.true_and]
  exact decide_eq_decide.mpr eq_comm

theorem bitOf_eq (data : Block) (bi : Nat) : bitOf data bi = (data (bi / 8)).toBitVec.getLsbD (bi % 8) := by
  have small : bi % 8 < 8 := Nat.mod_lt _ (by decide)
  unfold bitOf
  have zero : (data (bi / 8) &&& mask bi) = 0 ↔ (data (bi / 8)).toBitVec.getLsbD (bi % 8) = false := by
    rw [← UInt8.toBitVec_inj, UInt8.toBitVec_and]
    constructor
    · intro none_
      have here := congrArg (fun x => x.getLsbD (bi % 8)) none_
      simpa [BitVec.getLsbD_and, mask_bit bi _ small] using here
    · intro clear
      apply BitVec.eq_of_getLsbD_eq
      intro j inside
      rw [BitVec.getLsbD_and, mask_bit bi j inside]
      by_cases same : j = bi % 8
      · rw [same, clear]
        simp
      · simp [same]
  cases bit : (data (bi / 8)).toBitVec.getLsbD (bi % 8) with
  | true => exact bne_iff_ne.mpr fun none_ => Bool.false_ne_true ((zero.mp none_).symm.trans bit)
  | false => rw [zero.mpr bit]; rfl

theorem place_inj {bi bi' : Nat} (byte : bi' / 8 = bi / 8) : bi' % 8 = bi % 8 ↔ bi' = bi := by omega

theorem bitOf_setBit (data : Block) (bi bi' : Nat) :
    bitOf (setBit data bi) bi' = (decide (bi' = bi) || bitOf data bi') := by
  rw [bitOf_eq, bitOf_eq, setBit]
  by_cases byte : bi' / 8 = bi / 8
  · rw [byte, Function.update_self, UInt8.toBitVec_or, BitVec.getLsbD_or, mask_bit bi _ (Nat.mod_lt _ (by decide)),
      Bool.or_comm]
    congr 1
    exact decide_eq_decide.mpr (place_inj byte)
  · have other : bi' ≠ bi := by
      rintro rfl
      exact byte rfl
    rw [Function.update_of_ne byte, decide_eq_false other, Bool.false_or]

theorem bitOf_clearBit (data : Block) (bi bi' : Nat) :
    bitOf (clearBit data bi) bi' = (!decide (bi' = bi) && bitOf data bi') := by
  have small : bi' % 8 < 8 := Nat.mod_lt _ (by decide)
  rw [bitOf_eq, bitOf_eq, clearBit]
  by_cases byte : bi' / 8 = bi / 8
  · rw [byte, Function.update_self, UInt8.toBitVec_and, BitVec.getLsbD_and, UInt8.toBitVec_not, BitVec.getLsbD_not,
      mask_bit bi _ small, Bool.and_comm, decide_eq_true small, Bool.true_and]
    congr 2
    exact decide_eq_decide.mpr (place_inj byte)
  · have other : bi' ≠ bi := by
      rintro rfl
      exact byte rfl
    rw [Function.update_of_ne byte, decide_eq_false other, Bool.not_false, Bool.true_and]

-- The fields are as wide as on disk, and there are as many addresses.
structure Dinode.Sized (ip : Dinode) : Prop where
  type : ip.type < 2 ^ 16
  major : ip.major < 2 ^ 16
  minor : ip.minor < 2 ^ 16
  nlink : ip.nlink < 2 ^ 16
  size : ip.size < 2 ^ 32
  addrs : ∀ i, ip.addrs i < 2 ^ 32
  only : ∀ i, ndirect < i → ip.addrs i = 0

namespace Dinode

theorem zero_sized : zero.Sized :=
  ⟨by decide, by decide, by decide, by decide, by decide, fun _ => Nat.two_pow_pos 32, fun _ _ => rfl⟩

theorem Sized.setAddr {ip : Dinode} (sized : ip.Sized) {i addr : Nat} (inside : i ≤ ndirect) (small : addr < 2 ^ 32) :
    (ip.setAddr i addr).Sized := by
  refine ⟨sized.type, sized.major, sized.minor, sized.nlink, sized.size, fun j => ?_, fun j beyond => ?_⟩
  · change Function.update ip.addrs i addr j < _
    by_cases same : j = i
    · rw [same, Function.update_self]
      exact small
    · rw [Function.update_of_ne same]
      exact sized.addrs j
  · change Function.update ip.addrs i addr j = _
    rw [Function.update_of_ne (by omega)]
    exact sized.only j beyond

theorem decode_encode {ip : Dinode} (sized : ip.Sized) (data : Block) (start : Nat) :
    decode (ip.encode data start) start = ip := by
  have addrs : (decode (ip.encode data start) start).addrs = ip.addrs := by
    funext i
    unfold decode encode
    simp only
    split_ifs with inside
    · exact field_setFields inside (sized.addrs i)
    · exact (sized.only i (by omega)).symm
  have type : field (ip.encode data start) start 2 = ip.type := by
    unfold encode
    simp (disch := omega) only [field_setFields_of_apart, field_setField_of_apart]
    exact field_setField sized.type
  have major : field (ip.encode data start) (start + 2) 2 = ip.major := by
    unfold encode
    simp (disch := omega) only [field_setFields_of_apart, field_setField_of_apart]
    exact field_setField sized.major
  have minor : field (ip.encode data start) (start + 4) 2 = ip.minor := by
    unfold encode
    simp (disch := omega) only [field_setFields_of_apart, field_setField_of_apart]
    exact field_setField sized.minor
  have nlink : field (ip.encode data start) (start + 6) 2 = ip.nlink := by
    unfold encode
    simp (disch := omega) only [field_setFields_of_apart, field_setField_of_apart]
    exact field_setField sized.nlink
  have size : field (ip.encode data start) (start + 8) 4 = ip.size := by
    unfold encode
    simp (disch := omega) only [field_setFields_of_apart]
    exact field_setField sized.size
  unfold decode at addrs ⊢
  simp only at addrs
  rw [addrs, type, major, minor, nlink, size]

theorem decode_encode_of_apart (ip : Dinode) (data : Block) {start start' : Nat}
    (apart : start + bytes ≤ start' ∨ start' + bytes ≤ start) :
    decode (ip.encode data start') start = decode data start := by
  have same {at_ width : Nat} (low : start ≤ at_) (high : at_ + width ≤ start + bytes) :
      field (ip.encode data start') at_ width = field data at_ width := by
    unfold bytes at apart high
    have table : ndirect + 1 = 13 := rfl
    unfold encode
    simp (disch := omega) only [field_setFields_of_apart, field_setField_of_apart]
  have addrs : (decode (ip.encode data start') start).addrs = (decode data start).addrs := by
    funext i
    unfold decode
    simp only
    split_ifs with inside
    · unfold ndirect at inside
      exact same (by omega) (by unfold bytes; omega)
    · rfl
  unfold decode bytes at *
  simp only at addrs
  rw [addrs, same (by omega) (by omega), same (by omega) (by omega), same (by omega) (by omega),
    same (by omega) (by omega), same (by omega) (by omega)]

end Dinode

namespace Superblock

variable {sb : Superblock} {v v' : Volume} {inum inum' b c : Nat}

def dataStart (sb : Superblock) : Nat := sb.bmapstart + sb.size / bpb + 1

-- The inodes, then the free map, then the blocks of the files.
structure Layout (sb : Superblock) : Prop where
  first : 0 < sb.inodestart
  inodes : sb.inodestart + sb.ninodes / ipb + 1 ≤ sb.bmapstart
  small : sb.size < 2 ^ 32

theorem Layout.iblock_lt (layout : sb.Layout) (inside : inum < sb.ninodes) : sb.iblock inum < sb.bmapstart := by
  have inodes := layout.inodes
  have order : inum / ipb ≤ sb.ninodes / ipb := Nat.div_le_div_right inside.le
  unfold iblock
  omega

theorem dataStart_pos (sb : Superblock) : 0 < sb.dataStart := Nat.succ_pos _

theorem bmapstart_le (sb : Superblock) (b : Nat) : sb.bmapstart ≤ sb.bblock b := Nat.le_add_left ..

theorem bblock_lt (inside : b < sb.size) : sb.bblock b < sb.dataStart := by
  have order : b / bpb ≤ sb.size / bpb := Nat.div_le_div_right inside.le
  unfold bblock dataStart
  omega

theorem bmapstart_lt (sb : Superblock) : sb.bmapstart < sb.dataStart := Nat.lt_succ_of_le (Nat.le_add_right ..)

theorem dinode_congr (same : v' (sb.iblock inum) = v (sb.iblock inum)) : sb.dinode v' inum = sb.dinode v inum := by
  unfold dinode
  rw [same]

theorem marked_congr (same : v' (sb.bblock b) = v (sb.bblock b)) : sb.marked v' b = sb.marked v b := by
  unfold marked
  rw [same]

theorem dinode_iupdate_self {ip : Dinode} (sized : ip.Sized) : sb.dinode (sb.iupdate v inum ip) inum = ip := by
  unfold dinode iupdate
  rw [Function.update_self]
  exact Dinode.decode_encode sized ..

theorem dinode_iupdate_other {ip : Dinode} (other : inum' ≠ inum) :
    sb.dinode (sb.iupdate v inum ip) inum' = sb.dinode v inum' := by
  unfold dinode iupdate
  by_cases together : sb.iblock inum' = sb.iblock inum
  · rw [together, Function.update_self]
    apply Dinode.decode_encode_of_apart
    have whole : ipb = 16 := rfl
    unfold iblock at together
    unfold Dinode.bytes
    rw [whole] at together ⊢
    omega
  · rw [Function.update_of_ne together]

theorem iupdate_of_ne {ip : Dinode} (other : c ≠ sb.iblock inum) : sb.iupdate v inum ip c = v c :=
  Function.update_of_ne other ..

end Superblock

-- The place in the inode of block `bn` of the file; place `ndirect` is the one of the indirect block.
def slot (bn : Nat) : Nat := if bn < ndirect then bn else bn + 1

def places : Nat := ndirect + 1 + nindirect

def Dinode.blockAt (ip : Dinode) (v : Volume) (i : Nat) : Nat :=
  if i ≤ ndirect then ip.addrs i
  else if ip.addrs ndirect = 0 then 0
  else field (v (ip.addrs ndirect)) (4 * (i - (ndirect + 1))) 4

theorem slot_lt {size bn : Nat} (bounded : size ≤ maxfile * bsize) (below : bn * bsize < size) : slot bn < places := by
  have short : bn < maxfile := Nat.lt_of_mul_lt_mul_right (below.trans_le bounded)
  have number : maxfile = 268 := rfl
  have limit : places = 269 := rfl
  unfold slot
  split_ifs <;> omega

theorem slot_ne (bn : Nat) : slot bn ≠ ndirect := by
  unfold slot
  split_ifs <;> omega

theorem slot_inj {bn bn' : Nat} (same : slot bn = slot bn') : bn = bn' := by
  unfold slot at same
  split_ifs at same <;> omega

namespace Superblock

variable {sb : Superblock} {view view' view'' : Nat → Dinode} {v v' v'' : Volume} {inum i b c : Nat} {p : Nat × Nat}

def holds (sb : Superblock) (view : Nat → Dinode) (v : Volume) (p : Nat × Nat) : Option Nat :=
  if p.1 < sb.ninodes ∧ p.2 < places ∧ (view p.1).blockAt v p.2 ≠ 0 then some ((view p.1).blockAt v p.2) else none

def Taken (sb : Superblock) (v : Volume) (b : Nat) : Prop := sb.dataStart ≤ b ∧ b < sb.size ∧ sb.marked v b = true

-- `view` has the inodes: those on disk, but for one that a call has changed and not yet written.
structure Sound (sb : Superblock) (view : Nat → Dinode) (v : Volume) : Prop where
  metadata : ∀ b < sb.dataStart, b < sb.size → sb.marked v b = true
  held : Exact (sb.holds view v) (sb.Taken v)
  sized : ∀ inum < sb.ninodes, (view inum).Sized
  blank : ∀ inum < sb.ninodes, (view inum).type = 0 → ∀ i, (view inum).addrs i = 0
  bounded : ∀ inum < sb.ninodes, (view inum).size ≤ maxfile * bsize
  filled : ∀ inum < sb.ninodes, ∀ bn, bn * bsize < (view inum).size → (view inum).blockAt v (slot bn) ≠ 0

theorem holds_some (here : sb.holds view v p = some b) :
    p.1 < sb.ninodes ∧ p.2 < places ∧ b ≠ 0 ∧ (view p.1).blockAt v p.2 = b := by
  unfold holds at here
  split_ifs at here with held
  obtain rfl := Option.some.inj here
  exact ⟨held.1, held.2.1, held.2.2, rfl⟩

theorem holds_of (inside : inum < sb.ninodes) (place : i < places) (block : (view inum).blockAt v i = b)
    (some_ : b ≠ 0) : sb.holds view v (inum, i) = some b := by
  subst block
  exact if_pos ⟨inside, place, some_⟩

theorem holds_congr (blocks : p.1 < sb.ninodes → p.2 < places → (view' p.1).blockAt v' p.2 = (view p.1).blockAt v p.2) :
    sb.holds view' v' p = sb.holds view v p := by
  unfold holds
  by_cases inside : p.1 < sb.ninodes ∧ p.2 < places
  · rw [blocks inside.1 inside.2]
  · rw [if_neg (by tauto), if_neg (by tauto)]

theorem blockAt_congr {ip : Dinode} (top : ip.addrs ndirect ≠ 0 → v' (ip.addrs ndirect) = v (ip.addrs ndirect)) :
    ip.blockAt v' i = ip.blockAt v i := by
  unfold Dinode.blockAt
  split_ifs with _ none_
  · rfl
  · rfl
  · rw [top none_]

theorem blockAt_top (ip : Dinode) (v : Volume) : ip.blockAt v ndirect = ip.addrs ndirect := if_pos le_rfl

theorem holds_top (inside : inum < sb.ninodes) (some_ : (view inum).addrs ndirect ≠ 0) :
    sb.holds view v (inum, ndirect) = some ((view inum).addrs ndirect) :=
  holds_of inside (by decide) (blockAt_top ..) some_

structure Allocated (sb : Superblock) (v : Volume) (b : Nat) (v' : Volume) : Prop where
  data : sb.dataStart ≤ b
  inside : b < sb.size
  free : sb.marked v b = false
  zeroed : v' b = fun _ => 0
  same : ∀ c ≠ b, c < sb.bmapstart ∨ sb.dataStart ≤ c → v' c = v c
  marks : ∀ c < sb.size, sb.marked v' c = (decide (c = b) || sb.marked v c)

theorem marks_setBit (same : v' (sb.bblock c) =
    Function.update v (sb.bblock b) (setBit (v (sb.bblock b)) (b % bpb)) (sb.bblock c)) :
    sb.marked v' c = (decide (c = b) || sb.marked v c) := by
  unfold marked
  rw [same]
  by_cases together : sb.bblock c = sb.bblock b
  · rw [together, Function.update_self, bitOf_setBit]
    congr 1
    apply decide_eq_decide.mpr
    have whole : bpb = 8192 := rfl
    unfold bblock at together
    rw [whole] at together ⊢
    omega
  · have other : c ≠ b := by
      rintro rfl
      exact together rfl
    rw [Function.update_of_ne together, decide_eq_false other, Bool.false_or]

theorem Sound.balloc (sound : sb.Sound view v) :
    (sb.balloc v).1 = 0 ∧ (sb.balloc v).2 = v ∨ sb.Allocated v (sb.balloc v).1 (sb.balloc v).2 := by
  unfold Superblock.balloc
  cases found : (List.range sb.size).find? fun b => !sb.marked v b with
  | none => exact .inl ⟨rfl, rfl⟩
  | some b =>
    refine .inr ?_
    change sb.Allocated v b (Function.update (Function.update v (sb.bblock b) (setBit (v (sb.bblock b)) (b % bpb))) b
      fun _ => 0)
    have inside : b < sb.size := List.mem_range.mp (List.mem_of_find?_eq_some found)
    have free : sb.marked v b = false := by simpa using List.find?_some found
    have data : sb.dataStart ≤ b := by
      by_contra low
      exact Bool.false_ne_true (free.symm.trans (sound.metadata b (by omega) inside))
    refine ⟨data, inside, free, Function.update_self .., fun c other place => ?_, fun c here => ?_⟩
    · have apart : c ≠ sb.bblock b := by
        have low := bblock_lt inside
        have high := bmapstart_le sb b
        omega
      rw [Function.update_of_ne other, Function.update_of_ne apart]
    · refine marks_setBit (Function.update_of_ne ?_ ..)
      have low := bblock_lt here
      omega

-- What was in the inodes and in the blocks of the files is still there.
structure Extends (sb : Superblock) (view : Nat → Dinode) (v : Volume) (view' : Nat → Dinode) (v' : Volume) : Prop where
  kept : ∀ p b, sb.holds view v p = some b → sb.holds view' v' p = some b
  data : ∀ p b, sb.holds view v p = some b → p.2 ≠ ndirect → v' b = v b
  low : ∀ c < sb.bmapstart, v' c = v c

theorem Extends.refl (view : Nat → Dinode) (v : Volume) : sb.Extends view v view v :=
  ⟨fun _ _ here => here, fun _ _ _ _ => rfl, fun _ _ => rfl⟩

theorem Extends.trans (first : sb.Extends view v view' v') (second : sb.Extends view' v' view'' v'') :
    sb.Extends view v view'' v'' :=
  ⟨fun p b here => second.kept p b (first.kept p b here),
    fun p b here data => (second.data p b (first.kept p b here) data).trans (first.data p b here data),
    fun c low => (second.low c low).trans (first.low c low)⟩

theorem field_zero (start width : Nat) : field (fun _ => 0) start width = 0 := by
  induction width generalizing start with
  | zero => rfl
  | succ width ih =>
    rw [field, ih]
    rfl

namespace Allocated

variable (allocated : sb.Allocated v b v')

include allocated

theorem pos : b ≠ 0 := by
  have data := allocated.data
  have first := dataStart_pos sb
  omega

theorem not_taken : ¬sb.Taken v b := fun taken => Bool.false_ne_true (allocated.free.symm.trans taken.2.2)

theorem taken : sb.Taken v' c ↔ c = b ∨ sb.Taken v c := by
  unfold Taken
  constructor
  · rintro ⟨data, inside, marked⟩
    rw [allocated.marks c inside, Bool.or_eq_true, decide_eq_true_eq] at marked
    exact marked.imp id fun before => ⟨data, inside, before⟩
  · rintro (rfl | ⟨data, inside, marked⟩)
    · refine ⟨allocated.data, allocated.inside, ?_⟩
      rw [allocated.marks c allocated.inside, decide_eq_true rfl, Bool.true_or]
    · refine ⟨data, inside, ?_⟩
      rw [allocated.marks c inside, marked, Bool.or_true]

theorem of_taken (taken : sb.Taken v c) : v' c = v c :=
  allocated.same c (fun same => allocated.not_taken (same ▸ taken)) (.inr taken.1)

theorem low {c : Nat} (low : c < sb.bmapstart) : v' c = v c := by
  refine allocated.same c ?_ (.inl low)
  have data := allocated.data
  have order := bmapstart_lt sb
  omega

theorem metadata (sound : sb.Sound view v) {c : Nat} (low : c < sb.dataStart) (inside : c < sb.size) :
    sb.marked v' c = true := by
  rw [allocated.marks c inside, sound.metadata c low inside, Bool.or_true]

end Allocated

theorem Sound.given (sound : sb.Sound view v) (allocated : sb.Allocated v b v')
    (marks : ∀ c < sb.size, sb.marked v'' c = sb.marked v' c)
    (empty : sb.holds view v p = none)
    (places : ∀ q, sb.holds view' v'' q = if q = p then some b else sb.holds view v q)
    (sized : ∀ inum < sb.ninodes, (view' inum).Sized)
    (types : ∀ inum < sb.ninodes, (view' inum).type = 0 → ∀ i, (view' inum).addrs i = 0)
    (sizes : ∀ inum < sb.ninodes, (view' inum).size = (view inum).size) : sb.Sound view' v'' := by
  refine ⟨fun c low inside => ?_, ?_, sized, types, fun inum inside => ?_, fun inum inside bn below => ?_⟩
  · rw [marks c inside]
    exact allocated.metadata sound low inside
  · refine sound.held.take empty allocated.not_taken places fun c => Iff.trans ?_ allocated.taken
    exact and_congr_right fun _ => and_congr_right fun inside => by rw [marks c inside]
  · rw [sizes inum inside]
    exact sound.bounded inum inside
  · rw [sizes inum inside] at below
    have before := sound.filled inum inside bn below
    have held := holds_of inside (slot_lt (sound.bounded inum inside) below) rfl before
    have after := places (inum, slot bn)
    split_ifs at after with here
    · obtain ⟨-, -, some_, block⟩ := holds_some after
      rw [block]
      exact some_
    · rw [held] at after
      obtain ⟨-, -, some_, block⟩ := holds_some after
      rw [block]
      exact some_

theorem Extends.of_given (empty : sb.holds view v p = none)
    (places : ∀ q, sb.holds view' v' q = if q = p then some b else sb.holds view v q)
    (data : ∀ q c, sb.holds view v q = some c → q.2 ≠ ndirect → v' c = v c) (low : ∀ c < sb.bmapstart, v' c = v c) :
    sb.Extends view v view' v' := by
  refine ⟨fun q c here => ?_, data, low⟩
  have other : q ≠ p := by
    rintro rfl
    rw [empty] at here
    contradiction
  rw [places, if_neg other]
  exact here

theorem holds_setAddr (sound : sb.Sound view v) (allocated : sb.Allocated v b v') (inside : inum < sb.ninodes)
    (address : i ≤ ndirect) (empty : (view inum).addrs i = 0) (q : Nat × Nat) :
    sb.holds (Function.update view inum ((view inum).setAddr i b)) v' q =
      if q = (inum, i) then some b else sb.holds view v q := by
  have tops (inum' : Nat) (inside' : inum' < sb.ninodes) (some_ : (view inum').addrs ndirect ≠ 0) :
      v' ((view inum').addrs ndirect) = v ((view inum').addrs ndirect) :=
    allocated.of_taken (sound.held.taken_of (holds_top inside' some_))
  split_ifs with here
  · subst here
    refine holds_of inside ?_ ?_ allocated.pos
    · unfold Files.places
      omega
    · rw [Function.update_self, Dinode.blockAt, if_pos address]
      exact Function.update_self ..
  · refine holds_congr fun inside' place => ?_
    by_cases own : q.1 = inum
    · have elsewhere : q.2 ≠ i := fun same => here (Prod.ext own same)
      rw [own, Function.update_self]
      unfold Dinode.blockAt
      by_cases direct : q.2 ≤ ndirect
      · rw [if_pos direct, if_pos direct]
        exact Function.update_of_ne elsewhere ..
      · rw [if_neg direct, if_neg direct]
        change (if Function.update (view inum).addrs i b ndirect = 0 then 0
          else field (v' (Function.update (view inum).addrs i b ndirect)) (4 * (q.2 - (ndirect + 1))) 4) = _
        by_cases top : ndirect = i
        · subst top
          rw [Function.update_self, if_neg allocated.pos, allocated.zeroed, field_zero, if_pos empty]
        · rw [Function.update_of_ne top]
          split_ifs with none_
          · rfl
          · rw [tops inum inside none_]
    · rw [Function.update_of_ne own]
      exact blockAt_congr (tops q.1 inside')

theorem holds_setEntry (sound : sb.Sound view v) (layout : sb.Layout) (allocated : sb.Allocated v b v')
    (inside : inum < sb.ninodes) {j : Nat} (entry : j < nindirect) (some_ : (view inum).addrs ndirect ≠ 0)
    (q : Nat × Nat) :
    sb.holds view (Function.update v' ((view inum).addrs ndirect)
      (setField (v' ((view inum).addrs ndirect)) (4 * j) 4 b)) q =
      if q = (inum, ndirect + 1 + j) then some b else sb.holds view v q := by
  have top := holds_top (v := v) inside some_
  have small : b < 256 ^ 4 := allocated.inside.trans layout.small
  split_ifs with here
  · subst here
    refine holds_of inside ?_ ?_ allocated.pos
    · unfold Files.places
      omega
    · rw [Dinode.blockAt, if_neg (by omega), if_neg some_, Function.update_self, Nat.add_sub_cancel_left]
      exact field_setField small
  · refine holds_congr fun inside' place => ?_
    by_cases own : q.1 = inum
    · have elsewhere : q.2 ≠ ndirect + 1 + j := fun same => here (Prod.ext own same)
      rw [own]
      unfold Dinode.blockAt
      by_cases direct : q.2 ≤ ndirect
      · rw [if_pos direct, if_pos direct]
      · rw [if_neg direct, if_neg direct, if_neg some_, if_neg some_, Function.update_self,
          field_setField_of_apart (by omega), allocated.of_taken (sound.held.taken_of top)]
    · refine blockAt_congr fun some' => ?_
      have top' := holds_top (v := v) inside' some'
      have apart : (view q.1).addrs ndirect ≠ (view inum).addrs ndirect := by
        intro same
        rw [same] at top'
        exact own (congrArg Prod.fst (sound.held.apart _ _ _ top' top))
      rw [Function.update_of_ne apart]
      exact allocated.of_taken (sound.held.taken_of top')

-- What `bmap` makes of a place: it stays as it is, or gets a block, or there is no space.
structure Placed (sb : Superblock) (view : Nat → Dinode) (v : Volume) (inum i : Nat) (place : Mapped) : Prop where
  sound : sb.Sound (Function.update view inum place.ip) place.volume
  extended : sb.Extends view v (Function.update view inum place.ip) place.volume
  size : place.ip.size = (view inum).size
  type : place.ip.type = (view inum).type
  here : place.addr ≠ 0 → sb.holds (Function.update view inum place.ip) place.volume (inum, i) = some place.addr
  already : ∀ b, sb.holds view v (inum, i) = some b → place = ⟨b, view inum, v⟩

theorem Placed.same (sound : sb.Sound view v) (here : b ≠ 0 → sb.holds view v (inum, i) = some b)
    (already : ∀ c, sb.holds view v (inum, i) = some c → c = b) : sb.Placed view v inum i ⟨b, view inum, v⟩ := by
  have view' : Function.update view inum (view inum) = view := Function.update_eq_self ..
  refine ⟨?_, ?_, rfl, rfl, fun some_ => ?_, fun c held => ?_⟩
  · rw [view']
    exact sound
  · rw [view']
    exact .refl view v
  · rw [view']
    exact here some_
  · rw [already c held]

theorem Sound.bmapAddr (sound : sb.Sound view v) (layout : sb.Layout) (inside : inum < sb.ninodes)
    (used : (view inum).type ≠ 0) (address : i ≤ ndirect) :
    sb.Placed view v inum i (sb.bmapAddr v (view inum) i) := by
  have block : (view inum).blockAt v i = (view inum).addrs i := if_pos address
  have place : i < Files.places := by
    unfold Files.places
    omega
  unfold Superblock.bmapAddr
  split_ifs with empty
  · have nothing : sb.holds view v (inum, i) = none := if_neg fun held => held.2.2 (block.trans empty)
    obtain ⟨full, kept⟩ | allocated := sound.balloc
    · simp only
      rw [if_pos full, kept]
      refine .same sound (fun some_ => absurd rfl some_) fun c held => ?_
      rw [nothing] at held
      contradiction
    · simp only
      rw [if_neg allocated.pos]
      have places := holds_setAddr sound allocated inside address empty
      refine ⟨sound.given allocated (fun _ _ => rfl) nothing places (fun inum' inside' => ?_) (fun inum' inside' blank => ?_)
        fun inum' _ => ?_, .of_given nothing places (fun q c held _ => allocated.of_taken (sound.held.taken_of held))
        fun c low => allocated.low low, rfl, rfl, fun _ => ?_, fun c held => ?_⟩
      · by_cases own : inum' = inum
        · rw [own, Function.update_self]
          exact (sound.sized inum inside).setAddr address (allocated.inside.trans layout.small)
        · rw [Function.update_of_ne own]
          exact sound.sized inum' inside'
      · by_cases own : inum' = inum
        · rw [own, Function.update_self] at blank
          exact absurd blank used
        · rw [Function.update_of_ne own] at blank ⊢
          exact sound.blank inum' inside' blank
      · by_cases own : inum' = inum
        · rw [own, Function.update_self]
          rfl
        · rw [Function.update_of_ne own]
      · rw [places, if_pos rfl]
      · rw [nothing] at held
        contradiction
  · refine .same sound (fun some_ => holds_of inside place block some_) fun c held => ?_
    exact (holds_some held).2.2.2.symm.trans block

theorem Sound.bmapEntry (sound : sb.Sound view v) (layout : sb.Layout) (inside : inum < sb.ninodes) {j : Nat}
    (entry : j < nindirect) (some_ : (view inum).addrs ndirect ≠ 0) :
    sb.Placed view v inum (ndirect + 1 + j) (sb.bmapEntry v (view inum) ((view inum).addrs ndirect) j) := by
  have block : (view inum).blockAt v (ndirect + 1 + j) = field (v ((view inum).addrs ndirect)) (4 * j) 4 := by
    rw [Dinode.blockAt, if_neg (by omega), if_neg some_, Nat.add_sub_cancel_left]
  have place : ndirect + 1 + j < Files.places := by
    unfold Files.places
    omega
  have top := holds_top (v := v) inside some_
  unfold Superblock.bmapEntry
  split_ifs with empty
  · have nothing : sb.holds view v (inum, ndirect + 1 + j) = none := if_neg fun held => held.2.2 (block.trans empty)
    obtain ⟨full, kept⟩ | allocated := sound.balloc
    · simp only
      rw [if_pos full, kept]
      refine .same sound (fun some_ => absurd rfl some_) fun c held => ?_
      rw [nothing] at held
      contradiction
    · simp only
      rw [if_neg allocated.pos]
      have places := holds_setEntry sound layout allocated inside entry some_
      have view' : Function.update view inum (view inum) = view := Function.update_eq_self ..
      have data : sb.dataStart ≤ (view inum).addrs ndirect := (sound.held.taken_of top).1
      have order := bmapstart_lt sb
      have marks (c : Nat) (here : c < sb.size) : sb.marked (Function.update (sb.balloc v).2 ((view inum).addrs ndirect)
          (setField ((sb.balloc v).2 ((view inum).addrs ndirect)) (4 * j) 4 (sb.balloc v).1)) c =
            sb.marked (sb.balloc v).2 c := by
        have low := bblock_lt here
        exact marked_congr (Function.update_of_ne (by omega) ..)
      refine ⟨?_, ?_, rfl, rfl, fun _ => ?_, fun c held => ?_⟩
      · simp only
        rw [view']
        exact sound.given allocated marks nothing places sound.sized sound.blank fun _ _ => rfl
      · simp only
        rw [view']
        refine .of_given nothing places (fun q c held direct => ?_) fun c low => ?_
        · have apart : c ≠ (view inum).addrs ndirect := by
            rintro rfl
            exact direct (congrArg Prod.snd (sound.held.apart _ _ _ held top))
          rw [Function.update_of_ne apart]
          exact allocated.of_taken (sound.held.taken_of held)
        · rw [Function.update_of_ne (by omega)]
          exact allocated.low low
      · simp only
        rw [view', places, if_pos rfl]
      · rw [nothing] at held
        contradiction
  · refine .same sound (fun some_ => holds_of inside place block some_) fun c held => ?_
    exact (holds_some held).2.2.2.symm.trans block

theorem Placed.trans {i' : Nat} {first second : Mapped} (placed : sb.Placed view v inum i first)
    (entry : sb.Placed (Function.update view inum first.ip) first.volume inum i' second)
    (already : ∀ b, sb.holds view v (inum, i') = some b → first.ip = view inum ∧ first.volume = v) :
    sb.Placed view v inum i' second := by
  have view' (ip : Dinode) : Function.update (Function.update view inum first.ip) inum ip = Function.update view inum ip :=
    Function.update_idem ..
  have own : Function.update view inum first.ip inum = first.ip := Function.update_self ..
  have sound := entry.sound
  have extended := entry.extended
  have here := entry.here
  have size := entry.size
  have type := entry.type
  rw [view'] at sound extended here
  rw [own] at size type
  refine ⟨sound, placed.extended.trans extended, size.trans placed.size, type.trans placed.type, here, fun b held => ?_⟩
  obtain ⟨ip, volume⟩ := already b held
  have same := entry.already b
  rw [ip, volume, Function.update_eq_self] at same
  exact same held

theorem Sound.bmap (sound : sb.Sound view v) (layout : sb.Layout) (inside : inum < sb.ninodes)
    (used : (view inum).type ≠ 0) {bn : Nat} (short : bn < maxfile) :
    ∃ place, sb.bmap v (view inum) bn = some place ∧ sb.Placed view v inum (slot bn) place := by
  have number : maxfile = ndirect + nindirect := rfl
  unfold Superblock.bmap slot
  by_cases direct : bn < ndirect
  · rw [if_pos direct, if_pos direct]
    exact ⟨_, rfl, sound.bmapAddr layout inside used direct.le⟩
  have entry : bn - ndirect < nindirect := by omega
  have index : bn + 1 = ndirect + 1 + (bn - ndirect) := by omega
  rw [if_neg direct, if_neg direct, if_pos entry, index]
  simp only
  have top := sound.bmapAddr layout inside used (le_refl ndirect)
  -- A block behind the direct ones is there only when the indirect block is.
  have already (b : Nat) (held : sb.holds view v (inum, ndirect + 1 + (bn - ndirect)) = some b) :
      (view inum).addrs ndirect ≠ 0 ∧ sb.bmapAddr v (view inum) ndirect = ⟨(view inum).addrs ndirect, view inum, v⟩ := by
    obtain ⟨-, -, some_, block⟩ := holds_some held
    have indirect : (view inum).addrs ndirect ≠ 0 := by
      intro none_
      rw [Dinode.blockAt, if_neg (by omega), if_pos none_] at block
      exact some_ block.symm
    exact ⟨indirect, top.already _ (holds_top inside indirect)⟩
  split_ifs with full
  · refine ⟨_, rfl, top.sound, top.extended, top.size, top.type, fun some_ => absurd full some_, fun b held => ?_⟩
    obtain ⟨indirect, same⟩ := already b held
    rw [same] at full
    exact absurd full indirect
  · refine ⟨_, rfl, ?_⟩
    have own : Function.update view inum (sb.bmapAddr v (view inum) ndirect).ip inum =
        (sb.bmapAddr v (view inum) ndirect).ip := Function.update_self ..
    have address := (holds_some (top.here full)).2.2.2
    rw [blockAt_top, own] at address
    have second := top.sound.bmapEntry layout inside entry (by rw [own, address]; exact full)
    rw [own, address] at second
    refine top.trans second fun b held => ?_
    rw [(already b held).2]
    exact ⟨rfl, rfl⟩

-- The contents of a block of a file are nobody's addresses.
theorem Sound.written (sound : sb.Sound view v) (held : sb.holds view v (inum, i) = some b) (direct : i ≠ ndirect)
    (data : Block) : sb.Sound view (Function.update v b data) ∧
      ∀ q, sb.holds view (Function.update v b data) q = sb.holds view v q := by
  have taken := sound.held.taken_of held
  have marks (c : Nat) (here : c < sb.size) : sb.marked (Function.update v b data) c = sb.marked v c := by
    have low := bblock_lt here
    have high := taken.1
    exact marked_congr (Function.update_of_ne (by omega) ..)
  have blocks (inum' : Nat) (inside : inum' < sb.ninodes) (j : Nat) :
      (view inum').blockAt (Function.update v b data) j = (view inum').blockAt v j := by
    refine blockAt_congr fun some_ => Function.update_of_ne ?_ ..
    intro same
    have top := holds_top (v := v) inside some_
    rw [same] at top
    exact direct (congrArg Prod.snd (sound.held.apart _ _ _ held top))
  have places (q : Nat × Nat) : sb.holds view (Function.update v b data) q = sb.holds view v q :=
    holds_congr fun inside _ => blocks q.1 inside q.2
  refine ⟨⟨fun c low inside => ?_, sound.held.congr places fun c => ?_, sound.sized, sound.blank, sound.bounded,
    fun inum' inside bn below => ?_⟩, places⟩
  · rw [marks c inside]
    exact sound.metadata c low inside
  · exact and_congr_right fun _ => and_congr_right fun inside => by rw [marks c inside]
  · rw [blocks inum' inside]
    exact sound.filled inum' inside bn below

theorem Sound.of_view (sound : sb.Sound view v) (same : ∀ inum < sb.ninodes, view' inum = view inum) :
    sb.Sound view' v := by
  refine ⟨sound.metadata, sound.held.congr (fun q => ?_) fun _ => Iff.rfl, fun inum inside => ?_, fun inum inside => ?_,
    fun inum inside => ?_, fun inum inside => ?_⟩
  · exact holds_congr fun inside _ => by rw [same q.1 inside]
  · rw [same inum inside]
    exact sound.sized inum inside
  · rw [same inum inside]
    exact sound.blank inum inside
  · rw [same inum inside]
    exact sound.bounded inum inside
  · rw [same inum inside]
    exact sound.filled inum inside

theorem Sound.of_low (sound : sb.Sound view v) (high : ∀ c, sb.bmapstart ≤ c → v' c = v c) : sb.Sound view v' := by
  have marks (c : Nat) : sb.marked v' c = sb.marked v c := marked_congr (high _ (bmapstart_le sb c))
  have order := bmapstart_lt sb
  have blocks (inum : Nat) (inside : inum < sb.ninodes) (i : Nat) : (view inum).blockAt v' i = (view inum).blockAt v i := by
    refine blockAt_congr fun some_ => high _ ?_
    have taken := sound.held.taken_of (holds_top inside some_)
    exact order.le.trans taken.1
  refine ⟨fun c low inside => ?_, sound.held.congr (fun q => ?_) fun c => ?_, sound.sized, sound.blank, sound.bounded,
    fun inum inside bn below => ?_⟩
  · rw [marks]
    exact sound.metadata c low inside
  · exact holds_congr fun inside _ => blocks q.1 inside q.2
  · unfold Taken
    rw [marks]
  · rw [blocks inum inside]
    exact sound.filled inum inside bn below

theorem Sound.iupdate {ip : Dinode} (sound : sb.Sound (Function.update (sb.dinode v) inum ip) v') (layout : sb.Layout)
    (inside : inum < sb.ninodes) (low : ∀ c < sb.bmapstart, v' c = v c) :
    sb.Sound (sb.dinode (sb.iupdate v' inum ip)) (sb.iupdate v' inum ip) := by
  have sized := sound.sized inum inside
  rw [Function.update_self] at sized
  have written : sb.Sound (Function.update (sb.dinode v) inum ip) (sb.iupdate v' inum ip) := by
    refine sound.of_low fun c high => ?_
    have below := layout.iblock_lt inside
    exact iupdate_of_ne (by omega)
  refine written.of_view fun inum' inside' => ?_
  by_cases own : inum' = inum
  · rw [own, Function.update_self]
    exact dinode_iupdate_self sized
  · rw [Function.update_of_ne own, dinode_iupdate_other own]
    exact dinode_congr (low _ (layout.iblock_lt inside'))

theorem Sound.retyped {ip : Dinode} (sound : sb.Sound view v) (sized : ip.Sized) (size : ip.size = 0)
    (before : ∀ i, (view inum).addrs i = 0) (after : ∀ i, ip.addrs i = 0) :
    sb.Sound (Function.update view inum ip) v := by
  refine ⟨sound.metadata, sound.held.congr (fun q => ?_) fun _ => Iff.rfl, fun inum' inside => ?_, fun inum' inside => ?_,
    fun inum' inside => ?_, fun inum' inside => ?_⟩
  · refine holds_congr fun _ _ => ?_
    by_cases own : q.1 = inum
    · rw [own, Function.update_self]
      unfold Dinode.blockAt
      rw [before, before, after, after]
    · rw [Function.update_of_ne own]
  all_goals
    by_cases own : inum' = inum
    · rw [own, Function.update_self]
      first
        | exact sized
        | exact fun _ => after
        | exact size.le.trans (Nat.zero_le _)
        | exact fun bn below => absurd below (by rw [size]; exact Nat.not_lt_zero _)
    · rw [Function.update_of_ne own]
      first
        | exact sound.sized inum' inside
        | exact sound.blank inum' inside
        | exact sound.bounded inum' inside
        | exact sound.filled inum' inside

-- In the middle of an `itrunc`: the blocks at the places `gone` of the inode are free.
structure Truncating (sb : Superblock) (view : Nat → Dinode) (v : Volume) (inum : Nat) (gone : Nat → Bool) (v' : Volume) :
    Prop where
  metadata : ∀ b < sb.dataStart, b < sb.size → sb.marked v' b = true
  held : Exact (fun p => if p.1 = inum ∧ gone p.2 then none else sb.holds view v p) (sb.Taken v')
  same : ∀ c, c < sb.bmapstart ∨ sb.dataStart ≤ c → v' c = v c

variable {gone gone' : Nat → Bool}

theorem Truncating.congr (truncating : sb.Truncating view v inum gone v')
    (places : ∀ i < places, sb.holds view v (inum, i) ≠ none → gone' i = gone i) :
    sb.Truncating view v inum gone' v' := by
  refine ⟨truncating.metadata, truncating.held.congr (fun p => ?_) fun _ => Iff.rfl, truncating.same⟩
  by_cases own : p.1 = inum
  · cases here : sb.holds view v p with
    | none => rw [ite_self, ite_self]
    | some b =>
      have some_ : sb.holds view v (inum, p.2) ≠ none := by
        rw [← own, here]
        exact Option.some_ne_none b
      rw [places p.2 (holds_some here).2.1 some_]
  · rw [if_neg fun h => own h.1, if_neg fun h => own h.1]

theorem Truncating.bfree (truncating : sb.Truncating view v inum gone v') (here : sb.holds view v (inum, i) = some b)
    (still : gone i = false) : ∃ v'', sb.bfree v' b = some v'' ∧
      sb.Truncating view v inum (fun j => decide (j = i) || gone j) v'' := by
  have held : (if inum = inum ∧ gone i then none else sb.holds view v (inum, i)) = some b := by
    rw [if_neg fun h => Bool.false_ne_true (still.symm.trans h.2)]
    exact here
  have taken := truncating.held.taken_of (p := (inum, i)) held
  have low := bblock_lt taken.2.1
  have high := bmapstart_le sb b
  have marks (c : Nat) : sb.marked (Function.update v' (sb.bblock b) (clearBit (v' (sb.bblock b)) (b % bpb))) c =
      (!decide (c = b) && sb.marked v' c) := by
    unfold marked
    by_cases together : sb.bblock c = sb.bblock b
    · rw [together, Function.update_self, bitOf_clearBit]
      congr 2
      apply decide_eq_decide.mpr
      have whole : bpb = 8192 := rfl
      unfold bblock at together
      rw [whole] at together ⊢
      omega
    · have other : c ≠ b := by
        rintro rfl
        exact together rfl
      rw [Function.update_of_ne together, decide_eq_false other, Bool.not_false, Bool.true_and]
  refine ⟨_, if_pos taken.2.2, fun c below inside => ?_, ?_, fun c place => ?_⟩
  · have other : c ≠ b := by
      have data := taken.1
      omega
    rw [marks, decide_eq_false other, truncating.metadata c below inside]
    rfl
  · refine truncating.held.drop (p := (inum, i)) held (fun q => ?_) fun c => ?_
    · by_cases same : q = (inum, i)
      · rw [if_pos same, same]
        exact if_pos ⟨rfl, by simp⟩
      · rw [if_neg same]
        by_cases own : q.1 = inum
        · have other : q.2 ≠ i := fun index => same (Prod.ext own index)
          simp only [own, true_and, decide_eq_false other, Bool.false_or]
        · rw [if_neg fun h => own h.1, if_neg fun h => own h.1]
    · unfold Taken
      rw [marks]
      constructor
      · rintro ⟨data, inside, marked⟩
        rw [Bool.and_eq_true, Bool.not_eq_true', decide_eq_false_iff_not] at marked
        exact ⟨marked.1, data, inside, marked.2⟩
      · rintro ⟨other, data, inside, marked⟩
        refine ⟨data, inside, ?_⟩
        rw [marked, decide_eq_false other]
        rfl
  · rw [Function.update_of_ne (by omega)]
    exact truncating.same c place

-- A round of a loop of `itrunc`, over a place that may be empty.
theorem Truncating.round (truncating : sb.Truncating view v inum gone v') (inside : inum < sb.ninodes) (place : i < Files.places)
    (still : gone i = false) : ∃ v'', (if (view inum).blockAt v i = 0 then some v' else sb.bfree v' ((view inum).blockAt v i)) = some v'' ∧
      sb.Truncating view v inum (fun j => decide (j = i) || gone j) v'' := by
  split_ifs with empty
  · refine ⟨v', rfl, truncating.congr fun j _ some_ => ?_⟩
    have other : j ≠ i := by
      rintro rfl
      exact some_ (if_neg fun h => h.2.2 empty)
    rw [decide_eq_false other, Bool.false_or]
  · exact truncating.bfree (holds_of inside place rfl empty) still

-- The first `n` addresses are 0.
def clearBelow (ip : Dinode) (n : Nat) : Dinode := { ip with addrs := fun i => if i < n then 0 else ip.addrs i }

theorem clearBelow_self (ip : Dinode) (n : Nat) : (clearBelow ip n).addrs n = ip.addrs n := if_neg (Nat.lt_irrefl n)

theorem clearBelow_succ (ip : Dinode) (n : Nat) : (clearBelow ip n).setAddr n 0 = clearBelow ip (n + 1) := by
  unfold clearBelow Dinode.setAddr
  congr 1
  funext i
  by_cases last : i = n
  · rw [last, Function.update_self, if_pos (Nat.lt_succ_self n)]
  · have order : i < n + 1 ↔ i < n := by omega
    rw [Function.update_of_ne last]
    simp only [order]

theorem clearBelow_empty {ip : Dinode} {n : Nat} (empty : ip.addrs n = 0) : clearBelow ip n = clearBelow ip (n + 1) := by
  rw [← clearBelow_succ]
  unfold Dinode.setAddr
  have here : (clearBelow ip n).addrs n = 0 := (clearBelow_self ip n).trans empty
  rw [← here, Function.update_eq_self]

theorem Truncating.freeAddrs (truncating : sb.Truncating view v inum (fun _ => false) v) (inside : inum < sb.ninodes)
    {n : Nat} (bound : n ≤ ndirect) :
    ∃ v', (List.range n).foldlM (fun s i => sb.freeAddr i s.1 s.2) (v, view inum) =
        some (v', clearBelow (view inum) n) ∧ sb.Truncating view v inum (fun j => decide (j < n)) v' := by
  induction n with
  | zero => exact ⟨v, rfl, truncating.congr fun j _ _ => decide_eq_false (Nat.not_lt_zero j)⟩
  | succ n ih =>
    obtain ⟨v', freed, before⟩ := ih (by omega)
    have direct : (view inum).blockAt v n = (view inum).addrs n := if_pos (by omega)
    have address := clearBelow_self (view inum) n
    have place : n < Files.places := by
      unfold Files.places
      omega
    obtain ⟨v'', next, after⟩ := before.round inside place (decide_eq_false (Nat.lt_irrefl n))
    refine ⟨v'', ?_, after.congr fun j _ _ => ?_⟩
    · rw [List.range_succ, List.foldlM_append, freed]
      simp only [Option.bind_eq_bind, Option.bind_some, List.foldlM_cons, List.foldlM_nil, Option.pure_def]
      rw [direct] at next
      unfold Superblock.freeAddr
      rw [address]
      split_ifs at next ⊢ with empty
      · obtain rfl := Option.some.inj next
        rw [Option.bind_some, clearBelow_empty empty]
      · rw [next, Option.map_some, Option.bind_some, clearBelow_succ]
    · rw [← Bool.decide_or]
      exact decide_eq_decide.mpr (by omega)

theorem Truncating.freeEntries (truncating : sb.Truncating view v inum (fun j => decide (j < ndirect)) v')
    (inside : inum < sb.ninodes) (top : (view inum).addrs ndirect ≠ 0) (data : sb.dataStart ≤ (view inum).addrs ndirect)
    {n : Nat} (bound : n ≤ nindirect) :
    ∃ v'', (List.range n).foldlM (fun v j => sb.freeEntry ((view inum).addrs ndirect) j v) v' = some v'' ∧
      sb.Truncating view v inum (fun j => decide (j < ndirect ∨ ndirect < j ∧ j < ndirect + 1 + n)) v'' := by
  induction n with
  | zero => exact ⟨v', rfl, truncating.congr fun j _ _ => decide_eq_decide.mpr (by omega)⟩
  | succ n ih =>
    obtain ⟨v'', freed, before⟩ := ih (by omega)
    have entry : (view inum).blockAt v (ndirect + 1 + n) = field (v'' ((view inum).addrs ndirect)) (4 * n) 4 := by
      rw [Dinode.blockAt, if_neg (by omega), if_neg top, Nat.add_sub_cancel_left, before.same _ (.inr data)]
    have place : ndirect + 1 + n < Files.places := by
      unfold Files.places
      omega
    obtain ⟨v₃, next, after⟩ := before.round inside place (decide_eq_false (by omega))
    refine ⟨v₃, ?_, after.congr fun j _ _ => ?_⟩
    · rw [List.range_succ, List.foldlM_append, freed]
      simp only [Option.bind_eq_bind, Option.bind_some, List.foldlM_cons, List.foldlM_nil, Option.pure_def]
      rw [entry] at next
      unfold Superblock.freeEntry
      rw [next, Option.bind_some]
    · rw [← Bool.decide_or]
      exact decide_eq_decide.mpr (by omega)

def emptied (ip : Dinode) : Dinode := { ip with size := 0, addrs := fun _ => 0 }

theorem emptied_eq {ip : Dinode} (sized : ip.Sized) :
    Dinode.mk (clearBelow ip (ndirect + 1)).type (clearBelow ip (ndirect + 1)).major (clearBelow ip (ndirect + 1)).minor
      (clearBelow ip (ndirect + 1)).nlink 0 (clearBelow ip (ndirect + 1)).addrs = emptied ip := by
  have cleared : (clearBelow ip (ndirect + 1)).addrs = fun _ => 0 := by
    funext i
    unfold clearBelow
    simp only
    split_ifs with below
    · rfl
    · exact sized.only i (by omega)
  rw [cleared]
  rfl

theorem emptied_sized {ip : Dinode} (sized : ip.Sized) : (emptied ip).Sized :=
  ⟨sized.type, sized.major, sized.minor, sized.nlink, Nat.two_pow_pos 32, fun _ => Nat.two_pow_pos 32, fun _ _ => rfl⟩

theorem Truncating.done (truncating : sb.Truncating view v inum (fun _ => true) v') (sound : sb.Sound view v)
    (inside : inum < sb.ninodes) : sb.Sound (Function.update view inum (emptied (view inum))) v' := by
  have blocks (inum' : Nat) (inside' : inum' < sb.ninodes) (i : Nat) :
      (view inum').blockAt v' i = (view inum').blockAt v i :=
    blockAt_congr fun some_ => truncating.same _ (.inr (sound.held.taken_of (holds_top inside' some_)).1)
  refine ⟨truncating.metadata, truncating.held.congr (fun q => ?_) fun _ => Iff.rfl, fun inum' inside' => ?_,
    fun inum' inside' => ?_, fun inum' inside' => ?_, fun inum' inside' => ?_⟩
  · by_cases own : q.1 = inum
    · rw [if_pos ⟨own, rfl⟩]
      refine if_neg fun held => held.2.2 ?_
      rw [own, Function.update_self]
      unfold Dinode.blockAt
      by_cases direct : q.2 ≤ ndirect
      · rw [if_pos direct]
        rfl
      · rw [if_neg direct]
        exact if_pos rfl
    · rw [if_neg fun h => own h.1]
      refine holds_congr fun inside' _ => ?_
      rw [Function.update_of_ne own]
      exact blocks q.1 inside' q.2
  · by_cases own : inum' = inum
    · rw [own, Function.update_self]
      exact emptied_sized (sound.sized inum inside)
    · rw [Function.update_of_ne own]
      exact sound.sized inum' inside'
  · by_cases own : inum' = inum
    · rw [own, Function.update_self]
      exact fun _ _ => rfl
    · rw [Function.update_of_ne own]
      exact sound.blank inum' inside'
  · by_cases own : inum' = inum
    · rw [own, Function.update_self]
      exact Nat.zero_le _
    · rw [Function.update_of_ne own]
      exact sound.bounded inum' inside'
  · by_cases own : inum' = inum
    · rw [own, Function.update_self]
      exact fun bn below => absurd below (Nat.not_lt_zero _)
    · rw [Function.update_of_ne own]
      intro bn below
      rw [blocks inum' inside']
      exact sound.filled inum' inside' bn below

theorem Sound.itrunc (sound : sb.Sound (sb.dinode v) v) (inside : inum < sb.ninodes) :
    ∃ v', sb.itrunc v inum = some (sb.iupdate v' inum (emptied (sb.dinode v inum)), emptied (sb.dinode v inum)) ∧
      sb.Sound (Function.update (sb.dinode v) inum (emptied (sb.dinode v inum))) v' ∧
      ∀ c, c < sb.bmapstart ∨ sb.dataStart ≤ c → v' c = v c := by
  have start : sb.Truncating (sb.dinode v) v inum (fun _ => false) v :=
    ⟨sound.metadata, sound.held.congr (fun p => if_neg fun h => Bool.false_ne_true h.2) fun _ => Iff.rfl, fun _ _ => rfl⟩
  obtain ⟨v₁, direct, first⟩ := start.freeAddrs inside le_rfl
  have ends := emptied_eq (sound.sized inum inside)
  unfold Superblock.itrunc
  rw [direct, Option.bind_some]
  simp only
  rw [clearBelow_self]
  by_cases top : (sb.dinode v inum).addrs ndirect = 0
  · rw [if_pos top, Option.map_some, clearBelow_empty top, ends]
    refine ⟨v₁, rfl, (first.congr fun j place some_ => ?_).done sound inside, first.same⟩
    -- Without an indirect block there is nothing behind the direct ones.
    refine (decide_eq_true ?_).symm
    by_contra beyond
    refine some_ (if_neg fun held => held.2.2 ?_)
    unfold Dinode.blockAt
    split_ifs with last
    · have index : j = ndirect := by omega
      rw [index]
      exact top
    · rfl
  · have held := holds_top (v := v) inside top
    have taken := sound.held.taken_of held
    obtain ⟨v₂, entries, second⟩ := first.freeEntries inside top taken.1 le_rfl
    obtain ⟨v₃, last, third⟩ := second.bfree held (decide_eq_false (by omega))
    rw [if_neg top, entries, Option.bind_some, last, Option.map_some, Option.map_some, clearBelow_succ, ends]
    refine ⟨v₃, rfl, (third.congr fun j place _ => ?_).done sound inside, third.same⟩
    have limit : Files.places = ndirect + 1 + nindirect := rfl
    rw [← Bool.decide_or]
    exact (decide_eq_true (by omega)).symm

theorem Sound.ifree (sound : sb.Sound (sb.dinode v) v) (layout : sb.Layout) (inside : inum < sb.ninodes) :
    ∃ v', sb.ifree v inum = some v' ∧ sb.Sound (sb.dinode v') v' := by
  obtain ⟨v₁, truncated, sound₁, same⟩ := sound.itrunc inside
  unfold Superblock.ifree
  rw [truncated, Option.map_some]
  have sound₂ := sound₁.iupdate layout inside fun c low => same c (.inl low)
  have own : sb.dinode (sb.iupdate v₁ inum (emptied (sb.dinode v inum))) inum = emptied (sb.dinode v inum) :=
    dinode_iupdate_self (emptied_sized (sound.sized inum inside))
  refine ⟨_, rfl, Sound.iupdate ?_ layout inside fun _ _ => rfl⟩
  refine sound₂.retyped ?_ rfl (fun i => ?_) fun _ => rfl
  · have sized := emptied_sized (sound.sized inum inside)
    exact ⟨Nat.two_pow_pos 16, sized.major, sized.minor, sized.nlink, sized.size, sized.addrs, sized.only⟩
  · rw [own]
    rfl

theorem Sound.ialloc (sound : sb.Sound (sb.dinode v) v) (layout : sb.Layout) {type : Nat} (small : type < 2 ^ 16) :
    sb.Sound (sb.dinode (sb.ialloc v type).2) (sb.ialloc v type).2 := by
  unfold Superblock.ialloc
  cases found : (List.range sb.ninodes).find? fun inum => decide (0 < inum ∧ (sb.dinode v inum).type = 0) with
  | none => exact sound
  | some inum =>
    have inside : inum < sb.ninodes := List.mem_range.mp (List.mem_of_find?_eq_some found)
    have free := List.find?_some found
    rw [decide_eq_true_eq] at free
    change sb.Sound (sb.dinode (sb.iupdate v inum { Dinode.zero with type := type })) _
    refine Sound.iupdate ?_ layout inside fun _ _ => rfl
    exact sound.retyped ⟨small, Nat.two_pow_pos 16, Nat.two_pow_pos 16, Nat.two_pow_pos 16, Nat.two_pow_pos 32, fun _ => Nat.two_pow_pos 32,
      fun _ _ => rfl⟩ rfl (sound.blank inum inside free.2) fun _ => rfl

end Superblock

end SystemsSuite.Files
