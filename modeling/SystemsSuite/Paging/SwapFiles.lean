import SystemsSuite.Paging.Metadata
import SystemsSuite.Paging.SwapNames

set_option autoImplicit false

namespace SystemsSuite.Paging

open Lib

structure Dirent where
  inum : Nat
  name : List Char

-- An inode with the count of its references in memory. Type 0 is a free inode.
structure Dinode where
  type : Nat
  nlink : Nat
  ref : Nat
  file : Inode

structure FileSystem where
  ninodes : Nat
  inode : Nat → Dinode
  root : List Dirent

def tFile : Nat := 2

def Dinode.itrunc (ip : Dinode) : Dinode := { ip with file := { ip.file with size := 0, data := fun _ => 0 } }

namespace FileSystem

def modify (fs : FileSystem) (inum : Nat) (f : Dinode → Dinode) : FileSystem :=
  { fs with inode := Function.update fs.inode inum (f (fs.inode inum)) }

def iget (fs : FileSystem) (inum : Nat) : FileSystem :=
  fs.modify inum fun ip => { ip with ref := ip.ref + 1 }

-- Every inode put here has been locked since its first reference, so `valid` is set.
def iput (fs : FileSystem) (inum : Nat) : FileSystem :=
  fs.modify inum fun ip =>
    if ip.ref = 1 ∧ ip.nlink = 0 then { ip.itrunc with type := 0, ref := 0 }
    else { ip with ref := ip.ref - 1 }

def ialloc (fs : FileSystem) (type : Nat) : Option (Nat × FileSystem) :=
  ((List.range' 1 (fs.ninodes - 1)).find? fun inum => (fs.inode inum).type == 0).map fun inum =>
    (inum, (fs.modify inum fun ip =>
      { ip with type := type, nlink := 0, file := ⟨inum, 0, fun _ => 0⟩ }).iget inum)

-- None is the panic of `ilock` on a free inode.
def ilock (fs : FileSystem) (inum : Nat) : Option FileSystem :=
  if (fs.inode inum).type = 0 then none else some fs

def holds (name : List Char) (de : Dirent) : Bool := de.inum != 0 && namecmp name de.name == 0

def dirlookup (fs : FileSystem) (name : List Char) : Option Nat := fs.root.findIdx? (holds name)

def inumAt (fs : FileSystem) (off : Nat) : Nat := (fs.root.getD off ⟨0, []⟩).inum

-- `room` says whether the directory can grow by a block when no entry is free.
def dirlink (fs : FileSystem) (name : List Char) (inum : Nat) (room : Bool) : Option FileSystem :=
  match fs.dirlookup name with
  | some _ => none
  | none =>
    match fs.root.findIdx? fun de => de.inum == 0 with
    | some off => some { fs with root := fs.root.set off ⟨inum, strncpy name dirsiz⟩ }
    | none => if room then some { fs with root := fs.root ++ [⟨inum, strncpy name dirsiz⟩] } else none

end FileSystem

namespace FileSystem

-- The file system and the new `swapip`; none is a panic.
def allocSwapfile (fs : FileSystem) (pid : Nat) (room : Bool) : Option (FileSystem × Option Nat) :=
  match swapName pid with
  | none => some (fs, none)
  | some nm =>
    match fs.dirlookup nm with
    | some off => do
      let inum := fs.inumAt off
      let fs ← (fs.iget inum).ilock inum
      some (fs.modify inum Dinode.itrunc, some inum)
    | none =>
      match fs.ialloc tFile with
      | none => some (fs, none)
      | some (inum, fs) => do
        let fs ← fs.ilock inum
        let fs := fs.modify inum fun ip => { ip with nlink := 1 }
        match fs.dirlink nm inum room with
        | some fs => some (fs, some inum)
        | none => some ((fs.modify inum fun ip => { ip with nlink := 0 }).iput inum, none)

-- The part of `remove_swapfile` on the directory.
def unlinkSwapfile (fs : FileSystem) (pid : Nat) : Option FileSystem :=
  match swapName pid with
  | none => some fs
  | some nm =>
    match fs.dirlookup nm with
    | none => some fs
    | some off => do
      let inum := fs.inumAt off
      let fs ← (fs.iget inum).ilock inum
      let fs := { fs with root := fs.root.set off ⟨0, List.replicate dirsiz nul⟩ }
      let fs := fs.modify inum fun ip => { ip with nlink := ip.nlink - 1 }
      some (fs.iput inum)

def removeSwapfile (fs : FileSystem) (pid swapip : Nat) : Option FileSystem :=
  (fs.unlinkSwapfile pid).map fun fs => fs.iput swapip

end FileSystem

-- The file system, the pids of the live processes and their swap files.
structure SwapState where
  fs : FileSystem
  live : List Nat
  swapip : Nat → Option Nat

inductive SwapLabel
  | start (pid : Nat)
  | swapon (pid : Nat) (room : Bool)
  | swapOut (pid slot : Nat) (page : Page) (blocks : Nat)
  | swapIn (pid slot : Nat)
  | exit (pid : Nat)

def SwapLabel.pid : SwapLabel → Nat
  | .start pid => pid
  | .swapon pid _ => pid
  | .swapOut pid _ _ _ => pid
  | .swapIn pid _ => pid
  | .exit pid => pid

namespace SwapState

def ended (s : SwapState) (pid : Nat) (fs : FileSystem) : SwapState :=
  ⟨fs, s.live.filter fun q => q != pid, Function.update s.swapip pid none⟩

-- A swap-in leaves the file system as it is; what it reads is `swapRead`.
def next (s : SwapState) : SwapLabel → Option SwapState
  | .start pid =>
    if 1 ≤ pid ∧ pid ≤ 99999 ∧ s.live.contains pid = false then some { s with live := pid :: s.live }
    else none
  | .swapon pid room =>
    if s.live.contains pid then
      match s.swapip pid with
      | some _ => some s
      | none => (s.fs.allocSwapfile pid room).map fun made =>
          { s with fs := made.1, swapip := Function.update s.swapip pid made.2 }
    else none
  | .swapOut pid slot page blocks =>
    if s.live.contains pid then
      match s.swapip pid with
      | none => some s
      | some inum => some { s with fs := s.fs.modify inum fun ip =>
          { ip with file := (writei ip.file page (slot * 4096) 4096 blocks).2 } }
    else none
  | .swapIn pid _ => if s.live.contains pid then some s else none
  | .exit pid =>
    if s.live.contains pid then
      match s.swapip pid with
      | none => some (s.ended pid s.fs)
      | some inum => (s.fs.removeSwapfile pid inum).map (s.ended pid)
    else none

-- What `readi` gives a swap-in.
def swapRead (s : SwapState) (pid slot : Nat) : Option (Nat × (Nat → UInt8)) :=
  (s.swapip pid).map fun inum => readi (s.fs.inode inum).file (slot * 4096) 4096

end SwapState

namespace FileSystem

@[simp] theorem modify_root (fs : FileSystem) (inum : Nat) (f : Dinode → Dinode) :
    (fs.modify inum f).root = fs.root := rfl

theorem modify_same (fs : FileSystem) (inum : Nat) (f : Dinode → Dinode) :
    (fs.modify inum f).inode inum = f (fs.inode inum) := Function.update_self ..

theorem modify_other (fs : FileSystem) {inum i : Nat} (other : i ≠ inum) (f : Dinode → Dinode) :
    (fs.modify inum f).inode i = fs.inode i := Function.update_of_ne other ..

-- Only the inode `inum` differs.
def SameExcept (inum : Nat) (fs fs' : FileSystem) : Prop := ∀ i, i ≠ inum → fs'.inode i = fs.inode i

theorem SameExcept.refl (inum : Nat) (fs : FileSystem) : SameExcept inum fs fs := fun _ _ => rfl

theorem SameExcept.modify {inum : Nat} {fs fs' : FileSystem} (same : SameExcept inum fs fs')
    (f : Dinode → Dinode) : SameExcept inum fs (fs'.modify inum f) := by
  intro i other
  rw [modify_other fs' other, same i other]

-- The entry `off` is now `new`, all others are as they were.
def Written (fs fs' : FileSystem) (off : Nat) (new : Dirent) : Prop :=
  ∀ k, fs'.root[k]? = if k = off then some new else fs.root[k]?

theorem Written.set {fs fs' : FileSystem} {off : Nat} {new : Dirent} (inside : off < fs.root.length)
    (root : fs'.root = fs.root.set off new) : fs.Written fs' off new := by
  intro k
  rw [root]
  split
  next hit => rw [hit, List.getElem?_set_self inside]
  next other => rw [List.getElem?_set_ne (Ne.symm other)]

theorem Written.append {fs fs' : FileSystem} {new : Dirent} (root : fs'.root = fs.root ++ [new]) :
    fs.Written fs' fs.root.length new := by
  intro k
  rw [root]
  split
  next last => rw [last, List.getElem?_concat_length]
  next other =>
    rcases Nat.lt_or_gt_of_ne other with before | behind
    · exact List.getElem?_append_left before
    · rw [List.getElem?_eq_none (by simpa using behind), List.getElem?_eq_none (Nat.le_of_lt behind)]

-- The entry `off` is the first used one of this name, and leads to `inum`.
def Leads (fs : FileSystem) (name : List Char) (off inum : Nat) : Prop :=
  fs.dirlookup name = some off ∧ fs.inumAt off = inum

theorem leads_iff {fs : FileSystem} {name : List Char} {off inum : Nat} :
    fs.Leads name off inum ↔
      (∃ de, fs.root[off]? = some de ∧ holds name de = true ∧ de.inum = inum) ∧
        ∀ j < off, ∀ de, fs.root[j]? = some de → holds name de = false := by
  unfold Leads dirlookup
  rw [List.findIdx?_eq_some_iff_getElem]
  constructor
  · rintro ⟨⟨inside, held, first⟩, rfl⟩
    refine ⟨⟨_, List.getElem?_eq_getElem inside, held, ?_⟩, ?_⟩
    · simp [inumAt, List.getD_eq_getElem?_getD, inside]
    · intro j before de here
      obtain ⟨_, rfl⟩ := List.getElem?_eq_some_iff.mp here
      simpa using first j before
  · rintro ⟨⟨de, here, held, rfl⟩, first⟩
    obtain ⟨inside, rfl⟩ := List.getElem?_eq_some_iff.mp here
    refine ⟨⟨inside, held, fun j before => ?_⟩, ?_⟩
    · simp [first j before _ (List.getElem?_eq_getElem (before.trans inside))]
    · simp [inumAt, List.getD_eq_getElem?_getD, inside]

theorem Leads.sameRoot {fs fs' : FileSystem} {name : List Char} {off inum : Nat}
    (leads : fs.Leads name off inum) (root : fs'.root = fs.root) : fs'.Leads name off inum := by
  unfold Leads dirlookup inumAt
  rw [root]
  exact leads

theorem Leads.write {fs fs' : FileSystem} {name : List Char} {off off' inum : Nat} {new : Dirent}
    (leads : fs.Leads name off inum) (written : fs.Written fs' off' new)
    (unheld : ∀ old, fs.root[off']? = some old → holds name old = false)
    (unmatched : holds name new = false) : fs'.Leads name off inum := by
  obtain ⟨⟨de, here, held, target⟩, first⟩ := leads_iff.mp leads
  have other : off ≠ off' := by
    rintro rfl
    rw [unheld de here] at held
    contradiction
  refine leads_iff.mpr ⟨⟨de, ?_, held, target⟩, ?_⟩
  · rw [written off, if_neg other]
    exact here
  · intro j before de' found
    rw [written j] at found
    split at found
    next =>
      obtain rfl := Option.some.inj found
      exact unmatched
    next => exact first j before de' found

theorem Leads.fresh {fs fs' : FileSystem} {name : List Char} {off : Nat} {new : Dirent}
    (absent : fs.dirlookup name = none) (written : fs.Written fs' off new)
    (held : holds name new = true) : fs'.Leads name off new.inum := by
  refine leads_iff.mpr ⟨⟨new, ?_, held, rfl⟩, ?_⟩
  · rw [written off, if_pos rfl]
  · intro j before de found
    rw [written j, if_neg (Nat.ne_of_lt before)] at found
    exact List.findIdx?_eq_none_iff.mp absent de (List.mem_of_getElem? found)

-- What `alloc_swapfile` does for a process whose entry has the name `nm`.
inductive Allotted (fs : FileSystem) (nm : List Char) : FileSystem → Option Nat → Prop
  | reused (off inum : Nat) (fs' : FileSystem) :
      fs.Leads nm off inum → SameExcept inum fs fs' →
      (fs'.inode inum).type = (fs.inode inum).type → fs'.root = fs.root →
      Allotted fs nm fs' (some inum)
  | created (off inum : Nat) (fs' : FileSystem) :
      fs.dirlookup nm = none → inum ≠ 0 → (fs.inode inum).type = 0 → SameExcept inum fs fs' →
      (fs'.inode inum).type ≠ 0 → (∀ old, fs.root[off]? = some old → old.inum = 0) →
      fs.Written fs' off ⟨inum, strncpy nm dirsiz⟩ → Allotted fs nm fs' (some inum)
  | failed (fs' : FileSystem) :
      (∀ i, (fs.inode i).type ≠ 0 → fs'.inode i = fs.inode i) → fs'.root = fs.root →
      Allotted fs nm fs' none

theorem dirlink_cases {fs fs' : FileSystem} {nm : List Char} {inum : Nat} {room : Bool}
    (linked : fs.dirlink nm inum room = some fs') :
    fs'.inode = fs.inode ∧ ∃ off, (∀ old, fs.root[off]? = some old → old.inum = 0) ∧
      fs.Written fs' off ⟨inum, strncpy nm dirsiz⟩ := by
  unfold dirlink at linked
  split at linked
  next => contradiction
  next =>
    split at linked
    next off found =>
      obtain rfl := Option.some.inj linked
      obtain ⟨inside, free, _⟩ := List.findIdx?_eq_some_iff_getElem.mp found
      refine ⟨rfl, off, ?_, .set inside rfl⟩
      intro old here
      obtain ⟨_, rfl⟩ := List.getElem?_eq_some_iff.mp here
      simpa using free
    next =>
      split at linked
      next =>
        obtain rfl := Option.some.inj linked
        refine ⟨rfl, fs.root.length, ?_, .append rfl⟩
        intro old here
        rw [List.getElem?_eq_none (Nat.le_refl _)] at here
        contradiction
      next => contradiction

theorem ialloc_cases {fs fs' : FileSystem} {type inum : Nat} (made : fs.ialloc type = some (inum, fs')) :
    inum ≠ 0 ∧ (fs.inode inum).type = 0 ∧ SameExcept inum fs fs' ∧ (fs'.inode inum).type = type ∧
      fs'.root = fs.root := by
  unfold ialloc at made
  obtain ⟨free, found, rest⟩ := Option.map_eq_some_iff.mp made
  obtain ⟨rfl, rfl⟩ := Prod.mk.inj rest
  refine ⟨?_, by simpa using List.find?_some found, ?_, ?_, rfl⟩
  · have member := List.mem_of_find?_eq_some found
    have := (List.mem_range'_1.mp member).1
    omega
  · exact ((SameExcept.refl free fs).modify _).modify _
  · unfold iget
    rw [modify_same, modify_same]

theorem ilock_cases {fs fs' : FileSystem} {inum : Nat} (locked : fs.ilock inum = some fs') :
    (fs.inode inum).type ≠ 0 ∧ fs' = fs := by
  unfold ilock at locked
  split at locked
  next => contradiction
  next used => exact ⟨used, (Option.some.inj locked).symm⟩

theorem allocSwapfile_cases {fs fs' : FileSystem} {pid : Nat} {room : Bool} {made : Option Nat}
    (done : fs.allocSwapfile pid room = some (fs', made)) :
    Allotted fs (swapEntry pid) fs' made := by
  unfold allocSwapfile at done
  rw [swapName_eq] at done
  dsimp only at done
  split at done
  next off found =>
    obtain ⟨locked, took, rest⟩ := Option.bind_eq_some_iff.mp done
    obtain ⟨_, rfl⟩ := ilock_cases took
    obtain ⟨rfl, rfl⟩ := Prod.mk.inj (Option.some.inj rest)
    refine .reused off _ _ ⟨found, rfl⟩ (((SameExcept.refl _ fs).modify _).modify _) ?_ rfl
    unfold iget
    rw [modify_same, modify_same]
    rfl
  next absent =>
    split at done
    next =>
      obtain ⟨rfl, rfl⟩ := Prod.mk.inj (Option.some.inj done)
      exact .failed _ (fun _ _ => rfl) rfl
    next inum fresh made' =>
      obtain ⟨some', free, same, typed, root⟩ := ialloc_cases made'
      obtain ⟨locked, took, rest⟩ := Option.bind_eq_some_iff.mp done
      obtain ⟨_, rfl⟩ := ilock_cases took
      split at rest
      next linked link =>
        obtain ⟨rfl, rfl⟩ := Prod.mk.inj (Option.some.inj rest)
        obtain ⟨inodes, off, unused, written⟩ := dirlink_cases link
        refine .created off inum _ absent some' free ?_ ?_ ?_ ?_
        · intro i other
          rw [inodes, modify_other _ other, same i other]
        · rw [inodes, modify_same]
          simp [typed, tFile]
        · rw [← root]
          exact unused
        · unfold Written
          rw [← root]
          exact written
      next =>
        obtain ⟨rfl, rfl⟩ := Prod.mk.inj (Option.some.inj rest)
        refine .failed _ (fun i used => ?_) root
        have other : i ≠ inum := by
          rintro rfl
          exact used free
        rw [iput, modify_other _ other, modify_other _ other, modify_other _ other, same i other]

theorem removeSwapfile_cases {fs fs' : FileSystem} {pid off inum : Nat}
    (leads : fs.Leads (swapEntry pid) off inum) (removed : fs.removeSwapfile pid inum = some fs') :
    SameExcept inum fs fs' ∧ fs.Written fs' off ⟨0, List.replicate dirsiz nul⟩ := by
  unfold removeSwapfile unlinkSwapfile at removed
  rw [swapName_eq] at removed
  obtain ⟨unlinked, cleared, rfl⟩ := Option.map_eq_some_iff.mp removed
  simp only [leads.1, leads.2] at cleared
  obtain ⟨locked, took, rest⟩ := Option.bind_eq_some_iff.mp cleared
  obtain ⟨_, rfl⟩ := ilock_cases took
  obtain rfl := Option.some.inj rest
  constructor
  · intro i other
    have got : (fs.iget inum).inode i = fs.inode i := modify_other fs other _
    rw [iput, modify_other _ other, iput, modify_other _ other, modify_other _ other]
    exact got
  · obtain ⟨⟨de, here, _⟩, _⟩ := leads_iff.mp leads
    exact .set (List.getElem?_eq_some_iff.mp here).1 rfl

def SwapNamed (de : Dirent) : Prop := ∃ pid ≤ 99999, holds (swapEntry pid) de = true

-- Every entry leads to an allocated inode, and the inode of a swap file has no other entry.
structure Tidy (fs : FileSystem) : Prop where
  allocated : ∀ (off : Nat) (de : Dirent), fs.root[off]? = some de → de.inum ≠ 0 →
    (fs.inode de.inum).type ≠ 0
  sole : ∀ (off off' : Nat) (de de' : Dirent), fs.root[off]? = some de → fs.root[off']? = some de' →
    off ≠ off' → SwapNamed de → de'.inum ≠ 0 → de.inum ≠ de'.inum

theorem holds_apart {p q : Nat} (pShort : p ≤ 99999) (qShort : q ≤ 99999) (differ : p / 10 ≠ q / 10)
    {de : Dirent} (held : holds (swapEntry p) de = true) : holds (swapEntry q) de = false := by
  by_contra also
  simp only [holds, Bool.and_eq_true, bne_iff_ne, beq_iff_eq, Bool.not_eq_false] at held also
  exact differ ((swapEntry_collides pShort qShort).mp (namecmp_trans held.2 (namecmp_symm also.2)))

theorem holds_used {name : List Char} {de : Dirent} (held : holds name de = true) : de.inum ≠ 0 := by
  simp only [holds, Bool.and_eq_true, bne_iff_ne] at held
  exact held.1

theorem holds_written {inum : Nat} (some' : inum ≠ 0) (name : List Char) :
    holds name ⟨inum, strncpy name dirsiz⟩ = true := by
  simp [holds, some', namecmp_strncpy]

theorem Leads.apart {fs : FileSystem} (tidy : fs.Tidy) {p q off off' inum inum' : Nat}
    (pShort : p ≤ 99999) (qShort : q ≤ 99999) (differ : p / 10 ≠ q / 10)
    (pLeads : fs.Leads (swapEntry p) off inum) (qLeads : fs.Leads (swapEntry q) off' inum') :
    inum ≠ inum' := by
  obtain ⟨⟨de, here, held, rfl⟩, _⟩ := leads_iff.mp pLeads
  obtain ⟨⟨de', here', held', rfl⟩, _⟩ := leads_iff.mp qLeads
  refine tidy.sole off off' de de' here here' ?_ ⟨p, pShort, held⟩
    (holds_used held')
  rintro rfl
  obtain rfl := Option.some.inj (here.symm.trans here')
  rw [holds_apart pShort qShort differ held] at held'
  contradiction

theorem Tidy.keptRoot {fs fs' : FileSystem} (tidy : fs.Tidy) (root : fs'.root = fs.root)
    (kept : ∀ i, (fs.inode i).type ≠ 0 → (fs'.inode i).type ≠ 0) : fs'.Tidy := by
  constructor
  · intro off de here used
    rw [root] at here
    exact kept de.inum (tidy.allocated off de here used)
  · rw [root]
    exact tidy.sole

theorem Tidy.created {fs fs' : FileSystem} (tidy : fs.Tidy) {off inum : Nat} {name : List Char}
    (free : (fs.inode inum).type = 0) (same : SameExcept inum fs fs')
    (typed : (fs'.inode inum).type ≠ 0) (written : fs.Written fs' off ⟨inum, name⟩) : fs'.Tidy := by
  have distinct : ∀ (k : Nat) (de : Dirent), fs.root[k]? = some de → de.inum ≠ 0 → de.inum ≠ inum := by
    rintro k de here used rfl
    exact tidy.allocated k de here used free
  constructor
  · intro k de here used
    rw [written k] at here
    split at here
    next =>
      obtain rfl := Option.some.inj here
      exact typed
    next =>
      rw [same de.inum (distinct k de here used)]
      exact tidy.allocated k de here used
  · intro k k' de de' here here' other named used'
    obtain ⟨_, _, held⟩ := id named
    rw [written k] at here
    rw [written k'] at here'
    split at here
    next first =>
      obtain rfl := Option.some.inj here
      split at here'
      next second => exact absurd (first.trans second.symm) other
      next => exact (distinct k' de' here' used').symm
    next =>
      split at here'
      next =>
        obtain rfl := Option.some.inj here'
        exact distinct k de here (holds_used held)
      next => exact tidy.sole k k' de de' here here' other named used'

theorem Tidy.removed {fs fs' : FileSystem} (tidy : fs.Tidy) {pid off inum : Nat} {name : List Char}
    (short : pid ≤ 99999) (leads : fs.Leads (swapEntry pid) off inum) (same : SameExcept inum fs fs')
    (written : fs.Written fs' off ⟨0, name⟩) : fs'.Tidy := by
  obtain ⟨⟨gone, there, held, rfl⟩, _⟩ := leads_iff.mp leads
  have kept : ∀ (k : Nat) (de : Dirent), fs'.root[k]? = some de → de.inum ≠ 0 →
      fs.root[k]? = some de ∧ k ≠ off := by
    intro k de here used
    rw [written k] at here
    split at here
    next =>
      obtain rfl := Option.some.inj here
      exact absurd rfl used
    next other => exact ⟨here, other⟩
  constructor
  · intro k de here used
    obtain ⟨before, other⟩ := kept k de here used
    rw [same de.inum (tidy.sole off k gone de there before (Ne.symm other) ⟨pid, short, held⟩ used).symm]
    exact tidy.allocated k de before used
  · intro k k' de de' here here' other named used'
    obtain ⟨_, _, held⟩ := id named
    exact tidy.sole k k' de de' (kept k de here (holds_used held)).1 (kept k' de' here' used').1 other named used'

end FileSystem

namespace SwapState

open FileSystem

def AtBoot (s : SwapState) : Prop := s.fs.Tidy ∧ s.live = [] ∧ s.swapip = fun _ => none

def system : System SwapState SwapLabel := System.ofNext AtBoot next

-- A process starts only while no live process has a pid that differs in the last digit alone.
def DecadeFree (s : SwapState) : SwapLabel → Prop
  | .start pid => ∀ q ∈ s.live, q / 10 ≠ pid / 10
  | _ => True

-- Every swap file in use is the one its process's entry leads to.
structure Isolated (s : SwapState) : Prop where
  tidy : s.fs.Tidy
  short : ∀ p ∈ s.live, p ≤ 99999
  apart : ∀ p ∈ s.live, ∀ q ∈ s.live, p ≠ q → p / 10 ≠ q / 10
  held : ∀ p inum, s.swapip p = some inum → p ∈ s.live ∧ ∃ off, s.fs.Leads (swapEntry p) off inum

theorem Isolated.differ {s : SwapState} (isolated : s.Isolated) {p q i j : Nat} (other : p ≠ q)
    (pHeld : s.swapip p = some i) (qHeld : s.swapip q = some j) : i ≠ j := by
  obtain ⟨pLive, off, pLeads⟩ := isolated.held p i pHeld
  obtain ⟨qLive, off', qLeads⟩ := isolated.held q j qHeld
  exact pLeads.apart isolated.tidy (isolated.short p pLive) (isolated.short q qLive)
    (isolated.apart p pLive q qLive other) qLeads

-- A step of `pid`: the swap files of the others are the same and their entries lead to them.
structure Kept (pid : Nat) (s t : SwapState) : Prop where
  swapip : ∀ p, p ≠ pid → t.swapip p = s.swapip p
  inode : ∀ p inum, p ≠ pid → s.swapip p = some inum → t.fs.inode inum = s.fs.inode inum
  leads : ∀ p inum off, p ≠ pid → s.swapip p = some inum → s.fs.Leads (swapEntry p) off inum →
    t.fs.Leads (swapEntry p) off inum

theorem Kept.refl (pid : Nat) (s : SwapState) : Kept pid s s :=
  ⟨fun _ _ => rfl, fun _ _ _ _ => rfl, fun _ _ _ _ _ leads => leads⟩

theorem Kept.swapRead {pid p : Nat} {s t : SwapState} (kept : Kept pid s t) (other : p ≠ pid) (slot : Nat) :
    t.swapRead p slot = s.swapRead p slot := by
  unfold SwapState.swapRead
  rw [kept.swapip p other]
  cases held : s.swapip p with
  | none => rfl
  | some inum =>
    simp only [Option.map_some]
    rw [kept.inode p inum other held]

theorem Isolated.kept {pid : Nat} {s t : SwapState} (isolated : s.Isolated) (kept : Kept pid s t)
    (tidy : t.fs.Tidy) (fewer : ∀ p ∈ t.live, p ∈ s.live) (stays : ∀ p ∈ s.live, p ≠ pid → p ∈ t.live)
    (own : ∀ inum, t.swapip pid = some inum →
      pid ∈ t.live ∧ ∃ off, t.fs.Leads (swapEntry pid) off inum) : t.Isolated where
  tidy := tidy
  short p member := isolated.short p (fewer p member)
  apart p pLive q qLive := isolated.apart p (fewer p pLive) q (fewer q qLive)
  held p inum held := by
    by_cases same : p = pid
    · subst same
      exact own inum held
    · rw [kept.swapip p same] at held
      obtain ⟨live, off, leads⟩ := isolated.held p inum held
      exact ⟨stays p live same, off, kept.leads p inum off same held leads⟩

variable {s t : SwapState}

theorem start_isolated (isolated : s.Isolated) {pid : Nat} (short : pid ≤ 99999)
    (free : ∀ q ∈ s.live, q / 10 ≠ pid / 10) : ({ s with live := pid :: s.live } : SwapState).Isolated where
  tidy := isolated.tidy
  short p member := by
    rcases List.mem_cons.mp member with rfl | before
    · exact short
    · exact isolated.short p before
  apart p pLive q qLive other := by
    rcases List.mem_cons.mp pLive with rfl | pBefore
    · rcases List.mem_cons.mp qLive with rfl | qBefore
      · exact absurd rfl other
      · exact (free q qBefore).symm
    · rcases List.mem_cons.mp qLive with rfl | qBefore
      · exact free p pBefore
      · exact isolated.apart p pBefore q qBefore other
  held p inum held := by
    obtain ⟨live, leads⟩ := isolated.held p inum held
    exact ⟨List.mem_cons_of_mem pid live, leads⟩

theorem Isolated.elsewhere (isolated : s.Isolated) {p pid i off inum : Nat} (pidLive : pid ∈ s.live)
    (other : p ≠ pid) (held : s.swapip p = some i) (leads : s.fs.Leads (swapEntry pid) off inum) :
    i ≠ inum := by
  obtain ⟨live, off', leads'⟩ := isolated.held p i held
  exact leads'.apart isolated.tidy (isolated.short p live) (isolated.short pid pidLive)
    (isolated.apart p live pid pidLive other) leads

theorem Isolated.used (isolated : s.Isolated) {p i : Nat} (held : s.swapip p = some i) :
    (s.fs.inode i).type ≠ 0 := by
  obtain ⟨_, off, leads⟩ := isolated.held p i held
  obtain ⟨⟨de, here, found, rfl⟩, _⟩ := leads_iff.mp leads
  exact isolated.tidy.allocated off de here (holds_used found)

-- An entry written or cleared by `pid` under a name of its own hides no other swap file.
theorem Isolated.leads_write (isolated : s.Isolated) {p pid i off off' : Nat} {fs : FileSystem} {new : Dirent}
    (pidLive : pid ∈ s.live) (other : p ≠ pid) (held : s.swapip p = some i)
    (leads : s.fs.Leads (swapEntry p) off i) (written : s.fs.Written fs off' new)
    (before : ∀ old, s.fs.root[off']? = some old → old.inum = 0 ∨ holds (swapEntry pid) old = true)
    (after : new.inum = 0 ∨ holds (swapEntry pid) new = true) : fs.Leads (swapEntry p) off i := by
  have live := (isolated.held p i held).1
  have unmatched : ∀ de : Dirent, de.inum = 0 ∨ holds (swapEntry pid) de = true →
      holds (swapEntry p) de = false := by
    rintro de (free | found)
    · simp [holds, free]
    · exact holds_apart (isolated.short pid pidLive) (isolated.short p live)
        (isolated.apart pid pidLive p live (Ne.symm other)) found
  exact leads.write written (fun old here => unmatched old (before old here)) (unmatched new after)

theorem swapon_kept (isolated : s.Isolated) {pid : Nat} (live : pid ∈ s.live) {fs : FileSystem}
    {made : Option Nat} (allotted : Allotted s.fs (swapEntry pid) fs made) :
    Kept pid s { s with fs := fs, swapip := Function.update s.swapip pid made } ∧ fs.Tidy ∧
      ∀ inum, made = some inum → ∃ off, fs.Leads (swapEntry pid) off inum := by
  have swapip : ∀ p, p ≠ pid → Function.update s.swapip pid made p = s.swapip p :=
    fun p other => Function.update_of_ne other ..
  cases allotted with
  | reused off inum fs leads same typed root =>
    refine ⟨⟨swapip, ?_, fun _ _ _ _ _ leads => leads.sameRoot root⟩, ?_, ?_⟩
    · intro p i other held
      exact same i (isolated.elsewhere live other held leads)
    · refine isolated.tidy.keptRoot root fun i used => ?_
      by_cases hit : i = inum
      · rw [hit, typed, ← hit]
        exact used
      · rw [same i hit]
        exact used
    · intro i here
      obtain rfl := Option.some.inj here
      exact ⟨off, leads.sameRoot root⟩
  | created off inum fs absent some' free same typed unused written =>
    have found := holds_written some' (swapEntry pid)
    refine ⟨⟨swapip, ?_, ?_⟩, isolated.tidy.created free same typed written, ?_⟩
    · intro p i other held
      apply same i
      rintro rfl
      exact isolated.used held free
    · intro p i off' other held' leads
      exact isolated.leads_write live other held' leads written (fun old here => .inl (unused old here))
        (.inr found)
    · intro i here
      obtain rfl := Option.some.inj here
      exact ⟨off, .fresh absent written found⟩
  | failed fs kept root =>
    refine ⟨⟨swapip, ?_, fun _ _ _ _ _ leads => leads.sameRoot root⟩, ?_, nofun⟩
    · intro p i other held
      exact kept i (isolated.used held)
    · refine isolated.tidy.keptRoot root fun i used => ?_
      rw [kept i used]
      exact used

theorem swapOut_kept (isolated : s.Isolated) {pid inum : Nat} (held : s.swapip pid = some inum)
    {f : Dinode → Dinode} (typed : ∀ ip, (f ip).type = ip.type) :
    Kept pid s { s with fs := s.fs.modify inum f } ∧ (s.fs.modify inum f).Tidy := by
  obtain ⟨live, off, leads⟩ := isolated.held pid inum held
  refine ⟨⟨fun _ _ => rfl, ?_, fun _ _ _ _ _ leads => leads⟩, ?_⟩
  · intro p i other held'
    exact modify_other s.fs (isolated.elsewhere live other held' leads) _
  · refine isolated.tidy.keptRoot rfl fun i used => ?_
    by_cases hit : i = inum
    · rw [hit, modify_same, typed, ← hit]
      exact used
    · rw [modify_other s.fs hit]
      exact used

theorem exit_kept (isolated : s.Isolated) {pid inum : Nat} (held : s.swapip pid = some inum)
    {fs : FileSystem} (removed : s.fs.removeSwapfile pid inum = some fs) :
    Kept pid s (s.ended pid fs) ∧ fs.Tidy := by
  obtain ⟨live, off, leads⟩ := isolated.held pid inum held
  obtain ⟨same, written⟩ := removeSwapfile_cases leads removed
  refine ⟨⟨fun p other => Function.update_of_ne other .., ?_, ?_⟩,
    isolated.tidy.removed (isolated.short pid live) leads same written⟩
  · intro p i other held'
    exact same i (isolated.elsewhere live other held' leads)
  · intro p i off' other held' leads'
    refine isolated.leads_write live other held' leads' written (fun old here => .inr ?_) (.inl rfl)
    obtain ⟨⟨de, there, found, _⟩, _⟩ := leads_iff.mp leads
    obtain rfl := Option.some.inj (there.symm.trans here)
    exact found

theorem next_isolated (isolated : s.Isolated) {l : SwapLabel} (meets : s.DecadeFree l)
    (taken : s.next l = some t) : Kept l.pid s t ∧ t.Isolated := by
  cases l with
  | start pid =>
    simp only [next] at taken
    split at taken
    next allowed =>
      obtain rfl := Option.some.inj taken
      exact ⟨⟨fun _ _ => rfl, fun _ _ _ _ => rfl, fun _ _ _ _ _ leads => leads⟩,
        start_isolated isolated allowed.2.1 meets⟩
    next => contradiction
  | swapon pid room =>
    simp only [next] at taken
    split at taken
    next member =>
      have live : pid ∈ s.live := by simpa using member
      split at taken
      next =>
        obtain rfl := Option.some.inj taken
        exact ⟨.refl pid s, isolated⟩
      next none' =>
        obtain ⟨⟨fs, made⟩, done, rfl⟩ := Option.map_eq_some_iff.mp taken
        obtain ⟨kept, tidy, leads⟩ := swapon_kept isolated live (allocSwapfile_cases done)
        refine ⟨kept, isolated.kept kept tidy (fun _ p => p) (fun _ p _ => p) ?_⟩
        intro inum held
        dsimp only at held
        rw [Function.update_self] at held
        exact ⟨live, leads inum held⟩
    next => contradiction
  | swapOut pid slot page blocks =>
    simp only [next] at taken
    split at taken
    next =>
      split at taken
      next =>
        obtain rfl := Option.some.inj taken
        exact ⟨.refl pid s, isolated⟩
      next inum held =>
        obtain rfl := Option.some.inj taken
        obtain ⟨kept, tidy⟩ := swapOut_kept isolated held
          (f := fun ip => { ip with file := (writei ip.file page (slot * 4096) 4096 blocks).2 })
          fun _ => rfl
        exact ⟨kept, isolated.kept kept tidy (fun _ p => p) (fun _ p _ => p) (isolated.held pid)⟩
    next => contradiction
  | swapIn pid slot =>
    simp only [next] at taken
    split at taken
    next =>
      obtain rfl := Option.some.inj taken
      exact ⟨.refl pid s, isolated⟩
    next => contradiction
  | exit pid =>
    have ends : ∀ fs, Kept pid s (s.ended pid fs) → fs.Tidy → (s.ended pid fs).Isolated := by
      intro fs kept tidy
      refine isolated.kept kept tidy (fun p member => (List.mem_filter.mp member).1) ?_ ?_
      · intro p member other
        exact List.mem_filter.mpr ⟨member, by simpa using other⟩
      · intro inum held
        simp [ended] at held
    simp only [next] at taken
    split at taken
    next =>
      split at taken
      next none' =>
        obtain rfl := Option.some.inj taken
        have kept : Kept pid s (s.ended pid s.fs) :=
          ⟨fun p other => Function.update_of_ne other .., fun _ _ _ _ => rfl,
            fun _ _ _ _ _ leads => leads⟩
        exact ⟨kept, ends s.fs kept isolated.tidy⟩
      next inum held =>
        obtain ⟨fs, removed, rfl⟩ := Option.map_eq_some_iff.mp taken
        obtain ⟨kept, tidy⟩ := exit_kept isolated held removed
        exact ⟨kept, ends fs kept tidy⟩
    next => contradiction

theorem reachable_isolated (reached : system.ReachableVia DecadeFree s) : s.Isolated := by
  apply reached.invariant
  · rintro s ⟨tidy, live, swapip⟩
    refine ⟨tidy, ?_, ?_, ?_⟩ <;> simp [live, swapip]
  · intro s l t isolated meets taken
    exact (next_isolated isolated meets taken).2

def guarded (s : SwapState) (l : SwapLabel) (t : SwapState) : Prop := s.DecadeFree l ∧ system.step s l t

theorem path_swapRead {labels : List SwapLabel} (path : Path guarded s labels t) (isolated : s.Isolated)
    {p : Nat} (others : ∀ l ∈ labels, l.pid ≠ p) (slot : Nat) : t.swapRead p slot = s.swapRead p slot := by
  have preserved : ∀ mid, ∀ l ∈ labels, ∀ after,
      (mid.Isolated ∧ mid.swapRead p slot = s.swapRead p slot) → guarded mid l after →
      after.Isolated ∧ after.swapRead p slot = s.swapRead p slot := by
    rintro mid l member after ⟨isolated, same⟩ ⟨meets, taken⟩
    obtain ⟨kept, next⟩ := next_isolated isolated meets taken
    exact ⟨next, (kept.swapRead (others l member).symm slot).trans same⟩
  exact (path.invariant preserved ⟨isolated, rfl⟩).2

theorem next_live {l : SwapLabel} (taken : s.next l = some t) {p : Nat} (live : p ∈ t.live) :
    p ∈ s.live ∨ p ≤ 99999 := by
  cases l with
  | start pid =>
    simp only [next] at taken
    split at taken
    next allowed =>
      obtain rfl := Option.some.inj taken
      rcases List.mem_cons.mp live with rfl | before
      · exact .inr allowed.2.1
      · exact .inl before
    next => contradiction
  | swapon pid room =>
    simp only [next] at taken
    split at taken
    next =>
      split at taken
      next =>
        obtain rfl := Option.some.inj taken
        exact .inl live
      next =>
        obtain ⟨made, _, rfl⟩ := Option.map_eq_some_iff.mp taken
        exact .inl live
    next => contradiction
  | swapOut pid slot page blocks =>
    simp only [next] at taken
    split at taken
    next =>
      split at taken <;> obtain rfl := Option.some.inj taken <;> exact .inl live
    next => contradiction
  | swapIn pid slot =>
    simp only [next] at taken
    split at taken
    next =>
      obtain rfl := Option.some.inj taken
      exact .inl live
    next => contradiction
  | exit pid =>
    simp only [next] at taken
    split at taken
    next =>
      split at taken
      next =>
        obtain rfl := Option.some.inj taken
        exact .inl (List.mem_filter.mp live).1
      next =>
        obtain ⟨fs, _, rfl⟩ := Option.map_eq_some_iff.mp taken
        exact .inl (List.mem_filter.mp live).1
    next => contradiction

theorem reachable_short (reached : system.Reachable s) : ∀ p ∈ s.live, p ≤ 99999 := by
  apply reached.invariant
  · rintro s ⟨_, live, _⟩
    simp [live]
  · intro s l t short taken p live
    exact (next_live taken live).elim (short p) id

-- The entries of the live processes' swap files are all different.
def EntriesDiffer (s : SwapState) : Prop :=
  ∀ p ∈ s.live, ∀ q ∈ s.live, p ≠ q → ∃ nm nm', swapName p = some nm ∧ swapName q = some nm' ∧
    namecmp nm nm' ≠ 0

theorem entriesDiffer_iff (short : ∀ p ∈ s.live, p ≤ 99999) :
    s.EntriesDiffer ↔ ∀ p ∈ s.live, ∀ q ∈ s.live, p ≠ q → p / 10 ≠ q / 10 := by
  constructor
  · intro differ p pLive q qLive other same
    obtain ⟨nm, nm', pName, qName, apart⟩ := differ p pLive q qLive other
    rw [swapName_eq] at pName qName
    obtain rfl := Option.some.inj pName
    obtain rfl := Option.some.inj qName
    exact apart ((swapEntry_collides (short p pLive) (short q qLive)).mpr same)
  · intro apart p pLive q qLive other
    refine ⟨_, _, swapName_eq p, swapName_eq q, fun same => ?_⟩
    exact apart p pLive q qLive other
      ((swapEntry_collides (short p pLive) (short q qLive)).mp same)

-- Live processes have different directory entries exactly when no two of their pids differ in the last digit
-- alone. When a process only ever starts while no such pid is live, its swap-ins read the same bytes whatever the
-- others do.
theorem swap_files_isolated (reached : system.Reachable s) :
    (s.EntriesDiffer ↔ ∀ p ∈ s.live, ∀ q ∈ s.live, p ≠ q → p / 10 ≠ q / 10) ∧
      (system.ReachableVia DecadeFree s → s.EntriesDiffer ∧
        ∀ p ∈ s.live, ∀ labels t, Path guarded s labels t → (∀ l ∈ labels, l.pid ≠ p) →
          ∀ slot, t.swapRead p slot = s.swapRead p slot) := by
  constructor
  · exact entriesDiffer_iff (reachable_short reached)
  · intro meeting
    have isolated := reachable_isolated meeting
    refine ⟨(entriesDiffer_iff isolated.short).mpr isolated.apart, ?_⟩
    intro p _ labels t path others slot
    exact path_swapRead path isolated others slot

-- The image of `mkfs` without the user programs: the root directory.
def mkfs : FileSystem where
  ninodes := 200
  inode i := if i = 1 then ⟨1, 1, 1, ⟨1, 32, fun _ => 0⟩⟩ else ⟨0, 0, 0, ⟨i, 0, fun _ => 0⟩⟩
  root := [⟨1, ['.']⟩, ⟨1, ['.', '.']⟩]

def boot : SwapState := ⟨mkfs, [], fun _ => none⟩

theorem boot_initial : boot.AtBoot := by
  have entries : ∀ (off : Nat) (de : Dirent), mkfs.root[off]? = some de →
      de.inum = 1 ∧ ∀ pid, holds (swapEntry pid) de = false := by
    intro off de here
    have member := List.mem_of_getElem? here
    simp only [mkfs, List.mem_cons, List.not_mem_nil, or_false] at member
    rcases member with rfl | rfl
    all_goals exact ⟨rfl, fun _ => rfl⟩
  refine ⟨⟨?_, ?_⟩, rfl, rfl⟩
  · intro off de here _
    rw [(entries off de here).1]
    exact Nat.one_ne_zero
  · rintro off off' de de' here _ _ ⟨pid, _, held⟩
    rw [(entries off de here).2 pid] at held
    contradiction

def reads (s : SwapState) (pid slot count : Nat) : Bool := (s.swapRead pid slot).map Prod.fst == some count

theorem reads_ne {s t : SwapState} {pid slot m n : Nat} (before : s.reads pid slot m = true)
    (after : t.reads pid slot n = true) (other : m ≠ n) : t.swapRead pid slot ≠ s.swapRead pid slot := by
  intro same
  simp only [reads, beq_iff_eq] at before after
  rw [same, before] at after
  exact other (Option.some.inj after)

def checkDecade (s : SwapState) : SwapLabel → Bool
  | .start pid => s.live.all fun q => q / 10 != pid / 10
  | _ => true

theorem checkDecade_sound (s : SwapState) (l : SwapLabel) (checked : s.checkDecade l = true) :
    s.DecadeFree l := by
  cases l with
  | start pid =>
    intro q live
    simpa using List.all_eq_true.mp checked q live
  | swapon | swapOut | swapIn | exit => trivial

-- Pid 25 swaps and exits beside pid 11.
theorem swap_files_isolated_two :
    ∃ s t, s.live = [25, 11] ∧ s.reads 11 0 4096 = true ∧ s.EntriesDiffer ∧
      Path guarded s [.swapon 25 true, .swapOut 25 0 (fun _ => 9) 5, .exit 25] t ∧
      t.swapRead 11 0 = s.swapRead 11 0 := by
  let first : List SwapLabel := [.start 11, .swapon 11 true, .swapOut 11 0 (fun _ => 7) 5, .start 25]
  let later : List SwapLabel := [.swapon 25 true, .swapOut 25 0 (fun _ => 9) 5, .exit 25]
  have runs : (System.execute next checkDecade boot first).any (fun s =>
      s.live == [25, 11] && s.reads 11 0 4096 && (System.execute next checkDecade s later).isSome) =
        true := by decide +kernel
  obtain ⟨s, ran, checks⟩ := (Option.any_eq_true _ _).mp runs
  simp only [Bool.and_eq_true, beq_iff_eq] at checks
  obtain ⟨⟨live, reads⟩, goesOn⟩ := checks
  obtain ⟨t, ran'⟩ := Option.isSome_iff_exists.mp goesOn
  have reached : system.ReachableVia DecadeFree s :=
    System.execute_reachableVia checkDecade_sound (.initial boot_initial) ran
  have path : Path guarded s later t := System.execute_path checkDecade_sound ran'
  obtain ⟨differ, keeps⟩ := (swap_files_isolated (reached.weaken fun _ _ _ => trivial)).2 reached
  refine ⟨s, t, live, reads, differ, path, keeps 11 ?_ later t path ?_ 0⟩
  · rw [live]
    decide
  · simp [later, SwapLabel.pid]

-- Pids 11 and 12 share an entry: creating the second swap file empties the first.
theorem swap_files_shared :
    ∃ s t, system.Reachable s ∧ s.live = [12, 11] ∧ system.step s (.swapon 12 true) t ∧
      ¬ s.EntriesDiffer ∧ t.swapRead 11 0 ≠ s.swapRead 11 0 := by
  let labels : List SwapLabel := [.start 11, .swapon 11 true, .swapOut 11 0 (fun _ => 7) 5, .start 12]
  have runs : (System.execute next (fun _ _ => true) boot labels).any (fun s =>
      s.live == [12, 11] && s.reads 11 0 4096 &&
        (s.next (.swapon 12 true)).any fun t => t.reads 11 0 0) = true := by decide +kernel
  obtain ⟨s, ran, checks⟩ := (Option.any_eq_true _ _).mp runs
  simp only [Bool.and_eq_true, beq_iff_eq] at checks
  obtain ⟨⟨live, before⟩, goesOn⟩ := checks
  obtain ⟨t, taken, after⟩ := (Option.any_eq_true _ _).mp goesOn
  have reached : system.Reachable s := System.execute_reachable boot_initial labels ran
  refine ⟨s, t, reached, live, taken, ?_, reads_ne before after (by decide)⟩
  intro differ
  have apart := (entriesDiffer_iff (reachable_short reached)).mp differ
  rw [live] at apart
  exact absurd rfl (apart 12 (by decide) 11 (by decide) (by decide))

end SwapState

end SystemsSuite.Paging
