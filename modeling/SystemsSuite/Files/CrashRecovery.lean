import SystemsSuite.Lib.Redo
import SystemsSuite.Files.Log

set_option autoImplicit false

namespace SystemsSuite.Files

open Lib

section Header

variable {data : Block} {header : List Nat}

theorem putEntries_before {i first width : Nat} (before : first + width ≤ 4 + 4 * i) :
    field (putEntries data i header) first width = field data first width := by
  induction header generalizing data i with
  | nil => rfl
  | cons blockno rest ih =>
    rw [putEntries, ih (by omega), field_setField_of_apart (by omega)]

theorem putEntries_entry {i j : Nat} {blockno : Nat} (here : header[j]? = some blockno) (small : blockno < 2 ^ 32) :
    field (putEntries data i header) (4 + 4 * (i + j)) 4 = blockno := by
  induction header generalizing data i j with
  | nil => simp at here
  | cons first rest ih =>
    rw [putEntries]
    cases j with
    | zero =>
      obtain rfl : first = blockno := by simpa using here
      rw [putEntries_before (by omega), Nat.add_zero, field_setField small]
    | succ j =>
      rw [show i + (j + 1) = i + 1 + j by omega]
      exact ih (by simpa using here)

theorem readHead_writeHead (short : header.length < 2 ^ 31) (small : ∀ blockno ∈ header, blockno < 2 ^ 32) :
    readHead (writeHead data header) = header := by
  have number : field (writeHead data header) 0 4 = header.length := by
    unfold writeHead
    rw [putEntries_before (by omega), field_setField (by omega)]
  have count : headerCount (writeHead data header) = header.length := by
    unfold headerCount
    rw [number, if_pos short]
  apply List.ext_getElem?
  intro i
  unfold readHead
  rw [count, List.getElem?_map]
  by_cases inside : i < header.length
  · have here := List.getElem?_eq_getElem inside
    have entry : field (putEntries (setField data 0 4 header.length) 0 header) (4 + 4 * (0 + i)) 4 = header[i] :=
      putEntries_entry here (small _ (List.getElem_mem inside))
    rw [Nat.zero_add] at entry
    rw [List.getElem?_range inside, here, Option.map_some]
    exact congrArg some entry
  · rw [List.getElem?_eq_none (by simpa using inside), List.getElem?_eq_none (by omega), Option.map_none]

theorem Headed.readHead_writeHead {start : Nat} (headed : Headed start header) :
    readHead (writeHead data header) = header :=
  Files.readHead_writeHead (headed.short.trans_lt (by decide)) fun _ member => (headed.homes _ member).2

theorem Headed.nil (start : Nat) : Headed start [] := ⟨Nat.zero_le _, List.nodup_nil, nofun⟩

theorem Headed.home {start i blockno : Nat} (headed : Headed start header)
    (here : header[i]? = some blockno) : Home start blockno ∧ i < logBlocks := by
  have inside := (List.getElem?_eq_some_iff.mp here).1
  exact ⟨(headed.homes blockno (List.mem_of_getElem? here)).1, inside.trans_le headed.short⟩

end Header

def entries (start : Nat) (disk : Nat → Block) (header : List Nat) : List (Nat × Block) :=
  header.mapIdx fun i blockno => (blockno, disk (start + i + 1))

def recovered (start : Nat) (disk : Nat → Block) : Nat → Block :=
  redo (entries start disk (readHead (disk start))) disk

variable {start : Nat} {disk disk' : Nat → Block} {header : List Nat}

theorem entries_keys : (entries start disk header).map Prod.fst = header := by
  apply List.ext_getElem?
  intro i
  unfold entries
  rw [List.getElem?_map, List.getElem?_mapIdx]
  cases header[i]? <;> rfl

theorem mem_entries {i blockno : Nat} (here : header[i]? = some blockno) :
    (blockno, disk (start + i + 1)) ∈ entries start disk header := by
  unfold entries
  rw [List.mem_iff_getElem?]
  exact ⟨i, by rw [List.getElem?_mapIdx, here]; rfl⟩

theorem entry_of_mem {entry : Nat × Block} (member : entry ∈ entries start disk header) :
    ∃ i, header[i]? = some entry.1 ∧ entry.2 = disk (start + i + 1) := by
  unfold entries at member
  obtain ⟨i, here⟩ := List.mem_iff_getElem?.mp member
  rw [List.getElem?_mapIdx] at here
  obtain ⟨blockno, there, rfl⟩ := Option.map_eq_some_iff.mp here
  exact ⟨i, there, rfl⟩

theorem entries_congr (same : ∀ i < header.length, disk' (start + i + 1) = disk (start + i + 1)) :
    entries start disk' header = entries start disk header := by
  unfold entries
  apply List.ext_getElem?
  intro i
  rw [List.getElem?_mapIdx, List.getElem?_mapIdx]
  by_cases inside : i < header.length
  · rw [List.getElem?_eq_getElem inside, Option.map_some, Option.map_some, same i inside]
  · rw [List.getElem?_eq_none (by omega), Option.map_none, Option.map_none]

theorem recovered_empty (empty : readHead (disk start) = []) : recovered start disk = disk := by
  unfold recovered
  rw [empty]
  rfl

theorem recovered_installed (headed : Headed start (readHead (disk start)))
    (installed : ∀ i blockno, (readHead (disk start))[i]? = some blockno → disk (start + i + 1) = disk blockno) :
    recovered start disk = disk := by
  apply redo_done
  · rw [entries_keys]
    exact headed.distinct
  · intro entry member
    obtain ⟨i, here, copy⟩ := entry_of_mem member
    rw [copy, installed i entry.1 here]

theorem recovered_entry (headed : Headed start (readHead (disk start))) {i blockno : Nat}
    (here : (readHead (disk start))[i]? = some blockno) : recovered start disk blockno = disk (start + i + 1) := by
  apply redo_entry
  · rw [entries_keys]
    exact headed.distinct
  · exact mem_entries here

theorem recovered_other {blockno : Nat} (absent : blockno ∉ readHead (disk start)) :
    recovered start disk blockno = disk blockno := by
  apply redo_other
  rwa [entries_keys]

theorem Home.ne_start {start blockno : Nat} (home : Home start blockno) : blockno ≠ start := by
  unfold Home at home
  omega

theorem Home.ne_log {start blockno i : Nat} (home : Home start blockno) (inside : i < logBlocks) :
    blockno ≠ start + i + 1 := by
  unfold Home at home
  omega

theorem recovered_install (headed : Headed start (readHead (disk start))) {i blockno : Nat}
    (here : (readHead (disk start))[i]? = some blockno) :
    recovered start (Function.update disk blockno (disk (start + i + 1))) = recovered start disk := by
  have home := (headed.homes blockno (List.mem_of_getElem? here)).1
  have inside : (readHead (disk start)).length ≤ logBlocks := headed.short
  have top : Function.update disk blockno (disk (start + i + 1)) start = disk start :=
    Function.update_of_ne (Ne.symm (home.ne_start)) ..
  have same : entries start (Function.update disk blockno (disk (start + i + 1))) (readHead (disk start)) =
      entries start disk (readHead (disk start)) :=
    entries_congr fun j below => Function.update_of_ne (Ne.symm (home.ne_log (by omega))) ..
  unfold recovered
  rw [top, same]
  exact redo_update (mem_entries here)

-- A buffer holds what the disk holds, but for those in `dirty`, which are pinned.
structure Fs.Consistent (s : Fs) (dirty : List Nat) : Prop where
  clean : ∀ blockno data, s.cached blockno = some data → blockno ∉ dirty → data = s.disk blockno
  held : ∀ blockno ∈ dirty, (s.cached blockno).isSome = true ∧ 0 < s.pins blockno

namespace Fs

variable {s : Fs} {dirty rest : List Nat} {blockno : Nat} {data : Block}

theorem block_bread (s : Fs) (blockno : Nat) : (s.bread blockno).block = s.block := by
  funext other
  unfold block bread
  by_cases same : other = blockno
  · rw [same]
    simp only [Function.update_self, Option.getD_some]
    rfl
  · simp only [Function.update_of_ne same]

theorem block_modify (s : Fs) (blockno : Nat) (data : Block) :
    (s.modify blockno data).block = Function.update s.block blockno data := by
  funext other
  unfold block modify
  by_cases same : other = blockno
  · rw [same]
    simp only [Function.update_self, Option.getD_some]
  · simp only [Function.update_of_ne same]

theorem block_bwrite (s : Fs) (blockno : Nat) (data : Block) :
    (s.bwrite blockno data).block = Function.update s.block blockno data := by
  funext other
  unfold block bwrite modify
  by_cases same : other = blockno
  · rw [same]
    simp only [Function.update_self, Option.getD_some]
  · simp only [Function.update_of_ne same]

namespace Consistent

theorem of_same {s' : Fs} (consistent : s.Consistent dirty) (cached : s'.cached = s.cached)
    (disk : s'.disk = s.disk) (pins : s'.pins = s.pins) : s'.Consistent dirty := by
  constructor
  · rw [cached, disk]
    exact consistent.clean
  · rw [cached, pins]
    exact consistent.held

theorem block_eq (consistent : s.Consistent dirty) (notDirty : blockno ∉ dirty) : s.block blockno = s.disk blockno := by
  unfold block
  cases here : s.cached blockno with
  | none => rfl
  | some data => exact consistent.clean blockno data here notDirty

theorem bread (consistent : s.Consistent dirty) (blockno : Nat) : (s.bread blockno).Consistent dirty := by
  constructor
  · intro other data here notDirty
    change Function.update s.cached blockno _ other = some data at here
    by_cases same : other = blockno
    · subst same
      rw [Function.update_self] at here
      rw [← Option.some.inj here]
      exact consistent.block_eq notDirty
    · rw [Function.update_of_ne same] at here
      exact consistent.clean other data here notDirty
  · intro other member
    refine ⟨?_, (consistent.held other member).2⟩
    change (Function.update s.cached blockno _ other).isSome = true
    by_cases same : other = blockno
    · rw [same, Function.update_self]
      rfl
    · rw [Function.update_of_ne same]
      exact (consistent.held other member).1

theorem bwrite (consistent : s.Consistent dirty) (blockno : Nat) (data : Block) (subset : ∀ other ∈ rest, other ∈ dirty)
    (leaves : ∀ other ∈ dirty, other ∈ rest ∨ other = blockno) : (s.bwrite blockno data).Consistent rest := by
  constructor
  · intro other held here notDirty
    change Function.update s.cached blockno _ other = some held at here
    change held = Function.update s.disk blockno _ other
    by_cases same : other = blockno
    · rw [same, Function.update_self] at here ⊢
      exact (Option.some.inj here).symm
    · rw [Function.update_of_ne same] at here ⊢
      refine consistent.clean other held here fun member => ?_
      rcases leaves other member with stays | written
      · exact notDirty stays
      · exact same written
  · intro other member
    have before := consistent.held other (subset other member)
    refine ⟨?_, before.2⟩
    change (Function.update s.cached blockno _ other).isSome = true
    by_cases same : other = blockno
    · rw [same, Function.update_self]
      rfl
    · rw [Function.update_of_ne same]
      exact before.1

theorem bunpin (consistent : s.Consistent dirty) (notDirty : blockno ∉ dirty) :
    (s.bunpin blockno).Consistent dirty := by
  refine ⟨consistent.clean, fun other member => ⟨(consistent.held other member).1, ?_⟩⟩
  have different : other ≠ blockno := fun same => notDirty (same ▸ member)
  change 0 < Function.update s.pins blockno _ other
  rw [Function.update_of_ne different]
  exact (consistent.held other member).2

theorem recycle (consistent : s.Consistent dirty) (unpinned : s.pins blockno = 0) :
    Consistent { s with cached := Function.update s.cached blockno none } dirty := by
  constructor
  · intro other data here notDirty
    change Function.update s.cached blockno none other = some data at here
    by_cases same : other = blockno
    · rw [same, Function.update_self] at here
      contradiction
    · rw [Function.update_of_ne same] at here
      exact consistent.clean other data here notDirty
  · intro other member
    have before := consistent.held other member
    have different : other ≠ blockno := by
      rintro rfl
      rw [unpinned] at before
      exact absurd before.2 (Nat.lt_irrefl 0)
    refine ⟨?_, before.2⟩
    change (Function.update s.cached blockno none other).isSome = true
    rw [Function.update_of_ne different]
    exact before.1

end Consistent

end Fs

namespace Fs

def dirty (s : Fs) : List Nat :=
  match s.stage with
  | .idle | .writeLog _ | .writeHead => s.header
  | .install tail => s.header.drop tail
  | _ => []

def Alone (s : Fs) : Prop := s.outstanding = 0 ∧ s.committing = true

-- The log has copies of the first `tail` blocks of the header.
def Copied (start tail : Nat) (s : Fs) : Prop :=
  ∀ i < tail, ∀ blockno, s.header[i]? = some blockno → s.disk (start + i + 1) = s.block blockno

-- The blocks of the header on disk are what the log has copies of.
def Installed (start : Nat) (s : Fs) : Prop :=
  ∀ i blockno, (readHead (s.disk start))[i]? = some blockno → s.disk (start + i + 1) = s.disk blockno

def Staged (start : Nat) (s : Fs) : Prop :=
  match s.stage with
  | .idle => readHead (s.disk start) = [] ∧ s.committing = false ∧ (s.outstanding = 0 → s.header = [])
  | .writeLog tail => readHead (s.disk start) = [] ∧ s.Alone ∧ tail ≤ s.header.length ∧ s.Copied start tail
  | .writeHead => readHead (s.disk start) = [] ∧ s.Alone ∧ s.Copied start s.header.length
  | .install tail =>
    readHead (s.disk start) = s.header ∧ s.Alone ∧ tail ≤ s.header.length ∧ s.Copied start s.header.length
  | .eraseHead => s.header = [] ∧ s.Alone ∧ s.Installed start
  | .finish => readHead (s.disk start) = [] ∧ s.Alone ∧ s.header = []
  | .boot => s.header = [] ∧ s.outstanding = 0 ∧ s.committing = false
  | .recover tail =>
    readHead (s.disk start) = s.header ∧ s.outstanding = 0 ∧ s.committing = false ∧ tail ≤ s.header.length ∧
      ∀ i < tail, ∀ blockno, s.header[i]? = some blockno → s.disk (start + i + 1) = s.disk blockno
  | .clearHead => s.header = [] ∧ s.outstanding = 0 ∧ s.committing = false ∧ s.Installed start

structure Sound (start : Nat) (s : Fs) : Prop where
  onDisk : Headed start (readHead (s.disk start))
  logged : Headed start s.header
  consistent : s.Consistent s.dirty
  staged : s.Staged start

-- What a write of a commit or of a recovery does to the storage that the log stands for: the write of the header
-- makes the current contents durable, all others change nothing.
structure Advanced (start : Nat) (s s' : Fs) : Prop where
  sound : s'.Sound start
  durable : ∀ blockno, Home start blockno → recovered start s'.disk blockno =
    if s.stage = .writeHead then s.block blockno else recovered start s.disk blockno
  current : s.recovering = false → s'.recovering = false ∧
    ∀ blockno, Home start blockno → s'.block blockno = s.block blockno
  restored : s.recovering = true → s'.recovering = false →
    ∀ blockno, Home start blockno → s'.block blockno = recovered start s.disk blockno

variable {s s' : Fs}

section Advance

variable {start tail : Nat}

theorem Sound.log_clean (sound : s.Sound start) {i : Nat} (inside : i < logBlocks) : start + i + 1 ∉ s.dirty := by
  intro member
  have logged : start + i + 1 ∈ s.header := by
    unfold dirty at member
    split at member
    · exact member
    · exact member
    · exact member
    · exact List.mem_of_mem_drop member
    · exact absurd member List.not_mem_nil
  exact (sound.logged.homes _ logged).1.ne_log inside rfl

theorem Sound.advance_writeLog (sound : s.Sound start) (stage : s.stage = .writeLog tail) {blockno : Nat}
    (here : s.header[tail]? = some blockno) :
    s.Advanced start { s.writeLogBlock start tail blockno with stage := .writeLog (tail + 1) } := by
  have staged := sound.staged
  unfold Staged at staged
  rw [stage] at staged
  obtain ⟨empty, alone, _, copied⟩ := staged
  obtain ⟨home, inside⟩ := sound.logged.home here
  have dirty : s.dirty = s.header := by
    unfold Fs.dirty
    rw [stage]
  have top : Function.update s.disk (start + tail + 1) (s.block blockno) start = s.disk start :=
    Function.update_of_ne (by omega) ..
  have disk {blockno' : Nat} (home' : Home start blockno') :
      Function.update s.disk (start + tail + 1) (s.block blockno) blockno' = s.disk blockno' :=
    Function.update_of_ne (home'.ne_log inside) ..
  have block {blockno' : Nat} (home' : Home start blockno') :
      (s.writeLogBlock start tail blockno).block blockno' = s.block blockno' := by
    unfold writeLogBlock
    rw [block_bwrite, block_bread, Function.update_of_ne (home'.ne_log inside)]
  have consistent := (sound.consistent.bread blockno).bwrite (start + tail + 1) (s.block blockno)
    (fun _ member => member) fun _ member => .inl member
  rw [dirty] at consistent
  have empty' : readHead (Function.update s.disk (start + tail + 1) (s.block blockno) start) = [] := by
    rw [top, empty]
  refine ⟨⟨?_, sound.logged, consistent.of_same rfl rfl rfl, empty', alone, ?_, ?_⟩, ?_, ?_, ?_⟩
  · change Headed start (readHead (Function.update s.disk (start + tail + 1) (s.block blockno) start))
    rw [empty']
    exact .nil start
  · exact (List.getElem?_eq_some_iff.mp here).1
  · intro i below blockno' there
    refine Eq.trans ?_ (block (sound.logged.home there).1).symm
    change Function.update s.disk (start + tail + 1) (s.block blockno) (start + i + 1) = _
    by_cases last : i = tail
    · subst last
      rw [Function.update_self, Option.some.inj (here.symm.trans there)]
    · rw [Function.update_of_ne (by omega)]
      exact copied i (by omega) blockno' there
  · intro blockno' home'
    rw [if_neg (by rw [stage]; nofun)]
    exact (congrFun (recovered_empty empty') blockno').trans
      ((disk home').trans (congrFun (recovered_empty empty) blockno').symm)
  · exact fun _ => ⟨rfl, fun blockno' home' => block home'⟩
  · intro recovering
    unfold Fs.recovering at recovering
    rw [stage] at recovering
    contradiction

theorem Sound.advance_writeHead (sound : s.Sound start) (stage : s.stage = .writeHead) :
    s.Advanced start { s.writeHeader start with stage := .install 0 } := by
  have staged := sound.staged
  unfold Staged at staged
  rw [stage] at staged
  obtain ⟨empty, alone, copied⟩ := staged
  have dirty : s.dirty = s.header := by
    unfold Fs.dirty
    rw [stage]
  let data := Files.writeHead (s.block start) s.header
  have written : readHead (Function.update s.disk start data start) = s.header := by
    rw [Function.update_self]
    exact sound.logged.readHead_writeHead
  have headed : Headed start (readHead (Function.update s.disk start data start)) := by
    rw [written]
    exact sound.logged
  have block {blockno : Nat} (home : Home start blockno) : (s.writeHeader start).block blockno = s.block blockno := by
    unfold writeHeader
    rw [block_bwrite, Function.update_of_ne (home.ne_start)]
  have copies (i blockno : Nat) (here : s.header[i]? = some blockno) :
      Function.update s.disk start data (start + i + 1) = s.block blockno := by
    rw [Function.update_of_ne (by omega)]
    exact copied i (List.getElem?_eq_some_iff.mp here).1 blockno here
  have consistent := sound.consistent.bwrite start data (fun _ member => member) fun _ member => .inl member
  rw [dirty] at consistent
  refine ⟨⟨headed, sound.logged, consistent.of_same rfl rfl rfl, written, alone, Nat.zero_le _, ?_⟩, ?_, ?_, ?_⟩
  · exact fun i _ blockno here => (copies i blockno here).trans (block (sound.logged.home here).1).symm
  · intro blockno home
    rw [if_pos stage]
    change recovered start (Function.update s.disk start data) blockno = s.block blockno
    by_cases member : blockno ∈ s.header
    · obtain ⟨i, here⟩ := List.mem_iff_getElem?.mp member
      rw [recovered_entry headed (i := i) (by rw [written]; exact here)]
      exact copies i blockno here
    · rw [recovered_other (by rw [written]; exact member),
        Function.update_of_ne (home.ne_start)]
      exact (sound.consistent.block_eq (by rw [dirty]; exact member)).symm
  · exact fun _ => ⟨rfl, fun blockno home => block home⟩
  · intro recovering
    unfold Fs.recovering at recovering
    rw [stage] at recovering
    contradiction

theorem drop_entry {header : List Nat} {blockno : Nat} (here : header[tail]? = some blockno) :
    header.drop tail = blockno :: header.drop (tail + 1) := by
  obtain ⟨inside, rfl⟩ := List.getElem?_eq_some_iff.mp here
  exact List.drop_eq_getElem_cons inside

theorem Sound.advance_install (sound : s.Sound start) (stage : s.stage = .install tail) {blockno : Nat}
    (here : s.header[tail]? = some blockno) :
    s.Advanced start { s.installBlock start false tail blockno with stage := .install (tail + 1) } := by
  have staged := sound.staged
  unfold Staged at staged
  rw [stage] at staged
  obtain ⟨onDisk, alone, _, copied⟩ := staged
  obtain ⟨home, inside⟩ := sound.logged.home here
  have dirty : s.dirty = blockno :: s.header.drop (tail + 1) := by
    unfold Fs.dirty
    rw [stage]
    exact drop_entry here
  have later : blockno ∉ s.header.drop (tail + 1) := by
    have distinct := sound.logged.distinct.sublist (List.drop_sublist tail s.header)
    rw [drop_entry here] at distinct
    exact (List.nodup_cons.mp distinct).1
  have copy : s.block (start + tail + 1) = s.disk (start + tail + 1) :=
    sound.consistent.block_eq (sound.log_clean inside)
  have data : s.block (start + tail + 1) = s.block blockno :=
    copy.trans (copied tail (List.getElem?_eq_some_iff.mp here).1 blockno here)
  have block : (s.installBlock start false tail blockno).block = s.block := by
    have installed := block_bwrite (s.bread (start + tail + 1)) blockno (s.block (start + tail + 1))
    rw [block_bread, data, Function.update_eq_self] at installed
    rw [← data] at installed
    exact installed
  have top : Function.update s.disk blockno (s.block (start + tail + 1)) start = s.disk start :=
    Function.update_of_ne (Ne.symm (home.ne_start)) ..
  have consistent := sound.consistent
  rw [dirty] at consistent
  have written : (((s.bread (start + tail + 1)).bwrite blockno (s.block (start + tail + 1))).bunpin blockno).Consistent
      (s.header.drop (tail + 1)) :=
    ((consistent.bread (start + tail + 1)).bwrite blockno _ (fun _ member => List.mem_cons_of_mem _ member)
      fun _ member => (List.mem_cons.mp member).symm).bunpin later
  refine ⟨⟨?_, sound.logged, written.of_same rfl rfl rfl, ?_, alone, (List.getElem?_eq_some_iff.mp here).1, ?_⟩, ?_, ?_, ?_⟩
  · change Headed start (readHead (Function.update s.disk blockno _ start))
    rw [top]
    exact sound.onDisk
  · exact (congrArg readHead top).trans onDisk
  · intro i below blockno' there
    have outside : start + i + 1 ≠ blockno :=
      Ne.symm (home.ne_log (sound.logged.home there).2)
    change Function.update s.disk blockno _ (start + i + 1) = (s.installBlock start false tail blockno).block blockno'
    rw [Function.update_of_ne outside, block]
    exact copied i below blockno' there
  · intro blockno' _
    rw [if_neg (by rw [stage]; nofun)]
    change recovered start (Function.update s.disk blockno (s.block (start + tail + 1))) blockno' = _
    rw [copy, recovered_install sound.onDisk (i := tail) (by rw [onDisk]; exact here)]
  · exact fun _ => ⟨rfl, fun blockno' _ => congrFun block blockno'⟩
  · intro recovering
    unfold Fs.recovering at recovering
    rw [stage] at recovering
    contradiction

theorem Sound.advance_installed (sound : s.Sound start) (stage : s.stage = .install tail)
    (done : s.header[tail]? = none) : s.Advanced start { s with header := [], stage := .eraseHead } := by
  have staged := sound.staged
  unfold Staged at staged
  rw [stage] at staged
  obtain ⟨onDisk, alone, _, copied⟩ := staged
  have dirty : s.dirty = [] := by
    unfold Fs.dirty
    rw [stage]
    exact List.drop_eq_nil_of_le (List.getElem?_eq_none_iff.mp done)
  have consistent := sound.consistent
  rw [dirty] at consistent
  refine ⟨⟨sound.onDisk, .nil start, consistent.of_same rfl rfl rfl, rfl, alone, ?_⟩, ?_, ?_, ?_⟩
  · intro i blockno here
    change (readHead (s.disk start))[i]? = some blockno at here
    rw [onDisk] at here
    exact (copied i (List.getElem?_eq_some_iff.mp here).1 blockno here).trans
      (consistent.block_eq List.not_mem_nil)
  · intro blockno _
    rw [if_neg (by rw [stage]; nofun)]
  · exact fun _ => ⟨rfl, fun _ _ => rfl⟩
  · intro recovering
    unfold Fs.recovering at recovering
    rw [stage] at recovering
    contradiction

theorem Sound.cleared (sound : s.Sound start) (empty : s.header = []) (dirty : s.dirty = [])
    (installed : s.Installed start) : readHead ((s.writeHeader start).disk start) = [] ∧
      (s.writeHeader start).Consistent [] ∧
      ∀ blockno, Home start blockno → (s.writeHeader start).block blockno = s.block blockno ∧
        s.block blockno = recovered start s.disk blockno ∧
        recovered start (s.writeHeader start).disk blockno = recovered start s.disk blockno := by
  have consistent := sound.consistent
  rw [dirty] at consistent
  have written : readHead ((s.writeHeader start).disk start) = [] := by
    change readHead (Function.update s.disk start _ start) = []
    rw [Function.update_self, empty]
    exact (Headed.nil start).readHead_writeHead
  refine ⟨written, ?_, ?_⟩
  · exact consistent.bwrite _ _ (fun _ member => member) fun _ member => .inl member
  · intro blockno home
    have different := home.ne_start
    refine ⟨?_, ?_, ?_⟩
    · unfold writeHeader
      rw [block_bwrite, Function.update_of_ne different]
    · rw [recovered_installed sound.onDisk installed]
      exact consistent.block_eq List.not_mem_nil
    · rw [recovered_empty written, recovered_installed sound.onDisk installed]
      exact Function.update_of_ne different ..

theorem Sound.advance_eraseHead (sound : s.Sound start) (stage : s.stage = .eraseHead) :
    s.Advanced start { s.writeHeader start with stage := .finish } := by
  have staged := sound.staged
  unfold Staged at staged
  rw [stage] at staged
  obtain ⟨empty, alone, installed⟩ := staged
  have dirty : s.dirty = [] := by
    unfold Fs.dirty
    rw [stage]
  obtain ⟨written, consistent, same⟩ := sound.cleared empty dirty installed
  refine ⟨⟨?_, sound.logged, consistent.of_same rfl rfl rfl, written, alone, empty⟩, ?_, ?_, ?_⟩
  · change Headed start (readHead ((s.writeHeader start).disk start))
    rw [written]
    exact .nil start
  · intro blockno home
    rw [if_neg (by rw [stage]; nofun)]
    exact (same blockno home).2.2
  · exact fun _ => ⟨rfl, fun blockno home => (same blockno home).1⟩
  · intro recovering
    unfold Fs.recovering at recovering
    rw [stage] at recovering
    contradiction

theorem Sound.advance_clearHead (sound : s.Sound start) (stage : s.stage = .clearHead) :
    s.Advanced start { s.writeHeader start with stage := .idle } := by
  have staged := sound.staged
  unfold Staged at staged
  rw [stage] at staged
  obtain ⟨empty, _, notCommitting, installed⟩ := staged
  have dirty : s.dirty = [] := by
    unfold Fs.dirty
    rw [stage]
  obtain ⟨written, consistent, same⟩ := sound.cleared empty dirty installed
  have consistent' : ({ s.writeHeader start with stage := .idle } : Fs).Consistent s.header := by
    rw [empty]
    exact consistent.of_same rfl rfl rfl
  refine ⟨⟨?_, sound.logged, consistent', written, notCommitting, fun _ => empty⟩, ?_, ?_, ?_⟩
  · change Headed start (readHead ((s.writeHeader start).disk start))
    rw [written]
    exact .nil start
  · intro blockno home
    rw [if_neg (by rw [stage]; nofun)]
    exact (same blockno home).2.2
  · intro recovering
    unfold Fs.recovering at recovering
    rw [stage] at recovering
    contradiction
  · exact fun _ _ blockno home => (same blockno home).1.trans (same blockno home).2.1

theorem Sound.advance_recover (sound : s.Sound start) (stage : s.stage = .recover tail) {blockno : Nat}
    (here : s.header[tail]? = some blockno) :
    s.Advanced start { s.installBlock start true tail blockno with stage := .recover (tail + 1) } := by
  have staged := sound.staged
  unfold Staged at staged
  rw [stage] at staged
  obtain ⟨onDisk, none_, notCommitting, _, installed⟩ := staged
  obtain ⟨home, inside⟩ := sound.logged.home here
  have dirty : s.dirty = [] := by
    unfold Fs.dirty
    rw [stage]
  have consistent := sound.consistent
  rw [dirty] at consistent
  have copy : s.block (start + tail + 1) = s.disk (start + tail + 1) := consistent.block_eq List.not_mem_nil
  have top : Function.update s.disk blockno (s.block (start + tail + 1)) start = s.disk start :=
    Function.update_of_ne (Ne.symm (home.ne_start)) ..
  have written : ((s.bread (start + tail + 1)).bwrite blockno (s.block (start + tail + 1))).Consistent [] :=
    (consistent.bread (start + tail + 1)).bwrite blockno _ (fun _ member => member) fun _ member => .inl member
  refine ⟨⟨?_, sound.logged, written.of_same rfl rfl rfl, ?_, none_, notCommitting, (List.getElem?_eq_some_iff.mp here).1, ?_⟩,
    ?_, ?_, ?_⟩
  · change Headed start (readHead (Function.update s.disk blockno _ start))
    rw [top]
    exact sound.onDisk
  · exact (congrArg readHead top).trans onDisk
  · intro i below blockno' there
    have outside : start + i + 1 ≠ blockno :=
      Ne.symm (home.ne_log (sound.logged.home there).2)
    change Function.update s.disk blockno _ (start + i + 1) = Function.update s.disk blockno _ blockno'
    rw [Function.update_of_ne outside]
    by_cases last : i = tail
    · subst last
      rw [Option.some.inj (there.symm.trans here), Function.update_self]
      exact copy.symm
    · have different : blockno' ≠ blockno := by
        rintro rfl
        obtain ⟨inside₁, first⟩ := List.getElem?_eq_some_iff.mp there
        obtain ⟨inside₂, second⟩ := List.getElem?_eq_some_iff.mp here
        exact last ((sound.logged.distinct.getElem_inj_iff).mp (first.trans second.symm))
      rw [Function.update_of_ne different]
      exact installed i (by omega) blockno' there
  · intro blockno' _
    rw [if_neg (by rw [stage]; nofun)]
    change recovered start (Function.update s.disk blockno (s.block (start + tail + 1))) blockno' = _
    rw [copy, recovered_install sound.onDisk (i := tail) (by rw [onDisk]; exact here)]
  · intro recovering
    unfold Fs.recovering at recovering
    rw [stage] at recovering
    contradiction
  · exact fun _ recovering => absurd recovering (Bool.false_ne_true ∘ Eq.symm)

theorem Sound.advance_recovered (sound : s.Sound start) (stage : s.stage = .recover tail)
    (done : s.header[tail]? = none) : s.Advanced start { s with header := [], stage := .clearHead } := by
  have staged := sound.staged
  unfold Staged at staged
  rw [stage] at staged
  obtain ⟨onDisk, none_, notCommitting, _, installed⟩ := staged
  have dirty : s.dirty = [] := by
    unfold Fs.dirty
    rw [stage]
  have consistent := sound.consistent
  rw [dirty] at consistent
  refine ⟨⟨sound.onDisk, .nil start, consistent.of_same rfl rfl rfl, rfl, none_, notCommitting, ?_⟩, ?_, ?_, ?_⟩
  · intro i blockno here
    change (readHead (s.disk start))[i]? = some blockno at here
    rw [onDisk] at here
    have inside := (List.getElem?_eq_some_iff.mp here).1
    exact installed i (inside.trans_le (List.getElem?_eq_none_iff.mp done)) blockno here
  · intro blockno _
    rw [if_neg (by rw [stage]; nofun)]
  · intro recovering
    unfold Fs.recovering at recovering
    rw [stage] at recovering
    contradiction
  · exact fun _ recovering => absurd recovering (Bool.false_ne_true ∘ Eq.symm)

theorem Sound.advance_boot (sound : s.Sound start) (stage : s.stage = .boot) :
    s.Advanced start { s.bread start with header := readHead (s.block start), stage := .recover 0 } := by
  have staged := sound.staged
  unfold Staged at staged
  rw [stage] at staged
  obtain ⟨_, none_, notCommitting⟩ := staged
  have dirty : s.dirty = [] := by
    unfold Fs.dirty
    rw [stage]
  have consistent := sound.consistent
  rw [dirty] at consistent
  have head : s.block start = s.disk start := consistent.block_eq List.not_mem_nil
  have logged : Headed start (readHead (s.block start)) := by
    rw [head]
    exact sound.onDisk
  refine ⟨⟨sound.onDisk, logged, (consistent.bread start).of_same rfl rfl rfl, ?_, none_, notCommitting,
    Nat.zero_le _, nofun⟩, ?_, ?_, ?_⟩
  · exact (congrArg readHead head).symm
  · intro blockno _
    rw [if_neg (by rw [stage]; nofun)]
    rfl
  · intro recovering
    unfold Fs.recovering at recovering
    rw [stage] at recovering
    contradiction
  · exact fun _ recovering => absurd recovering (Bool.false_ne_true ∘ Eq.symm)

theorem Sound.advance_finish (sound : s.Sound start) (stage : s.stage = .finish) :
    s.Advanced start { s with committing := false, stage := .idle } := by
  have staged := sound.staged
  unfold Staged at staged
  rw [stage] at staged
  obtain ⟨empty, _, noHeader⟩ := staged
  have dirty : s.dirty = s.header := by
    unfold Fs.dirty
    rw [stage, noHeader]
  have consistent := sound.consistent
  rw [dirty] at consistent
  refine ⟨⟨sound.onDisk, sound.logged, consistent.of_same rfl rfl rfl, empty, rfl, fun _ => noHeader⟩, ?_, ?_, ?_⟩
  · intro blockno _
    rw [if_neg (by rw [stage]; nofun)]
  · exact fun _ => ⟨rfl, fun _ _ => rfl⟩
  · intro recovering
    unfold Fs.recovering at recovering
    rw [stage] at recovering
    contradiction

theorem Sound.advance (sound : s.Sound start) (taken : s.advance start = some s') : s.Advanced start s' := by
  unfold Fs.advance at taken
  cases stage : s.stage with
  | idle =>
    rw [stage] at taken
    contradiction
  | writeLog tail =>
    rw [stage] at taken
    cases here : s.header[tail]? with
    | some blockno =>
      simp only [here, Option.some.injEq] at taken
      exact taken ▸ sound.advance_writeLog stage here
    | none =>
      simp only [here, Option.some.injEq] at taken
      subst taken
      have staged := sound.staged
      unfold Staged at staged
      rw [stage] at staged
      obtain ⟨empty, alone, _, copied⟩ := staged
      have consistent := sound.consistent
      unfold Fs.dirty at consistent
      rw [stage] at consistent
      refine ⟨⟨sound.onDisk, sound.logged, consistent.of_same rfl rfl rfl, empty, alone, ?_⟩, ?_, ?_, ?_⟩
      · exact fun i inside => copied i (inside.trans_le (List.getElem?_eq_none_iff.mp here))
      · intro blockno _
        rw [if_neg (by rw [stage]; nofun)]
      · exact fun _ => ⟨rfl, fun _ _ => rfl⟩
      · intro recovering
        unfold Fs.recovering at recovering
        rw [stage] at recovering
        contradiction
  | writeHead =>
    rw [stage, Option.some.injEq] at taken
    exact taken ▸ sound.advance_writeHead stage
  | install tail =>
    rw [stage] at taken
    cases here : s.header[tail]? with
    | some blockno =>
      simp only [here, Option.some.injEq] at taken
      exact taken ▸ sound.advance_install stage here
    | none =>
      simp only [here, Option.some.injEq] at taken
      exact taken ▸ sound.advance_installed stage here
  | eraseHead =>
    rw [stage, Option.some.injEq] at taken
    exact taken ▸ sound.advance_eraseHead stage
  | finish =>
    rw [stage, Option.some.injEq] at taken
    exact taken ▸ sound.advance_finish stage
  | boot =>
    rw [stage, Option.some.injEq] at taken
    exact taken ▸ sound.advance_boot stage
  | recover tail =>
    rw [stage] at taken
    cases here : s.header[tail]? with
    | some blockno =>
      simp only [here, Option.some.injEq] at taken
      exact taken ▸ sound.advance_recover stage here
    | none =>
      simp only [here, Option.some.injEq] at taken
      exact taken ▸ sound.advance_recovered stage here
  | clearHead =>
    rw [stage, Option.some.injEq] at taken
    exact taken ▸ sound.advance_clearHead stage

end Advance

section Calls

variable {start : Nat}

theorem dirty_idle (stage : s.stage = .idle) : s.dirty = s.header := by
  unfold dirty
  rw [stage]

theorem staged_idle (stage : s.stage = .idle) : s.Staged start ↔
    readHead (s.disk start) = [] ∧ s.committing = false ∧ (s.outstanding = 0 → s.header = []) := by
  unfold Staged
  rw [stage]

theorem Sound.idle_of_outstanding (sound : s.Sound start) (some_ : s.outstanding ≠ 0) : s.stage = .idle := by
  have staged := sound.staged
  unfold Staged Alone at staged
  split at staged
  next stage => exact stage
  next => exact absurd staged.2.1.1 some_
  next => exact absurd staged.2.1.1 some_
  next => exact absurd staged.2.1.1 some_
  next => exact absurd staged.2.1.1 some_
  next => exact absurd staged.2.1.1 some_
  next => exact absurd staged.2.1 some_
  next => exact absurd staged.2.1 some_
  next => exact absurd staged.2.1 some_

theorem Sound.crash (sound : s.Sound start) : s.crash.Sound start :=
  ⟨sound.onDisk, .nil start, ⟨nofun, nofun⟩, rfl, rfl, rfl⟩

theorem Sound.bread (sound : s.Sound start) (blockno : Nat) : (s.bread blockno).Sound start := by
  refine ⟨sound.onDisk, sound.logged, sound.consistent.bread blockno, ?_⟩
  have staged := sound.staged
  unfold Staged Copied at staged ⊢
  rw [block_bread]
  exact staged

theorem Sound.recycle {blockno : Nat} (sound : s.Sound start) (unpinned : s.pins blockno = 0) :
    Sound start { s with cached := Function.update s.cached blockno none } ∧
      Fs.block { s with cached := Function.update s.cached blockno none } = s.block := by
  have clean : blockno ∉ s.dirty := fun member =>
    absurd (sound.consistent.held blockno member).2 (by rw [unpinned]; exact Nat.lt_irrefl 0)
  have same : Fs.block { s with cached := Function.update s.cached blockno none } = s.block := by
    funext other
    by_cases here : other = blockno
    · rw [here, sound.consistent.block_eq clean]
      unfold Fs.block
      simp only [Function.update_self, Option.getD_none]
    · unfold Fs.block
      simp only [Function.update_of_ne here]
  refine ⟨⟨sound.onDisk, sound.logged, sound.consistent.recycle unpinned, ?_⟩, same⟩
  have staged := sound.staged
  unfold Staged Copied at staged ⊢
  rw [same]
  exact staged

theorem Sound.beginOp (sound : s.Sound start) (quiet : s.recovering = false) (open_ : s.committing = false) :
    Sound start { s with outstanding := s.outstanding + 1 } := by
  have staged := sound.staged
  refine ⟨sound.onDisk, sound.logged, sound.consistent.of_same rfl rfl rfl, ?_⟩
  unfold Staged Alone at staged ⊢
  unfold Fs.recovering at quiet
  cases stage : s.stage with
  | idle =>
    rw [stage] at staged
    exact ⟨staged.1, staged.2.1, nofun⟩
  | writeLog tail =>
    rw [stage] at staged
    exact absurd (staged.2.1.2.symm.trans open_) nofun
  | writeHead =>
    rw [stage] at staged
    exact absurd (staged.2.1.2.symm.trans open_) nofun
  | install tail =>
    rw [stage] at staged
    exact absurd (staged.2.1.2.symm.trans open_) nofun
  | eraseHead =>
    rw [stage] at staged
    exact absurd (staged.2.1.2.symm.trans open_) nofun
  | finish =>
    rw [stage] at staged
    exact absurd (staged.2.1.2.symm.trans open_) nofun
  | boot =>
    rw [stage] at quiet
    contradiction
  | recover tail =>
    rw [stage] at quiet
    contradiction
  | clearHead =>
    rw [stage] at quiet
    contradiction

theorem Sound.logWrite {blockno : Nat} {data : Block} (sound : s.Sound start) (home : Home start blockno)
    (small : blockno < 2 ^ 32) (room : s.header.length < logBlocks) (some_ : s.outstanding ≠ 0) :
    (s.logWrite blockno data).Sound start := by
  have stage := sound.idle_of_outstanding some_
  have staged := (staged_idle stage).mp sound.staged
  have consistent := sound.consistent
  rw [dirty_idle stage] at consistent
  have buffered (other : Nat) (held : Block) (here : Function.update s.cached blockno (some data) other = some held)
      (notDirty : other ∉ s.header) (different : other ≠ blockno) : held = s.disk other := by
    rw [Function.update_of_ne different] at here
    exact consistent.clean other held here notDirty
  have present (other : Nat) (before : other = blockno ∨ (s.cached other).isSome = true) :
      (Function.update s.cached blockno (some data) other).isSome = true := by
    by_cases here : other = blockno
    · rw [here, Function.update_self]
      rfl
    · rw [Function.update_of_ne here]
      exact before.resolve_left here
  unfold Fs.logWrite
  split_ifs with absorbed
  · have member : blockno ∈ s.header := List.contains_iff_mem.mp absorbed
    refine ⟨sound.onDisk, sound.logged, ?_, (staged_idle (s := s.modify blockno data) stage).mpr ?_⟩
    · rw [dirty_idle (s := s.modify blockno data) stage]
      constructor
      · exact fun other held here notDirty => buffered other held here notDirty fun same =>
          notDirty (same ▸ member)
      · exact fun other inside => ⟨present other (.inr (consistent.held other inside).1), (consistent.held other inside).2⟩
    · exact ⟨staged.1, staged.2.1, fun none_ => absurd none_ some_⟩
  · have new : blockno ∉ s.header := fun member => absorbed (List.contains_iff_mem.mpr member)
    refine ⟨sound.onDisk, ⟨?_, ?_, ?_⟩, ?_, (staged_idle (by exact stage)).mpr ?_⟩
    · change (s.header ++ [blockno]).length ≤ logBlocks
      rw [List.length_append]
      exact room
    · exact List.nodup_append.mpr ⟨sound.logged.distinct, List.nodup_singleton _, fun a old b last same =>
        new (by rw [← List.mem_singleton.mp last, ← same]; exact old)⟩
    · intro other member
      rcases List.mem_append.mp member with old | last
      · exact sound.logged.homes other old
      · rw [List.mem_singleton.mp last]
        exact ⟨home, small⟩
    · rw [dirty_idle (by exact stage)]
      constructor
      · intro other held here notDirty
        have outside := fun inside => notDirty (List.mem_append_left _ inside)
        exact buffered other held here outside fun same =>
          notDirty (List.mem_append_right _ (List.mem_singleton.mpr same))
      · intro other member
        change _ ∧ 0 < Function.update s.pins blockno (s.pins blockno + 1) other
        by_cases same : other = blockno
        · rw [same, Function.update_self]
          exact ⟨present blockno (.inl rfl), Nat.succ_pos _⟩
        · have old := (List.mem_append.mp member).resolve_right fun last => same (List.mem_singleton.mp last)
          rw [Function.update_of_ne same]
          exact ⟨present other (.inr (consistent.held other old).1), (consistent.held other old).2⟩
    · exact ⟨staged.1, staged.2.1, fun none_ => absurd none_ some_⟩

theorem Sound.endOp (sound : s.Sound start) (some_ : s.outstanding ≠ 0) : s.endOp.Sound start := by
  have stage := sound.idle_of_outstanding some_
  have staged := (staged_idle stage).mp sound.staged
  have consistent := sound.consistent
  rw [dirty_idle stage] at consistent
  unfold Fs.endOp
  by_cases last : s.outstanding = 1
  · rw [if_pos last]
    by_cases nothing : s.header = []
    · rw [if_pos nothing]
      rw [nothing] at consistent
      exact ⟨sound.onDisk, sound.logged, consistent.of_same rfl rfl rfl, staged.1, ⟨rfl, rfl⟩, nothing⟩
    · rw [if_neg nothing]
      exact ⟨sound.onDisk, sound.logged, consistent.of_same rfl rfl rfl, staged.1, ⟨rfl, rfl⟩, Nat.zero_le _, nofun⟩
  · rw [if_neg last]
    refine ⟨sound.onDisk, sound.logged, ?_, (staged_idle (by exact stage)).mpr ?_⟩
    · rw [dirty_idle (by exact stage)]
      exact consistent.of_same rfl rfl rfl
    · exact ⟨staged.1, staged.2.1, fun none_ => by change s.outstanding - 1 = 0 at none_; omega⟩

end Calls

end Fs

variable {s s' : Fs} {g : Store}

def Allowed (start : Nat) (_ : Fs × Store) : Step → Prop
  | .logWrite _ blockno _ => Home start blockno ∧ blockno < 2 ^ 32
  | _ => True

def Store.atPower (start : Nat) (s : Fs) : Store := ⟨recovered start s.disk, recovered start s.disk, []⟩

def logRuns (start : Nat) : System (Fs × Store) Step := (logSystem start).recorded (Store.atPower start) Store.note

-- The log and the disk stand for the storage `g`.
structure Stores (start : Nat) (s : Fs) (g : Store) : Prop where
  sound : s.Sound start
  durable : ∀ blockno, Home start blockno → recovered start s.disk blockno = g.durable blockno
  current : s.recovering = false → ∀ blockno, Home start blockno → s.block blockno = g.current blockno
  restored : s.recovering = true → g.current = g.durable

theorem Stores.next {l : Step} (stores : Stores start s g) (allowed : Allowed start (s, g) l)
    (taken : s.next start l = some s') : Stores start s' (g.note s l s') := by
  have sound := stores.sound
  unfold Fs.next at taken
  by_cases panics : s.panics l = true
  · rw [if_pos panics] at taken
    contradiction
  rw [if_neg panics] at taken
  cases l with
  | beginOp =>
    simp only at taken
    split_ifs at taken with waits
    simp only [Bool.or_eq_true, not_or, Bool.not_eq_true] at waits
    obtain rfl := Option.some.inj taken
    exact ⟨sound.beginOp waits.1.1 waits.1.2, stores.durable, stores.current, stores.restored⟩
  | logWrite op blockno data =>
    obtain rfl := Option.some.inj taken
    unfold Fs.panics at panics
    rw [decide_eq_true_eq, not_or] at panics
    have some_ : s.outstanding ≠ 0 := by omega
    have stage := sound.idle_of_outstanding some_
    have disk : (s.logWrite blockno data).disk = s.disk := by
      unfold Fs.logWrite
      split_ifs <;> rfl
    have quiet : s.recovering = false := by
      unfold Fs.recovering
      rw [stage]
    have same : (s.logWrite blockno data).recovering = s.recovering := by
      unfold Fs.logWrite
      split_ifs <;> rfl
    have block : (s.logWrite blockno data).block = Function.update s.block blockno data := by
      rw [← s.block_modify]
      unfold Fs.logWrite
      split_ifs <;> rfl
    refine ⟨sound.logWrite allowed.1 allowed.2 (by omega) some_, ?_, ?_, ?_⟩
    · rw [disk]
      exact stores.durable
    · intro _ other home
      change _ = Function.update g.current blockno data other
      rw [block, Function.update_apply, Function.update_apply, stores.current quiet other home]
    · intro recovering
      rw [same, quiet] at recovering
      contradiction
  | read blockno =>
    obtain rfl := Option.some.inj taken
    refine ⟨sound.bread blockno, stores.durable, ?_, stores.restored⟩
    rw [s.block_bread]
    exact stores.current
  | recycle blockno =>
    simp only at taken
    split_ifs at taken with unpinned
    obtain rfl := Option.some.inj taken
    obtain ⟨sound', block⟩ := sound.recycle unpinned
    refine ⟨sound', stores.durable, ?_, stores.restored⟩
    rw [block]
    exact stores.current
  | endOp op =>
    simp only at taken
    split_ifs at taken with none_
    obtain rfl := Option.some.inj taken
    have stage := sound.idle_of_outstanding none_
    have quiet : s.recovering = false := by
      unfold Fs.recovering
      rw [stage]
    have disk : s.endOp.disk = s.disk := by
      unfold Fs.endOp
      split_ifs <;> rfl
    have block : s.endOp.block = s.block := by
      unfold Fs.endOp
      split_ifs <;> rfl
    have same : s.endOp.recovering = false := by
      unfold Fs.endOp
      split_ifs
      · rfl
      · rfl
      · exact quiet
    refine ⟨sound.endOp none_, ?_, ?_, ?_⟩
    · rw [disk]
      exact stores.durable
    · intro _
      rw [block]
      exact stores.current quiet
    · intro recovering
      rw [same] at recovering
      contradiction
  | advance =>
    have advanced := sound.advance taken
    have quiet (committed : s.stage = .writeHead) : s.recovering = false := by
      unfold Fs.recovering
      rw [committed]
    refine ⟨advanced.sound, ?_, ?_, ?_⟩
    · intro blockno home
      rw [advanced.durable blockno home]
      unfold Store.note
      by_cases committed : s.stage = .writeHead
      · simp only [if_pos committed]
        exact stores.current (quiet committed) blockno home
      · simp only [if_neg committed]
        exact stores.durable blockno home
    · intro quiet' blockno home
      have same : (g.note s .advance s').current = g.current := by
        unfold Store.note
        simp only
        split_ifs <;> rfl
      rw [same]
      cases before : s.recovering with
      | false => exact ((advanced.current before).2 blockno home).trans (stores.current before blockno home)
      | true =>
        rw [advanced.restored before quiet' blockno home, stores.restored before]
        exact stores.durable blockno home
    · intro recovering
      unfold Store.note
      by_cases committed : s.stage = .writeHead
      · simp only [if_pos committed]
      · simp only [if_neg committed]
        apply stores.restored
        by_contra quiet'
        rw [(advanced.current (Bool.not_eq_true _ ▸ quiet')).1] at recovering
        contradiction
  | crash =>
    obtain rfl := Option.some.inj taken
    exact ⟨sound.crash, stores.durable, nofun, fun _ => rfl⟩

theorem stores_of_reached (reached : (logRuns start).ReachableVia (Allowed start) (s, g)) : Stores start s g := by
  refine reached.invariant (I := fun t => Stores start t.1 t.2) ?_ ?_
  · rintro ⟨s, g⟩ ⟨⟨disk, headed, rfl⟩, started⟩
    have same : g = Store.atPower start (.powerOn disk) := started
    subst same
    exact ⟨⟨headed, .nil start, ⟨nofun, nofun⟩, rfl, rfl, rfl⟩, fun _ _ => rfl, nofun, fun _ => rfl⟩
  · rintro ⟨s, g⟩ l ⟨s', g'⟩ stores allowed ⟨taken, noted⟩
    have noted' : g' = g.note s l s' := noted
    rw [noted']
    exact stores.next allowed taken

theorem advance_step (taken : s.advance start = some s') : (logSystem start).step s .advance s' := taken

theorem Fs.Sound.recovers {n tail : Nat} (sound : s.Sound start) (stage : s.stage = .recover tail)
    (left : s.header.length = tail + n) : ∃ s', Path (logSystem start).step s (List.replicate (n + 2) .advance) s' ∧
      s'.Sound start ∧ s'.stage = .idle ∧
      ∀ blockno, Home start blockno → s'.block blockno = recovered start s.disk blockno ∧
        s'.disk blockno = recovered start s.disk blockno := by
  induction n generalizing s tail with
  | zero =>
    have done : s.header[tail]? = none := List.getElem?_eq_none_iff.mpr (by omega)
    have turned := sound.advance_recovered stage done
    have cleared := turned.sound.advance_clearHead rfl
    have first : s.advance start = some { s with header := [], stage := .clearHead } := by
      unfold Fs.advance
      rw [stage]
      simp only [done]
    have durable (blockno : Nat) (home : Home start blockno) :
        recovered start s.disk blockno = recovered start ({ s with header := [], stage := .clearHead } : Fs).disk blockno :=
      rfl
    refine ⟨_, .cons _ _ _ _ _ (advance_step first) (.single (advance_step rfl)), cleared.sound, rfl, ?_⟩
    intro blockno home
    have block := cleared.restored rfl rfl blockno home
    exact ⟨block, (cleared.sound.consistent.block_eq List.not_mem_nil).symm.trans block⟩
  | succ n ih =>
    have inside : tail < s.header.length := by omega
    have here := List.getElem?_eq_getElem inside
    have installed := sound.advance_recover stage here
    have first : s.advance start = some
        { s.installBlock start true tail s.header[tail] with stage := .recover (tail + 1) } := by
      unfold Fs.advance
      rw [stage]
      simp only [here]
    have length : s.header.length = tail + 1 + n := by omega
    obtain ⟨s', path, sound', idle, home'⟩ := ih installed.sound rfl length
    refine ⟨s', .cons _ _ _ _ _ (advance_step first) path, sound', idle, fun blockno home => ?_⟩
    have durable := installed.durable blockno home
    rw [if_neg (by rw [stage]; nofun)] at durable
    rw [← durable]
    exact home' blockno home

-- A crash at any moment, also while a crash is being recovered from, loses the writes since the last commit as a
-- whole and nothing else: the recovery comes to its end with the storage that was durable. Up to a crash the
-- system calls see their own writes, and all of them are durable when none is under way.
theorem crash_recovery_atomic (reached : (logRuns start).ReachableVia (Allowed start) (s, g)) :
    (∃ s' n, Path (logSystem start).step s.crash (List.replicate n .advance) s' ∧ s'.stage = .idle ∧
      ∀ blockno, Home start blockno → s'.block blockno = g.durable blockno ∧ s'.disk blockno = g.durable blockno) ∧
    (s.recovering = false → ∀ blockno, Home start blockno → s.block blockno = g.current blockno) ∧
    (s.stage = .idle → s.outstanding = 0 → ∀ blockno, Home start blockno → g.durable blockno = g.current blockno) ∧
    (s.stage = .writeHead → s.outstanding = 0) := by
  have stores := stores_of_reached reached
  refine ⟨?_, stores.current, ?_, ?_⟩
  · have crashed := stores.sound.crash
    have booted := crashed.advance_boot rfl
    obtain ⟨s', path, _, idle, home'⟩ := booted.sound.recovers rfl (Nat.zero_add _).symm
    refine ⟨s', (readHead (s.crash.block start)).length + 2 + 1, ?_, idle, fun blockno home => ?_⟩
    · exact .cons _ _ _ _ _ (advance_step rfl) path
    · rw [← stores.durable blockno home]
      exact home' blockno home
  · intro idle none_ blockno home
    have staged := (Fs.staged_idle idle).mp stores.sound.staged
    have quiet : s.recovering = false := by
      unfold Fs.recovering
      rw [idle]
    have clean : blockno ∉ s.dirty := by
      rw [Fs.dirty_idle idle, staged.2.2 none_]
      exact List.not_mem_nil
    rw [← stores.durable blockno home, ← stores.current quiet blockno home, recovered_empty staged.1]
    exact (stores.sound.consistent.block_eq clean).symm
  · intro committing
    have staged := stores.sound.staged
    unfold Fs.Staged at staged
    rw [committing] at staged
    exact staged.2.1.1

def allowedCheck (start : Nat) (_ : Fs × Store) : Step → Bool
  | .logWrite _ blockno _ => decide (Home start blockno ∧ blockno < 2 ^ 32)
  | _ => true

theorem allowedCheck_sound (start : Nat) (s : Fs × Store) (l : Step) (checked : allowedCheck start s l = true) :
    Allowed start s l := by
  cases l with
  | logWrite op blockno data =>
    have holds : Home start blockno ∧ blockno < 2 ^ 32 := by
      unfold allowedCheck at checked
      simpa using checked
    exact holds
  | beginOp => trivial
  | read blockno => trivial
  | recycle blockno => trivial
  | endOp op => trivial
  | advance => trivial
  | crash => trivial

-- Block 50 is written and committed, and written once more without a commit.
def committedThenLost : List Step :=
  [.advance, .advance, .advance, .beginOp, .logWrite 0 50 fun _ => 7, .endOp 0, .advance, .advance, .advance,
    .crash, .advance, .advance, .advance, .advance, .beginOp, .logWrite 0 50 fun _ => 9]

theorem crash_recovery_atomic_committed : ∃ (s s' : Fs) (g : Store) (n : Nat),
    (logRuns 2).ReachableVia (Allowed 2) (s, g) ∧ s.block 50 0 = 9 ∧
    Path (logSystem 2).step s.crash (List.replicate n .advance) s' ∧ s'.stage = .idle ∧ s'.disk 50 0 = 7 := by
  let blank : Nat → Block := fun _ _ => 0
  obtain ⟨t, executed, shown⟩ : ∃ t, System.execute (fun s l => (Fs.next 2 s.1 l).map fun t => (t, Store.note s.2 s.1 l t))
      (allowedCheck 2) (.powerOn blank, Store.atPower 2 (.powerOn blank)) committedThenLost = some t ∧
        decide (t.1.block 50 0 = 9 ∧ t.2.durable 50 0 = 7) = true :=
    Option.any_eq_true .. |>.mp (by decide +kernel)
  obtain ⟨seen, kept⟩ := of_decide_eq_true shown
  have power : Fs.PowersOn 2 (.powerOn blank) := ⟨blank, .nil 2, rfl⟩
  have reached := System.execute_recorded (allowedCheck_sound 2) power executed
  obtain ⟨⟨s', n, path, idle, durable⟩, _⟩ := crash_recovery_atomic reached
  refine ⟨t.1, s', t.2, n, reached, seen, path, idle, ?_⟩
  rw [(durable 50 (.inr (by decide))).2]
  exact kept

end SystemsSuite.Files
