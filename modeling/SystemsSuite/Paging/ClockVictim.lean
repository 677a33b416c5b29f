import SystemsSuite.Paging.FaultProgress

set_option autoImplicit false

namespace SystemsSuite.Paging

open Lib Prog

variable {b : Build} {lent : Nat → Prop} {allowed : Act → Prop} {m₀ m m' : Machine} {t : Target}

-- The indices that `left` steps of the scan look at from `idx` on.
def clockOrder (idx left : Nat) : List Nat := (List.range left).map fun j => (idx + j) % pgmetaSize

def unreferenced (e : PageMeta) : Bool := evictable e && !e.referenced

theorem clockOrder_succ {idx : Nat} (left : Nat) (inside : idx < pgmetaSize) :
    clockOrder idx (left + 1) = idx :: clockOrder ((idx + 1) % pgmetaSize) left := by
  unfold clockOrder
  rw [List.range_succ_eq_map, List.map_cons, List.map_map, Nat.add_zero, Nat.mod_eq_of_lt inside]
  congr 1
  apply List.map_congr_left
  intro j _
  simp only [Function.comp_apply, Nat.succ_eq_add_one, Nat.mod_add_mod]
  congr 1
  omega

theorem not_mem_clockOrder {idx left : Nat} (few : left < pgmetaSize) :
    idx ∉ clockOrder ((idx + 1) % pgmetaSize) left := by
  intro member
  obtain ⟨j, bound, same⟩ := List.mem_map.mp member
  have below := List.mem_range.mp bound
  rw [Nat.mod_add_mod] at same
  unfold pgmetaSize at *
  omega

theorem metaAt_set_ne (metas : List PageMeta) {i j : Nat} (e : PageMeta) (other : i ≠ j) :
    metaAt (metas.set i e) j = metaAt metas j := by
  unfold metaAt
  rw [List.getD_eq_getElem?_getD, List.getD_eq_getElem?_getD, List.getElem?_set_ne other]

theorem find?_congr {α : Type} {p q : α → Bool} {l : List α} (same : ∀ a ∈ l, p a = q a) :
    l.find? p = l.find? q := by
  induction l with
  | nil => rfl
  | cons a rest ih =>
    rw [List.find?_cons, List.find?_cons, same a List.mem_cons_self,
      ih fun a member => same a (List.mem_cons_of_mem _ member)]

theorem clockScan_first (metas : List PageMeta) (left : Nat) {idx : Nat} (inside : idx < pgmetaSize)
    (few : left ≤ pgmetaSize) :
    (clockScan left metas idx).1 = (clockOrder idx left).find? fun i => unreferenced (metaAt metas i) := by
  induction left generalizing metas idx with
  | zero => rfl
  | succ left ih =>
    rw [clockOrder_succ left inside, List.find?_cons]
    simp only [clockScan]
    cases found : unreferenced (metaAt metas idx) with
    | true =>
      have picked : (evictable (metaAt metas idx) && !(metaAt metas idx).referenced) = true := found
      rw [if_pos picked]
    | false =>
      have passed : ¬ (evictable (metaAt metas idx) && !(metaAt metas idx).referenced) = true := by
        change ¬ unreferenced (metaAt metas idx) = true
        rw [found]
        exact Bool.false_ne_true
      rw [if_neg passed, ih _ (Nat.mod_lt _ (by decide)) (by omega)]
      apply find?_congr
      intro i member
      have other : idx ≠ i := by
        rintro rfl
        exact not_mem_clockOrder (by omega) member
      split_ifs
      · rw [metaAt_set_ne _ _ other]
      · rfl

-- The page `va` of entry `best` has gone from its table, and no other page.
structure Taken (m : Machine) (best va : Nat) (m' : Machine) : Prop where
  below : va < maxva
  mapped : (m.proc.pagetable.leaf va).isSome = true
  leaves : ∀ va' < maxva, m'.proc.pagetable.leaf va' = setLeaf m.proc.pagetable.leaf va none va'
  hand : m'.proc.clockHand = (best + 1) % pgmetaSize

theorem modify_modify {α : Type} (l : List α) (i : Nat) (f g : α → α) :
    (l.modify i f).modify i g = l.modify i (g ∘ f) := by
  apply List.ext_getElem?
  intro j
  rw [List.getElem?_modify, List.getElem?_modify, List.getElem?_modify]
  cases l[j]? with
  | none => rfl
  | some a => by_cases hit : i = j <;> simp [hit]

theorem Evicted.taken (evicted : Evicted b m true m') : ∃ best, (m.victim b).1 = some best ∧
    Taken m best (metaAt (m.victim b).2 best).va m' ∧ ∃ f : PageMeta → PageMeta,
      m'.proc.pgmeta = (m.victim b).2.modify best f ∧ ∀ e, (f e).va = e.va ∧ (f e).resident = false := by
  have dropped (m₁ : Machine) {best va pa : Nat} {leaf : Leaf} (table : m₁.proc.pagetable = m.proc.pagetable)
      (below : va < maxva) (here : m.proc.pagetable.leaf va = some leaf) :
      Taken m best va (m₁.dropped best va pa) := by
    have reached : (m.proc.pagetable.walk va).isSome = true := by
      rw [PageTable.walk, Radix.find_of_value here]
      rfl
    refine ⟨below, ?_, fun va' below' => ?_, rfl⟩
    · rw [here]
      rfl
    · change (m₁.proc.pagetable.store va .empty).leaf va' = _
      rw [table, PageTable.leaf_store _ .empty below below' reached]
      rfl
  cases evicted with
  | discarded best leaf picked below here =>
    exact ⟨best, picked, dropped (m.chosen b) rfl below here, _, rfl, fun _ => ⟨rfl, rfl⟩⟩
  | saved best leaf m₁ picked below here saved =>
    refine ⟨best, picked, dropped m₁ saved.table below here, ?_⟩
    cases saved
    exact ⟨_, modify_modify _ _ _ _, fun _ => ⟨rfl, rfl⟩⟩

theorem Evicted.stays (evicted : Evicted b m false m') : m'.proc.pagetable = m.proc.pagetable ∧
    (m'.proc.pgmeta = (m.victim b).2 ∨ ∃ best, (m.victim b).1 = some best ∧
      m.proc.pagetable.leaf (metaAt (m.victim b).2 best).va = none) := by
  cases evicted with
  | noVictim => exact ⟨rfl, .inl rfl⟩
  | stale best picked absent => exact ⟨rfl, .inr ⟨best, picked, absent⟩⟩
  | unsaved _ _ _ _ _ failed => cases failed <;> exact ⟨rfl, .inl rfl⟩

def KeysApart (metas : List PageMeta) : Prop :=
  ∀ i j va : Nat, va ≠ 0 → (keys metas)[i]? = some va → (keys metas)[j]? = some va → i = j

-- The table of entries is whole, and each page it says is resident is mapped.
structure Proc.Intact (p : Proc) : Prop where
  length : p.pgmeta.length = pgmetaSize
  apart : KeysApart p.pgmeta
  present : ∀ e ∈ p.pgmeta, evictable e = true → (p.pagetable.leaf e.va).isSome = true

theorem Proc.Intact.of_keys {p p' : Proc} (intact : p.Intact) (same : keys p'.pgmeta = keys p.pgmeta)
    (present : ∀ e ∈ p'.pgmeta, evictable e = true → (p'.pagetable.leaf e.va).isSome = true) : p'.Intact := by
  refine ⟨?_, ?_, present⟩
  · have length := congrArg List.length same
    simp only [keys, List.length_map] at length
    rw [length]
    exact intact.length
  · unfold KeysApart
    rw [same]
    exact intact.apart

theorem Proc.Intact.cleared {p : Proc} (metas : p.pgmeta = List.replicate pgmetaSize .cleared) : p.Intact := by
  refine ⟨by rw [metas, List.length_replicate], fun i j va other here => ?_, fun e member evicts => ?_⟩
  · unfold keys at here
    rw [metas, List.map_replicate, List.getElem?_replicate] at here
    split_ifs at here
    exact absurd (Option.some.inj here).symm other
  · rw [metas] at member
    rw [List.eq_of_mem_replicate member] at evicts
    contradiction

theorem keys_getElem? {metas : List PageMeta} {i : Nat} {e : PageMeta} (here : metas[i]? = some e) :
    (keys metas)[i]? = some e.va := by
  unfold keys
  rw [List.getElem?_map, here]
  rfl

theorem keys_metaAt {metas : List PageMeta} {i : Nat} (other : (metaAt metas i).va ≠ 0) :
    (keys metas)[i]? = some (metaAt metas i).va := by
  unfold metaAt at *
  rw [List.getD_eq_getElem?_getD] at *
  cases here : metas[i]? with
  | none => simp [here, PageMeta.cleared] at other
  | some e => exact keys_getElem? here

theorem evictable_of_entry {e e' : PageMeta} (same : e.entry = e'.entry) : evictable e = evictable e' := by
  have va : e.va = e'.va := congrArg Entry.va same
  have resident : e.resident = e'.resident := congrArg Entry.resident same
  unfold evictable
  rw [va, resident]

theorem getElem?_victim {i : Nat} {e : PageMeta} (here : (m.victim b).2[i]? = some e) :
    ∃ old, m.proc.pgmeta[i]? = some old ∧ old.entry = e.entry := by
  have entry := congrArg (fun l : List Entry => l[i]?) (entries_victim (b := b) m)
  simp only [List.getElem?_map, here, Option.map_some] at entry
  exact Option.map_eq_some_iff.mp entry.symm

theorem Evicted.intact {ok : Bool} (evicted : Evicted b m ok m') (safe : m.Safe b) (intact : m.proc.Intact) :
    m'.proc.Intact := by
  have victim := keys_selectVictim b.policy m.proc.pgmeta m.proc.pageSeqCtr m.proc.clockHand
  have mapped {e : PageMeta} (member : e ∈ (m.victim b).2) (evicts : evictable e = true) :
      (m.proc.pagetable.leaf e.va).isSome = true := by
    obtain ⟨old, before, same⟩ := mem_victim member
    rw [← show old.va = e.va from congrArg Entry.va same]
    exact intact.present old before (by rw [evictable_of_entry same]; exact evicts)
  cases ok with
  | false =>
    obtain ⟨table, same | ⟨best, picked, absent⟩⟩ := evicted.stays
    · refine intact.of_keys (by rw [same]; exact victim) fun e member evicts => ?_
      rw [table]
      rw [same] at member
      exact mapped member evicts
    · obtain ⟨e, member, key, resident, other⟩ := Machine.victim_entry picked
      have present := intact.present e member (by simp [evictable, resident, other])
      rw [key, absent] at present
      contradiction
  | true =>
    obtain ⟨best, picked, taken, f, metas, keeps⟩ := evicted.taken
    refine intact.of_keys ?_ fun e member evicts => ?_
    · rw [metas, keys_modify _ _ _ fun e => (keeps e).1]
      exact victim
    · rw [metas] at member
      obtain ⟨i, here⟩ := List.mem_iff_getElem?.mp member
      have apart : best ≠ i := by
        rintro rfl
        rw [List.getElem?_modify] at here
        obtain ⟨old, _, same⟩ := Option.map_eq_some_iff.mp here
        simp only [if_true] at same
        rw [← same] at evicts
        simp [evictable, (keeps old).2] at evicts
      have before : (m.victim b).2[i]? = some e := by
        rwa [List.getElem?_modify_ne _ _ apart] at here
      have member' := List.mem_iff_getElem?.mpr ⟨i, before⟩
      obtain ⟨old, there, same⟩ := getElem?_victim before
      have va : old.va = e.va := congrArg Entry.va same
      have place := safe.proc.entries old (List.mem_iff_getElem?.mpr ⟨i, there⟩)
      obtain ⟨entry, memberBest, key, _, other⟩ := Machine.victim_entry picked
      have placeBest := safe.proc.entries entry memberBest
      have distinct : e.va ≠ (metaAt (m.victim b).2 best).va := by
        intro clash
        have keyBest : (Paging.keys (m.victim b).2)[best]? = some (metaAt (m.victim b).2 best).va :=
          keys_metaAt (by rw [← key]; exact other)
        rw [← clash] at keyBest
        have nonzero : e.va ≠ 0 := by
          rw [clash, ← key]
          exact other
        have here := keys_getElem? before
        unfold Machine.victim at here keyBest
        rw [victim] at here keyBest
        exact apart (intact.apart _ _ _ nonzero keyBest here)
      rw [va] at place
      rw [key] at placeBest
      rw [taken.leaves e.va place.1]
      unfold setLeaf
      rw [if_neg (by omega)]
      exact mapped member' evicts

def Act.Tame : Act → Prop
  | .unmap t => t = .spare
  | .arrive t _ _ => t = .own
  | .exec => False
  | _ => True

theorem KeysApart.alloc {metas : List PageMeta} (apart : KeysApart metas) (vaPg : Nat) :
    KeysApart (pgmetaAlloc metas vaPg).1 := by
  unfold pgmetaAlloc
  cases found : pgmetaFind metas vaPg with
  | some i => exact apart
  | none =>
    cases free : pgmetaFind metas 0 with
    | none => exact apart
    | some k =>
      have fresh {i : Nat} : (keys metas)[i]? ≠ some vaPg := by
        intro here
        unfold keys at here
        rw [List.getElem?_map] at here
        obtain ⟨e, there, key⟩ := Option.map_eq_some_iff.mp here
        have absent := List.findIdx?_eq_none_iff.mp found e (List.mem_iff_getElem?.mpr ⟨i, there⟩)
        simp [key] at absent
      have cases_ {i va : Nat} (here : (keys (metas.set k { PageMeta.cleared with va := vaPg }))[i]? = some va) :
          i = k ∧ va = vaPg ∨ i ≠ k ∧ (keys metas)[i]? = some va := by
        unfold keys at *
        rw [List.map_set, List.getElem?_set] at here
        split_ifs at here with hit inside
        · exact .inl ⟨hit.symm, (Option.some.inj here).symm⟩
        · exact .inr ⟨fun same => hit same.symm, here⟩
      intro i j va other here there
      rcases cases_ here with ⟨rfl, rfl⟩ | ⟨_, before⟩
      · rcases cases_ there with ⟨rfl, _⟩ | ⟨_, before⟩
        · rfl
        · exact absurd before fresh
      · rcases cases_ there with ⟨_, rfl⟩ | ⟨_, before'⟩
        · exact absurd before fresh
        · exact apart i j va other before before'

theorem Move.intact {a : Act} (move : Move b lent m a m') (tame : a.Tame) (safe : m.Safe b)
    (intact : m.proc.Intact) : m'.proc.Intact := by
  have remapped (pager : m'.proc.pager = m.proc.pager) (keeps : m.KeepsPages m' .own) : m'.proc.Intact := by
    have metas : m'.proc.pgmeta = m.proc.pgmeta := congrArg Pager.pgmeta pager
    refine intact.of_keys (by rw [metas]) fun e member evicts => ?_
    rw [metas] at member
    exact keeps e.va (safe.proc.entries e member).1 (intact.present e member evicts)
  cases move with
  | memory _ step keeps => exact remapped step.pager (keeps .own)
  | unmap _ t step keeps => exact remapped step.pager (keeps .own (by rw [show t = .spare from tame]; simp))
  | note va =>
    refine ⟨?_, intact.apart.alloc va, fun e member evicts => ?_⟩
    · have length : (pgmetaAlloc m.proc.pgmeta va).1.length = m.proc.pgmeta.length := by
        unfold pgmetaAlloc
        split
        · rfl
        · split <;> simp
      exact length.trans intact.length
    · rcases pgmetaAlloc_mem member with before | rfl
      · exact intact.present e before evicts
      · simp [evictable, PageMeta.cleared] at evicts
  | touch i =>
    refine intact.of_keys (keys_modify _ _ _ fun _ => rfl) fun e member evicts => ?_
    rcases mem_modifyMeta member with before | ⟨old, _, before, rfl⟩
    · exact intact.present e before evicts
    · exact intact.present old before evicts
  | evict _ _ evicted => exact evicted.intact safe intact
  | arrive _ t va i arrived =>
    obtain rfl : t = .own := tame
    obtain ⟨f, entered, metas⟩ := arrived.entries
    refine intact.of_keys (by rw [metas]; exact keys_modify _ _ _ fun e => (entered e).va) fun e member evicts => ?_
    rw [show m'.proc.pagetable = m.proc.pagetable from arrived.tables .own]
    rw [metas] at member
    rcases mem_modifyMeta member with before | ⟨old, found, before, rfl⟩
    · exact intact.present e before evicts
    · have key := keys_getElem? found
      rw [arrived.key] at key
      obtain ⟨leaf, here, _⟩ := arrived.mapped
      rw [(entered old).va, ← Option.some.inj key]
      exact Option.isSome_iff_exists.mpr ⟨leaf, here⟩
  | untracked => exact ⟨intact.length, intact.apart, intact.present⟩
  | exec => exact tame.elim

theorem Course.intact (so : Course b (fun f => b.isFrame f = true) allowed m₀ m) (tame : ∀ a, allowed a → a.Tame)
    (safe : m₀.Safe b) (intact : m₀.proc.Intact) : m.proc.Intact := by
  refine (so.invariant (I := fun m => m.Safe b ∧ m.proc.Intact) ⟨safe, intact⟩ ?_).2
  exact fun m a m' permitted holds move => ⟨move.safe holds.1, move.intact (tame a permitted) holds.1 holds.2⟩

-- Calls other than those that grow or shrink a table in place, and a `kexec` only if it succeeds.
def Call.pages (b : Build) (m : Machine) : Call → Bool
  | .uvmalloc _ _ _ | .uvmdealloc _ _ => false
  | .kexec file argv created => (Paging.kexec b file argv created m).toOption.any fun r => r.1.isSome
  | .setSize _ | .setBrk _ | .setSp _ | .vmfault _ _ | .tryEvictOne => true

def Kernel.pagesOnly (b : Build) (k : Kernel) : Label → Bool
  | .run i writeBlocks (.call call) => k.procs[i]?.all fun p => call.pages b (k.machine p writeBlocks)
  | _ => true

theorem Act.Serving.tame {a : Act} (serving : a.Serving .own) : a.Tame := by
  cases a with
  | unmap => exact serving.elim
  | arrive => exact serving
  | exec => exact serving.elim
  | _ => trivial

theorem Act.Forking.tame {a : Act} (forking : a.Forking) : a.Tame := by
  rcases forking with plain | rfl
  · exact Act.Serving.tame plain.serving
  · rfl

theorem Proc.Intact.transfer {p p' : Proc} (intact : p.Intact) (metas : p'.pgmeta = p.pgmeta)
    (table : p'.pagetable = p.pagetable) : p'.Intact := by
  obtain ⟨length, apart, present⟩ := intact
  refine ⟨?_, ?_, ?_⟩
  · rwa [metas]
  · rwa [metas]
  · rwa [metas, table]

theorem Call.run_intact (call : Call) (pages : call.pages b m = true) (safe : m.Safe b)
    (intact : m.proc.Intact) : wp (call.run b) (fun _ m' => m'.proc.Intact) (fun _ => True) m := by
  cases call with
  | uvmalloc => contradiction
  | uvmdealloc => contradiction
  | setSize => exact intact.transfer rfl rfl
  | setBrk => exact intact.transfer rfl rfl
  | setSp => exact intact.transfer rfl rfl
  | vmfault va acc =>
    apply wp_seq (vmfault_course safe.start (by simp) va acc)
    intro r m₁ so
    have after := so.intact (fun _ => Act.Serving.tame) safe intact
    cases r with
    | some pa => exact after
    | none => exact after.transfer rfl rfl
  | tryEvictOne =>
    apply wp_seq (tryEvictOne_course (fun _ => id) safe.start)
    exact fun _ m₁ so => so.intact (fun _ plain => Act.Serving.tame plain.serving) safe intact
  | kexec file argv created =>
    apply wp_seq_and (kexec_course file argv created safe.start) wp_self
    intro argc m₁ replaced ran
    simp only [Call.pages, ran, Except.toOption, Option.any_some] at pages
    obtain ⟨n, rfl⟩ := Option.isSome_iff_exists.mp pages
    obtain ⟨_, _, renewed⟩ := replaced
    exact .cleared renewed.pgmeta

theorem Bred.intact {child : Proc} (bred : Bred b (fun f => b.isFrame f = true) m child) (safe : m.Safe b) :
    child.Intact := by
  obtain ⟨m₁, m₂, c, parent, course, table, metas⟩ := bred.path
  have started := parent.safe safe
  have blank : (Copied.initial.machine m₁).Safe b :=
    ⟨started.free, cleared_safe rfl started.spare, PageTable.empty_safe 0⟩
  have born := course.intact (fun _ => Act.Serving.tame) blank (.cleared rfl)
  exact born.transfer metas table

theorem Kernel.intact_next {k k' : Kernel} {l : Label} (safe : k.Safe b) (intact : ∀ p ∈ k.procs, p.Intact)
    (pages : k.pagesOnly b l = true) (ran : k.next b l = some k') : ∀ p ∈ k'.procs, p.Intact := by
  refine Kernel.procs_next intact (fun _ _ => .cleared rfl) ?_ ?_ ran
  · intro i writeBlocks call p same here
    have member := List.mem_iff_getElem?.mpr ⟨i, here⟩
    rw [same] at pages
    simp only [Kernel.pagesOnly, here, Option.all_some] at pages
    exact call.run_intact pages (safe.machine member writeBlocks) (intact p member)
  · intro created writeBlocks p member
    have started := safe.machine member writeBlocks
    apply wp_mono (kfork_course created started.start) _ fun _ _ => trivial
    rintro r m' ⟨so, bred⟩
    exact ⟨so.intact (fun _ => Act.Forking.tame) started (intact p member),
      fun child born => (bred child born).intact started⟩

theorem Kernel.pages_intact {k : Kernel}
    (reached : (Kernel.system b).ReachableVia (fun k l => k.pagesOnly b l = true) k) :
    k.Safe b ∧ ∀ p ∈ k.procs, p.Intact := by
  apply reached.invariant
  · rintro k ⟨empty, _, frames, _⟩
    exact ⟨⟨frames, by simp [empty]⟩, by simp [empty]⟩
  · exact fun k l k' both pages taken => ⟨both.1.next taken, Kernel.intact_next both.1 both.2 pages taken⟩

-- The process with another hand and other referenced bits.
def Proc.withClock (p : Proc) (hand : Nat) (referenced : Nat → Bool) : Proc := { p with
  clockHand := hand
  pgmeta := p.pgmeta.mapIdx fun i e => { e with referenced := referenced i } }

theorem Proc.withClock_getElem? {p : Proc} {hand : Nat} {referenced : Nat → Bool} {i : Nat} {e : PageMeta}
    (here : (p.withClock hand referenced).pgmeta[i]? = some e) :
    ∃ old, p.pgmeta[i]? = some old ∧ { old with referenced := referenced i } = e := by
  change (p.pgmeta.mapIdx _)[i]? = some e at here
  rw [List.getElem?_mapIdx] at here
  exact Option.map_eq_some_iff.mp here

theorem Proc.withClock_mem {p : Proc} {hand : Nat} {referenced : Nat → Bool} {e : PageMeta}
    (member : e ∈ (p.withClock hand referenced).pgmeta) : ∃ old ∈ p.pgmeta, old.entry = e.entry := by
  obtain ⟨i, here⟩ := List.mem_iff_getElem?.mp member
  obtain ⟨old, before, rfl⟩ := Proc.withClock_getElem? here
  exact ⟨old, List.mem_iff_getElem?.mpr ⟨i, before⟩, rfl⟩

theorem Proc.withClock_keys (p : Proc) (hand : Nat) (referenced : Nat → Bool) :
    keys (p.withClock hand referenced).pgmeta = keys p.pgmeta := by
  apply List.ext_getElem?
  intro i
  change ((p.pgmeta.mapIdx _).map PageMeta.va)[i]? = (p.pgmeta.map PageMeta.va)[i]?
  rw [List.getElem?_map, List.getElem?_mapIdx, List.getElem?_map, Option.map_map]
  rfl

theorem Proc.Safe.withClock {p : Proc} (safe : p.Safe b) (hand : Nat) (referenced : Nat → Bool) :
    (p.withClock hand referenced).Safe b := by
  have origin {e : PageMeta} (member : e ∈ (p.withClock hand referenced).pgmeta) :
      ∃ old ∈ p.pgmeta, old.va = e.va ∧ old.inSwap = e.inSwap ∧ old.resident = e.resident := by
    obtain ⟨old, before, same⟩ := Proc.withClock_mem member
    exact ⟨old, before, congrArg Entry.va same, congrArg Entry.inSwap same, congrArg Entry.resident same⟩
  refine ⟨safe.leaves, fun e member => ?_, fun e member inSwap => ?_, fun e member resident leaf here => ?_⟩
  · obtain ⟨old, before, va, _⟩ := origin member
    rw [← va]
    exact safe.entries old before
  · obtain ⟨old, before, _, same, _⟩ := origin member
    exact safe.saved old before (same.trans inSwap)
  · obtain ⟨old, before, va, _, same⟩ := origin member
    rw [← va] at here
    exact safe.resident old before (same.trans resident) leaf here

theorem Proc.Intact.withClock {p : Proc} (intact : p.Intact) (hand : Nat) (referenced : Nat → Bool) :
    (p.withClock hand referenced).Intact := by
  refine intact.of_keys (p.withClock_keys hand referenced) fun e member evicts => ?_
  obtain ⟨old, before, same⟩ := Proc.withClock_mem member
  have va : old.va = e.va := congrArg Entry.va same
  rw [← va]
  exact intact.present old before (by rw [evictable_of_entry same]; exact evicts)

def Machine.canSwap (m : Machine) : Bool :=
  m.proc.swapip.any fun ip => (swapAllocSlot m.proc.swapBitmap).any fun taken =>
    (writei ip (fun _ => 0) (taken.1 * 4096) 4096 (m.writeBlocks.headD 5)).1 == some 4096

-- The first unreferenced page in one lap from the hand, or in the next lap, when none is referenced.
def Machine.inTurn (m : Machine) : Option Nat :=
  let lap := clockOrder (m.proc.clockHand % pgmetaSize) pgmetaSize
  (lap.find? fun i => unreferenced (metaAt m.proc.pgmeta i)).or
    (lap.find? fun i => evictable (metaAt m.proc.pgmeta i))

-- The eviction succeeds, and takes the page whose turn it is.
def Machine.EvictsInTurn (b : Build) (m : Machine) : Prop :=
  ∃ (best : Nat) (m' : Machine), m.inTurn = some best ∧ tryEvictOne b m = .ok (true, m') ∧
    Taken m best (metaAt m.proc.pgmeta best).va m'

theorem writeLoop_count (src src' : Nat → UInt8) (n blocks : Nat) (ip ip' : Inode) (off tot : Nat) :
    (writeLoop src n blocks ip off tot).1 = (writeLoop src' n blocks ip' off tot).1 := by
  induction blocks generalizing ip ip' off tot with
  | zero => rfl
  | succ blocks ih =>
    rw [writeLoop, writeLoop]
    split_ifs
    · exact ih _ _ _ _
    · rfl

theorem writei_count (ip : Inode) (src src' : Nat → UInt8) (off n blocks : Nat) :
    (writei ip src off n blocks).1 = (writei ip src' off n blocks).1 := by
  unfold writei
  split_ifs
  · rfl
  · rfl
  · exact congrArg some (writeLoop_count src src' n blocks ip ip off 0)

theorem SwapFailed.not_canSwap {pa : Nat} (failed : SwapFailed m pa m') : m.canSwap = false := by
  unfold Machine.canSwap
  cases failed with
  | noFile file => rw [file, Option.any_none]
  | full ip file full => rw [file, Option.any_some, full, Option.any_none]
  | short ip ip' slot bitmap r file found written short =>
    have count := writei_count ip (m.mem pa) (fun _ => 0) (slot * 4096) 4096 (m.writeBlocks.headD 5)
    rw [written] at count
    rw [file, Option.any_some, found, Option.any_some, ← count]
    simpa using short

theorem metaAt_va {metas metas' : List PageMeta} (same : keys metas = keys metas') (i : Nat) :
    (metaAt metas i).va = (metaAt metas' i).va := by
  have key (l : List PageMeta) : (metaAt l i).va = (keys l).getD i 0 := by
    unfold metaAt keys
    rw [List.getD_eq_getElem?_getD, List.getD_eq_getElem?_getD, List.getElem?_map]
    cases l[i]? <;> rfl
  rw [key, key, same]

theorem tryEvictOne_evicted (safe : m.Safe b) :
    ∃ ok m', tryEvictOne b m = .ok (ok, m') ∧ Evicted b m ok m' := by
  apply wp_total
  apply wp_mono tryEvictOne_effect
  · exact fun _ _ both => both.1
  · exact fun e panics => safe.evictPanics e panics

theorem Evicted.of_victim {ok : Bool} {best : Nat} (evicted : Evicted b m ok m') (intact : m.proc.Intact)
    (canSwap : m.canSwap = true) (picked : (m.victim b).1 = some best) : ok = true := by
  cases evicted with
  | noVictim none_ => simp [none_] at picked
  | stale best' picked' absent =>
    obtain ⟨e, member, key, resident, other⟩ := Machine.victim_entry picked'
    have present := intact.present e member (by simp [evictable, resident, other])
    rw [key, absent] at present
    contradiction
  | unsaved _ _ _ _ _ failed =>
    have cannot : m.canSwap = false := failed.not_canSwap
    rw [cannot] at canSwap
    contradiction
  | discarded => rfl
  | saved => rfl

theorem Evicted.victim (evicted : Evicted b m true m') : ∃ best, (m.victim b).1 = some best := by
  obtain ⟨best, picked, _⟩ := evicted.taken
  exact ⟨best, picked⟩

theorem Machine.victim_clock (clock : b.policy = .clock) : (m.victim b).1 =
    (clockOrder (m.proc.clockHand % pgmetaSize) pgmetaSize).find? fun i => unreferenced (metaAt m.proc.pgmeta i) := by
  unfold Machine.victim
  rw [clock]
  exact clockScan_first m.proc.pgmeta pgmetaSize (Nat.mod_lt _ (by decide)) le_rfl

theorem mem_lap {start i : Nat} (inside : i < pgmetaSize) : i ∈ clockOrder (start % pgmetaSize) pgmetaSize := by
  refine List.mem_map.mpr ⟨(i + pgmetaSize - start % pgmetaSize) % pgmetaSize, ?_, ?_⟩
  · exact List.mem_range.mpr (Nat.mod_lt _ (by decide))
  · rw [Nat.add_mod_mod]
    have below : start % pgmetaSize < pgmetaSize := Nat.mod_lt _ (by decide)
    rw [show start % pgmetaSize + (i + pgmetaSize - start % pgmetaSize) = i + pgmetaSize by omega,
      Nat.add_mod_right, Nat.mod_eq_of_lt inside]

theorem Machine.evictsInTurn_iff (clock : b.policy = .clock) (safe : m.Safe b) (intact : m.proc.Intact)
    (canSwap : m.canSwap = true) :
    m.EvictsInTurn b ↔ ∃ e ∈ m.proc.pgmeta, unreferenced e = true := by
  obtain ⟨ok, m', ran, evicted⟩ := tryEvictOne_evicted safe
  constructor
  · rintro ⟨best, m'', _, ran', _⟩
    obtain ⟨rfl, rfl⟩ : ok = true ∧ m' = m'' := by simpa [ran] using ran'
    obtain ⟨best, picked⟩ := evicted.victim
    rw [Machine.victim_clock clock] at picked
    have free : unreferenced (metaAt m.proc.pgmeta best) = true := by
      simpa using List.find?_some picked
    refine ⟨_, mem_metaAt ?_, free⟩
    intro cleared
    rw [cleared] at free
    simp [unreferenced, evictable, PageMeta.cleared] at free
  · rintro ⟨e, member, free⟩
    obtain ⟨i, here⟩ := List.mem_iff_getElem?.mp member
    have inside : i < pgmetaSize := by
      rw [← intact.length]
      exact (List.getElem?_eq_some_iff.mp here).1
    obtain ⟨best, picked⟩ : ∃ best, (m.victim b).1 = some best := by
      rw [Machine.victim_clock clock]
      apply Option.isSome_iff_exists.mp
      rw [List.find?_isSome]
      refine ⟨i, mem_lap inside, ?_⟩
      unfold metaAt
      rw [List.getD_eq_getElem?_getD, here]
      exact free
    obtain rfl := evicted.of_victim intact canSwap picked
    obtain ⟨best', picked', taken, _⟩ := evicted.taken
    obtain rfl : best = best' := Option.some.inj (picked.symm.trans picked')
    refine ⟨best, m', ?_, ran, ?_⟩
    · rw [Machine.victim_clock clock] at picked
      simp only [Machine.inTurn, picked, Option.some_or]
    · have keys : keys (m.victim b).2 = keys m.proc.pgmeta := keys_selectVictim _ _ _ _
      rwa [metaAt_va keys best] at taken

theorem Machine.inTurn_isSome (intact : m.proc.Intact)
    (tracked : ∃ e ∈ m.proc.pgmeta, evictable e = true) : m.inTurn.isSome = true := by
  obtain ⟨e, member, evicts⟩ := tracked
  obtain ⟨i, here⟩ := List.mem_iff_getElem?.mp member
  have inside : i < pgmetaSize := by
    rw [← intact.length]
    exact (List.getElem?_eq_some_iff.mp here).1
  unfold Machine.inTurn
  rw [Option.isSome_or, Bool.or_eq_true]
  right
  rw [List.find?_isSome]
  refine ⟨i, mem_lap inside, ?_⟩
  unfold metaAt
  rw [List.getD_eq_getElem?_getD, here]
  exact evicts

section Reachable

variable {k : Kernel} (clock : b.policy = .clock)
  (reached : (Kernel.system b).ReachableVia (fun k l => k.pagesOnly b l = true) k) {i : Nat} {p : Proc}
  (running : k.procs[i]? = some p) (writeBlocks : List Nat) (hand : Nat) (referenced : Nat → Bool)

include clock reached running

theorem Kernel.evictsInTurn_iff (canSwap : (k.machine (p.withClock hand referenced) writeBlocks).canSwap = true) :
    (k.machine (p.withClock hand referenced) writeBlocks).EvictsInTurn b ↔
      ∃ e ∈ (p.withClock hand referenced).pgmeta, unreferenced e = true := by
  obtain ⟨safe, intact⟩ := Kernel.pages_intact reached
  have member := List.mem_iff_getElem?.mpr ⟨i, running⟩
  exact Machine.evictsInTurn_iff clock
    ⟨safe.free, (safe.procs p member).withClock hand referenced, PageTable.empty_safe 0⟩
    ((intact p member).withClock hand referenced) canSwap

theorem clock_finds_victim
    (tracked : ∃ e ∈ (p.withClock hand referenced).pgmeta, evictable e = true ∧
      (p.pagetable.leaf e.va).isSome = true)
    (canSwap : (k.machine (p.withClock hand referenced) writeBlocks).canSwap = true) :
    (k.machine (p.withClock hand referenced) writeBlocks).inTurn.isSome = true ∧
      ((k.machine (p.withClock hand referenced) writeBlocks).EvictsInTurn b ↔
        ∃ e ∈ (p.withClock hand referenced).pgmeta, unreferenced e = true) := by
  obtain ⟨_, intact⟩ := Kernel.pages_intact reached
  obtain ⟨e, member, evicts, _⟩ := tracked
  refine ⟨?_, Kernel.evictsInTurn_iff clock reached running writeBlocks hand referenced canSwap⟩
  have turned := (intact p (List.mem_iff_getElem?.mpr ⟨i, running⟩)).withClock hand referenced
  exact Machine.inTurn_isSome turned ⟨e, member, evicts⟩

end Reachable

def Build.smallClock : Build := { Build.small with policy := .clock }

def heapRun : List Label :=
  [.userinit, .run 0 [] (.call (.kexec (some (oneSegment 6)) [[65]] (some 9))),
    .run 0 [] (.call (.setSize 0x6000)), .run 0 [] (.call (.setBrk 0x6000)),
    .run 0 [] (.call (.vmfault 0x4000 .write)), .run 0 [] (.call (.vmfault 0x5000 .write))]

theorem heapRun_shows (hand : Nat) (referenced : Nat → Bool) (check : Machine → Bool)
    (ran : (System.execute (Kernel.next .smallClock) (Kernel.pagesOnly .smallClock) (Kernel.boot 24) heapRun).any
      (fun k => k.procs[0]?.any fun p => check (k.machine (p.withClock hand referenced) [])) = true) :
    ∃ (k : Kernel) (p : Proc),
      (Kernel.system .smallClock).ReachableVia (fun k l => k.pagesOnly .smallClock l = true) k ∧
        k.procs[0]? = some p ∧ check (k.machine (p.withClock hand referenced) []) = true := by
  obtain ⟨k, ran, shown⟩ := (Option.any_eq_true ..).mp ran
  obtain ⟨p, running, shown⟩ := (Option.any_eq_true ..).mp shown
  have boot : Kernel.AtBoot .smallClock (Kernel.boot 24) :=
    ⟨rfl, by decide +kernel, by decide +kernel, rfl⟩
  exact ⟨k, p, System.execute_reachableVia (fun _ _ => id) (.initial boot) ran, running, shown⟩

def Machine.offersPage (m : Machine) : Bool :=
  m.canSwap && m.proc.pgmeta.any fun e => evictable e && (m.proc.pagetable.leaf e.va).isSome

theorem Machine.offersPage_iff : m.offersPage = true ↔ m.canSwap = true ∧
    ∃ e ∈ m.proc.pgmeta, evictable e = true ∧ (m.proc.pagetable.leaf e.va).isSome = true := by
  unfold Machine.offersPage
  simp only [Bool.and_eq_true, List.any_eq_true]

-- The hand is at entry 1000, and of the two pages only that of entry 0 is referenced.
theorem clock_finds_victim_second : ∃ (k : Kernel) (p : Proc), k.procs[0]? = some p ∧
    (k.machine (p.withClock 1000 fun i => i == 0) []).EvictsInTurn .smallClock := by
  obtain ⟨k, p, reached, running, shown⟩ := heapRun_shows 1000 (fun i => i == 0)
    (fun m => m.offersPage && m.proc.pgmeta.any unreferenced) (by decide +kernel)
  obtain ⟨offers, free⟩ := Bool.and_eq_true_iff.mp shown
  obtain ⟨canSwap, tracked⟩ := Machine.offersPage_iff.mp offers
  have turn := clock_finds_victim rfl reached running [] 1000 (fun i => i == 0) tracked canSwap
  exact ⟨k, p, running, turn.2.mpr (List.any_eq_true.mp free)⟩

-- Both pages are referenced, as faults leave them.
theorem clock_finds_no_victim : ∃ (k : Kernel) (p : Proc),
    (Kernel.system .smallClock).ReachableVia (fun k l => k.pagesOnly .smallClock l = true) k ∧
      k.procs[0]? = some p ∧ (k.machine (p.withClock 0 fun _ => true) []).canSwap = true ∧
      (∃ e ∈ (p.withClock 0 fun _ => true).pgmeta, evictable e = true ∧ (p.pagetable.leaf e.va).isSome = true) ∧
      ¬ (k.machine (p.withClock 0 fun _ => true) []).EvictsInTurn .smallClock := by
  obtain ⟨k, p, reached, running, offers⟩ := heapRun_shows 0 (fun _ => true) Machine.offersPage (by decide +kernel)
  obtain ⟨canSwap, tracked⟩ := Machine.offersPage_iff.mp offers
  refine ⟨k, p, reached, running, canSwap, tracked, fun inTurn => ?_⟩
  obtain ⟨e, member, free⟩ := (Kernel.evictsInTurn_iff rfl reached running [] 0 (fun _ => true) canSwap).mp inTurn
  obtain ⟨i, here⟩ := List.mem_iff_getElem?.mp member
  obtain ⟨old, _, rfl⟩ := Proc.withClock_getElem? here
  simp [unreferenced] at free

end SystemsSuite.Paging
