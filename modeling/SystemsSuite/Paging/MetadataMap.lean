import SystemsSuite.Paging.Metadata

set_option autoImplicit false

namespace SystemsSuite.Paging

-- A call, or a change of an entry by the pager, which leaves its key.
inductive MetaCall
  | alloc (va : Nat)
  | clear (i : Fin pgmetaSize)
  | change (i : Fin pgmetaSize) (f : PageMeta → PageMeta) (keeps : ∀ e, (f e).va = e.va)

-- The table, and for every address the entry that `pgmeta_alloc` returned last for it, until that entry
-- is cleared.
structure MetaTable where
  metas : List PageMeta
  given : Nat → Option Nat

theorem pgmetaAlloc_found {metas : List PageMeta} {va i : Nat} (found : pgmetaFind metas va = some i) :
    pgmetaAlloc metas va = (metas, some i) := by
  simp only [pgmetaAlloc, found]

theorem pgmetaAlloc_made {metas : List PageMeta} {va i : Nat} (absent : pgmetaFind metas va = none)
    (free : pgmetaFind metas 0 = some i) :
    pgmetaAlloc metas va = (metas.set i { PageMeta.cleared with va := va }, some i) := by
  simp only [pgmetaAlloc, absent, free]

theorem pgmetaAlloc_full {metas : List PageMeta} {va : Nat} (absent : pgmetaFind metas va = none)
    (full : pgmetaFind metas 0 = none) : pgmetaAlloc metas va = (metas, none) := by
  simp only [pgmetaAlloc, absent, full]

namespace MetaTable

def empty : MetaTable := ⟨List.replicate pgmetaSize .cleared, fun _ => none⟩

def call (t : MetaTable) : MetaCall → MetaTable
  | .alloc va =>
    { metas := (pgmetaAlloc t.metas va).1
      given := Function.update t.given va ((pgmetaAlloc t.metas va).2.or (t.given va)) }
  | .clear i =>
    { metas := pgmetaClear t.metas i
      given := fun va => if t.given va = some i.val then none else t.given va }
  | .change i f _ => { t with metas := t.metas.modify i f }

def run (t : MetaTable) (calls : List MetaCall) : MetaTable := calls.foldl call t

-- The laws of a partial map keyed by address, for the addresses that satisfy `P`.
structure IsMap (t : MetaTable) (P : Nat → Prop) : Prop where
  distinct : ∀ va va' i, P va → P va' → t.given va = some i → t.given va' = some i → va = va'
  found : ∀ va i, P va → t.given va = some i → pgmetaFind t.metas va = some i
  absent : ∀ va, P va → t.given va = none → pgmetaFind t.metas va = none
  unaffected : ∀ va va' i, P va → P va' → va ≠ va' → t.given va = some i →
    (t.call (.alloc va')).metas[i]? = t.metas[i]?

def keyAt (t : MetaTable) (i : Nat) : Option Nat := t.metas[i]?.map PageMeta.va

-- The entry that was given out for an address is the one that has it as its key.
def Tracks (t : MetaTable) : Prop := ∀ va, va ≠ 0 → ∀ i, t.given va = some i ↔ t.keyAt i = some va

theorem keyAt_of_find {t : MetaTable} {va i : Nat} (found : pgmetaFind t.metas va = some i) :
    i < t.metas.length ∧ t.keyAt i = some va := by
  obtain ⟨inside, key, _⟩ := List.findIdx?_eq_some_iff_getElem.mp found
  refine ⟨inside, ?_⟩
  rw [keyAt, List.getElem?_eq_getElem inside, Option.map_some]
  simpa using key

theorem find_of_keyAt {t : MetaTable} {va i : Nat} (key : t.keyAt i = some va) :
    ∃ j, pgmetaFind t.metas va = some j := by
  obtain ⟨e, here, same⟩ := Option.map_eq_some_iff.mp key
  rw [← Option.isSome_iff_exists, pgmetaFind, List.findIdx?_isSome]
  exact List.any_eq_true.mpr ⟨e, List.mem_of_getElem? here, by simpa using same⟩

namespace Tracks

variable {t : MetaTable}

theorem find_eq (tracks : t.Tracks) {va : Nat} (other : va ≠ 0) :
    pgmetaFind t.metas va = t.given va := by
  cases found : pgmetaFind t.metas va with
  | none =>
    cases given : t.given va with
    | none => rfl
    | some i =>
      obtain ⟨j, there⟩ := find_of_keyAt ((tracks va other i).mp given)
      rw [found] at there
      contradiction
  | some i => exact ((tracks va other i).mpr (keyAt_of_find found).2).symm

theorem isMap (tracks : t.Tracks) : t.IsMap (· ≠ 0) := by
  refine ⟨fun va va' i other other' given given' => ?_, fun va i other given => ?_,
    fun va other given => ?_, fun va va' i other other' apart given => ?_⟩
  · have key := (tracks va other i).mp given
    have key' := (tracks va' other' i).mp given'
    exact Option.some.inj (key.symm.trans key')
  · rw [tracks.find_eq other, given]
  · rw [tracks.find_eq other, given]
  · have key := (tracks va other i).mp given
    simp only [call]
    cases found : pgmetaFind t.metas va' with
    | some j => rw [pgmetaAlloc_found found]
    | none =>
      cases free : pgmetaFind t.metas 0 with
      | none => rw [pgmetaAlloc_full found free]
      | some j =>
        -- The entry that is taken was free, so it is not the one of `va`.
        have zero := (keyAt_of_find free).2
        have moved : j ≠ i := by
          rintro rfl
          exact other (Option.some.inj (key.symm.trans zero))
        rw [pgmetaAlloc_made found free]
        exact List.getElem?_set_ne moved

end Tracks

theorem tracks_empty : empty.Tracks := by
  intro va other i
  refine iff_of_false (by simp [empty]) fun key => ?_
  rw [keyAt, empty, List.getElem?_replicate] at key
  split at key
  next => exact other (Option.some.inj key).symm
  next => contradiction

theorem Tracks.take {t : MetaTable} (tracks : t.Tracks) {va i : Nat} (other : va ≠ 0)
    (absent : pgmetaFind t.metas va = none) (free : pgmetaFind t.metas 0 = some i) {e : PageMeta}
    (key : e.va = va) : Tracks ⟨t.metas.set i e, Function.update t.given va (some i)⟩ := by
  obtain ⟨inside, zero⟩ := keyAt_of_find free
  intro va' other' j
  simp only [keyAt, Function.update_apply, List.getElem?_set]
  rcases eq_or_ne va' va with rfl | apart
  · rw [if_pos rfl]
    rcases eq_or_ne i j with rfl | elsewhere
    · rw [if_pos rfl, if_pos inside]
      exact iff_of_true rfl (congrArg some key)
    · rw [if_neg elsewhere]
      refine iff_of_false (fun same => elsewhere (Option.some.inj same)) fun present => ?_
      obtain ⟨k, found⟩ := find_of_keyAt present
      rw [absent] at found
      contradiction
  · rw [if_neg apart]
    rcases eq_or_ne i j with rfl | elsewhere
    · rw [if_pos rfl, if_pos inside]
      refine iff_of_false (fun given => ?_) fun same => apart (Option.some.inj (same.symm.trans (congrArg some key)))
      have present := (tracks va' other' i).mp given
      exact other' (Option.some.inj (present.symm.trans zero))
    · rw [if_neg elsewhere]
      exact tracks va' other' j

theorem Tracks.alloc {t : MetaTable} (tracks : t.Tracks) {va : Nat} (other : va ≠ 0) :
    (t.call (.alloc va)).Tracks := by
  have same := tracks.find_eq other
  simp only [call]
  cases found : pgmetaFind t.metas va with
  | some i =>
    rw [pgmetaAlloc_found found, ← found, same]
    simp only [Option.or_self, Function.update_eq_self]
    exact tracks
  | none =>
    cases free : pgmetaFind t.metas 0 with
    | none =>
      rw [pgmetaAlloc_full found free, ← found, same]
      simp only [Option.or_self, Function.update_eq_self]
      exact tracks
    | some i =>
      rw [pgmetaAlloc_made found free]
      simp only [Option.some_or]
      exact tracks.take other found free rfl

theorem Tracks.clear {t : MetaTable} (tracks : t.Tracks) (i : Fin pgmetaSize) :
    (t.call (.clear i)).Tracks := by
  intro va other j
  simp only [call, keyAt, pgmetaClear, List.getElem?_set]
  rcases eq_or_ne i.val j with rfl | elsewhere
  · rw [if_pos rfl]
    refine iff_of_false ?_ fun key => ?_
    · split
      next => simp
      next apart => exact apart
    · split at key
      next => exact other (Option.some.inj key).symm
      next => contradiction
  · rw [if_neg elsewhere]
    split
    next given =>
      refine iff_of_false (by simp) fun key => elsewhere ?_
      have there := (tracks va other j).mpr key
      rw [given] at there
      exact Option.some.inj there
    next => exact tracks va other j

theorem Tracks.change {t : MetaTable} (tracks : t.Tracks) (i : Fin pgmetaSize)
    (f : PageMeta → PageMeta) (keeps : ∀ e, (f e).va = e.va) : (t.call (.change i f keeps)).Tracks := by
  intro va other j
  have key : (t.call (.change i f keeps)).keyAt j = t.keyAt j := by
    simp only [call, keyAt, List.getElem?_modify]
    cases t.metas[j]? with
    | none => rfl
    | some e =>
      split
      next => exact congrArg some (keeps e)
      next => rfl
  rw [key]
  exact tracks va other j

theorem Tracks.run {t : MetaTable} (tracks : t.Tracks) {calls : List MetaCall}
    (nonzero : ∀ va, MetaCall.alloc va ∈ calls → va ≠ 0) : (t.run calls).Tracks := by
  induction calls generalizing t with
  | nil => exact tracks
  | cons first rest ih =>
    refine ih ?_ fun va here => nonzero va (List.mem_cons_of_mem _ here)
    cases first with
    | alloc va => exact tracks.alloc (nonzero va List.mem_cons_self)
    | clear i => exact tracks.clear i
    | change i f keeps => exact tracks.change i f keeps

end MetaTable

-- In every run whose calls are for addresses other than 0 the table is a map.
theorem metadata_is_map {calls : List MetaCall} (nonzero : ∀ va, MetaCall.alloc va ∈ calls → va ≠ 0) :
    (MetaTable.empty.run calls).IsMap (· ≠ 0) :=
  (MetaTable.tracks_empty.run nonzero).isMap

-- An entry is cleared and given to a third page; the second page keeps its own.
theorem metadata_is_map_reused : ∃ calls, (MetaTable.empty.run calls).IsMap (· ≠ 0) ∧
    (MetaTable.empty.run calls).given 12288 = some 0 ∧ (MetaTable.empty.run calls).given 8192 = some 1 := by
  have nonzero : ∀ va, MetaCall.alloc va ∈ [MetaCall.alloc 4096, .alloc 8192, .clear ⟨0, by decide⟩, .alloc 12288] →
      va ≠ 0 := by
    simp
  exact ⟨_, metadata_is_map nonzero, by decide +kernel, by decide +kernel⟩

-- The entry that `pgmeta_alloc` returns for page 0 stays free, and the next page gets it as well.
theorem page_zero_shares : ¬ ∀ calls : List MetaCall,
    (∀ va, MetaCall.alloc va ∈ calls → va % 4096 = 0) → (MetaTable.empty.run calls).IsMap (· % 4096 = 0) := by
  intro isMap
  have aligned : ∀ va, MetaCall.alloc va ∈ [MetaCall.alloc 0, .alloc 4096] → va % 4096 = 0 := by
    simp
  have zero : (MetaTable.empty.run [.alloc 0, .alloc 4096]).given 0 = some 0 := by decide +kernel
  have first : (MetaTable.empty.run [.alloc 0, .alloc 4096]).given 4096 = some 0 := by decide +kernel
  have same := (isMap _ aligned).distinct 0 4096 0 (by decide) (by decide) zero first
  omega

end SystemsSuite.Paging
