import SystemsSuite.Paging.LineageBooks

set_option autoImplicit false

namespace SystemsSuite.Paging

open Lib Prog

variable {b : Build} {m : Machine}

-- The keys are addresses of pages. Zeros mark free entries; no other key occurs twice.
structure PageKeys (keys : List Nat) : Prop where
  aligned : ∀ key ∈ keys, key % 4096 = 0
  unique : ∀ (i j key : Nat), key ≠ 0 → keys[i]? = some key → keys[j]? = some key → i = j

theorem PageKeys.zeros (n : Nat) : PageKeys (List.replicate n 0) := by
  constructor
  · intro key member
    rw [List.eq_of_mem_replicate member]
  · intro i j key positive here _
    rw [List.getElem?_replicate] at here
    split_ifs at here
    exact absurd (Option.some.inj here).symm positive

theorem PageKeys.set {keys : List Nat} (known : PageKeys keys) (i : Nat) {key : Nat}
    (aligned : key % 4096 = 0) (new : key = 0 ∨ key ∉ keys) : PageKeys (keys.set i key) := by
  have from_ {j key' : Nat} (here : (keys.set i key)[j]? = some key') :
      i = j ∧ key' = key ∨ keys[j]? = some key' := by
    rw [List.getElem?_set] at here
    split_ifs at here with hit inside
    · exact .inl ⟨hit, (Option.some.inj here).symm⟩
    · exact .inr here
  have fresh {j : Nat} (positive : key ≠ 0) (here : keys[j]? = some key) : False :=
    new.resolve_left positive (List.mem_iff_getElem?.mpr ⟨j, here⟩)
  refine ⟨fun key' member => ?_, fun j k key' positive here there => ?_⟩
  · rcases List.mem_or_eq_of_mem_set member with old | rfl
    · exact known.aligned key' old
    · exact aligned
  rcases from_ here with ⟨rfl, rfl⟩ | old
  · rcases from_ there with ⟨rfl, _⟩ | old'
    · rfl
    · exact (fresh positive old').elim
  · rcases from_ there with ⟨rfl, rfl⟩ | old'
    · exact (fresh positive old).elim
    · exact known.unique j k key' positive old old'

def Books.Keyed (v : Books) : Prop := PageKeys (v.entries.map Entry.va)

namespace Books

variable {v v' : Books}

theorem keys_modify (v : Books) (i : Nat) (f : Entry → Entry) (keeps : ∀ e, (f e).va = e.va) :
    (v.entries.modify i f).map Entry.va = v.entries.map Entry.va :=
  map_modify_self Entry.va v.entries i keeps

theorem find_member {va : Nat} {e : Entry} (keyed : v.Keyed) (member : e ∈ v.entries)
    (key : e.va = va) (positive : va ≠ 0) : ∃ i, v.find va = some i ∧ v.entries[i]? = some e := by
  cases found : v.find va with
  | none => exact absurd key (find_none found e member)
  | some i =>
    obtain ⟨e', here, key'⟩ := find_spec found
    obtain ⟨j, there⟩ := List.mem_iff_getElem?.mp member
    have same : i = j := by
      apply keyed.unique i j va positive
      · rw [List.getElem?_map, here, Option.map_some, key']
      · rw [List.getElem?_map, there, Option.map_some, key]
    rw [same]
    exact ⟨j, rfl, there⟩

namespace Keyed

theorem congr (keyed : v.Keyed) (keys : v'.entries.map Entry.va = v.entries.map Entry.va) :
    v'.Keyed := by
  unfold Keyed at *
  rwa [keys]

theorem obtain_ {ok : Bool} (keyed : v.Keyed) (obtained : v.Obtain ok v') : v'.Keyed := by
  have evicted {ok : Bool} {w : Books} (evict : v.Evict ok w) : w.Keyed := by
    cases evict with
    | nothing => exact keyed
    | stale best =>
      unfold Keyed
      rw [List.map_set]
      exact keyed.set best rfl (.inl rfl)
    | discarded best => exact keyed.congr (v.keys_modify best _ fun _ => rfl)
    | saved best _ slot bitmap =>
      have keys := keys_modify (v.saved best slot bitmap) best (fun e => { e with resident := false })
        fun _ => rfl
      exact keyed.congr (keys.trans
        (v.keys_modify best (fun e => { e with inSwap := true, slot := slot }) fun _ => rfl))
  cases obtained with
  | free => exact keyed
  | evicted _ _ evict => exact evicted evict
  | failed _ evict => exact evicted evict

theorem noted (keyed : v.Keyed) {va : Nat} (aligned : va % 4096 = 0) : (v.noted va).Keyed := by
  unfold Books.noted
  split
  next i absent _ =>
    unfold Keyed
    rw [List.map_set]
    refine keyed.set i aligned (.inr fun member => ?_)
    obtain ⟨e, here, key⟩ := List.mem_map.mp member
    exact find_none absent e here key
  next => exact keyed

theorem installed (keyed : v.Keyed) (t : Target) {va : Nat} (perm : Flags) (aligned : va % 4096 = 0) :
    (v.installed t va perm).Keyed := by
  have mapped : (v.mapped t va perm).Keyed := by
    cases t <;> exact keyed
  have noted := mapped.noted aligned
  unfold Books.installed madeResident
  split
  next => exact noted
  next i _ => exact noted.congr (keys_modify _ i _ fun _ => rfl)

theorem fault {vaPg : Nat} {acc : Access} {ok : Bool} (keyed : v.Keyed) (aligned : vaPg % 4096 = 0)
    (faulted : Faulted vaPg acc v ok v') : v'.Keyed := by
  cases faulted with
  | refused => exact keyed
  | widened =>
    have mapped (flags : Flags) : (v.mapped .own vaPg flags).Keyed := keyed
    exact (mapped _).noted aligned
  | madeExec => exact keyed
  | starved _ _ obtained => exact keyed.obtain_ obtained
  | zeroStarved _ _ _ obtained => exact (keyed.noted aligned).obtain_ obtained
  | swappedIn _ i v₁ _ _ _ _ obtained =>
    exact (keyed.obtain_ obtained).congr (v₁.keys_modify i _ fun _ => rfl)
  | loaded _ _ _ _ _ obtained => exact (keyed.obtain_ obtained).installed _ _ aligned
  | zeroed _ _ _ _ obtained => exact ((keyed.noted aligned).obtain_ obtained).installed _ _ aligned

theorem grow {t : Target} {perm : Flags} {n a stop : Nat} {ok : Bool} (keyed : v.Keyed)
    (aligned : a % 4096 = 0)
    (grow : Grow t perm n a v ok stop v') : v'.Keyed := by
  induction grow with
  | done => exact keyed
  | starved _ _ _ _ obtained => exact keyed.obtain_ obtained
  | page _ _ _ _ _ _ _ obtained _ _ _ ih => exact ih ((keyed.obtain_ obtained).installed _ _ aligned) (by omega)

theorem moved {n t : Nat} {ok : Bool} (keyed : v.Keyed) (moved : Moved n t v ok v') : v'.Keyed := by
  cases moved with
  | kept => exact keyed
  | refused => exact keyed
  | shrunk => exact keyed
  | grown _ _ _ _ _ grow => exact (keyed.grow (pgroundup_aligned _) grow).congr rfl
  | failed _ _ _ _ _ grow => exact (keyed.grow (pgroundup_aligned _) grow).congr rfl
  | lazy => exact keyed

theorem sbrk {n t : Nat} {ok : Bool} (keyed : v.Keyed) (sbrk : Sbrk n t v ok v') : v'.Keyed := by
  cases sbrk with
  | failed _ moved => exact keyed.moved moved
  | unmoved _ moved => exact keyed.moved moved
  | moved _ moved => exact (keyed.moved moved).congr rfl

theorem cleared (entries : v.entries = List.replicate pgmetaSize .cleared) : v.Keyed := by
  unfold Keyed
  rw [entries, List.map_replicate]
  exact .zeros _

theorem born {im : Proc} (born : v.Born im v') : v'.Keyed := by
  induction born with
  | blank => exact cleared rfl
  | copied w i flags _ aligned _ _ ih => exact ih.installed _ _ aligned

theorem execFailed {file : Option Inode} (keyed : v.Keyed) (failed : v.ExecFailed file v') :
    v'.Keyed := by
  cases failed with
  | early alike => exact keyed.congr (congrArg _ alike.entries)
  | late _ _ _ w w' stack before _ grow after =>
    have started : w.Keyed := keyed.congr (congrArg _ before.entries)
    exact (started.grow (stackAt_aligned stack) grow).congr (congrArg _ after.entries)

theorem happens {e : Event} (keyed : v.Keyed) (happens : v.Happens e v') : v'.Keyed := by
  cases happens with
  | other => exact keyed
  | setSp => exact keyed
  | fault _ _ _ _ faulted => exact keyed.fault (Nat.mul_mod_left _ _) faulted
  | evict _ _ evict => exact keyed.obtain_ evict.obtained
  | sbrk _ _ _ _ sbrk => exact keyed.sbrk sbrk
  | parent _ _ _ evictions =>
    exact evictions.preserves (fun _ _ _ keyed evict => keyed.obtain_ evict.obtained)
      (fun _ _ keyed => keyed) keyed
  | child _ _ born => exact .born born
  | execed _ _ _ _ fresh => exact cleared fresh.entries
  | execFailed _ _ _ _ failed => exact keyed.execFailed failed

end Keyed

end Books

end SystemsSuite.Paging
