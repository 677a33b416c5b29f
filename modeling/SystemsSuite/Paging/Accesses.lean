import SystemsSuite.Paging.LineageBooks

set_option autoImplicit false

namespace SystemsSuite.Paging

open Lib Prog

variable {b : Build} {m m₁ m' m'' : Machine} {va : Nat} {acc : Access}

def Machine.kill (m : Machine) : Machine := { m with proc := { m.proc with killed := true } }

-- An access by the user program: attempted, and attempted again after each fault that is served. The result is the
-- frame it reaches, or none when the process is killed; `n` faults were served.
inductive Accessed (b : Build) (va : Nat) (acc : Access) : Nat → Machine → Option Nat → Machine → Prop
  | permitted (m : Machine) (pa : Nat) : m.translate va acc = some pa →
      Accessed b va acc 0 m (some pa) m
  | killed (m m' : Machine) : m.translate va acc = none → vmfault b .own va acc m = .ok (none, m') →
      Accessed b va acc 0 m none m'.kill
  | again (n pa : Nat) (m m₁ m' : Machine) (r : Option Nat) : m.translate va acc = none →
      vmfault b .own va acc m = .ok (some pa, m₁) → Accessed b va acc n m₁ r m' →
      Accessed b va acc (n + 1) m r m'

-- The access as a program; `fuel` bounds the attempts, and none says that they were too few.
def access (b : Build) (va : Nat) (acc : Access) : Nat → Kern (Option (Option Nat))
  | 0 => pure none
  | fuel + 1 => do
    match (← read).translate va acc with
    | some pa => pure (some (some pa))
    | none =>
      match ← vmfault b .own va acc with
      | some _ => access b va acc fuel
      | none =>
        setkilled
        pure (some none)

theorem accessed_of_run {fuel : Nat} {r : Option Nat}
    (ran : access b va acc fuel m = .ok (some r, m')) : ∃ n, Accessed b va acc n m r m' := by
  induction fuel generalizing m with
  | zero => exact absurd (ok_pure.mp ran).1 (by simp)
  | succ fuel ih =>
    rw [access, ok_bind] at ran
    obtain ⟨_, _, same, rest⟩ := ran
    obtain ⟨rfl, rfl⟩ := ok_read.mp same
    cases reached : m.translate va acc with
    | some pa =>
      simp only [reached] at rest
      obtain ⟨same, rfl⟩ := ok_pure.mp rest
      obtain rfl := Option.some.inj same
      exact ⟨0, .permitted m pa reached⟩
    | none =>
      simp only [reached, ok_bind] at rest
      obtain ⟨served, m₁, faulted, rest⟩ := rest
      cases served with
      | some pa =>
        obtain ⟨n, later⟩ := ih rest
        exact ⟨n + 1, .again n pa m m₁ m' r reached faulted later⟩
      | none =>
        obtain ⟨_, m₂, marked, rest⟩ := ok_bind.mp rest
        obtain ⟨same, rfl⟩ := ok_pure.mp rest
        obtain rfl := Option.some.inj same
        obtain rfl : m₁.kill = m₂ := ok_update.mp marked
        exact ⟨0, .killed m m₁ reached faulted⟩

theorem Accessed.unique {n n' : Nat} {r r' : Option Nat} (left : Accessed b va acc n m r m')
    (right : Accessed b va acc n' m r' m'') : n = n' ∧ r = r' ∧ m' = m'' := by
  induction left generalizing n' with
  | permitted m pa reached =>
    cases right with
    | permitted _ pa' reached' =>
      rw [reached] at reached'
      exact ⟨rfl, reached', rfl⟩
    | killed _ _ absent => simp [reached] at absent
    | again _ _ _ _ _ _ absent => simp [reached] at absent
  | killed m m' absent refused =>
    cases right with
    | permitted _ _ reached => simp [absent] at reached
    | killed _ _ _ refused' =>
      rw [refused] at refused'
      cases refused'
      exact ⟨rfl, rfl, rfl⟩
    | again _ _ _ _ _ _ _ served =>
      rw [refused] at served
      cases served
  | again n pa m m₁ m' r absent served _ ih =>
    cases right with
    | permitted _ _ reached => simp [absent] at reached
    | killed _ _ _ refused =>
      rw [served] at refused
      cases refused
    | again _ _ _ _ _ _ _ served' rest =>
      rw [served] at served'
      cases served'
      obtain ⟨rfl, rfl, rfl⟩ := ih rest
      exact ⟨rfl, rfl, rfl⟩

theorem Accessed.reached {n pa : Nat} {r : Option Nat} (accessed : Accessed b va acc n m r m')
    (frame : r = some pa) : m'.translate va acc = some pa := by
  induction accessed with
  | permitted m pa' reached =>
    obtain rfl := Option.some.inj frame
    exact reached
  | killed => contradiction
  | again _ _ _ _ _ _ _ _ _ ih => exact ih frame

theorem accessed_of_translate {n pa : Nat} {r : Option Nat} (reached : m.translate va acc = some pa) :
    Accessed b va acc n m r m' ↔ n = 0 ∧ r = some pa ∧ m' = m := by
  constructor
  · intro accessed
    obtain ⟨rfl, rfl, rfl⟩ := accessed.unique (.permitted m pa reached)
    exact ⟨rfl, rfl, rfl⟩
  · rintro ⟨rfl, rfl, rfl⟩
    exact .permitted _ pa reached

theorem pgrounddown_page (va : Nat) : pgrounddown va / 4096 = va / 4096 := Nat.mul_div_cancel _ (by decide)

theorem pgrounddown_below : pgrounddown va < maxva ↔ va < maxva := by
  unfold pgrounddown maxva
  omega

theorem Machine.translate_page (m : Machine) {va' : Nat} (page : va' / 4096 = va / 4096) :
    m.translate va' acc = m.translate va acc := by
  have ends : va' ≥ maxva ↔ va ≥ maxva := by
    unfold maxva
    omega
  simp only [Machine.translate, ends, PageTable.leaf_page _ page]

theorem vmfault_page (t : Target) (va : Nat) (acc : Access) :
    vmfault b t (pgrounddown va) acc = vmfault b t va acc := by
  have idem : pgrounddown (pgrounddown va) = pgrounddown va :=
    congrArg (· * 4096) (pgrounddown_page va)
  have ends : pgrounddown va ≥ maxva ↔ va ≥ maxva := by
    have below := @pgrounddown_below va
    omega
  simp only [vmfault, idem, ends]

def Machine.flagsAt (m : Machine) (va : Nat) : Option Flags := m.books.pte (va / 4096)

theorem Machine.flagsAt_leaf (below : va < maxva) :
    m.flagsAt va = (m.proc.pagetable.leaf va).map Leaf.flags := PageTable.ptes_leaf _ below

theorem Machine.translate_isSome : (m.translate va acc).isSome = true ↔
    ∃ flags, m.flagsAt va = some flags ∧ (Leaf.mk 0 flags).allows acc = true := by
  unfold Machine.translate
  by_cases high : va ≥ maxva
  · have absent : m.flagsAt va = none := by
      refine if_neg ?_
      unfold maxva at *
      omega
    simp [high, absent]
  · rw [if_neg high, Machine.flagsAt_leaf (by omega)]
    cases m.proc.pagetable.leaf va with
    | none => simp
    | some leaf => cases acc <;> simp [Option.filter_some, Leaf.allows]

theorem Machine.translate_none (same : m'.flagsAt va = m.flagsAt va) (absent : m.translate va acc = none) :
    m'.translate va acc = none := by
  apply Option.not_isSome_iff_eq_none.mp
  rw [Machine.translate_isSome, same, ← Machine.translate_isSome, absent]
  simp

namespace Books

variable {v v' : Books}

-- The permissions with which a fault maps a page that is not mapped.
def faultPerm (v : Books) (vaPg : Nat) : Flags :=
  match v.image.segOf vaPg with
  | none => zeroFlags
  | some seg =>
    match v.find vaPg with
    | none => seg.flags
    | some i => if (v.entryAt i).inSwap then swapPerm (v.entryAt i) seg else seg.flags

theorem Evict.perm (evict : v.Evict true v') (i : Nat) : (v'.entryAt i).perm = (v.entryAt i).perm := by
  have modified (w : Books) (best : Nat) (f : Entry → Entry) (keeps : ∀ e, (f e).perm = e.perm) :
      ((w.entries.modify best f).getD i .cleared).perm = (w.entryAt i).perm := by
    rw [getD_modify]
    split_ifs
    · exact keeps _
    · rfl
  cases evict with
  | discarded best => exact modified v best _ fun _ => rfl
  | saved best flags slot bitmap =>
    have dropped := modified (v.saved best slot bitmap) best (fun e => { e with resident := false })
      fun _ => rfl
    exact dropped.trans (modified v best _ fun _ => rfl)

theorem Obtain.perm (obtained : v.Obtain true v') (i : Nat) :
    (v'.entryAt i).perm = (v.entryAt i).perm := by
  cases obtained with
  | free => rfl
  | evicted _ _ evict => exact evict.perm i

theorem Faulted.mapped {vaPg : Nat} {acc : Access} {ok : Bool} (faulted : Faulted vaPg acc v ok v')
    (served : ok = true) (absent : v.pte (vaPg / 4096) = none) :
    v'.pte (vaPg / 4096) = some (v.faultPerm vaPg) := by
  cases faulted with
  | refused | starved | zeroStarved => contradiction
  | widened _ here | madeExec _ _ here =>
    rw [absent] at here
    contradiction
  | swappedIn seg i w _ region found inSwap obtained =>
    have perm : swapPerm (w.entryAt i) seg = swapPerm (v.entryAt i) seg := by
      unfold swapPerm
      rw [obtained.perm]
    change Function.update w.pte (vaPg / 4096) (some (swapPerm (w.entryAt i) seg)) _ = _
    rw [Function.update_self, perm]
    simp [faultPerm, region, found, inSwap]
  | loaded seg w _ region notInSwap =>
    rw [installed_pte, Function.update_self]
    unfold faultPerm
    rw [region]
    cases found : v.find vaPg with
    | none => rfl
    | some i => simp [notInSwap i found]
  | zeroed w _ region =>
    rw [installed_pte, Function.update_self]
    simp [faultPerm, region]

-- A fault on a mapped page raises its permissions or is refused.
theorem Faulted.raised {vaPg : Nat} {acc : Access} {ok : Bool} {flags : Flags}
    (faulted : Faulted vaPg acc v ok v') (here : v.pte (vaPg / 4096) = some flags) (served : ok = true) :
    acc = .write ∧ flags.w = false ∧ v'.pte (vaPg / 4096) = some { flags with w := true } ∨
      acc = .exec ∧ v'.pte (vaPg / 4096) = some { flags with x := true } := by
  have same {flags' : Flags} (here' : v.pte (vaPg / 4096) = some flags') : flags' = flags :=
    Option.some.inj (here'.symm.trans here)
  cases faulted with
  | refused | starved | zeroStarved => contradiction
  | widened flags' here' write readOnly =>
    obtain rfl := same here'
    refine .inl ⟨write, readOnly, ?_⟩
    rw [noted_pte]
    exact Function.update_self ..
  | madeExec flags' _ here' exec =>
    obtain rfl := same here'
    exact .inr ⟨exec, Function.update_self ..⟩
  | swappedIn _ _ _ absent | loaded _ _ absent | zeroed _ absent =>
    rw [absent] at here
    contradiction

theorem Faulted.stays {vaPg : Nat} {acc : Access} {ok : Bool} (faulted : Faulted vaPg acc v ok v')
    (refused : ok = false) : v'.pte (vaPg / 4096) = v.pte (vaPg / 4096) := by
  cases faulted with
  | refused => rfl
  | starved _ absent obtained => rw [absent, obtained.unmapped absent]
  | zeroStarved _ absent _ obtained =>
    rw [absent]
    apply obtained.unmapped
    rw [noted_pte]
    exact absent
  | widened | madeExec | swappedIn | loaded | zeroed => contradiction

end Books

theorem vmfault_faulted {r : Option Nat} (faulted : vmfault b .own va acc m = .ok (r, m')) :
    m.books.Faulted (pgrounddown va) acc r.isSome m'.books :=
  wp_ok (Q := fun r m' => m.books.Faulted (pgrounddown va) acc r.isSome m'.books)
    (vmfault_books va acc) faulted

theorem vmfault_served {pa : Nat} (served : vmfault b .own va acc m = .ok (some pa, m')) :
    (m.flagsAt va = none → m'.flagsAt va = some (m.books.faultPerm (pgrounddown va))) ∧
    ∀ flags, m.flagsAt va = some flags →
      acc = .write ∧ flags.w = false ∧ m'.flagsAt va = some { flags with w := true } ∨
        acc = .exec ∧ m'.flagsAt va = some { flags with x := true } := by
  have faulted := vmfault_faulted served
  unfold Machine.flagsAt
  rw [← pgrounddown_page va]
  exact ⟨faulted.mapped rfl, fun flags here => faulted.raised here rfl⟩

theorem vmfault_refused (refused : vmfault b .own va acc m = .ok (none, m')) :
    m'.flagsAt va = m.flagsAt va := by
  have faulted := vmfault_faulted refused
  unfold Machine.flagsAt
  rw [← pgrounddown_page va]
  exact faulted.stays rfl

-- Loads of consecutive bytes, in ascending order, that all succeed with these bytes.
inductive Loads (b : Build) : Machine → Nat → List UInt8 → Machine → Prop
  | done (m : Machine) (va : Nat) : Loads b m va [] m
  | load (n pa va : Nat) (bytes : List UInt8) (m m₁ m' : Machine) : Accessed b va .read n m (some pa) m₁ →
      Loads b m₁ (va + 1) bytes m' → Loads b m va (m₁.mem pa (va % 4096) :: bytes) m'

-- Stores of consecutive bytes, in ascending order, that all succeed.
inductive Stores (b : Build) : Machine → Nat → List UInt8 → Machine → Prop
  | done (m : Machine) (va : Nat) : Stores b m va [] m
  | store (n pa va : Nat) (byte : UInt8) (bytes : List UInt8) (m m₁ m' : Machine) :
      Accessed b va .write n m (some pa) m₁ →
      Stores b (m₁.storeByte pa (va % 4096) byte) (va + 1) bytes m' → Stores b m va (byte :: bytes) m'

theorem loads_nil : Loads b m va [] m' ↔ m' = m := by
  constructor
  · intro loads
    cases loads
    rfl
  · rintro rfl
    exact .done _ va

theorem loads_append (bytes more : List UInt8) : Loads b m va (bytes ++ more) m' ↔
    ∃ m₁, Loads b m va bytes m₁ ∧ Loads b m₁ (va + bytes.length) more m' := by
  induction bytes generalizing m va with
  | nil => simp [loads_nil]
  | cons byte bytes ih =>
    have next : va + (byte :: bytes).length = va + 1 + bytes.length := by
      rw [List.length_cons]
      omega
    rw [List.cons_append, next]
    constructor
    · intro loads
      cases loads with
      | load n pa _ _ _ m₁ _ accessed rest =>
        obtain ⟨m₂, first, later⟩ := ih.mp rest
        exact ⟨m₂, .load n pa va bytes m m₁ m₂ accessed first, later⟩
    · rintro ⟨m₂, first, later⟩
      cases first with
      | load n pa _ _ _ m₁ _ accessed rest =>
        exact .load n pa va _ m m₁ m' accessed (ih.mpr ⟨m₂, rest, later⟩)

def Machine.pageBytes (m : Machine) (pa off n : Nat) : List UInt8 :=
  (List.range n).map fun k => m.mem pa (off + k)

theorem Machine.pageBytes_succ (m : Machine) (pa off n : Nat) :
    m.pageBytes pa off (n + 1) = m.mem pa off :: m.pageBytes pa (off + 1) n := by
  unfold Machine.pageBytes
  rw [List.range_succ_eq_map, List.map_cons, List.map_map, Nat.add_zero]
  congr 1
  apply List.map_congr_left
  intro k _
  exact congrArg (m.mem pa) (by omega)

@[simp] theorem Machine.length_pageBytes (m : Machine) (pa off n : Nat) :
    (m.pageBytes pa off n).length = n := by
  simp [Machine.pageBytes]

theorem loads_reached {pa : Nat} {bytes : List UInt8} (reached : m.translate va .read = some pa)
    (inside : va % 4096 + bytes.length ≤ 4096) :
    Loads b m va bytes m' ↔ m' = m ∧ bytes = m.pageBytes pa (va % 4096) bytes.length := by
  induction bytes generalizing va with
  | nil => simp [loads_nil, Machine.pageBytes]
  | cons byte bytes ih =>
    rw [List.length_cons] at inside
    rw [List.length_cons, Machine.pageBytes_succ]
    by_cases last : bytes = []
    · subst last
      constructor
      · intro loads
        cases loads with
        | load n pa' _ _ _ m₁ _ accessed rest =>
          obtain ⟨_, same, rfl⟩ := (accessed_of_translate reached).mp accessed
          obtain rfl := Option.some.inj same
          obtain rfl := loads_nil.mp rest
          exact ⟨rfl, rfl⟩
      · rintro ⟨rfl, same⟩
        rw [List.cons.inj same |>.1]
        exact .load 0 pa va [] m' m' m' (.permitted m' pa reached) (.done m' _)
    · have more := List.length_pos_of_ne_nil last
      have page : (va + 1) / 4096 = va / 4096 := by omega
      have next : (va + 1) % 4096 = va % 4096 + 1 := by omega
      have rest := @ih (va + 1) ((m.translate_page page).trans reached) (by omega)
      rw [next] at rest
      constructor
      · intro loads
        cases loads with
        | load n pa' _ _ _ m₁ _ accessed later =>
          obtain ⟨_, same, rfl⟩ := (accessed_of_translate reached).mp accessed
          obtain rfl := Option.some.inj same
          obtain ⟨rfl, bytes_⟩ := rest.mp later
          exact ⟨rfl, congrArg _ bytes_⟩
      · rintro ⟨rfl, same⟩
        obtain ⟨rfl, bytes_⟩ := List.cons.inj same
        exact .load 0 pa va bytes m' m' m' (.permitted m' pa reached) (rest.mpr ⟨rfl, bytes_⟩)

theorem loads_page {bytes : List UInt8} (some_ : bytes ≠ []) (inside : va % 4096 + bytes.length ≤ 4096) :
    Loads b m va bytes m' ↔ ∃ n pa, Accessed b va .read n m (some pa) m' ∧
      bytes = m'.pageBytes pa (va % 4096) bytes.length := by
  constructor
  · intro loads
    cases loads with
    | done => contradiction
    | load n pa _ bytes _ m₁ _ accessed rest =>
      have reached := accessed.reached rfl
      have again := Loads.load 0 pa va bytes m₁ m₁ m' (.permitted m₁ pa reached) rest
      obtain ⟨rfl, same⟩ := (loads_reached reached inside).mp again
      exact ⟨n, pa, accessed, same⟩
  · rintro ⟨n, pa, accessed, same⟩
    have reached := accessed.reached rfl
    have again := (loads_reached (b := b) reached inside).mpr ⟨rfl, same⟩
    cases again with
    | done => contradiction
    | load n' pa' _ bytes _ m₁ _ accessed' rest =>
      obtain ⟨_, frame, rfl⟩ := (accessed_of_translate reached).mp accessed'
      obtain rfl := Option.some.inj frame
      exact .load n pa' va bytes m m₁ m₁ accessed rest

theorem loads_from {va' : Nat} {bytes : List UInt8} (same : bytes ≠ [] → va = va') :
    Loads b m va bytes m' ↔ Loads b m va' bytes m' := by
  by_cases empty : bytes = []
  · subst empty
    rw [loads_nil, loads_nil]
  · rw [same empty]

end SystemsSuite.Paging
