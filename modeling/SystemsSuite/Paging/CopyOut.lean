import SystemsSuite.Paging.CopyIn

set_option autoImplicit false

namespace SystemsSuite.Paging

open Lib Prog

variable {b : Build} {m m₁ m' m'' : Machine} {va : Nat}

def Machine.moved (m : Machine) (pa off : Nat) (src : List UInt8) : Machine :=
  m.fill pa fun k => if off ≤ k ∧ k < off + src.length then src.getD (k - off) 0 else m.mem pa k

theorem memmove_ok (pa off : Nat) (src : List UInt8) : memmove pa off src m = .ok ((), m.moved pa off src) := rfl

theorem Machine.moved_nil (m : Machine) (pa off : Nat) : m.moved pa off [] = m := by
  unfold Machine.moved Machine.fill
  have same : (fun k => if off ≤ k ∧ k < off + ([] : List UInt8).length then [].getD (k - off) 0
      else m.mem pa k) = m.mem pa := by
    funext k
    rw [if_neg (by simp)]
  rw [same, Function.update_eq_self]

theorem Machine.moved_cons (m : Machine) (pa off : Nat) (byte : UInt8) (src : List UInt8) :
    m.moved pa off (byte :: src) = (m.storeByte pa off byte).moved pa (off + 1) src := by
  unfold Machine.storeByte Machine.moved Machine.fill
  simp only [Function.update_idem, Function.update_self]
  congr 2
  funext k
  rw [List.length_cons, Function.update_apply]
  by_cases here : k = off
  · subst here
    simp
  · by_cases later : off + 1 ≤ k ∧ k < off + 1 + src.length
    · have index : k - off = k - (off + 1) + 1 := by omega
      rw [if_pos (by omega), if_pos later, index, List.getD_cons_succ]
    · rw [if_neg (by omega), if_neg later, if_neg here]

theorem Machine.translate_storeByte (m : Machine) (pa off va : Nat) (byte : UInt8) (acc : Access) :
    (m.storeByte pa off byte).translate va acc = m.translate va acc := rfl

theorem stores_nil : Stores b m va [] m' ↔ m' = m := by
  constructor
  · intro stores
    cases stores
    rfl
  · rintro rfl
    exact .done _ va

theorem Stores.unique {bytes : List UInt8} (left : Stores b m va bytes m') (right : Stores b m va bytes m'') :
    m' = m'' := by
  induction left with
  | done m va => exact (stores_nil.mp right).symm
  | store n pa va byte bytes m m₁ m' accessed _ ih =>
    cases right with
    | store n' pa' _ _ _ _ m₁' _ accessed' rest =>
      obtain ⟨_, same, rfl⟩ := accessed.unique accessed'
      obtain rfl := Option.some.inj same
      exact ih rest

-- A store at `va` does not need the permissions of a mapped page raised: the page is writable, or it is not mapped
-- and a fault maps it writable.
def Machine.WritableAtOnce (m : Machine) (va : Nat) : Prop :=
  (m.translate va .write).isSome = true ∨
    m.flagsAt va = none ∧ (m.books.faultPerm (pgrounddown va)).w = true

-- Stores that succeed without raising the permissions of a mapped page.
inductive StoresAtOnce (b : Build) : Machine → Nat → List UInt8 → Machine → Prop
  | done (m : Machine) (va : Nat) : StoresAtOnce b m va [] m
  | store (n pa va : Nat) (byte : UInt8) (bytes : List UInt8) (m m₁ m' : Machine) :
      m.WritableAtOnce va → Accessed b va .write n m (some pa) m₁ →
      StoresAtOnce b (m₁.storeByte pa (va % 4096) byte) (va + 1) bytes m' →
      StoresAtOnce b m va (byte :: bytes) m'

theorem StoresAtOnce.stores {bytes : List UInt8} (atOnce : StoresAtOnce b m va bytes m') :
    Stores b m va bytes m' := by
  induction atOnce with
  | done m va => exact .done m va
  | store n pa va byte bytes m m₁ m' _ accessed _ ih => exact .store n pa va byte bytes m m₁ m' accessed ih

theorem storesAtOnce_nil : StoresAtOnce b m va [] m' ↔ m' = m := by
  constructor
  · intro stores
    cases stores
    rfl
  · rintro rfl
    exact .done _ va

theorem storesAtOnce_append (bytes more : List UInt8) : StoresAtOnce b m va (bytes ++ more) m' ↔
    ∃ m₁, StoresAtOnce b m va bytes m₁ ∧ StoresAtOnce b m₁ (va + bytes.length) more m' := by
  induction bytes generalizing m va with
  | nil => simp [storesAtOnce_nil]
  | cons byte bytes ih =>
    have next : va + (byte :: bytes).length = va + 1 + bytes.length := by
      rw [List.length_cons]
      omega
    rw [List.cons_append, next]
    constructor
    · intro stores
      cases stores with
      | store n pa _ _ _ _ m₁ _ ready accessed rest =>
        obtain ⟨m₂, first, later⟩ := ih.mp rest
        exact ⟨m₂, .store n pa va byte bytes m m₁ m₂ ready accessed first, later⟩
    · rintro ⟨m₂, first, later⟩
      cases first with
      | store n pa _ _ _ _ m₁ _ ready accessed rest =>
        exact .store n pa va byte _ m m₁ m' ready accessed (ih.mpr ⟨m₂, rest, later⟩)

theorem stores_reached {pa : Nat} {bytes : List UInt8} (reached : m.translate va .write = some pa)
    (inside : va % 4096 + bytes.length ≤ 4096) :
    StoresAtOnce b m va bytes m' ↔ m' = m.moved pa (va % 4096) bytes := by
  induction bytes generalizing m va with
  | nil => rw [storesAtOnce_nil, Machine.moved_nil]
  | cons byte bytes ih =>
    rw [List.length_cons] at inside
    rw [Machine.moved_cons]
    have rest : StoresAtOnce b (m.storeByte pa (va % 4096) byte) (va + 1) bytes m' ↔
        m' = (m.storeByte pa (va % 4096) byte).moved pa (va % 4096 + 1) bytes := by
      by_cases last : bytes = []
      · subst last
        rw [storesAtOnce_nil, Machine.moved_nil]
      · have more := List.length_pos_of_ne_nil last
        have page : (va + 1) / 4096 = va / 4096 := by omega
        have next : (va + 1) % 4096 = va % 4096 + 1 := by omega
        rw [← next]
        apply ih
        · rw [Machine.translate_storeByte, m.translate_page page]
          exact reached
        · omega
    rw [← rest]
    constructor
    · intro stores
      cases stores with
      | store n pa' _ _ _ _ m₁ _ _ accessed later =>
        obtain ⟨_, same, rfl⟩ := (accessed_of_translate reached).mp accessed
        obtain rfl := Option.some.inj same
        exact later
    · have ready : m.WritableAtOnce va := by
        left
        rw [reached]
        rfl
      exact .store 0 pa va byte bytes m m m' ready (.permitted m pa reached)

theorem stores_page {bytes : List UInt8} (some_ : bytes ≠ []) (inside : va % 4096 + bytes.length ≤ 4096) :
    StoresAtOnce b m va bytes m' ↔ ∃ n pa m₁, m.WritableAtOnce va ∧ Accessed b va .write n m (some pa) m₁ ∧
      m' = m₁.moved pa (va % 4096) bytes := by
  constructor
  · intro stores
    cases stores with
    | done => contradiction
    | store n pa _ byte bytes _ m₁ _ ready accessed rest =>
      have reached := accessed.reached rfl
      have writable : m₁.WritableAtOnce va := by
        left
        rw [reached]
        rfl
      have again := StoresAtOnce.store 0 pa va byte bytes m₁ m₁ m' writable (.permitted m₁ pa reached) rest
      exact ⟨n, pa, m₁, ready, accessed, (stores_reached reached inside).mp again⟩
  · rintro ⟨n, pa, m₁, ready, accessed, same⟩
    have reached := accessed.reached rfl
    have again := (stores_reached (b := b) reached inside).mpr same
    cases again with
    | done => contradiction
    | store n' pa' _ byte bytes _ m₂ _ _ accessed' rest =>
      obtain ⟨_, frame, rfl⟩ := (accessed_of_translate reached).mp accessed'
      obtain rfl := Option.some.inj frame
      exact .store n pa' va byte bytes m m₂ m' ready accessed rest

theorem stores_from {va' : Nat} {bytes : List UInt8} (same : bytes ≠ [] → va = va') :
    StoresAtOnce b m va bytes m' ↔ StoresAtOnce b m va' bytes m' := by
  by_cases empty : bytes = []
  · subst empty
    rw [storesAtOnce_nil, storesAtOnce_nil]
  · rw [same empty]

-- The part of a round of `copyout` that comes before the bytes are moved.
def writableFrame (b : Build) (t : Target) (va0 : Nat) : Kern (Option Nat) := do
  if va0 ≥ maxva then pure none
  else
    match ← walkaddrOrFault b t va0 with
    | none => pure none
    | some pa0 =>
      match ((← read).table t).leaf va0 with
      | none => pure none
      | some leaf => pure (if leaf.flags.w then some pa0 else none)

theorem copyoutLoop_succ (t : Target) (rounds dstva : Nat) (src : List UInt8) (some_ : src ≠ []) :
    copyoutLoop b t (rounds + 1) dstva src = (do
      match ← writableFrame b t (pgrounddown dstva) with
      | none => pure false
      | some pa0 => do
        let n := min (4096 - (dstva - pgrounddown dstva)) src.length
        memmove pa0 (dstva - pgrounddown dstva) (src.take n)
        copyoutLoop b t rounds (pgrounddown dstva + 4096) (src.drop n)) := by
  rw [copyoutLoop]
  unfold writableFrame
  rw [if_neg some_]
  by_cases high : pgrounddown dstva ≥ maxva
  · simp only [if_pos high, pure_bind]
  · simp only [if_neg high, bind_assoc]
    congr 1
    funext r
    cases r with
    | none => rfl
    | some pa0 =>
      simp only [bind_assoc]
      congr 1
      funext m
      cases (m.table t).leaf (pgrounddown dstva) with
      | none => rfl
      | some leaf =>
        cases writable : leaf.flags.w with
        | false => simp [writable]
        | true => simp [writable]

theorem Machine.userFrame_isSome : (m.userFrame (pgrounddown va)).isSome = true ↔
    ∃ flags, m.flagsAt va = some flags ∧ flags.u = true := by
  unfold Machine.userFrame
  by_cases high : pgrounddown va ≥ maxva
  · have absent : m.flagsAt va = none := by
      refine if_neg ?_
      unfold pgrounddown maxva at *
      omega
    simp [high, absent]
  · have below := pgrounddown_below.mp (Nat.lt_of_not_le high)
    rw [if_neg high, PageTable.leaf_page _ (pgrounddown_page va), Machine.flagsAt_leaf below]
    cases m.proc.pagetable.leaf va with
    | none => simp
    | some leaf => simp [Option.filter_some]

-- The last check of `copyout` makes the frame one that a user store reaches.
theorem Machine.userFrame_writable {pa : Nat} : (m.userFrame (pgrounddown va) = some pa ∧
    ∃ leaf, m.proc.pagetable.leaf (pgrounddown va) = some leaf ∧ leaf.flags.w = true) ↔
      m.translate va .write = some pa := by
  rw [← m.translate_page (pgrounddown_page va)]
  unfold Machine.userFrame Machine.translate
  by_cases high : pgrounddown va ≥ maxva
  · simp [high]
  · rw [if_neg high, if_neg high]
    cases m.proc.pagetable.leaf (pgrounddown va) with
    | none => simp
    | some leaf =>
      cases user : leaf.flags.u <;> cases writable : leaf.flags.w <;>
        simp [Option.filter_some, Leaf.allows, user, writable]

-- `walkaddr` answers at once or after one fault.
theorem walkaddrOrFault_ok {r : Option Nat} : walkaddrOrFault b .own (pgrounddown va) m = .ok (r, m') ↔
    r = m'.userFrame (pgrounddown va) ∧ ((m.userFrame (pgrounddown va)).isSome = true ∧ m' = m ∨
      m.userFrame (pgrounddown va) = none ∧ ∃ served, vmfault b .own va .write m = .ok (served, m')) := by
  unfold walkaddrOrFault
  rw [ok_bind, walkaddr_ok]
  cases found : m.userFrame (pgrounddown va) with
  | some pa =>
    constructor
    · rintro ⟨_, _, first, rest⟩
      cases first
      obtain ⟨rfl, rfl⟩ := ok_pure.mp rest
      exact ⟨found.symm, .inl ⟨rfl, rfl⟩⟩
    · rintro ⟨rfl, ⟨_, rfl⟩ | ⟨absent, _⟩⟩
      · exact ⟨_, _, rfl, ok_pure.mpr ⟨found.symm, rfl⟩⟩
      · contradiction
  | none =>
    constructor
    · rintro ⟨_, _, first, rest⟩
      cases first
      obtain ⟨served, m₁, faulted, again⟩ := ok_bind.mp rest
      rw [vmfault_page] at faulted
      rw [walkaddr_ok] at again
      obtain ⟨rfl, rfl⟩ := ok_pure.mp again
      exact ⟨rfl, .inr ⟨rfl, served, faulted⟩⟩
    · rintro ⟨rfl, ⟨absent, _⟩ | ⟨_, served, faulted⟩⟩
      · contradiction
      · refine ⟨none, m, rfl, ok_bind.mpr ⟨served, m', ?_, walkaddr_ok _⟩⟩
        rw [vmfault_page]
        exact faulted

-- The frame that `writableFrame` finds is the one of the machine it leaves.
theorem writableFrame_ok {pa : Nat} : writableFrame b .own (pgrounddown va) m = .ok (some pa, m') ↔
    m'.translate va .write = some pa ∧ ((m.userFrame (pgrounddown va)).isSome = true ∧ m' = m ∨
      m.userFrame (pgrounddown va) = none ∧ ∃ served, vmfault b .own va .write m = .ok (served, m')) := by
  unfold writableFrame
  by_cases high : pgrounddown va ≥ maxva
  · rw [if_pos high]
    constructor
    · exact fun ran => absurd (ok_pure.mp ran).1 (by simp)
    · intro reached
      rw [← Machine.userFrame_writable, Machine.userFrame, if_pos high] at reached
      exact absurd reached.1.1 (by simp)
  · rw [if_neg high, ok_bind, ← Machine.userFrame_writable]
    constructor
    · rintro ⟨r, m₁, first, rest⟩
      obtain ⟨found, asked⟩ := walkaddrOrFault_ok.mp first
      cases r with
      | none => exact absurd (ok_pure.mp rest).1 (by simp)
      | some pa0 =>
        obtain ⟨_, _, same, checked⟩ := ok_bind.mp rest
        obtain ⟨rfl, rfl⟩ := ok_read.mp same
        cases mapped : (m₁.table .own).leaf (pgrounddown va) with
        | none =>
          simp only [mapped] at checked
          exact absurd (ok_pure.mp checked).1 (by simp)
        | some leaf =>
          simp only [mapped] at checked
          obtain ⟨frame, rfl⟩ := ok_pure.mp checked
          split_ifs at frame with writable
          obtain rfl := Option.some.inj frame
          exact ⟨⟨found.symm, leaf, mapped, writable⟩, asked⟩
    · rintro ⟨⟨found, leaf, mapped, writable⟩, asked⟩
      refine ⟨some pa, m', walkaddrOrFault_ok.mpr ⟨found.symm, asked⟩, ?_⟩
      refine ok_bind.mpr ⟨m', m', rfl, ?_⟩
      have here : (m'.table .own).leaf (pgrounddown va) = some leaf := mapped
      simp only [here]
      exact ok_pure.mpr ⟨if_pos writable, rfl⟩

theorem Machine.userFrame_none (absent : m.userFrame (pgrounddown va) = none) {flags : Flags}
    (here : m.flagsAt va = some flags) : flags.u = false := by
  by_contra user
  have found := Machine.userFrame_isSome.mpr ⟨flags, here, Bool.not_eq_false _ ▸ user⟩
  rw [absent] at found
  contradiction

theorem Machine.userFrame_of_translate {acc : Access} (reached : (m.translate va acc).isSome = true) :
    (m.userFrame (pgrounddown va)).isSome = true := by
  obtain ⟨flags, here, allowed⟩ := Machine.translate_isSome.mp reached
  refine Machine.userFrame_isSome.mpr ⟨flags, here, ?_⟩
  cases acc <;> exact (Bool.and_eq_true _ _ ▸ allowed).1

theorem Machine.flagsAt_of_translate {pa : Nat} {acc : Access} (reached : m.translate va acc = some pa) :
    ∃ flags, m.flagsAt va = some flags ∧ (Leaf.mk 0 flags).allows acc = true := by
  apply Machine.translate_isSome.mp
  rw [reached]
  rfl

-- One page for `copyout` is one store that needs no permissions raised.
theorem writableFrame_accessed {pa : Nat} : writableFrame b .own (pgrounddown va) m = .ok (some pa, m') ↔
    m.WritableAtOnce va ∧ ∃ n, Accessed b va .write n m (some pa) m' := by
  rw [writableFrame_ok]
  constructor
  · rintro ⟨reached, ⟨_, rfl⟩ | ⟨absent, served, faulted⟩⟩
    · refine ⟨.inl ?_, 0, .permitted m' pa reached⟩
      rw [reached]
      rfl
    · obtain ⟨flags, here, allowed⟩ := Machine.flagsAt_of_translate reached
      have user : flags.u = true ∧ flags.w = true := by simpa [Leaf.allows] using allowed
      have before : m.translate va .write = none := by
        by_contra other
        have found := Machine.userFrame_of_translate (Option.isSome_iff_ne_none.mpr other)
        rw [absent] at found
        contradiction
      cases served with
      | none =>
        rw [vmfault_refused faulted] at here
        rw [Machine.userFrame_none absent here] at user
        simp at user
      | some pa' =>
        obtain ⟨mapped, raised⟩ := vmfault_served faulted
        refine ⟨.inr ?_, 1, .again 0 pa' m m' m' _ before faulted (.permitted m' pa reached)⟩
        cases old : m.flagsAt va with
        | none =>
          rw [mapped old] at here
          obtain rfl := Option.some.inj here
          exact ⟨rfl, user.2⟩
        | some flags₀ =>
          have noUser := Machine.userFrame_none absent old
          rcases raised flags₀ old with ⟨_, _, new⟩ | ⟨exec, _⟩
          · rw [new] at here
            obtain rfl := Option.some.inj here
            exact absurd (user.1.symm.trans noUser) (by simp)
          · cases exec
  · rintro ⟨ready, n, accessed⟩
    refine ⟨accessed.reached rfl, ?_⟩
    cases accessed with
    | permitted _ _ reached =>
      have found : (m.translate va .write).isSome = true := by
        rw [reached]
        rfl
      exact .inl ⟨Machine.userFrame_of_translate found, rfl⟩
    | again n pa' _ m₁ _ _ before served rest =>
      rcases ready with direct | ⟨unmapped, writable⟩
      · rw [before] at direct
        contradiction
      · have mapped := (vmfault_served served).1 unmapped
        have absent : m.userFrame (pgrounddown va) = none := by
          by_contra other
          obtain ⟨flags, here, _⟩ := Machine.userFrame_isSome.mp (Option.isSome_iff_ne_none.mpr other)
          rw [unmapped] at here
          contradiction
        cases rest with
        | permitted => exact .inr ⟨absent, some pa', served⟩
        | again _ _ _ _ _ _ _ again =>
          rcases (vmfault_served again).2 _ mapped with ⟨_, readOnly, _⟩ | ⟨exec, _⟩
          · rw [writable] at readOnly
            contradiction
          · cases exec

theorem copyoutLoop_stores {rounds dstva : Nat} {src : List UInt8} (enough : src.length ≤ rounds) :
    copyoutLoop b .own rounds dstva src m = .ok (true, m') ↔ StoresAtOnce b m dstva src m' := by
  induction rounds generalizing m dstva src with
  | zero =>
    obtain rfl := List.eq_nil_of_length_eq_zero (Nat.le_zero.mp enough)
    rw [copyoutLoop, ok_pure, storesAtOnce_nil]
    simp [eq_comm]
  | succ rounds ih =>
    by_cases empty : src = []
    · subst empty
      rw [copyoutLoop, if_pos rfl, ok_pure, storesAtOnce_nil]
      simp [eq_comm]
    · rw [copyoutLoop_succ _ _ _ _ empty]
      simp only [sub_pgrounddown]
      generalize size : min (4096 - dstva % 4096) src.length = n
      have within : dstva % 4096 < 4096 := Nat.mod_lt _ (by decide)
      have positive := List.length_pos_of_ne_nil empty
      have front : (src.take n).length = n := by
        rw [List.length_take]
        omega
      have some_ : src.take n ≠ [] := List.ne_nil_of_length_pos (by omega)
      have address {m₁ : Machine} : StoresAtOnce b m₁ (dstva + n) (src.drop n) m' ↔
          StoresAtOnce b m₁ (pgrounddown dstva + 4096) (src.drop n) m' := by
        apply stores_from
        intro more
        have left := List.length_pos_of_ne_nil more
        rw [List.length_drop] at left
        rw [← size]
        exact next_page (by omega)
      have later {m₁ : Machine} := @ih m₁ (pgrounddown dstva + 4096) (src.drop n)
        (by rw [List.length_drop]; omega)
      rw [← src.take_append_drop n, storesAtOnce_append, front, List.take_append_drop]
      constructor
      · intro ran
        obtain ⟨r, m₁, first, rest⟩ := ok_bind.mp ran
        cases r with
        | none => exact absurd (ok_pure.mp rest).1 (by simp)
        | some pa =>
          obtain ⟨ready, n', accessed⟩ := writableFrame_accessed.mp first
          obtain ⟨_, m₂, copied, looped⟩ := ok_bind.mp rest
          rw [memmove_ok] at copied
          cases copied
          refine ⟨_, ?_, address.mpr (later.mp looped)⟩
          exact (stores_page some_ (by omega)).mpr ⟨n', pa, m₁, ready, accessed, rfl⟩
      · rintro ⟨m₂, first, rest⟩
        obtain ⟨n', pa, m₁, ready, accessed, rfl⟩ := (stores_page some_ (by omega)).mp first
        refine ok_bind.mpr ⟨some pa, m₁, writableFrame_accessed.mpr ⟨ready, n', accessed⟩, ?_⟩
        exact ok_bind.mpr ⟨(), _, memmove_ok _ _ _, later.mpr (address.mp rest)⟩

-- `copyout` succeeds exactly when user stores to the range would, and leaves what they leave.
def Machine.CopiesAsStores (b : Build) (m : Machine) (dst : Nat) (src : List UInt8) : Prop :=
  (∀ m', Stores b m dst src m' → copyout b .own dst src m = .ok (true, m')) ∧
    ∀ m', copyout b .own dst src m = .ok (true, m') → Stores b m dst src m'

theorem copyout_as_stores (m : Machine) (dst : Nat) (src : List UInt8) : m.CopiesAsStores b dst src ↔
    ∀ m', Stores b m dst src m' → StoresAtOnce b m dst src m' := by
  constructor
  · intro agrees m' stores
    exact (copyoutLoop_stores le_rfl).mp (agrees.1 m' stores)
  · intro atOnce
    refine ⟨fun m' stores => ?_, fun m' copied => ?_⟩
    · exact (copyoutLoop_stores le_rfl).mpr (atOnce m' stores)
    · exact StoresAtOnce.stores ((copyoutLoop_stores le_rfl).mp copied)

-- A lazily granted heap page: the program can store to it, the kernel cannot.
theorem copyout_refuses_heap : ∃ m₀ m : Machine, m₀.Execed .small ∧ (m₀.lineage .small).Reachable m ∧
    ¬ m.CopiesAsStores .small 0x4000 [42] := by
  obtain ⟨m₀, m, execed, reached, shown⟩ := Machine.run_shows (b := .small) 40 (oneSegment 7) shortArgv
    [.sbrk 12288 2] (fun _ _ => true)
    (fun _ m => ((access .small 0x4000 .write 3 m).toOption.any fun r => (r.1.bind id).isSome) &&
      (copyout .small .own 0x4000 [42] m).toOption.any fun r => !r.1)
    (fun _ _ _ => trivial) (by decide +kernel)
  refine ⟨m₀, m, execed, reached, fun agrees => ?_⟩
  rw [Bool.and_eq_true] at shown
  obtain ⟨stored, refused⟩ := shown
  cases ran : access .small 0x4000 .write 3 m with
  | error panic =>
    rw [ran] at stored
    contradiction
  | ok r =>
    obtain ⟨r, m₁⟩ := r
    rw [ran] at stored
    obtain ⟨pa, rfl⟩ : ∃ pa, r = some (some pa) := by
      change ((r.bind id).isSome) = true at stored
      obtain ⟨pa, frame⟩ := Option.isSome_iff_exists.mp stored
      obtain ⟨_, rfl, same⟩ := Option.bind_eq_some_iff.mp frame
      exact ⟨pa, congrArg some same⟩
    obtain ⟨n, accessed⟩ := accessed_of_run ran
    have copied := agrees.1 _ (.store n pa _ 42 [] m m₁ _ accessed (.done _ _))
    rw [copied] at refused
    contradiction

end SystemsSuite.Paging
