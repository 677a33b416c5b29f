import SystemsSuite.Paging.Accesses

set_option autoImplicit false

namespace SystemsSuite.Paging

open Lib Prog

def walkaddrOrLoad (b : Build) (t : Target) (va0 : Nat) : Kern (Option Nat) := do
  match ← walkaddr t va0 with
  | some pa0 => pure (some pa0)
  | none =>
    let _ ← vmfault b t va0 .read
    walkaddr t va0

-- Whether the result is 0, and the bytes put into `dst`. Each round copies at least one byte, so the
-- length bounds the rounds.
def copyinLoop (b : Build) (t : Target) : Nat → Nat → Nat → Kern (Bool × List UInt8)
  | 0, _, _ => pure (true, [])
  | rounds + 1, srcva, len => do
    if len = 0 then pure (true, [])
    else
      let va0 := pgrounddown srcva
      match ← walkaddrOrLoad b t va0 with
      | none => pure (false, [])
      | some pa0 =>
        let n := min (4096 - (srcva - va0)) len
        let copied := (← read).pageBytes pa0 (srcva - va0) n
        let rest ← copyinLoop b t rounds (va0 + 4096) (len - n)
        pure (rest.1, copied ++ rest.2)

def copyin (b : Build) (t : Target) (srcva len : Nat) : Kern (Bool × List UInt8) :=
  copyinLoop b t len srcva len

-- The inner loop over the `n` bytes from `p` on: the bytes put into `dst`, `max` and `got_null`.
def copyString (page : Page) : Nat → Nat → Nat → List UInt8 × Nat × Bool
  | 0, max, _ => ([], max, false)
  | n + 1, max, p =>
    if page p = 0 then ([0], max, true)
    else
      let rest := copyString page n (max - 1) (p + 1)
      (page p :: rest.1, rest.2)

def copyinstrLoop (b : Build) (t : Target) : Nat → Nat → Nat → Kern (Bool × List UInt8)
  | 0, _, _ => pure (false, [])
  | rounds + 1, srcva, max => do
    if max = 0 then pure (false, [])
    else
      let va0 := pgrounddown srcva
      match ← walkaddrOrLoad b t va0 with
      | none => pure (false, [])
      | some pa0 =>
        let n := min (4096 - (srcva - va0)) max
        let copied := copyString ((← read).mem pa0) n max (srcva - va0)
        if copied.2.2 then pure (true, copied.1)
        else
          let rest ← copyinstrLoop b t rounds (va0 + 4096) copied.2.1
          pure (rest.1, copied.1 ++ rest.2)

def copyinstr (b : Build) (t : Target) (srcva max : Nat) : Kern (Bool × List UInt8) :=
  copyinstrLoop b t max srcva max

variable {b : Build} {m m' : Machine} {va : Nat}

-- Every user page is readable, and so are the permissions kept for pages in swap.
structure Books.Readable (v : Books) : Prop where
  pages : ∀ vpn flags, v.pte vpn = some flags → flags.u = true → flags.r = true
  entries : ∀ e ∈ v.entries, e.perm.u = true → e.perm.r = true

namespace Books.Readable

variable {v v' : Books}

theorem congr (readable : v.Readable) (pte : v'.pte = v.pte) (entries : v'.entries = v.entries) :
    v'.Readable := by
  refine ⟨?_, ?_⟩
  · rw [pte]
    exact readable.pages
  · rw [entries]
    exact readable.entries

theorem cleared (pages : ∀ vpn flags, v.pte vpn = some flags → flags.u = true → flags.r = true)
    (entries : v.entries = List.replicate pgmetaSize .cleared) : v.Readable := by
  refine ⟨pages, fun e member => ?_⟩
  rw [entries] at member
  rw [List.eq_of_mem_replicate member]
  exact nofun

theorem evict {ok : Bool} (readable : v.Readable) (evict : v.Evict ok v') : v'.Readable := by
  refine ⟨fun vpn flags here => readable.pages vpn flags (evict.removes here), fun e member => ?_⟩
  rcases evict.mem member with rfl | ⟨old, before, _, perm, _⟩
  · exact nofun
  · rw [perm]
    exact readable.entries old before

theorem obtain_ {ok : Bool} (readable : v.Readable) (obtained : v.Obtain ok v') : v'.Readable := by
  cases obtained with
  | free => exact readable
  | evicted _ _ evict => exact readable.evict evict
  | failed _ evict => exact readable.evict evict

theorem noted (readable : v.Readable) (va : Nat) : (v.noted va).Readable := by
  refine ⟨?_, fun e member => ?_⟩
  · rw [noted_pte]
    exact readable.pages
  · rcases mem_noted member with old | rfl
    · exact readable.entries e old
    · exact nofun

theorem mapped (readable : v.Readable) (t : Target) (va : Nat) {flags : Flags}
    (allowed : flags.u = true → flags.r = true) : (v.mapped t va flags).Readable := by
  cases t with
  | spare => exact readable.congr rfl rfl
  | own =>
    refine ⟨fun vpn flags' here user => ?_, readable.entries⟩
    change Function.update v.pte (va / 4096) (some flags) vpn = some flags' at here
    by_cases same : vpn = va / 4096
    · subst same
      rw [Function.update_self] at here
      obtain rfl := Option.some.inj here
      exact allowed user
    · rw [Function.update_of_ne same] at here
      exact readable.pages vpn flags' here user

theorem installed (readable : v.Readable) (t : Target) (va : Nat) {flags : Flags}
    (allowed : flags.u = true → flags.r = true) : (v.installed t va flags).Readable := by
  have noted := (readable.mapped t va allowed).noted va
  have pte : (v.installed t va flags).pte = ((v.mapped t va flags).noted va).pte := by
    unfold Books.installed
    rw [madeResident_eq]
  refine ⟨?_, fun e member => ?_⟩
  · rw [pte]
    exact noted.pages
  · rcases mem_madeResident member with old | ⟨old, _, _, rfl⟩
    · exact noted.entries e old
    · exact allowed

theorem fault {vaPg : Nat} {acc : Access} {ok : Bool} (readable : v.Readable)
    (faulted : Faulted vaPg acc v ok v') : v'.Readable := by
  cases faulted with
  | refused => exact readable
  | widened flags here =>
    apply Readable.noted
    exact readable.mapped .own vaPg (readable.pages _ flags here)
  | madeExec flags _ here =>
    apply readable.mapped
    exact readable.pages _ flags here
  | starved _ _ obtained => exact readable.obtain_ obtained
  | zeroStarved _ _ _ obtained => exact (readable.noted vaPg).obtain_ obtained
  | swappedIn seg i w _ _ _ _ obtained =>
    have before := readable.obtain_ obtained
    have kept : (w.entryAt i).perm.u = true → (w.entryAt i).perm.r = true := by
      unfold entryAt
      rw [List.getD_eq_getElem?_getD]
      cases here : w.entries[i]? with
      | none => exact nofun
      | some e => exact before.entries e (List.mem_iff_getElem?.mpr ⟨i, here⟩)
    have allowed : (swapPerm (w.entryAt i) seg).u = true → (swapPerm (w.entryAt i) seg).r = true := by
      unfold swapPerm
      split_ifs
      · exact fun _ => rfl
      · exact kept
    refine ⟨(before.mapped .own vaPg allowed).pages, fun e member => ?_⟩
    rcases mem_modify (v := w) member with old | ⟨old, held, _, rfl⟩
    · exact before.entries e old
    · exact before.entries old held
  | loaded seg _ _ _ _ obtained => exact (readable.obtain_ obtained).installed .own vaPg fun _ => rfl
  | zeroed _ _ _ _ obtained =>
    exact ((readable.noted vaPg).obtain_ obtained).installed .own vaPg fun _ => rfl

theorem grow {t : Target} {perm : Flags} {n a stop : Nat} {ok : Bool} (readable : v.Readable)
    (allowed : perm.u = true → perm.r = true) (grow : Grow t perm n a v ok stop v') : v'.Readable := by
  induction grow with
  | done => exact readable
  | starved _ _ _ _ obtained => exact readable.obtain_ obtained
  | page _ _ _ _ _ _ _ obtained _ _ _ ih =>
    exact ih ((readable.obtain_ obtained).installed t _ allowed)

theorem unmapped (readable : v.Readable) (a n : Nat) : (v.unmapped .own a n).Readable :=
  ⟨fun vpn flags here => readable.pages vpn flags (unmapped_removes here).1, readable.entries⟩

theorem moved {n t : Nat} {ok : Bool} (readable : v.Readable) (moved : Moved n t v ok v') :
    v'.Readable := by
  cases moved with
  | kept => exact readable
  | refused => exact readable
  | shrunk => exact (readable.unmapped _ _).congr rfl rfl
  | grown _ _ _ _ _ grow => exact (readable.grow (fun _ => rfl) grow).congr rfl rfl
  | failed _ _ _ _ _ grow => exact (readable.grow (fun _ => rfl) grow).unmapped _ _
  | lazy => exact readable.congr rfl rfl

theorem sbrk {n t : Nat} {ok : Bool} (readable : v.Readable) (sbrk : Sbrk n t v ok v') : v'.Readable := by
  cases sbrk with
  | failed _ moved => exact readable.moved moved
  | unmoved _ moved => exact readable.moved moved
  | moved _ moved => exact (readable.moved moved).congr rfl rfl

theorem frames {vpn : Nat} {flags : Flags} (here : framePtes vpn = some flags) :
    flags.u = true → flags.r = true := by
  rcases framePtes_eq here with rfl | rfl
  · exact nofun
  · exact nofun

theorem born {im : Proc} (readable : v.Readable) (born : v.Born im v') : v'.Readable := by
  induction born with
  | blank => exact .cleared (fun _ _ here => frames here) rfl
  | copied w i flags _ _ here _ ih => exact ih.installed .own i (readable.pages _ flags here)

theorem fresh (fresh : v.Fresh) : v.Readable := by
  refine .cleared (fun vpn flags here user => ?_) fresh.entries
  rw [fresh.pte] at here
  unfold stackPtes at here
  by_cases stack : vpn = v.image.heapBrk / 4096 + 1
  · rw [stack, Function.update_self] at here
    obtain rfl := Option.some.inj here
    rfl
  · rw [Function.update_of_ne stack] at here
    by_cases guard : vpn = v.image.heapBrk / 4096
    · rw [guard, Function.update_self] at here
      obtain rfl := Option.some.inj here
      contradiction
    · rw [Function.update_of_ne guard] at here
      exact frames here user

theorem execFailed {file : Option Inode} (readable : v.Readable) (failed : v.ExecFailed file v') :
    v'.Readable := by
  cases failed with
  | early alike => exact readable.congr alike.pte alike.entries
  | late _ _ _ w w' _ before _ grow after =>
    exact ((readable.congr before.pte before.entries).grow (fun _ => rfl) grow).congr after.pte after.entries

theorem happens {e : Event} (readable : v.Readable) (happens : v.Happens e v') : v'.Readable := by
  cases happens with
  | other => exact readable
  | setSp => exact readable.congr rfl rfl
  | fault _ _ _ _ faulted => exact readable.fault faulted
  | evict _ _ evict => exact readable.evict evict
  | sbrk _ _ _ _ sbrk => exact readable.sbrk sbrk
  | parent _ _ _ evictions =>
    exact evictions.preserves (fun _ _ _ readable evict => readable.evict evict)
      (fun _ _ readable => readable.congr rfl rfl) readable
  | child _ _ born => exact readable.born born
  | execed _ _ _ _ fresh => exact .fresh fresh
  | execFailed _ _ _ _ failed => exact readable.execFailed failed

end Books.Readable

theorem Machine.lineage_readable {m₀ : Machine} (execed : m₀.Execed b)
    (reached : (m₀.lineage b).Reachable m) : m.books.Readable := by
  refine Machine.lineage_invariant execed.fresh (.fresh execed.fresh) ?_ reached
  exact fun _ _ _ readable _ _ happens => readable.happens happens

-- The frame `walkaddr` returns.
def Machine.userFrame (m : Machine) (va : Nat) : Option Nat :=
  if va ≥ maxva then none
  else ((m.proc.pagetable.leaf va).filter fun leaf => leaf.flags.u).map Leaf.pa

theorem walkaddr_ok (va : Nat) : walkaddr .own va m = .ok (m.userFrame va, m) := by
  unfold walkaddr Machine.userFrame
  split_ifs <;> rfl

-- A readable user page is what `walkaddr` finds.
theorem Books.Readable.userFrame (readable : m.books.Readable) (va : Nat) :
    m.userFrame (pgrounddown va) = m.translate va .read := by
  rw [← m.translate_page (pgrounddown_page va)]
  unfold Machine.userFrame Machine.translate
  split_ifs with high
  · rfl
  · cases here : m.proc.pagetable.leaf (pgrounddown va) with
    | none => rfl
    | some leaf =>
      have user : leaf.flags.u = true → leaf.flags.r = true := by
        refine readable.pages (pgrounddown va / 4096) leaf.flags ?_
        refine (PageTable.ptes_leaf _ (by omega)).trans ?_
        rw [here]
        rfl
      have same : leaf.allows .read = leaf.flags.u := by
        cases bit : leaf.flags.u with
        | false => simp [Leaf.allows, bit]
        | true => simp [Leaf.allows, bit, user bit]
      rw [Option.filter_some, Option.filter_some, same]

-- A read fault on a mapped page is refused.
theorem vmfault_read_mapped {flags : Flags} (here : m.flagsAt va = some flags) {r : Option Nat}
    (faulted : vmfault b .own va .read m = .ok (r, m')) : r = none := by
  cases r with
  | none => rfl
  | some pa =>
    rcases (vmfault_served faulted).2 flags here with ⟨write, _⟩ | ⟨exec, _⟩
    · cases write
    · cases exec

-- One page for `copyin` is one load: the frame, and the machine left, are the same.
theorem walkaddrOrLoad_accessed (readable : m.books.Readable) {pa : Nat} :
    walkaddrOrLoad b .own (pgrounddown va) m = .ok (some pa, m') ↔
      ∃ n, Accessed b va .read n m (some pa) m' := by
  unfold walkaddrOrLoad
  rw [ok_bind, walkaddr_ok, readable.userFrame]
  cases reached : m.translate va .read with
  | some pa' =>
    constructor
    · rintro ⟨_, _, first, rest⟩
      cases first
      obtain ⟨same, rfl⟩ := ok_pure.mp rest
      exact ⟨0, .permitted m pa (reached.trans same)⟩
    · rintro ⟨n, accessed⟩
      obtain ⟨_, same, rfl⟩ := (accessed_of_translate reached).mp accessed
      exact ⟨_, _, rfl, ok_pure.mpr ⟨same.symm, rfl⟩⟩
  | none =>
    constructor
    · rintro ⟨_, _, first, rest⟩
      cases first
      obtain ⟨r, m₁, faulted, found⟩ := ok_bind.mp rest
      rw [vmfault_page] at faulted
      have after := readable.fault (vmfault_faulted faulted)
      rw [walkaddr_ok, after.userFrame] at found
      obtain ⟨same, rfl⟩ := ok_pure.mp found
      cases r with
      | none =>
        rw [Machine.translate_none (vmfault_refused faulted) reached] at same
        contradiction
      | some pa' => exact ⟨1, .again 0 pa' m m₁ m₁ _ reached faulted (.permitted m₁ pa same)⟩
    · rintro ⟨n, accessed⟩
      cases accessed with
      | permitted _ _ reached' => simp [reached] at reached'
      | again n pa' _ m₁ _ _ _ served rest =>
        have mapped : m₁.flagsAt va = some (m.books.faultPerm (pgrounddown va)) := by
          apply (vmfault_served served).1
          cases here : m.flagsAt va with
          | none => rfl
          | some flags =>
            have refused := vmfault_read_mapped here served
            contradiction
        have after := readable.fault (vmfault_faulted served)
        cases rest with
        | permitted _ _ found =>
          refine ⟨none, m, rfl, ok_bind.mpr ⟨some pa', m', ?_, ?_⟩⟩
          · rw [vmfault_page]
            exact served
          · rw [walkaddr_ok, after.userFrame, found]
        | again _ _ _ _ _ _ _ again =>
          have refused := vmfault_read_mapped mapped again
          contradiction

theorem Accessed.readable {acc : Access} {n : Nat} {r : Option Nat} (accessed : Accessed b va acc n m r m')
    (readable : m.books.Readable) : m'.books.Readable := by
  induction accessed with
  | permitted => exact readable
  | killed _ _ _ refused => exact (readable.fault (vmfault_faulted refused)).congr rfl rfl
  | again _ _ _ _ _ _ _ served _ ih => exact ih (readable.fault (vmfault_faulted served))

theorem sub_pgrounddown (va : Nat) : va - pgrounddown va = va % 4096 := by
  unfold pgrounddown
  omega

theorem next_page {va len : Nat} (more : min (4096 - va % 4096) len < len) :
    va + min (4096 - va % 4096) len = pgrounddown va + 4096 := by
  unfold pgrounddown
  omega

theorem loads_nothing {bytes : List UInt8} :
    (true, []) = (true, bytes) ∧ m = m' ↔ bytes.length = 0 ∧ Loads b m va bytes m' := by
  rw [Prod.mk.injEq, List.length_eq_zero_iff]
  constructor
  · rintro ⟨⟨_, rfl⟩, rfl⟩
    exact ⟨rfl, loads_nil.mpr rfl⟩
  · rintro ⟨rfl, loads⟩
    exact ⟨⟨rfl, rfl⟩, (loads_nil.mp loads).symm⟩

theorem copyinLoop_loads {rounds srcva len : Nat} {bytes : List UInt8} (readable : m.books.Readable)
    (enough : len ≤ rounds) : copyinLoop b .own rounds srcva len m = .ok ((true, bytes), m') ↔
      bytes.length = len ∧ Loads b m srcva bytes m' := by
  induction rounds generalizing m srcva len bytes with
  | zero =>
    obtain rfl : len = 0 := by omega
    rw [copyinLoop, ok_pure]
    exact loads_nothing
  | succ rounds ih =>
    rw [copyinLoop]
    by_cases empty : len = 0
    · subst empty
      rw [if_pos rfl, ok_pure]
      exact loads_nothing
    · rw [if_neg empty]
      simp only [sub_pgrounddown]
      generalize size : min (4096 - srcva % 4096) len = n
      have within : srcva % 4096 < 4096 := Nat.mod_lt _ (by decide)
      have positive : 0 < n := by omega
      have address {m₁ : Machine} {tail : List UInt8} (long : tail.length = len - n) :
          Loads b m₁ (srcva + n) tail m' ↔ Loads b m₁ (pgrounddown srcva + 4096) tail m' := by
        apply loads_from
        intro more
        have left := List.length_pos_of_ne_nil more
        rw [← size]
        exact next_page (by omega)
      constructor
      · intro ran
        obtain ⟨r, m₁, first, rest⟩ := ok_bind.mp ran
        cases r with
        | none => exact absurd (Prod.mk.inj (ok_pure.mp rest).1).1 (by simp)
        | some pa =>
          obtain ⟨n', accessed⟩ := (walkaddrOrLoad_accessed readable).mp first
          obtain ⟨_, _, same, copied⟩ := ok_bind.mp rest
          obtain ⟨rfl, rfl⟩ := ok_read.mp same
          obtain ⟨later, m₂, looped, ended⟩ := ok_bind.mp copied
          obtain ⟨same, rfl⟩ := ok_pure.mp ended
          obtain ⟨good, rfl⟩ := Prod.mk.inj same
          obtain ⟨good', tail⟩ := later
          obtain rfl : good' = true := good
          obtain ⟨long, loads⟩ := (ih (accessed.readable readable) (by omega)).mp looped
          refine ⟨by simp only [List.length_append, Machine.length_pageBytes]; omega, ?_⟩
          apply (loads_append _ _).mpr
          refine ⟨m₁, ?_, ?_⟩
          · apply (loads_page _ _).mpr
            · exact ⟨n', pa, accessed, by rw [Machine.length_pageBytes]⟩
            · apply List.ne_nil_of_length_pos
              rw [Machine.length_pageBytes]
              exact positive
            · rw [Machine.length_pageBytes]
              omega
          · rw [Machine.length_pageBytes]
            exact (address long).mpr loads
      · rintro ⟨rfl, loads⟩
        have front : (bytes.take n).length = n := by
          rw [List.length_take]
          omega
        rw [← bytes.take_append_drop n, loads_append, front] at loads
        obtain ⟨m₁, first, rest⟩ := loads
        rw [loads_page (List.ne_nil_of_length_pos (by omega)) (by omega), front] at first
        obtain ⟨n', pa, accessed, same⟩ := first
        have long : (bytes.drop n).length = bytes.length - n := List.length_drop
        have later := (ih (accessed.readable readable) (by omega)).mpr ⟨long, (address long).mp rest⟩
        refine ok_bind.mpr ⟨some pa, m₁, (walkaddrOrLoad_accessed readable).mpr ⟨n', accessed⟩, ?_⟩
        refine ok_bind.mpr ⟨m₁, m₁, rfl, ok_bind.mpr ⟨_, _, later, ok_pure.mpr ⟨?_, rfl⟩⟩⟩
        rw [← same, List.take_append_drop]

-- A string with its NUL.
def Terminated (bytes : List UInt8) : Prop := ∃ text, bytes = text ++ [0] ∧ 0 ∉ text

theorem not_terminated_nil : ¬ Terminated [] := by
  rintro ⟨text, same, _⟩
  simp at same

theorem not_terminated_short {bytes : List UInt8} (short : bytes.length ≤ 0) : ¬ Terminated bytes := by
  rw [List.eq_nil_of_length_eq_zero (Nat.le_zero.mp short)]
  exact not_terminated_nil

theorem terminated_cons {byte : UInt8} {bytes : List UInt8} : Terminated (byte :: bytes) ↔
    byte = 0 ∧ bytes = [] ∨ byte ≠ 0 ∧ Terminated bytes := by
  constructor
  · rintro ⟨text, same, absent⟩
    cases text with
    | nil => exact .inl (List.cons.inj same)
    | cons first text =>
      obtain ⟨rfl, rfl⟩ := List.cons.inj same
      simp only [List.mem_cons, not_or] at absent
      exact .inr ⟨fun zero => absent.1 zero.symm, text, rfl, absent.2⟩
  · rintro (⟨rfl, rfl⟩ | ⟨other, text, rfl, absent⟩)
    · exact ⟨[], rfl, List.not_mem_nil⟩
    · refine ⟨byte :: text, rfl, ?_⟩
      simp only [List.mem_cons, not_or]
      exact ⟨Ne.symm other, absent⟩

theorem terminated_append {bytes more : List UInt8} (absent : 0 ∉ bytes) :
    Terminated (bytes ++ more) ↔ Terminated more := by
  induction bytes with
  | nil => rfl
  | cons byte bytes ih =>
    simp only [List.mem_cons, not_or] at absent
    rw [List.cons_append, terminated_cons, ih absent.2]
    have other : byte ≠ 0 := Ne.symm absent.1
    simp [other]

-- Only the last byte of a string is NUL.
theorem Terminated.front {bytes more : List UInt8} (ends : Terminated (bytes ++ more)) (some_ : more ≠ []) :
    0 ∉ bytes := by
  induction bytes with
  | nil => exact List.not_mem_nil
  | cons byte bytes ih =>
    rw [List.cons_append, terminated_cons] at ends
    rcases ends with ⟨_, empty⟩ | ⟨other, rest⟩
    · exact absurd (List.append_eq_nil_iff.mp empty).2 some_
    · simp only [List.mem_cons, not_or]
      exact ⟨Ne.symm other, ih rest⟩

variable {pa : Nat}

-- The inner loop finds a NUL exactly if the bytes up to it are a string.
theorem copyString_found (n max p : Nat) (bytes : List UInt8) :
    (copyString (m.mem pa) n max p).2.2 = true ∧ (copyString (m.mem pa) n max p).1 = bytes ↔
      Terminated bytes ∧ bytes.length ≤ n ∧ bytes = m.pageBytes pa p bytes.length := by
  induction n generalizing max p bytes with
  | zero =>
    rw [copyString]
    constructor
    · exact fun found => absurd found.1 (by simp)
    · exact fun string => absurd string.1 (not_terminated_short string.2.1)
  | succ n ih =>
    rw [copyString]
    cases bytes with
    | nil =>
      constructor
      · rintro ⟨_, empty⟩
        split_ifs at empty
      · exact fun string => absurd string.1 not_terminated_nil
    | cons byte bytes =>
      rw [terminated_cons, List.length_cons, Machine.pageBytes_succ, List.cons.injEq]
      split_ifs with zero
      · simp only [List.cons.injEq, true_and]
        constructor
        · rintro ⟨rfl, rfl⟩
          exact ⟨.inl ⟨rfl, rfl⟩, by simp, zero.symm, rfl⟩
        · rintro ⟨⟨rfl, rfl⟩ | ⟨other, _⟩, _, same, _⟩
          · exact ⟨rfl, rfl⟩
          · exact absurd (same.trans zero) other
      · simp only [List.cons.injEq]
        have rest := ih (max - 1) (p + 1) bytes
        constructor
        · rintro ⟨found, rfl, same⟩
          obtain ⟨ends, short, bytes_⟩ := rest.mp ⟨found, same⟩
          exact ⟨.inr ⟨zero, ends⟩, by omega, rfl, bytes_⟩
        · rintro ⟨⟨rfl, _⟩ | ⟨_, ends⟩, short, same, bytes_⟩
          · exact absurd same.symm zero
          · obtain ⟨found, copied⟩ := rest.mpr ⟨ends, by omega, bytes_⟩
            exact ⟨found, same.symm, copied⟩

theorem copyString_missed (n max p : Nat) : (copyString (m.mem pa) n max p).2.2 = false ↔
    0 ∉ m.pageBytes pa p n := by
  induction n generalizing max p with
  | zero => simp [copyString, Machine.pageBytes]
  | succ n ih =>
    rw [copyString, Machine.pageBytes_succ, List.mem_cons, not_or]
    split_ifs with zero
    · simp [zero]
    · rw [ih]
      simp [Ne.symm zero]

theorem copyString_all (n max p : Nat) (missed : (copyString (m.mem pa) n max p).2.2 = false) :
    (copyString (m.mem pa) n max p).1 = m.pageBytes pa p n ∧
      (copyString (m.mem pa) n max p).2.1 = max - n := by
  induction n generalizing max p with
  | zero => exact ⟨rfl, rfl⟩
  | succ n ih =>
    rw [copyString] at missed ⊢
    split_ifs at missed ⊢
    obtain ⟨bytes, left⟩ := ih (max - 1) (p + 1) missed
    refine ⟨?_, ?_⟩
    · rw [Machine.pageBytes_succ, ← bytes]
    · rw [left, Nat.sub_sub, Nat.add_comm]

theorem copyinstrLoop_loads {rounds srcva max : Nat} {bytes : List UInt8} (readable : m.books.Readable)
    (enough : max ≤ rounds) : copyinstrLoop b .own rounds srcva max m = .ok ((true, bytes), m') ↔
      bytes.length ≤ max ∧ Terminated bytes ∧ Loads b m srcva bytes m' := by
  induction rounds generalizing m srcva max bytes with
  | zero =>
    obtain rfl : max = 0 := by omega
    rw [copyinstrLoop, ok_pure]
    constructor
    · exact fun ran => absurd (Prod.mk.inj ran.1).1 (by simp)
    · exact fun string => absurd string.2.1 (not_terminated_short string.1)
  | succ rounds ih =>
    rw [copyinstrLoop]
    by_cases empty : max = 0
    · subst empty
      rw [if_pos rfl, ok_pure]
      constructor
      · exact fun ran => absurd (Prod.mk.inj ran.1).1 (by simp)
      · exact fun string => absurd string.2.1 (not_terminated_short string.1)
    · rw [if_neg empty]
      simp only [sub_pgrounddown]
      generalize size : min (4096 - srcva % 4096) max = n
      have within : srcva % 4096 < 4096 := Nat.mod_lt _ (by decide)
      have positive : 0 < n := by omega
      have address {m₁ : Machine} {tail : List UInt8} (long : n + tail.length ≤ max) :
          Loads b m₁ (srcva + n) tail m' ↔ Loads b m₁ (pgrounddown srcva + 4096) tail m' := by
        apply loads_from
        intro more
        have left := List.length_pos_of_ne_nil more
        rw [← size]
        exact next_page (by omega)
      constructor
      · intro ran
        obtain ⟨r, m₁, first, rest⟩ := ok_bind.mp ran
        cases r with
        | none => exact absurd (Prod.mk.inj (ok_pure.mp rest).1).1 (by simp)
        | some pa =>
          obtain ⟨n', accessed⟩ := (walkaddrOrLoad_accessed readable).mp first
          obtain ⟨_, _, same, copied⟩ := ok_bind.mp rest
          obtain ⟨rfl, rfl⟩ := ok_read.mp same
          cases found : (copyString (m₁.mem pa) n max (srcva % 4096)).2.2 with
          | true =>
            simp only [found, if_true] at copied
            obtain ⟨same, rfl⟩ := ok_pure.mp copied
            obtain ⟨ends, short, here⟩ := (copyString_found n max _ bytes).mp ⟨found, (Prod.mk.inj same).2⟩
            have some_ : bytes ≠ [] := by
              rintro rfl
              exact not_terminated_nil ends
            exact ⟨by omega, ends, (loads_page some_ (by omega)).mpr ⟨n', pa, accessed, here⟩⟩
          | false =>
            simp only [found, Bool.false_eq_true, if_false] at copied
            obtain ⟨later, m₂, looped, ended⟩ := ok_bind.mp copied
            obtain ⟨same, rfl⟩ := ok_pure.mp ended
            obtain ⟨good, rfl⟩ := Prod.mk.inj same
            obtain ⟨good', tail⟩ := later
            obtain rfl : good' = true := good
            obtain ⟨all, left⟩ := copyString_all n max _ found
            rw [left] at looped
            obtain ⟨short, ends, loads⟩ := (ih (accessed.readable readable) (by omega)).mp looped
            have absent := (copyString_missed n max _).mp found
            have front : Loads b m srcva (m₁.pageBytes pa (srcva % 4096) n) m₁ := by
              apply (loads_page _ _).mpr
              · exact ⟨n', pa, accessed, by rw [Machine.length_pageBytes]⟩
              · apply List.ne_nil_of_length_pos
                rw [Machine.length_pageBytes]
                exact positive
              · rw [Machine.length_pageBytes]
                omega
            simp only [all]
            refine ⟨?_, (terminated_append absent).mpr ends, (loads_append _ _).mpr ⟨m₁, front, ?_⟩⟩
            · rw [List.length_append, Machine.length_pageBytes]
              omega
            · rw [Machine.length_pageBytes]
              exact (address (by omega)).mpr loads
      · rintro ⟨short, ends, loads⟩
        by_cases inside : bytes.length ≤ n
        · have some_ : bytes ≠ [] := by
            rintro rfl
            exact not_terminated_nil ends
          obtain ⟨n', pa, accessed, here⟩ := (loads_page some_ (by omega)).mp loads
          obtain ⟨found, copied⟩ := (copyString_found n max _ bytes).mpr ⟨ends, inside, here⟩
          refine ok_bind.mpr ⟨some pa, m', (walkaddrOrLoad_accessed readable).mpr ⟨n', accessed⟩, ?_⟩
          refine ok_bind.mpr ⟨m', m', rfl, ?_⟩
          rw [if_pos found, copied]
          rfl
        · have front : (bytes.take n).length = n := by
            rw [List.length_take]
            omega
          have long : (bytes.drop n).length = bytes.length - n := List.length_drop
          rw [← bytes.take_append_drop n] at ends
          rw [← bytes.take_append_drop n, loads_append, front] at loads
          obtain ⟨m₁, first, rest⟩ := loads
          rw [loads_page (List.ne_nil_of_length_pos (by omega)) (by omega), front] at first
          obtain ⟨n', pa, accessed, same⟩ := first
          have absent := ends.front (List.ne_nil_of_length_pos (by omega))
          rw [terminated_append absent] at ends
          rw [same] at absent
          have missed := (copyString_missed n max _).mpr absent
          obtain ⟨all, left⟩ := copyString_all n max _ missed
          have later := (ih (accessed.readable readable) (by omega)).mpr
            ⟨show (bytes.drop n).length ≤ max - n by omega, ends, (address (by omega)).mp rest⟩
          refine ok_bind.mpr ⟨some pa, m₁, (walkaddrOrLoad_accessed readable).mpr ⟨n', accessed⟩, ?_⟩
          refine ok_bind.mpr ⟨m₁, m₁, rfl, ?_⟩
          rw [if_neg (by simp [missed]), left]
          refine ok_bind.mpr ⟨_, _, later, ok_pure.mpr ⟨?_, rfl⟩⟩
          rw [all, ← same, List.take_append_drop]

-- The kernel reads from a user address exactly what the program itself would load there.
theorem copies_are_loads {m₀ : Machine} (execed : m₀.Execed b) (reached : (m₀.lineage b).Reachable m)
    (srcva : Nat) :
    (∀ len bytes m', copyin b .own srcva len m = .ok ((true, bytes), m') ↔
      bytes.length = len ∧ Loads b m srcva bytes m') ∧
    ∀ max bytes m', copyinstr b .own srcva max m = .ok ((true, bytes), m') ↔
      bytes.length ≤ max ∧ Terminated bytes ∧ Loads b m srcva bytes m' := by
  have readable := Machine.lineage_readable execed reached
  exact ⟨fun len bytes m' => copyinLoop_loads readable le_rfl,
    fun max bytes m' => copyinstrLoop_loads readable le_rfl⟩

-- A lazily granted heap page is read as zeros by the kernel, after a page fault.
theorem copies_are_loads_heap : ∃ m₀ m m' : Machine, m₀.Execed .small ∧ (m₀.lineage .small).Reachable m ∧
    copyin .small .own 0x4000 3 m = .ok ((true, [0, 0, 0]), m') ∧ Loads .small m 0x4000 [0, 0, 0] m' := by
  obtain ⟨m₀, m, execed, reached, shown⟩ := Machine.run_shows (b := .small) 40 (oneSegment 7) shortArgv
    [.sbrk 12288 2] (fun _ _ => true)
    (fun _ m => (copyin .small .own 0x4000 3 m).toOption.any fun r => r.1 == (true, [0, 0, 0]))
    (fun _ _ _ => trivial) (by decide +kernel)
  cases ran : copyin .small .own 0x4000 3 m with
  | error panic =>
    rw [ran] at shown
    contradiction
  | ok r =>
    obtain ⟨result, m'⟩ := r
    rw [ran] at shown
    obtain rfl : result = (true, [0, 0, 0]) := by simpa [Except.toOption] using shown
    exact ⟨m₀, m, m', execed, reached, ran, (((copies_are_loads execed reached 0x4000).1 3 _ m').mp ran).2⟩

end SystemsSuite.Paging
