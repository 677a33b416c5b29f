import SystemsSuite.Paging.EntryKeys

set_option autoImplicit false

namespace SystemsSuite.Paging

open Lib Prog

variable {b : Build} {m : Machine}

-- An entry says that its page is resident exactly if the page is mapped.
structure Books.Matched (v : Books) : Prop where
  keyed : v.Keyed
  resident : ∀ e ∈ v.entries, e.va ≠ 0 → (e.resident = true ↔ (v.pte (e.va / 4096)).isSome = true)

namespace Books

variable {v v' : Books}

theorem modify_cases {l : List Entry} {i : Nat} {f : Entry → Entry} {e : Entry} (member : e ∈ l.modify i f) :
    (∃ old, l[i]? = some old ∧ e = f old) ∨ ∃ j, j ≠ i ∧ l[j]? = some e := by
  obtain ⟨j, here⟩ := List.mem_iff_getElem?.mp member
  rw [List.getElem?_modify] at here
  by_cases hit : i = j
  · subst hit
    obtain ⟨old, before, rfl⟩ := Option.map_eq_some_iff.mp here
    exact .inl ⟨old, before, by simp⟩
  · exact .inr ⟨j, Ne.symm hit, by simpa [hit] using here⟩

namespace Matched

theorem congr (matched : v.Matched) (entries : v'.entries = v.entries) (pte : v'.pte = v.pte) : v'.Matched := by
  refine ⟨matched.keyed.congr (congrArg _ entries), ?_⟩
  rw [entries, pte]
  exact matched.resident

theorem page (matched : v.Matched) (keyed : v'.Keyed) {va : Nat} (aligned : va % 4096 = 0) {x : Option Flags}
    (pte : v'.pte = Function.update v.pte (va / 4096) x)
    (entries : ∀ e ∈ v'.entries, e.va ≠ 0 →
      e ∈ v.entries ∧ e.va ≠ va ∨ e.va = va ∧ (e.resident = true ↔ x.isSome = true)) : v'.Matched := by
  refine ⟨keyed, fun e member key => ?_⟩
  have rounded := keyed.aligned e.va (List.mem_map_of_mem member)
  rw [pte]
  rcases entries e member key with ⟨old, other⟩ | ⟨rfl, agrees⟩
  · rw [Function.update_of_ne (by omega)]
    exact matched.resident e old key
  · rw [Function.update_self]
    exact agrees

theorem entry (matched : v.Matched) {i : Nat} {old : Entry} (here : v.entries[i]? = some old)
    {f : Entry → Entry} (keeps : ∀ e, (f e).va = e.va) {x : Option Flags}
    (agrees : (f old).resident = true ↔ x.isSome = true)
    (pte : v'.pte = Function.update v.pte (old.va / 4096) x)
    (entries : v'.entries = v.entries.modify i f) : v'.Matched := by
  have member := List.mem_iff_getElem?.mpr ⟨i, here⟩
  have keyed : v'.Keyed := by
    apply matched.keyed.congr
    rw [entries]
    exact v.keys_modify i f keeps
  refine matched.page keyed (matched.keyed.aligned _ (List.mem_map_of_mem member)) pte ?_
  intro e member' key
  rw [entries] at member'
  rcases modify_cases member' with ⟨old', here', rfl⟩ | ⟨j, other, there⟩
  · obtain rfl := Option.some.inj (here.symm.trans here')
    exact .inr ⟨keeps old, agrees⟩
  · refine .inl ⟨List.mem_iff_getElem?.mpr ⟨j, there⟩, fun same => other ?_⟩
    apply matched.keyed.unique j i e.va key
    · rw [List.getElem?_map, there, Option.map_some]
    · rw [List.getElem?_map, here, Option.map_some, same]

theorem unnoted (matched : v.Matched) {va : Nat} (aligned : va % 4096 = 0) {x : Option Flags}
    (absent : v.find va = none) (pte : v'.pte = Function.update v.pte (va / 4096) x)
    (entries : v'.entries = v.entries) : v'.Matched := by
  refine matched.page (matched.keyed.congr (congrArg _ entries)) aligned pte fun e member _ => ?_
  rw [entries] at member
  exact .inl ⟨member, find_none absent e member⟩

theorem noted (matched : v.Matched) {va : Nat} (aligned : va % 4096 = 0)
    (unmapped : v.pte (va / 4096) = none) : (v.noted va).Matched := by
  refine ⟨matched.keyed.noted aligned, fun e member key => ?_⟩
  rw [noted_pte]
  rcases mem_noted member with old | rfl
  · exact matched.resident e old key
  · simp [Entry.cleared, PageMeta.cleared, PageMeta.entry, unmapped]

-- A resident page with an entry is mapped, so a victim is never stale.
theorem victim (matched : v.Matched) {best : Nat} (victim : v.Victim best) :
    ∃ e, v.entries[best]? = some e ∧ v.entryAt best = e ∧ v.pte (e.va / 4096) ≠ none := by
  obtain ⟨resident, key⟩ := victim
  unfold entryAt at *
  rw [List.getD_eq_getElem?_getD] at *
  cases here : v.entries[best]? with
  | none =>
    rw [here] at resident
    contradiction
  | some e =>
    rw [here] at resident key
    refine ⟨e, rfl, rfl, fun unmapped => ?_⟩
    have mapped := (matched.resident e (List.mem_iff_getElem?.mpr ⟨best, here⟩) key).mp resident
    rw [unmapped] at mapped
    contradiction

theorem evict {ok : Bool} (matched : v.Matched) (evict : v.Evict ok v') : v'.Matched := by
  cases evict with
  | nothing => exact matched
  | stale best victim unmapped =>
    obtain ⟨e, _, same, mapped⟩ := matched.victim victim
    rw [same] at unmapped
    exact absurd unmapped mapped
  | discarded best _ victim =>
    obtain ⟨e, here, same, _⟩ := matched.victim victim
    refine matched.entry here (f := fun e => { e with resident := false }) (x := none) (fun _ => rfl)
      (by simp) ?_ rfl
    rw [← same]
    rfl
  | saved best _ slot bitmap victim =>
    obtain ⟨e, here, same, _⟩ := matched.victim victim
    let save : Entry → Entry := fun e => { e with inSwap := true, slot := slot }
    refine matched.entry here (f := (fun e => { e with resident := false }) ∘ save) (x := none)
      (fun _ => rfl) (by simp) ?_ ?_
    · have key : ((v.saved best slot bitmap).entryAt best).va = e.va := by
        unfold saved entryAt
        rw [List.getD_eq_getElem?_getD, List.getElem?_modify, here]
        simp
      change Function.update v.pte (((v.saved best slot bitmap).entryAt best).va / 4096) none = _
      rw [key]
    · exact List.modify_modify_eq save (fun e => { e with resident := false }) best v.entries

theorem obtain_ {ok : Bool} (matched : v.Matched) (obtained : v.Obtain ok v') : v'.Matched := by
  cases obtained with
  | free => exact matched
  | evicted _ _ evict => exact matched.evict evict
  | failed _ evict => exact matched.evict evict

theorem installed (matched : v.Matched) {va : Nat} (perm : Flags) (aligned : va % 4096 = 0)
    (unmapped : v.pte (va / 4096) = none) : (v.installed .own va perm).Matched := by
  have noted := matched.noted aligned unmapped
  have same : (v.mapped .own va perm).noted va = (v.noted va).mapped .own va perm := by
    refine (v.noted_setPtes .own _ va).trans ?_
    unfold mapped
    rw [noted_eq v va]
    rfl
  have pte : ((v.noted va).mapped .own va perm).pte = Function.update (v.noted va).pte (va / 4096) (some perm) := rfl
  unfold Books.installed madeResident
  rw [same]
  split
  next absent => exact noted.unnoted aligned absent pte rfl
  next i found =>
    obtain ⟨e, here, key⟩ := find_spec found
    refine noted.entry here (f := fun e => { e with resident := true, perm := perm }) (x := some perm)
      (fun _ => rfl) (by simp) ?_ rfl
    rw [key]
    rfl

theorem swappedIn (matched : v.Matched) {vaPg i : Nat} {seg : Seg} (found : v.find vaPg = some i) :
    (v.swappedIn vaPg i seg).Matched := by
  obtain ⟨e, here, key⟩ := find_spec found
  refine matched.entry here (f := fun e => { e with resident := true, inSwap := false, slot := 0xffff })
    (x := some (swapPerm (v.entryAt i) seg)) (fun _ => rfl) (by simp) ?_ rfl
  rw [key]
  rfl

theorem remapped (matched : v.Matched) {va : Nat} {flags : Flags} (here : v.pte (va / 4096) = some flags)
    (flags' : Flags) : (v.mapped .own va flags').Matched := by
  refine ⟨matched.keyed, fun e member key => ?_⟩
  change e.resident = true ↔ (Function.update v.pte (va / 4096) (some flags') (e.va / 4096)).isSome = true
  rw [matched.resident e member key, Function.update_apply]
  split_ifs with same
  · rw [same, here]
    simp
  · rfl

theorem fault {vaPg : Nat} {acc : Access} {ok : Bool} (matched : v.Matched) (aligned : vaPg % 4096 = 0)
    (keeps : ∀ flags, v.pte (vaPg / 4096) = some flags → acc = .write → flags.w = false →
      v.allowsWrite vaPg = true → v.find vaPg = none → v.find 0 = none)
    (faulted : Faulted vaPg acc v ok v') : v'.Matched := by
  cases faulted with
  | refused => exact matched
  | widened flags here write readOnly allowed =>
    have mapped := matched.remapped here { flags with w := true }
    have same : (v.mapped .own vaPg { flags with w := true }).noted vaPg =
        v.mapped .own vaPg { flags with w := true } := by
      have full := keeps flags here write readOnly allowed
      unfold Books.noted
      split
      next i absent free =>
        have none : v.find 0 = none := full absent
        have some : v.find 0 = some i := free
        rw [none] at some
        contradiction
      next => rfl
    rw [same]
    exact mapped
  | madeExec flags _ here => exact matched.remapped here _
  | starved _ _ obtained => exact matched.obtain_ obtained
  | zeroStarved _ absent _ obtained => exact (matched.noted aligned absent).obtain_ obtained
  | swappedIn _ i v₁ _ _ found _ obtained =>
    exact (matched.obtain_ obtained).swappedIn ((obtained.find vaPg).trans found)
  | loaded _ _ absent _ _ obtained =>
    exact (matched.obtain_ obtained).installed _ aligned (obtained.unmapped absent)
  | zeroed _ absent _ _ obtained =>
    refine ((matched.noted aligned absent).obtain_ obtained).installed _ aligned (obtained.unmapped ?_)
    rw [noted_pte]
    exact absent

theorem grow {perm : Flags} {n a stop : Nat} {ok : Bool} (matched : v.Matched) (aligned : a % 4096 = 0)
    (grow : Grow .own perm n a v ok stop v') : v'.Matched := by
  induction grow with
  | done => exact matched
  | starved _ _ _ _ obtained => exact matched.obtain_ obtained
  | page _ _ _ _ _ _ _ obtained unmapped _ _ ih =>
    exact ih ((matched.obtain_ obtained).installed _ aligned unmapped) (by omega)

theorem unmapped (matched : v.Matched) {a n : Nat}
    (gone : ∀ e ∈ v.entries, e.va ≠ 0 → a / 4096 ≤ e.va / 4096 → e.va / 4096 < a / 4096 + n →
      e.resident = false) : (v.unmapped .own a n).Matched := by
  refine ⟨matched.keyed, fun e member key => ?_⟩
  change e.resident = true ↔ (if _ then none else v.pte (e.va / 4096)).isSome = true
  split_ifs with range
  · simp [gone e member key range.1 range.2]
  · exact matched.resident e member key

theorem cleared (entries : v.entries = List.replicate pgmetaSize .cleared) : v.Matched := by
  refine ⟨.cleared entries, fun e member key => ?_⟩
  rw [entries] at member
  rw [List.eq_of_mem_replicate member] at key
  exact absurd rfl key

theorem born {im : Proc} (born : v.Born im v') : v'.Matched := by
  induction born with
  | blank => exact cleared rfl
  | copied w i flags _ aligned _ unmapped ih => exact ih.installed _ aligned unmapped

theorem of_alike (matched : v.Matched) (alike : v.Alike v') : v'.Matched :=
  matched.congr alike.entries alike.pte

theorem moved {n t : Nat} {ok : Bool} (matched : v.Matched)
    (keeps : isNegative n → v.newSize n < v.image.sz → ∀ e ∈ v.entries, e.va ≠ 0 →
      pgroundup (v.newSize n) ≤ e.va → e.va < pgroundup v.image.sz → e.resident = false)
    (whole : u32 t = sbrkEager → ¬ isNegative n → ok = false → v.Obtain false v')
    (moved : Moved n t v ok v') : v'.Matched := by
  have start := pgroundup_aligned v.image.sz
  cases moved with
  | kept => exact matched
  | refused => exact matched
  | shrunk negative smaller =>
    refine (matched.unmapped fun e member key low high => ?_).congr rfl rfl
    have rounded := matched.keyed.aligned e.va (List.mem_map_of_mem member)
    have bottom := pgroundup_aligned (v.newSize n)
    rw [pagesOver_of_lt smaller] at high
    exact keeps negative smaller e member key (by omega) (by omega)
  | grown _ _ _ _ _ grow => exact (matched.grow start grow).congr rfl rfl
  | failed _ _ eager positive => exact matched.obtain_ (whole eager positive rfl)
  | lazy => exact matched.congr rfl rfl

theorem sbrk {n t : Nat} {ok : Bool} (matched : v.Matched)
    (keeps : isNegative n → v.newSize n < v.image.sz → ∀ e ∈ v.entries, e.va ≠ 0 →
      pgroundup (v.newSize n) ≤ e.va → e.va < pgroundup v.image.sz → e.resident = false)
    (whole : u32 t = sbrkEager → ¬ isNegative n → ok = false → v.Obtain false v')
    (sbrk : Sbrk n t v ok v') : v'.Matched := by
  cases sbrk with
  | failed _ moved => exact matched.moved keeps whole moved
  | unmoved _ moved => exact matched.moved keeps whole moved
  | moved w moved =>
    have grown : u32 t = sbrkEager → ¬ isNegative n → true = false → v.Obtain false w := fun _ _ => nofun
    exact (matched.moved keeps grown moved).congr rfl rfl

end Matched

end Books

theorem uvmalloc_refused (t : Target) (oldsz newsz : Nat) (xperm : Flags)
    (refused : wp (allocPage b t (pgroundup oldsz) (Flags.or ⟨true, false, false, true⟩ xperm))
      (fun ok _ => ok = false) (fun _ => True) m) :
    wp (uvmalloc b t oldsz newsz xperm) (fun r m' => m.books.Obtain false m'.books ∧
      (newsz < oldsz ∧ r = oldsz ∨ oldsz ≤ newsz ∧ (pgroundup oldsz < newsz → r = 0)))
      (fun _ => True) m := by
  unfold uvmalloc
  split_ifs with smaller
  · exact ⟨.free false, .inl ⟨smaller, rfl⟩⟩
  · simp only
    cases pages : (newsz - pgroundup oldsz + 4095) / 4096 with
    | zero => exact ⟨.free false, .inr ⟨by omega, fun larger => by omega⟩⟩
    | succ n =>
      have fails (m' : Machine) : allocPage b t (pgroundup oldsz)
          (Flags.or ⟨true, false, false, true⟩ xperm) m ≠ .ok (true, m') := by
        intro granted
        exact absurd (wp_ok refused granted) (by decide)
      apply wp_mono (allocLoop_first_fails t newsz _ n fails) _ fun _ panics => panics
      rintro r m' ⟨zero, obtained⟩
      exact ⟨obtained, .inr ⟨by omega, fun _ => zero⟩⟩

-- An eager `sys_sbrk` that fails like this has evicted one page at most.
theorem sysSbrk_refused {n t : Nat} (eager : u32 t = sbrkEager) (positive : ¬ isNegative n)
    (refused : wp (allocPage b .own (pgroundup m.proc.sz) growFlags) (fun ok _ => ok = false)
      (fun _ => True) m) :
    wp (sysSbrk b n t) (fun r m' => r = none → m.books.Obtain false m'.books) (fun _ => True) m := by
  have moved : wp (moveSize b n t) (fun ok m' => ok = false → m.books.Obtain false m'.books)
      (fun _ => True) m := by
    unfold moveSize
    rw [wp_bind, wp_read, if_pos (.inl eager)]
    unfold growproc
    rw [wp_bind, wp_read]
    split_ifs with zero
    · exact nofun
    · apply wp_seq (uvmalloc_refused .own m.proc.sz _ ⟨false, true, false, false⟩ refused)
      rintro r m₁ ⟨obtained, _⟩
      split_ifs with failed
      · exact fun _ => obtained
      · exact nofun
  unfold sysSbrk
  rw [wp_bind, wp_read]
  apply wp_seq moved
  intro ok m₁ obtained
  cases ok with
  | false => exact fun _ => obtained rfl
  | true => exact nofun

-- `kexec` up to the first page of the new stack: whether there is a frame for it.
def firstStackPage (b : Build) (file : Option Inode) : Kern Bool := do
  match file with
  | none => pure false
  | some ip =>
    match readElfhdr ip with
    | none => pure false
    | some elf =>
      if ← procPagetable b (← read).proc.trapframe.pa then
        let scan := elf.scan ip (← read).proc.segs
        modifyProc fun p => { p with execip := some ip, nsegs := scan.2.nsegs, segs := scan.2.segs }
        if scan.1 then allocPage b .spare (pgroundup scan.2.sz) growFlags else pure false
      else pure false

namespace Books

-- What a `kexec` that does not get there leaves behind.
inductive Refused (v v' : Books) : Prop
  | early : v.Alike v' → Refused v v'
  | starved (w w' : Books) : v.Alike w → w.Obtain false w' → w'.Alike v' → Refused v v'

end Books

theorem buildStack_refused (elf : Elfhdr) (argv : List (List UInt8)) (created : Option Nat) {guard : Nat}
    (rounded : pgroundup guard = guard)
    (refused : wp (allocPage b .spare guard growFlags) (fun ok _ => ok = false) (fun _ => True) m) :
    wp (buildStack b elf argv created guard) (fun _ m' => m.books.Refused m'.books) (fun _ => True) m := by
  have small : guard < 2 ^ 64 := by
    rw [← rounded]
    unfold pgroundup u64
    omega
  have stack : (userstack + 1) * 4096 = 8192 := rfl
  unfold buildStack
  rw [wp_bind, wp_read, stack]
  apply wp_seq (uvmalloc_refused .spare guard _ ⟨false, true, false, false⟩
    (by rw [rounded]; exact refused))
  rintro sz1 m₁ ⟨obtained, wrapped | ⟨larger, failed⟩⟩
  · -- The end of the stack wraps around: `uvmclear` walks too high.
    have high : ¬ sub64 guard 8192 < maxva := by
      have smaller := wrapped.1
      rw [sub64_eq]
      unfold u64 at smaller
      unfold maxva
      omega
    have positive : guard ≠ 0 := by
      have smaller := wrapped.1
      omega
    rw [wrapped.2, if_neg positive]
    exact wp_seq (Q := fun _ _ => False) (uvmclear_high high) fun _ _ none => none.elim
  · have zero : sz1 = 0 := by
      apply failed
      unfold u64 at larger ⊢
      omega
    rw [if_pos zero]
    apply wp_mono (execBad_books _) _ fun _ panics => panics
    rintro r m₂ ⟨_, alike⟩
    exact .starved _ _ (.refl _) obtained alike

theorem kexec_refused {file : Option Inode} (argv : List (List UInt8)) (created : Option Nat)
    (refused : wp (firstStackPage b file) (fun ok _ => ok = false) (fun _ => True) m) :
    wp (kexec b file argv created) (fun _ m' => m.books.Refused m'.books) (fun _ => True) m := by
  unfold kexec
  unfold firstStackPage at refused
  cases file with
  | none => exact .early (.refl _)
  | some ip =>
    cases header : readElfhdr ip with
    | none =>
      simp only
      rw [header]
      exact .early (.refl _)
    | some elf =>
      simp only at refused ⊢
      rw [header] at refused ⊢
      simp only at refused ⊢
      rw [wp_bind, wp_read] at refused ⊢
      rw [wp_bind] at refused
      apply wp_seq_and (procPagetable_books _) refused
      intro ok m₁ table refused
      cases ok with
      | false =>
        obtain ⟨ptes, books₁⟩ := table
        change m.books.Refused m₁.books
        rw [books₁]
        exact .early (.withSpare _ _)
      | true =>
        rw [if_pos rfl] at table refused ⊢
        rw [wp_bind, wp_read, wp_bind, wp_modifyProc] at refused ⊢
        have alike : m.books.Alike { m₁.books with image := { m₁.books.image with
            execip := some ip
            nsegs := (elf.scan ip m₁.proc.segs).2.nsegs
            segs := (elf.scan ip m₁.proc.segs).2.segs } } := by
          rw [table]
          exact ⟨rfl, rfl, rfl, rfl, rfl⟩
        by_cases good : (elf.scan ip m₁.proc.segs).1 = true
        · rw [if_pos good] at refused ⊢
          apply wp_mono (buildStack_refused elf argv created (pgroundup_idem _) refused) _
            fun _ panics => panics
          rintro r m₂ (later | ⟨w, w', before, obtained, after⟩)
          · exact .early (alike.trans later)
          · exact .starved w w' (alike.trans before) obtained after
        · rw [if_neg good]
          apply wp_mono (execBad_books _) _ fun _ panics => panics
          rintro r m₂ ⟨_, later⟩
          exact .early (alike.trans later)

theorem Books.Matched.refused {v v' : Books} (matched : v.Matched) (refused : v.Refused v') : v'.Matched := by
  cases refused with
  | early alike => exact matched.of_alike alike
  | starved w w' before obtained after => exact ((matched.of_alike before).obtain_ obtained).of_alike after

-- No write fault makes a new entry for a page that is mapped already, no shrink takes a resident
-- page away, and what fails to grow memory or to replace it has failed at its first page.
def Machine.KeepsResidency (b : Build) (m : Machine) : Event → Prop
  | .fault va acc => acc = .write → va < maxva →
    ∀ leaf ∈ m.proc.pagetable.leaf (pgrounddown va), leaf.flags.w = false →
      m.books.allowsWrite (pgrounddown va) = true →
      pgmetaFind m.proc.pgmeta (pgrounddown va) = none → pgmetaFind m.proc.pgmeta 0 = none
  | .sbrk n t => (isNegative n → u64 (m.proc.sz + throughInt n) < m.proc.sz →
      ∀ e ∈ m.proc.pgmeta, e.va ≠ 0 → pgroundup (u64 (m.proc.sz + throughInt n)) ≤ e.va →
        e.va < pgroundup m.proc.sz → e.resident = false) ∧
    (u32 t = sbrkEager → ¬ isNegative n → m.sbrkFails b n t = true →
      m.yields (allocPage b .own (pgroundup m.proc.sz) growFlags) = false)
  | .exec file argv created => m.execFails b file argv created = true →
    m.yields (firstStackPage b file) = false
  | _ => True

instance (b : Build) (m : Machine) : (e : Event) → Decidable (m.KeepsResidency b e)
  | .fault _ _ => inferInstanceAs (Decidable (_ → _ → ∀ leaf ∈ m.proc.pagetable.leaf _, _ → _ → _ → _))
  | .sbrk _ _ => inferInstanceAs (Decidable ((_ → _ → ∀ e ∈ m.proc.pgmeta, _ → _ → _ → _) ∧ (_ → ¬ _ → _ → _)))
  | .exec _ _ _ => inferInstanceAs (Decidable (_ → _))
  | .other _ _ _ | .setSp _ | .evict | .fork _ _ => inferInstanceAs (Decidable True)

theorem Books.Matched.after {m' : Machine} {e : Event} (small : m.proc.sz < 2 ^ 64) (matched : m.books.Matched)
    (keeps : m.KeepsResidency b e) (taken : m.after b e = some m')
    (happens : m.books.Happens e m'.books) : m'.books.Matched := by
  cases e with
  | exec file argv created =>
    obtain ⟨r, ran⟩ := ok_of_discard (Machine.after_ran taken)
    cases r with
    | some argc =>
      have fresh := wp_ok (kexec_books file argv created) ran
      exact .cleared (Books.Fresh.entries fresh)
    | none =>
      have failed : m.execFails b file argv created = true := by
        rw [Machine.execFails, ran]
        rfl
      have refused := wp_ok (kexec_refused _ created (Machine.wp_refused (keeps failed))) ran
      exact matched.refused refused
  | fault va acc =>
    generalize m'.books = v' at happens
    cases happens with
    | fault _ _ ok _ faulted =>
      have aligned : pgrounddown va % 4096 = 0 := Nat.mul_mod_left _ _
      refine matched.fault aligned ?_ faulted
      intro flags here write readOnly allowed
      obtain ⟨inside, leaf, mapped, rfl⟩ := PageTable.leaf_of_ptes here
      rw [find_books, find_books]
      refine keeps write ?_ leaf ?_ readOnly allowed
      · unfold pgrounddown maxva at *
        omega
      · have page : pgrounddown va / 4096 = va / 4096 := Nat.mul_div_cancel _ (by decide)
        rw [page] at mapped
        exact mapped
  | sbrk n t =>
    obtain ⟨r, ran⟩ := ok_of_discard (Machine.after_ran taken)
    have whole (eager : u32 t = sbrkEager) (positive : ¬ isNegative n) (failed : r.isSome = false) :
        m.books.Obtain false m'.books := by
      obtain rfl : r = none := Option.not_isSome_iff_eq_none.mp (by simp [failed])
      have fails : m.sbrkFails b n t = true := by
        rw [Machine.sbrkFails, ran]
        rfl
      exact wp_ok (sysSbrk_refused eager positive (Machine.wp_refused (keeps.2 eager positive fails))) ran rfl
    have sbrk := wp_ok (sysSbrk_books n t small) ran
    refine matched.sbrk ?_ whole sbrk
    intro negative smaller e member key low high
    obtain ⟨old, before, rfl⟩ := List.mem_map.mp member
    exact keeps.1 negative smaller old before key low high
  | fork created follow =>
    generalize m'.books = v' at happens
    cases happens with
    | parent _ _ _ evictions =>
      exact evictions.preserves (fun _ _ _ matched evict => matched.evict evict)
        (fun _ _ matched => matched.congr rfl rfl) matched
    | child _ _ born => exact .born born
  | evict =>
    generalize m'.books = v' at happens
    cases happens with
    | evict _ _ evict => exact matched.evict evict
  | setSp sp =>
    generalize m'.books = v' at happens
    cases happens
    exact matched.congr rfl rfl
  | other freelist mem writeBlocks =>
    generalize m'.books = v' at happens
    cases happens
    exact matched

theorem residency_matches_page_table {m₀ : Machine} (execed : m₀.Execed b)
    (reached : (m₀.lineage b).ReachableVia (Machine.KeepsResidency b) m) :
    ∀ e ∈ m.proc.pgmeta, e.va ≠ 0 →
      (e.resident = true ↔ (m.proc.pagetable.ptes (e.va / 4096)).isSome = true) := by
  have both : m.books.image.sz < 2 ^ 64 ∧ m.books.Matched := by
    refine Machine.lineage_invariant (I := fun v => v.image.sz < 2 ^ 64 ∧ v.Matched) execed.fresh
      ⟨execed.fresh.small, .cleared execed.fresh.entries⟩ ?_ reached
    exact fun m m' e held keeps taken happens =>
      ⟨happens.small held.1, held.2.after held.1 keeps taken happens⟩
  exact fun e member key => both.2.resident e.entry (List.mem_map_of_mem member) key

-- A heap page is touched, evicted and taken back.
theorem residency_matches_page_table_heap : ∃ m₀ m : Machine, m₀.Execed .small ∧
    (m₀.lineage .small).ReachableVia (Machine.KeepsResidency .small) m ∧
    ∀ e ∈ m.proc.pgmeta, e.va ≠ 0 →
      (e.resident = true ↔ (m.proc.pagetable.ptes (e.va / 4096)).isSome = true) := by
  obtain ⟨m₀, m, execed, reached, _⟩ := Machine.run_shows (b := .small) 40 (oneSegment 7) shortArgv
    [.sbrk 12288 2, .fault 0x4000 .read, .fault 0x4000 .write, .evict, .fault 0x4000 .read]
    (fun m e => decide (m.KeepsResidency .small e)) (fun _ _ => true)
    (fun m e => of_decide_eq_true) (by decide +kernel)
  exact ⟨m₀, m, execed, reached, residency_matches_page_table execed reached⟩

-- A page is granted and taken back: its entry still says that it is resident.
theorem shrink_leaves_resident_entry : ∃ m₀ m : Machine, m₀.Execed .small ∧
    (m₀.lineage .small).Reachable m ∧
    ∃ e ∈ m.proc.pgmeta, e.va ≠ 0 ∧ e.resident = true ∧ m.proc.pagetable.leaf e.va = none := by
  obtain ⟨m₀, m, execed, reached, shown⟩ := Machine.run_shows (b := .small) 40 (oneSegment 7) shortArgv
    [.sbrk 4096 1, .sbrk (2 ^ 32 - 4096) 1] (fun _ _ => true)
    (fun _ m => decide (∃ e ∈ m.proc.pgmeta, e.va ≠ 0 ∧ e.resident = true ∧
      m.proc.pagetable.leaf e.va = none))
    (fun _ _ _ => trivial) (by decide +kernel)
  exact ⟨m₀, m, execed, reached, of_decide_eq_true shown⟩

end SystemsSuite.Paging
