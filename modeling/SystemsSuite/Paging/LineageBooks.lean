import SystemsSuite.Paging.Offspring

set_option autoImplicit false

namespace SystemsSuite.Paging

open Lib Prog

variable {b : Build} {m m' : Machine}

def Books.setSp (v : Books) (sp : Nat) : Books :=
  { v with image := { v.image with trapframe := { v.image.trapframe with sp := sp } } }

-- What an event does to the books of the process, or of the child that is followed.
inductive Books.Happens (v : Books) : Event → Books → Prop
  | other (freelist : List Nat) (mem : Nat → Page) (writeBlocks : List Nat) :
      Happens v (.other freelist mem writeBlocks) v
  | setSp (sp : Nat) : Happens v (.setSp sp) (v.setSp sp)
  | fault (va : Nat) (acc : Access) (ok : Bool) (v' : Books) :
      Faulted (pgrounddown va) acc v ok v' → Happens v (.fault va acc) v'
  | evict (ok : Bool) (v' : Books) : v.Evict ok v' → Happens v .evict v'
  | sbrk (n t : Nat) (ok : Bool) (v' : Books) : Sbrk n t v ok v' → Happens v (.sbrk n t) v'
  | parent (created : Option Nat) (follow : Bool) (v' : Books) : v.Evictions v' →
      Happens v (.fork created follow) v'
  | child (created : Option Nat) (v' : Books) : v.Born v'.image v' → Kin v.image v'.image →
      Happens v (.fork created true) v'
  | execed (file : Option Inode) (argv : Argv) (created : Option Nat) (v' : Books) : v'.Fresh →
      Happens v (.exec file argv created) v'
  | execFailed (file : Option Inode) (argv : Argv) (created : Option Nat) (v' : Books) :
      v.ExecFailed file v' → Happens v (.exec file argv created) v'

theorem Machine.after_ran {e : Event} (taken : m.after b e = some m') : e.run b m = .ok ((), m') := by
  unfold Machine.after at taken
  cases ran : e.run b m with
  | error panic =>
    rw [ran] at taken
    contradiction
  | ok r =>
    rw [ran] at taken
    obtain rfl := Option.some.inj taken
    rfl

theorem Event.run_books (e : Event) (small : m.proc.sz < 2 ^ 64) :
    wp (e.run b) (fun _ m' => m.books.Happens e m'.books) (fun _ => True) m := by
  cases e with
  | other freelist mem writeBlocks => exact .other ..
  | setSp sp => exact .setSp sp
  | fault va acc => exact wp_seq (vmfault_books va acc) fun r m' faulted => .fault va acc _ _ faulted
  | evict => exact wp_seq tryEvictOne_books fun ok m' evict => .evict ok _ evict
  | sbrk n t => exact wp_seq (sysSbrk_books n t small) fun r m' moved => .sbrk n t _ _ moved
  | fork created follow =>
    apply wp_seq (kfork_books created)
    rintro r m₁ ⟨parent, born⟩
    cases r with
    | none => exact .parent created follow _ parent
    | some child =>
      cases follow with
      | false => exact .parent created false _ parent
      | true =>
        obtain ⟨kin, im, born⟩ := born child rfl
        have image := born.rest.2.2.2
        subst image
        exact .child created _ born ⟨kin.sz, kin.heapBrk, kin.sp, kin.execip, kin.segs⟩
  | exec file argv created =>
    apply wp_seq (kexec_books file argv created)
    intro r m₁ outcome
    cases r with
    | some argc => exact .execed file argv created _ outcome
    | none => exact .execFailed file argv created _ outcome

theorem Machine.after_books {e : Event} (small : m.proc.sz < 2 ^ 64) (taken : m.after b e = some m') :
    m.books.Happens e m'.books :=
  wp_ok (Q := fun _ m' => m.books.Happens e m'.books) (e.run_books small) (after_ran taken)

-- Whether a `kexec` succeeded, from what it left.
theorem Machine.after_exec {file : Option Inode} {argv : Argv} {created : Option Nat}
    (taken : m.after b (.exec file argv created) = some m') :
    m'.books.Fresh ∨ m.execFails b file argv created = true ∧ m.books.ExecFailed file m'.books := by
  obtain ⟨r, ran⟩ := ok_of_discard (Machine.after_ran taken)
  have outcome := wp_ok (kexec_books file argv created) ran
  cases r with
  | some argc => exact .inl outcome
  | none =>
    refine .inr ⟨?_, outcome⟩
    rw [Machine.execFails, ran]
    rfl

theorem Machine.Execed.fresh (execed : m.Execed b) : m.books.Fresh := by
  obtain ⟨m₀, file, argv, created, argc, ran⟩ := execed
  exact wp_ok (kexec_books file argv created) ran

theorem Books.Evict.size {v v' : Books} {ok : Bool} (evict : v.Evict ok v') :
    v'.image.sz = v.image.sz := congrArg Proc.sz evict.image

theorem Books.Faulted.image {vaPg : Nat} {acc : Access} {v v' : Books} {ok : Bool}
    (faulted : Faulted vaPg acc v ok v') : v'.image = v.image := by
  have noted (w : Books) : (w.noted vaPg).image = w.image := by
    rw [noted_eq]
  cases faulted with
  | refused => rfl
  | widened => exact noted _
  | madeExec => rfl
  | starved _ _ obtained => exact obtained.image
  | zeroStarved _ _ _ obtained => exact obtained.image.trans (noted v)
  | swappedIn _ _ _ _ _ _ _ obtained => exact obtained.image
  | loaded _ _ _ _ _ obtained =>
    rw [installed_eq]
    exact obtained.image
  | zeroed _ _ _ _ obtained =>
    rw [installed_eq]
    exact obtained.image.trans (noted v)

theorem Books.Grow.image {t : Target} {perm : Flags} {n a stop : Nat} {v v' : Books} {ok : Bool}
    (grow : Grow t perm n a v ok stop v') : v'.image = v.image := by
  induction grow with
  | done => rfl
  | starved _ _ _ _ obtained => exact obtained.image
  | page _ _ _ _ _ _ _ obtained _ _ _ ih =>
    rw [ih, installed_eq]
    cases t <;> exact obtained.image

namespace Books

theorem unmapped_image (v : Books) (t : Target) (a n : Nat) : (v.unmapped t a n).image = v.image := by
  cases t <;> rfl

theorem newSize_lt (v : Books) (n : Nat) : v.newSize n < 2 ^ 64 := Nat.mod_lt _ (by decide)

theorem Moved.size {n t : Nat} {v v' : Books} {ok : Bool} (moved : Moved n t v ok v') :
    v'.image.sz = v.image.sz ∨ v'.image.sz = v.newSize n := by
  cases moved with
  | kept => exact .inl rfl
  | refused => exact .inl rfl
  | shrunk => exact .inr rfl
  | grown => exact .inr rfl
  | failed _ _ _ _ _ grow =>
    rw [unmapped_image, grow.image]
    exact .inl rfl
  | lazy => exact .inr rfl

theorem Sbrk.size {n t : Nat} {v v' : Books} {ok : Bool} (sbrk : Sbrk n t v ok v') :
    v'.image.sz = v.image.sz ∨ v'.image.sz = v.newSize n := by
  cases sbrk with
  | failed _ moved => exact moved.size
  | unmoved _ moved => exact moved.size
  | moved _ moved => exact moved.size

theorem ExecFailed.size {file : Option Inode} {v v' : Books} (failed : v.ExecFailed file v') :
    v'.image.sz = v.image.sz := by
  cases failed with
  | early alike => exact alike.size
  | late _ _ _ w w' _ before _ grow after => rw [after.size, grow.image, before.size]

theorem Happens.small {v v' : Books} {e : Event} (happens : v.Happens e v') (small : v.image.sz < 2 ^ 64) :
    v'.image.sz < 2 ^ 64 := by
  cases happens with
  | other => exact small
  | setSp => exact small
  | fault _ _ _ _ faulted =>
    rw [faulted.image]
    exact small
  | evict _ _ evict =>
    rw [evict.size]
    exact small
  | sbrk n t ok v' sbrk =>
    rcases sbrk.size with same | new
    · rw [same]
      exact small
    · rw [new]
      exact v.newSize_lt n
  | parent _ _ _ evictions =>
    rw [evictions.image]
    exact small
  | child _ _ _ kin =>
    rw [kin.sz]
    exact small
  | execed _ _ _ _ fresh => exact lt_of_le_of_lt fresh.below (by decide)
  | execFailed _ _ _ _ failed =>
    rw [failed.size]
    exact small

theorem Fresh.small {v : Books} (fresh : v.Fresh) : v.image.sz < 2 ^ 64 :=
  lt_of_le_of_lt fresh.below (by decide)

end Books

namespace Books

variable {v v' : Books}

theorem Obtain.removes {ok : Bool} (obtained : v.Obtain ok v') {vpn : Nat} {flags : Flags}
    (here : v'.pte vpn = some flags) : v.pte vpn = some flags := obtained.evictions.removes here

theorem Obtain.unmapped {ok : Bool} (obtained : v.Obtain ok v') {vpn : Nat} (absent : v.pte vpn = none) :
    v'.pte vpn = none := by
  cases here : v'.pte vpn with
  | none => rfl
  | some flags =>
    rw [obtained.removes here] at absent
    contradiction

theorem installed_pte (v : Books) (va : Nat) (perm : Flags) :
    (v.installed .own va perm).pte = Function.update v.pte (va / 4096) (some perm) := by
  rw [installed_eq]
  rfl

theorem Faulted.elsewhere {vaPg : Nat} {acc : Access} {ok : Bool} (faulted : Faulted vaPg acc v ok v')
    {vpn : Nat} {flags : Flags} (other : vpn ≠ vaPg / 4096) (here : v'.pte vpn = some flags) :
    v.pte vpn = some flags := by
  have noted {w : Books} {ok : Bool} (obtained : (v.noted vaPg).Obtain ok w)
      (here : w.pte vpn = some flags) : v.pte vpn = some flags := by
    rw [← noted_pte v vaPg]
    exact obtained.removes here
  cases faulted with
  | refused => exact here
  | widened =>
    rw [noted_pte] at here
    exact (Function.update_of_ne other ..).symm.trans here
  | madeExec => exact (Function.update_of_ne other ..).symm.trans here
  | starved _ _ obtained => exact obtained.removes here
  | zeroStarved _ _ _ obtained => exact noted obtained here
  | swappedIn _ _ _ _ _ _ _ obtained =>
    exact obtained.removes ((Function.update_of_ne other ..).symm.trans here)
  | loaded _ _ _ _ _ obtained =>
    rw [installed_pte, Function.update_of_ne other] at here
    exact obtained.removes here
  | zeroed _ _ _ _ obtained =>
    rw [installed_pte, Function.update_of_ne other] at here
    exact noted obtained here

theorem Grow.stop_range {t : Target} {perm : Flags} {n a stop : Nat} {ok : Bool}
    (grow : Grow t perm n a v ok stop v') :
    a ≤ stop ∧ (stop - a) % 4096 = 0 ∧ stop ≤ a + n * 4096 ∧ (ok = true → stop = a + n * 4096) := by
  induction grow with
  | done => simp
  | starved => exact ⟨le_rfl, by simp, by omega, nofun⟩
  | page _ _ _ _ _ _ _ _ _ _ _ ih =>
    obtain ⟨low, aligned, high, whole⟩ := ih
    exact ⟨by omega, by omega, by omega, fun grown => by rw [whole grown]; omega⟩

theorem Grow.maps {perm : Flags} {n a stop : Nat} {ok : Bool} (grow : Grow .own perm n a v ok stop v')
    (aligned : a % 4096 = 0) {vpn : Nat} {flags : Flags} (here : v'.pte vpn = some flags) :
    v.pte vpn = some flags ∨ (a / 4096 ≤ vpn ∧ vpn < stop / 4096 ∧ flags = perm) := by
  induction grow with
  | done => exact .inl here
  | starved _ _ _ _ obtained => exact .inl (obtained.removes here)
  | page _ a stop _ _ _ _ obtained _ _ rest ih =>
    have range := rest.stop_range
    rcases ih (by omega) here with before | ⟨low, high, granted⟩
    · rw [installed_pte] at before
      by_cases same : vpn = a / 4096
      · rw [same, Function.update_self] at before
        exact .inr ⟨same.ge, by omega, (Option.some.inj before).symm⟩
      · rw [Function.update_of_ne same] at before
        exact .inl (obtained.removes before)
    · exact .inr ⟨by omega, high, granted⟩

theorem Grow.spare_removes {perm : Flags} {n a stop : Nat} {ok : Bool}
    (grow : Grow .spare perm n a v ok stop v') {vpn : Nat} {flags : Flags}
    (here : v'.pte vpn = some flags) : v.pte vpn = some flags := by
  induction grow with
  | done => exact here
  | starved _ _ _ _ obtained => exact obtained.removes here
  | page _ _ _ _ _ _ _ obtained _ _ _ ih =>
    have before := ih here
    rw [installed_eq] at before
    exact obtained.removes before

theorem unmapped_removes {a n : Nat} {vpn : Nat} {flags : Flags}
    (here : (v.unmapped .own a n).pte vpn = some flags) :
    v.pte vpn = some flags ∧ ¬ (a / 4096 ≤ vpn ∧ vpn < a / 4096 + n) := by
  change (if a / 4096 ≤ vpn ∧ vpn < a / 4096 + n then none else v.pte vpn) = some flags at here
  split_ifs at here with range
  exact ⟨here, range⟩

theorem Moved.maps {n t : Nat} {ok : Bool} (moved : Moved n t v ok v') {vpn : Nat} {flags : Flags}
    (here : v'.pte vpn = some flags) :
    v.pte vpn = some flags ∨ (u32 t = sbrkEager ∧ ¬ isNegative n ∧ flags = growFlags ∧
      pgroundup v.image.sz ≤ vpn * 4096 ∧ vpn * 4096 < v.newSize n) := by
  have start := pgroundup_aligned v.image.sz
  cases moved with
  | kept => exact .inl here
  | refused => exact .inl here
  | shrunk => exact .inl (unmapped_removes here).1
  | grown stop w eager positive _ grow =>
    rcases grow.maps start here with before | ⟨low, high, granted⟩
    · exact .inl before
    · have range := grow.stop_range.2.2.1
      unfold growPages at range
      exact .inr ⟨eager, positive, granted, by omega, by omega⟩
  | failed stop w _ _ _ grow =>
    obtain ⟨here, outside⟩ := unmapped_removes here
    rcases grow.maps start here with before | ⟨low, high, _⟩
    · exact .inl before
    · have range := grow.stop_range
      exact absurd ⟨low, by omega⟩ outside
  | lazy => exact .inl here

theorem Sbrk.maps {n t : Nat} {ok : Bool} (sbrk : Sbrk n t v ok v') {vpn : Nat} {flags : Flags}
    (here : v'.pte vpn = some flags) :
    v.pte vpn = some flags ∨ (u32 t = sbrkEager ∧ ¬ isNegative n ∧ flags = growFlags ∧
      pgroundup v.image.sz ≤ vpn * 4096 ∧ vpn * 4096 < v.newSize n) := by
  cases sbrk with
  | failed _ moved => exact moved.maps here
  | unmoved _ moved => exact moved.maps here
  | moved _ moved => exact moved.maps here

theorem Born.maps {im : Proc} (born : v.Born im v') {vpn : Nat} {flags : Flags}
    (here : v'.pte vpn = some flags) : framePtes vpn = some flags ∨ v.pte vpn = some flags := by
  induction born with
  | blank => exact .inl here
  | copied w i copiedFlags _ _ source _ ih =>
    rw [installed_pte] at here
    by_cases same : vpn = i / 4096
    · rw [same, Function.update_self] at here
      rw [same, ← here]
      exact .inr source
    · rw [Function.update_of_ne same] at here
      exact ih here

theorem ExecFailed.removes {file : Option Inode} (failed : v.ExecFailed file v') {vpn : Nat}
    {flags : Flags} (here : v'.pte vpn = some flags) : v.pte vpn = some flags := by
  cases failed with
  | early alike =>
    rw [alike.pte] at here
    exact here
  | late _ _ _ w w' _ before _ grow after =>
    rw [after.pte] at here
    rw [← before.pte]
    exact grow.spare_removes here

end Books

theorem Machine.lineage_invariant {m₀ : Machine} {guard : Machine → Event → Prop} {I : Books → Prop}
    (fresh : m₀.books.Fresh) (base : I m₀.books)
    (preserved : ∀ (m m' : Machine) (e : Event), I m.books → guard m e → m.after b e = some m' →
      m.books.Happens e m'.books → I m'.books)
    (reached : (m₀.lineage b).ReachableVia guard m) : I m.books := by
  have both : m.books.image.sz < 2 ^ 64 ∧ I m.books := by
    apply reached.invariant (I := fun m => m.books.image.sz < 2 ^ 64 ∧ I m.books)
    · rintro _ rfl
      exact ⟨fresh.small, base⟩
    · rintro m e m' ⟨small, holds⟩ meets taken
      have happens := Machine.after_books small taken
      exact ⟨happens.small small, preserved m m' e holds meets taken happens⟩
  exact both.2

end SystemsSuite.Paging
