import SystemsSuite.Lib.Transition

set_option autoImplicit false

namespace SystemsSuite.Paging

def nul : Char := Char.ofNat 0

-- What a pointer to the string points at; behind the end of the list is the NUL that ends it.
def deref (s : List Char) : Char := s.headD nul

@[simp] theorem deref_cons (c : Char) (rest : List Char) : deref (c :: rest) = c := rfl

def strncmp : List Char → List Char → Nat → Int
  | _, _, 0 => 0
  | p, q, n + 1 =>
    if deref p ≠ nul ∧ deref p = deref q then strncmp p.tail q.tail n
    else ((deref p).toNat : Int) - (deref q).toNat

-- The `n` bytes that `strncpy` writes.
def strncpy : List Char → Nat → List Char
  | _, 0 => []
  | t, n + 1 =>
    deref t :: if deref t ≠ nul then strncpy t.tail n else List.replicate n nul

-- The loop of `safestrcpy`; `left` is `n` after the decrement in its condition.
def safestrcpyLoop : Nat → List Char → List Char → List Char
  | 0, s, _ => s.set 0 nul
  | left + 1, s, t =>
    deref t ::
      if deref t ≠ nul then safestrcpyLoop left s.tail t.tail else s.tail.set 0 nul

def safestrcpy (s t : List Char) (n : Nat) : List Char :=
  if n = 0 then s else safestrcpyLoop (n - 1) s t

-- Two strings compare equal exactly when `strncpy` leaves the same bytes of them.
theorem strncmp_eq_zero_iff (p q : List Char) (n : Nat) :
    strncmp p q n = 0 ↔ strncpy p n = strncpy q n := by
  induction n generalizing p q with
  | zero => simp [strncmp, strncpy]
  | succ n ih =>
    by_cases same : deref p = deref q
    next =>
      by_cases ended : deref q = nul <;> simp [strncmp, strncpy, same, ended, ih]
    next =>
      have differ : (deref p).toNat ≠ (deref q).toNat := by
        intro equal
        exact same (Char.toNat_inj.mp equal)
      have apart : ((deref p).toNat : Int) - (deref q).toNat ≠ 0 := by omega
      simp only [strncmp, strncpy, same, and_false, if_false, List.cons.injEq, false_and, apart]

theorem strncpy_strncpy (t : List Char) (n : Nat) : strncpy (strncpy t n) n = strncpy t n := by
  induction n generalizing t with
  | zero => rfl
  | succ n ih =>
    by_cases ended : deref t = nul <;> simp [strncpy, ended, ih]

theorem strncpy_plain {s : List Char} (plain : ∀ c ∈ s, c ≠ nul) : strncpy s s.length = s := by
  induction s with
  | nil => rfl
  | cons c rest ih =>
    rw [List.length_cons, strncpy, deref_cons, if_pos (plain c List.mem_cons_self), List.tail_cons,
      ih fun c member => plain c (List.mem_cons_of_mem _ member)]

def dirsiz : Nat := 14

def namecmp (s t : List Char) : Int := strncmp s t dirsiz

theorem namecmp_symm {s t : List Char} (same : namecmp s t = 0) : namecmp t s = 0 :=
  (strncmp_eq_zero_iff t s dirsiz).mpr ((strncmp_eq_zero_iff s t dirsiz).mp same).symm

theorem namecmp_trans {s t u : List Char} (first : namecmp s t = 0) (second : namecmp t u = 0) :
    namecmp s u = 0 :=
  (strncmp_eq_zero_iff s u dirsiz).mpr
    (((strncmp_eq_zero_iff s t dirsiz).mp first).trans ((strncmp_eq_zero_iff t u dirsiz).mp second))

theorem namecmp_strncpy (s : List Char) : namecmp s (strncpy s dirsiz) = 0 :=
  (strncmp_eq_zero_iff s _ dirsiz).mpr (strncpy_strncpy s dirsiz).symm

def inElement (c : Char) : Bool := c != '/' && c != nul

-- `name` is the buffer before the call; none stands for the null result.
def skipelem (path name : List Char) : Option (List Char × List Char) :=
  let s := path.dropWhile (· == '/')
  if deref s = nul then none
  else
    let element := s.takeWhile inElement
    let name :=
      if element.length ≥ dirsiz then element.take dirsiz ++ name.drop dirsiz
      else element ++ nul :: name.drop (element.length + 1)
    some ((s.dropWhile inElement).dropWhile (· == '/'), name)

-- `nameiparent` of a path from the root: the name it leaves in `nm` when the parent is the root
-- itself, none for a path that goes through another directory.
def nameiparent (path nm : List Char) : Option (List Char) := do
  let (rest, nm) ← skipelem path nm
  if deref rest = nul then some nm else none

theorem nameiparent_element {element : List Char} (rest nm : List Char) (long : dirsiz ≤ element.length)
    (plain : ∀ c ∈ element, inElement c = true) :
    nameiparent ('/' :: (element ++ nul :: rest)) nm = some (element.take dirsiz ++ nm.drop dirsiz) := by
  obtain _ | ⟨head, tail⟩ := element
  next => exact absurd long (by decide)
  have first : (head == '/') = false ∧ head ≠ nul := by
    have here := plain head List.mem_cons_self
    simp only [inElement, Bool.and_eq_true, bne_iff_ne] at here
    exact ⟨beq_false_of_ne here.1, here.2⟩
  have stop : inElement nul = false := by decide
  have slash : (nul == '/') = false := by decide
  have skipped : skipelem ('/' :: (head :: tail ++ nul :: rest)) nm =
      some (nul :: rest, (head :: tail).take dirsiz ++ nm.drop dirsiz) := by
    have taken : (head :: tail ++ nul :: rest).takeWhile inElement = head :: tail := by
      rw [List.takeWhile_append_of_pos plain, List.takeWhile_cons_of_neg (by simp [stop]), List.append_nil]
    have left : (head :: tail ++ nul :: rest).dropWhile inElement = nul :: rest := by
      rw [List.dropWhile_append_of_pos plain, List.dropWhile_cons_of_neg (by simp [stop])]
    have start : ('/' :: (head :: tail ++ nul :: rest)).dropWhile (· == '/') =
        head :: tail ++ nul :: rest := by
      rw [List.dropWhile_cons_of_pos (by simp), List.cons_append,
        List.dropWhile_cons_of_neg (by simp [first.1])]
    unfold skipelem
    rw [start]
    simp only [taken, left]
    rw [List.cons_append, deref_cons, if_neg first.2, if_pos long,
      List.dropWhile_cons_of_neg (by simp [slash])]
  unfold nameiparent
  rw [skipped]
  rfl

-- The loop over the last five digits; `i` counts up, `left` is what remains of it.
def swapDigits : Nat → Nat → List Char → Nat → List Char
  | 0, _, name, _ => name
  | left + 1, i, name, pid =>
    swapDigits left (i + 1) (name.set (11 + 4 - i) (Char.ofNat ('0'.toNat + pid % 10))) (pid / 10)

-- The path that `alloc_swapfile` and `remove_swapfile` build; the buffer starts out all NUL.
def swapPath (pid : Nat) : List Char :=
  swapDigits 5 0
    (safestrcpy (List.replicate 32 nul) ['/', 'p', 'g', 's', 'w', 'p', '0', '0', '0', '0', '0'] 32) pid

def swapName (pid : Nat) : Option (List Char) := nameiparent (swapPath pid) (List.replicate dirsiz nul)

def digit (n : Nat) : Char := Char.ofNat ('0'.toNat + n % 10)

theorem digit_inElement (n : Nat) : inElement (digit n) = true := by
  have every : ∀ d < 10, inElement (Char.ofNat ('0'.toNat + d)) = true := by decide
  exact every (n % 10) (Nat.mod_lt n (by decide))

theorem digit_inj {m n : Nat} : digit m = digit n ↔ m % 10 = n % 10 := by
  have every : ∀ d < 10, ∀ e < 10,
      Char.ofNat ('0'.toNat + d) = Char.ofNat ('0'.toNat + e) → d = e := by decide
  constructor
  · exact every (m % 10) (Nat.mod_lt m (by decide)) (n % 10) (Nat.mod_lt n (by decide))
  · intro same
    unfold digit
    rw [same]

-- What the directory keeps of the name; the element has fifteen characters, so the last digit of
-- the pid is cut off.
def swapEntry (pid : Nat) : List Char :=
  ['p', 'g', 's', 'w', 'p', '0', '0', '0', '0', '0', digit (pid / 10 / 10 / 10 / 10),
    digit (pid / 10 / 10 / 10), digit (pid / 10 / 10), digit (pid / 10)]

theorem swapEntry_plain (pid : Nat) : ∀ c ∈ swapEntry pid ++ [digit pid], inElement c = true := by
  simp only [swapEntry, List.mem_append, List.mem_cons, List.not_mem_nil, or_false]
  rintro c ((rfl | rfl | rfl | rfl | rfl | rfl | rfl | rfl | rfl | rfl | rfl | rfl | rfl | rfl) | rfl)
  all_goals first | decide | exact digit_inElement _

theorem swapName_eq (pid : Nat) : swapName pid = some (swapEntry pid) := by
  have path : swapPath pid =
      '/' :: ((swapEntry pid ++ [digit pid]) ++ nul :: List.replicate 15 nul) := rfl
  unfold swapName
  rw [path, nameiparent_element _ _ (Nat.le_of_ble_eq_true rfl) (swapEntry_plain pid)]
  rfl

theorem strncpy_swapEntry (pid : Nat) : strncpy (swapEntry pid) dirsiz = swapEntry pid := by
  apply strncpy_plain
  rintro c member rfl
  exact absurd (swapEntry_plain pid nul (List.mem_append_left _ member)) (by decide)

theorem swapEntry_collides {p q : Nat} (pShort : p ≤ 99999) (qShort : q ≤ 99999) :
    namecmp (swapEntry p) (swapEntry q) = 0 ↔ p / 10 = q / 10 := by
  have digits : p / 10 = q / 10 ↔
      p / 10 / 10 / 10 / 10 % 10 = q / 10 / 10 / 10 / 10 % 10 ∧
        p / 10 / 10 / 10 % 10 = q / 10 / 10 / 10 % 10 ∧ p / 10 / 10 % 10 = q / 10 / 10 % 10 ∧
        p / 10 % 10 = q / 10 % 10 := by omega
  unfold namecmp
  rw [strncmp_eq_zero_iff, strncpy_swapEntry, strncpy_swapEntry, digits]
  simp only [swapEntry, List.cons.injEq, true_and, and_true, digit_inj]

end SystemsSuite.Paging
