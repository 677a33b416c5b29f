import SystemsSuite.User.Malloc

set_option autoImplicit false

namespace SystemsSuite.User

open Lib

-- The blocks that have address `a`.
def cover (blocks : List Extent) (a : Nat) : Nat := blocks.countP fun b => decide (b.1 ≤ a ∧ a < b.stop)

def units (blocks : List Extent) : Nat := (blocks.map Prod.snd).sum

section Cover

variable {blocks more : List Extent} {b c : Extent} {a : Nat}

theorem cover_append : cover (blocks ++ more) a = cover blocks a + cover more a := List.countP_append

theorem cover_cons : cover (b :: blocks) a = cover blocks a + if b.1 ≤ a ∧ a < b.stop then 1 else 0 := by
  rw [cover, cover, List.countP_cons]
  simp

theorem cover_one : cover (b :: blocks) a = cover blocks a + cover [b] a := by
  rw [← List.singleton_append, cover_append, Nat.add_comm]

theorem cover_pair {x m : Nat} :
    cover ((x, m) :: blocks) a = cover blocks a + if x ≤ a ∧ a < x + headerSize * m then 1 else 0 := cover_cons

theorem units_append : units (blocks ++ more) = units blocks + units more := by
  rw [units, units, units, List.map_append, List.sum_append]

theorem units_cons : units (b :: blocks) = b.2 + units blocks := by
  rw [units, units, List.map_cons, List.sum_cons]

theorem cover_pos (member : b ∈ blocks) (within : b.1 ≤ a) (below : a < b.stop) : 0 < cover blocks a :=
  List.countP_pos_iff.mpr ⟨b, member, decide_eq_true ⟨within, below⟩⟩

theorem apart_of_cover (once : ∀ a, cover (blocks ++ more) a ≤ 1) (member : b ∈ blocks) (member' : c ∈ more)
    (positive : 0 < b.2) (positive' : 0 < c.2) : b.stop ≤ c.1 ∨ c.stop ≤ b.1 := by
  by_contra overlap
  obtain ⟨first, second⟩ := not_or.mp overlap
  have twice := once (max b.1 c.1)
  rw [cover_append] at twice
  have here : 0 < cover blocks (max b.1 c.1) := by
    apply cover_pos member
    · omega
    · unfold Extent.stop headerSize at *
      omega
  have there : 0 < cover more (max b.1 c.1) := by
    apply cover_pos member'
    · omega
    · unfold Extent.stop headerSize at *
      omega
  omega

theorem pairwise_of_cover (once : ∀ a, cover blocks a ≤ 1) (positive : ∀ b ∈ blocks, 0 < b.2) :
    blocks.Pairwise fun b c => b.stop ≤ c.1 ∨ c.stop ≤ b.1 := by
  induction blocks with
  | nil => exact .nil
  | cons b rest ih =>
    have fewer : ∀ a, cover rest a ≤ 1 := by
      intro a
      have all := once a
      rw [cover_cons] at all
      omega
    refine .cons (fun c member => ?_) (ih fewer fun c member => positive c (List.mem_cons_of_mem b member))
    have once' : ∀ a, cover ([b] ++ rest) a ≤ 1 := once
    exact apart_of_cover once' List.mem_cons_self member (positive b List.mem_cons_self)
      (positive c (List.mem_cons_of_mem b member))

theorem within_of_cover {lo hi : Nat} (old : ∀ b ∈ blocks, lo ≤ b.1 ∧ b.stop ≤ hi) (less : ∀ a, cover more a ≤ cover blocks a)
    (member : c ∈ more) (positive : 0 < c.2) : lo ≤ c.1 ∧ c.stop ≤ hi := by
  have reach : ∀ a, c.1 ≤ a → a < c.stop → lo ≤ a ∧ a < hi := by
    intro a from_ below
    obtain ⟨b, member', found⟩ := List.countP_pos_iff.mp (lt_of_lt_of_le (cover_pos member from_ below) (less a))
    obtain ⟨above, under⟩ := of_decide_eq_true found
    obtain ⟨low, high⟩ := old b member'
    omega
  have first := reach c.1 le_rfl (by unfold Extent.stop headerSize; omega)
  have last := reach (c.stop - 1) (by unfold Extent.stop headerSize; omega) (by unfold Extent.stop headerSize; omega)
  omega

end Cover

namespace Heap

variable {h : Heap} {a p x : Nat}

def ptrAt (h : Heap) (a : Nat) : Nat := (h.mem a).ptr

def sizeAt (h : Heap) (a : Nat) : Nat := (h.mem a).size

@[simp] theorem ptrAt_setPtr_self : (h.setPtr p x).ptrAt p = x := by simp [ptrAt, setPtr]

theorem ptrAt_setPtr (other : a ≠ p) : (h.setPtr p x).ptrAt a = h.ptrAt a := by simp [ptrAt, setPtr, other]

@[simp] theorem sizeAt_setPtr : (h.setPtr p x).sizeAt a = h.sizeAt a := by
  by_cases same : a = p
  · subst same
    simp [sizeAt, setPtr]
  · simp [sizeAt, setPtr, same]

@[simp] theorem sizeAt_setSize_self : (h.setSize p x).sizeAt p = x := by simp [sizeAt, setSize]

theorem sizeAt_setSize (other : a ≠ p) : (h.setSize p x).sizeAt a = h.sizeAt a := by simp [sizeAt, setSize, other]

@[simp] theorem ptrAt_setSize : (h.setSize p x).ptrAt a = h.ptrAt a := by
  by_cases same : a = p
  · subst same
    simp [ptrAt, setSize]
  · simp [ptrAt, setSize, same]

-- The nodes of the free list, from the static header on.
def nodes (base : Nat) (free : List Extent) : List Extent := (base, 0) :: free

-- The free list goes through its blocks in the order of their addresses, no two of which meet; the process has the
-- blocks of `live`.
structure Owns (base : Nat) (h : Heap) (free live : List Extent) : Prop where
  ring : Chain h.ptrAt h.sizeAt base (nodes base free) base
  sorted : (nodes base free).Pairwise fun b c => b.stop < c.1
  starts : ∃ i : Nat, ∃ node, (nodes base free)[i]? = some node ∧ node.1 = h.freep
  headers : ∀ b ∈ live, h.sizeAt b.1 = b.2
  once : ∀ a, cover (free ++ live) a ≤ 1
  positive : ∀ b ∈ free ++ live, 0 < b.2
  within : ∀ b ∈ free ++ live, base + headerSize ≤ b.1 ∧ b.stop ≤ min h.brk (2 ^ 36)

variable {base : Nat} {free live : List Extent}

theorem exists_place {list : List Extent} {bp : Nat} (sorted : list.Pairwise fun b c => b.1 < c.1)
    (apart : ∀ node ∈ list, node.1 ≠ bp) (below : ∃ node, list.head? = some node ∧ node.1 < bp) :
    ∃ front node post, list = front ++ node :: post ∧ node.1 < bp ∧ ∀ c ∈ post, bp < c.1 := by
  induction list with
  | nil =>
    obtain ⟨node, head, -⟩ := below
    cases head
  | cons first rest ih =>
    obtain ⟨node, head, less⟩ := below
    obtain rfl := Option.some.inj head
    obtain ⟨ahead, onward⟩ := List.pairwise_cons.mp sorted
    by_cases more : ∃ node, rest.head? = some node ∧ node.1 < bp
    · obtain ⟨front, node, post, split, place⟩ := ih onward (fun c member => apart c (List.mem_cons_of_mem _ member)) more
      exact ⟨first :: front, node, post, by rw [split, List.cons_append], place⟩
    · refine ⟨[], first, rest, rfl, less, ?_⟩
      cases rest with
      | nil => exact fun c member => absurd member List.not_mem_nil
      | cons second others =>
        have next : bp < second.1 := by
          have other := apart second (List.mem_cons_of_mem _ List.mem_cons_self)
          have least : ¬ second.1 < bp := fun less => more ⟨second, rfl, less⟩
          omega
        intro c member
        obtain rfl | later := List.mem_cons.mp member
        · exact next
        · exact next.trans (List.rel_of_pairwise_cons onward later)

-- From every node the loop gets to the place of `bp`.
theorem findPlace_reaches {list front post : List Extent} {first node : Extent} {bp : Nat}
    (ring : Chain h.ptrAt h.sizeAt first.1 list first.1) (head : list[0]? = some first)
    (sorted : list.Pairwise fun b c => b.1 < c.1) (split : list = front ++ node :: post) (less : node.1 < bp)
    (more : ∀ c ∈ post, bp < c.1) (fuel : Nat) {i : Nat} {start : Extent} (here : list[i]? = some start) :
    h.findPlace bp (turnsTo list.length front.length i + fuel + 1) start.1 = some node.1 := by
  have target : front.length < list.length := by
    rw [split, List.length_append, List.length_cons]
    omega
  have place : list[front.length]? = some node := by simp [split]
  have increasing : ∀ i j : Nat, ∀ b c : Extent, i < j → list[i]? = some b → list[j]? = some c → b.1 < c.1 := by
    intro i j b c before first second
    obtain ⟨inside, rfl⟩ := List.getElem?_eq_some_iff.mp first
    obtain ⟨inside', rfl⟩ := List.getElem?_eq_some_iff.mp second
    exact List.pairwise_iff_getElem.mp sorted i j inside inside' before
  have lowest : first.1 ≤ node.1 := by
    by_cases alone : front.length = 0
    · rw [alone, head] at place
      rw [Option.some.inj place]
    · exact (increasing 0 front.length first node (by omega) head place).le
  have upper : ∀ j : Nat, ∀ c : Extent, front.length < j → list[j]? = some c → bp < c.1 := by
    intro j c after here
    obtain ⟨i, rfl⟩ := Nat.exists_eq_add_of_lt after
    rw [split, List.getElem?_append_right (by omega)] at here
    have shift : front.length + i + 1 - front.length = i + 1 := by omega
    rw [shift, List.getElem?_cons_succ] at here
    exact more c (List.mem_of_getElem? here)
  have onward : ∀ (i : Nat) (here : Extent), list[i]? = some here →
      ∃ there, list[turn list.length i]? = some there ∧ (h.mem here.1).ptr = there.1 := by
    intro i here found
    obtain ⟨inside, -⟩ := List.getElem?_eq_some_iff.mp found
    have there := List.getElem?_eq_getElem (turn_lt inside)
    exact ⟨_, there, chain_turn ring i found there⟩
  induction count : turnsTo list.length front.length i generalizing i start with
  | zero =>
    obtain ⟨inside, -⟩ := List.getElem?_eq_some_iff.mp here
    obtain rfl := (turnsTo_eq_zero inside).mp count
    obtain rfl := Option.some.inj (place.symm.trans here)
    obtain ⟨there, found, next⟩ := onward front.length node place
    simp only [Nat.zero_add, findPlace, next]
    unfold turn at found
    split at found
    next last =>
      obtain rfl := Option.some.inj (head.symm.trans found)
      rw [if_neg (by omega), if_pos (by omega)]
    next =>
      have above := upper (front.length + 1) there (by omega) found
      rw [if_pos ⟨less, above⟩]
  | succ d ih =>
    obtain ⟨inside, -⟩ := List.getElem?_eq_some_iff.mp here
    have other : i ≠ front.length := fun same => by
      rw [(turnsTo_eq_zero inside).mpr same] at count
      contradiction
    obtain ⟨there, found, next⟩ := onward i start here
    have closer : turnsTo list.length front.length (turn list.length i) = d := by
      have one := turnsTo_turn inside target other
      omega
    have remaining := ih found closer
    have goes : ¬ (start.1 < bp ∧ bp < there.1) ∧ ¬ (there.1 ≤ start.1 ∧ (start.1 < bp ∨ bp < there.1)) := by
      unfold turn at found
      split at found
      next last =>
        obtain rfl := Option.some.inj (head.symm.trans found)
        have above := upper i start (by omega) here
        omega
      next =>
        have ordered := increasing i (i + 1) start there (by omega) here found
        by_cases before : i < front.length
        · have reached : there.1 ≤ node.1 := by
            by_cases adjacent : i + 1 = front.length
            · rw [adjacent, place] at found
              rw [Option.some.inj found]
            · exact (increasing (i + 1) front.length there node (by omega) found place).le
          omega
        · have above := upper i start (by omega) here
          omega
    have fuelled : d + 1 + fuel + 1 = (d + fuel + 1) + 1 := by omega
    rw [fuelled, findPlace]
    simp only [next, if_neg goes.1, if_neg goes.2]
    exact remaining

abbrev Sorted (list : List Extent) : Prop := list.Pairwise fun b c => b.stop < c.1

structure Regroups (list list' : List Extent) : Prop where
  cover : ∀ a, cover list' a = cover list a
  units : units list' = units list

theorem regroups_merge {a m n : Nat} (rest : List Extent) (positive : 0 < n) :
    Regroups ((a, m) :: (a + headerSize * m, n) :: rest) ((a, m + n) :: rest) := by
  constructor
  · intro x
    rw [cover_pair, cover_pair, cover_pair]
    unfold headerSize
    split_ifs <;> omega
  · simp only [units_cons]
    omega

theorem joinUp_other {bp : Nat} (other : a ≠ bp) : (h.joinUp p bp).ptrAt a = h.ptrAt a ∧ (h.joinUp p bp).sizeAt a = h.sizeAt a := by
  simp only [joinUp]
  split
  next => simp only [ptrAt_setPtr other, sizeAt_setPtr, ptrAt_setSize, sizeAt_setSize other, and_self]
  next => simp only [ptrAt_setPtr other, sizeAt_setPtr, and_self]

theorem joinUp_chain {bp m y stop : Nat} {post : List Extent} (next : h.ptrAt p = y) (chain : Chain h.ptrAt h.sizeAt y post stop)
    (size : h.sizeAt bp = m) (positive : 0 < m) (below : stop < bp) (sorted : Sorted post)
    (bounded : bp + headerSize * m ≤ 2 ^ 36)
    (fits : ∀ c ∈ post, bp + headerSize * m ≤ c.1 ∧ 0 < c.2 ∧ c.stop ≤ 2 ^ 36) :
    ∃ m' post', (h.joinUp p bp).sizeAt bp = m' ∧
      Chain (h.joinUp p bp).ptrAt (h.joinUp p bp).sizeAt ((h.joinUp p bp).ptrAt bp) post' stop ∧
      m ≤ m' ∧ bp + headerSize * m' ≤ 2 ^ 36 ∧ Regroups ((bp, m) :: post) ((bp, m') :: post') ∧ Sorted ((bp, m') :: post') ∧ ∀ c ∈ post', c ∈ post := by
  have apart : ∀ c ∈ post, c.1 ≠ bp := by
    intro c member
    have fit := (fits c member).1
    unfold headerSize at fit
    omega
  by_cases meets : bp + headerSize * m = y
  · cases post with
    | nil =>
      have ends : y = stop := chain
      unfold headerSize at meets
      omega
    | cons c rest =>
      obtain ⟨rfl, value, onward⟩ := chain
      obtain ⟨-, positive', limit⟩ := fits c List.mem_cons_self
      have other := apart c List.mem_cons_self
      have joined : h.joinUp p bp = (h.setSize bp (u32 (m + c.2))).setPtr bp (h.ptrAt c.1) := by
        have own : (h.mem bp).size = m := size
        have up : (h.mem p).ptr = c.1 := next
        have above : (h.mem c.1).size = c.2 := value
        have kept : ((h.setSize bp (u32 (m + c.2))).mem c.1).ptr = h.ptrAt c.1 := ptrAt_setSize
        unfold joinUp
        simp only [own, up, if_pos meets, above, kept]
      have exact_ : u32 (m + c.2) = m + c.2 := by
        apply Nat.mod_eq_of_lt
        unfold Extent.stop headerSize at *
        omega
      have there : c = (bp + headerSize * m, c.2) := Prod.ext meets.symm rfl
      obtain ⟨ahead, sorted'⟩ := List.pairwise_cons.mp sorted
      refine ⟨m + c.2, rest, ?_, ?_, Nat.le_add_right m c.2, ?_, ?_, ?_, fun d => List.mem_cons_of_mem c⟩
      · rw [joined, sizeAt_setPtr, sizeAt_setSize_self, exact_]
      · rw [joined, ptrAt_setPtr_self]
        refine chain_frame onward fun node member => ?_
        have different := apart node (List.mem_cons_of_mem c member)
        exact ⟨by rw [ptrAt_setPtr different, ptrAt_setSize], by rw [sizeAt_setPtr, sizeAt_setSize different]⟩
      · unfold Extent.stop headerSize at *
        omega
      · rw [there]
        exact regroups_merge _ positive'
      · refine .cons (fun d member => ?_) sorted'
        have after := ahead d member
        unfold Extent.stop headerSize at *
        simp only
        omega
  · have joined : h.joinUp p bp = h.setPtr bp y := by
      have own : (h.mem bp).size = m := size
      have up : (h.mem p).ptr = y := next
      unfold joinUp
      simp only [own, up, if_neg meets]
    refine ⟨m, post, ?_, ?_, le_rfl, bounded, ⟨fun _ => rfl, rfl⟩, ?_, fun _ => id⟩
    · rw [joined, sizeAt_setPtr, size]
    · rw [joined, ptrAt_setPtr_self]
      refine chain_frame chain fun node member => ?_
      exact ⟨ptrAt_setPtr (apart node member), sizeAt_setPtr⟩
    · refine .cons (fun d member => ?_) sorted
      have fit := (fits d member).1
      cases post with
      | nil => cases member
      | cons c rest =>
        obtain ⟨rfl, -, -⟩ := chain
        have first := (fits c List.mem_cons_self).1
        obtain rfl | later := List.mem_cons.mp member
        · unfold Extent.stop
          simp only
          omega
        · have after := List.rel_of_pairwise_cons sorted later
          unfold Extent.stop headerSize at *
          simp only
          omega

theorem joinDown_other (bp : Nat) (other : a ≠ p) :
    (h.joinDown p bp).ptrAt a = h.ptrAt a ∧ (h.joinDown p bp).sizeAt a = h.sizeAt a := by
  simp only [joinDown]
  split
  next => simp only [ptrAt_setPtr other, sizeAt_setPtr, ptrAt_setSize, sizeAt_setSize other, and_self]
  next => simp only [ptrAt_setPtr other, sizeAt_setPtr, and_self]

theorem joinDown_chain {n bp m stop : Nat} {post : List Extent} (chain : Chain h.ptrAt h.sizeAt (h.ptrAt bp) post stop)
    (size : h.sizeAt bp = m) (below : h.sizeAt p = n) (positive : 0 < m) (fit : p + headerSize * n ≤ bp) (address : 0 < p) (less : p < bp)
    (bounded : bp + headerSize * m ≤ 2 ^ 36) (sorted : Sorted ((bp, m) :: post)) :
    ∃ n' rest, Chain (h.joinDown p bp).ptrAt (h.joinDown p bp).sizeAt p ((p, n') :: rest) stop ∧
      Regroups ((p, n) :: (bp, m) :: post) ((p, n') :: rest) ∧ Sorted ((p, n') :: rest) ∧
      n ≤ n' ∧ (n = 0 → n' = 0) ∧ (∀ c ∈ rest, c = (bp, m) ∨ c ∈ post) ∧ ((0 < n ∧ m ≤ n') ∨ (bp, m) ∈ rest) := by
  obtain ⟨ahead, sorted'⟩ := List.pairwise_cons.mp sorted
  have apart : ∀ c ∈ post, c.1 ≠ p := by
    intro c member
    have after := ahead c member
    unfold Extent.stop headerSize at after
    simp only at after
    omega
  by_cases meets : p + headerSize * n = bp
  · have own : (h.mem p).size = n := below
    have above : (h.mem bp).size = m := size
    have kept : ((h.setSize p (u32 (n + m))).mem bp).ptr = h.ptrAt bp := ptrAt_setSize
    have joined : h.joinDown p bp = (h.setSize p (u32 (n + m))).setPtr p (h.ptrAt bp) := by
      unfold joinDown
      simp only [own, above, if_pos meets, kept]
    have exact_ : u32 (n + m) = n + m := by
      apply Nat.mod_eq_of_lt
      unfold headerSize at *
      omega
    have positive' : 0 < n := by
      unfold headerSize at meets
      omega
    refine ⟨n + m, post, ?_, ?_, ?_, Nat.le_add_right n m, fun none_ => absurd none_ positive'.ne', fun c member => .inr member,
      .inl ⟨positive', Nat.le_add_left m n⟩⟩
    · refine ⟨rfl, ?_, ?_⟩
      · rw [joined, sizeAt_setPtr, sizeAt_setSize_self, exact_]
      · rw [joined, ptrAt_setPtr_self]
        refine chain_frame chain fun node member => ?_
        have different := apart node member
        exact ⟨by rw [ptrAt_setPtr different, ptrAt_setSize], by rw [sizeAt_setPtr, sizeAt_setSize different]⟩
    · subst meets
      exact regroups_merge _ positive
    · refine .cons (fun c member => ?_) sorted'
      have after := ahead c member
      unfold Extent.stop headerSize at *
      simp only at *
      omega
  · have own : (h.mem p).size = n := below
    have joined : h.joinDown p bp = h.setPtr p bp := by
      unfold joinDown
      simp only [own, if_neg meets]
    refine ⟨n, (bp, m) :: post, ?_, ⟨fun _ => rfl, rfl⟩, ?_, le_rfl, id, ?_, .inr List.mem_cons_self⟩
    · refine ⟨rfl, ?_, ?_⟩
      · rw [joined, sizeAt_setPtr, below]
      · rw [joined, ptrAt_setPtr_self]
        refine ⟨rfl, by rw [sizeAt_setPtr, size], ?_⟩
        rw [ptrAt_setPtr (by omega)]
        exact chain_frame chain fun node member => ⟨ptrAt_setPtr (apart node member), sizeAt_setPtr⟩
    · refine .cons (fun c member => ?_) sorted
      unfold Extent.stop headerSize at *
      obtain rfl | later := List.mem_cons.mp member
      · simp only
        omega
      · have after := ahead c later
        simp only at *
        omega
    · exact fun c member => List.mem_cons.mp member

theorem cover_nodes : cover (nodes base free) a = cover free a := by
  rw [nodes, cover_pair, if_neg (by unfold headerSize; omega), Nat.add_zero]

theorem units_nodes : units (nodes base free) = units free := by rw [nodes, units_cons, Nat.zero_add]

theorem ordered_of_sorted {list : List Extent} (sorted : Sorted list) : list.Pairwise fun b c => b.1 < c.1 :=
  sorted.imp fun {b c} before => by
    unfold Extent.stop at before
    omega

theorem nodes_of_split {front post : List Extent} {n n' : Nat} (rest : List Extent)
    (split : nodes base free = front ++ (p, n) :: post) (static : n = 0 → n' = 0) : ∃ free', nodes base free' = front ++ (p, n') :: rest := by
  cases front with
  | nil =>
    obtain ⟨same, -⟩ := List.cons.inj split
    obtain ⟨rfl, rfl⟩ := Prod.mk.inj same
    exact ⟨rest, by rw [nodes, static rfl, List.nil_append]⟩
  | cons first others =>
    obtain ⟨rfl, -⟩ := List.cons.inj split
    exact ⟨others ++ (p, n') :: rest, rfl⟩

-- What `free` makes of the nodes around the place of a block.
structure Linked (h h' : Heap) (bp p base n m : Nat) (front post : List Extent) (n' : Nat) (rest : List Extent) : Prop where
  ring : Chain h'.ptrAt h'.sizeAt base (front ++ (p, n') :: rest) base
  sorted : Sorted (front ++ (p, n') :: rest)
  regroups : Regroups ((bp, m) :: (front ++ (p, n) :: post)) (front ++ (p, n') :: rest)
  static : n = 0 → n' = 0
  grown : n ≤ n'
  full : ∀ c ∈ rest, 0 < c.2
  room : ∃ c ∈ front ++ (p, n') :: rest, m ≤ c.2
  others : ∀ a, a ≠ p → a ≠ bp → h'.sizeAt a = h.sizeAt a

theorem link_in {front post : List Extent} {n bp m : Nat}
    (ring : Chain h.ptrAt h.sizeAt base (front ++ (p, n) :: post) base) (sorted : Sorted (front ++ (p, n) :: post))
    (size : h.sizeAt bp = m) (positive : 0 < m) (address : 0 < p) (below : base < bp) (fit : p + headerSize * n ≤ bp)
    (less : p < bp) (bounded : bp + headerSize * m ≤ 2 ^ 36)
    (fits : ∀ c ∈ post, bp + headerSize * m ≤ c.1 ∧ 0 < c.2 ∧ c.stop ≤ 2 ^ 36) :
    ∃ n' rest, Linked h ((h.joinUp p bp).joinDown p bp) bp p base n m front post n' rest := by
  obtain ⟨mid, before, at_, holds, onward⟩ := chain_append.mp ring
  simp only at at_ holds
  subst at_
  obtain ⟨sortedFront, sortedBack, across⟩ := List.pairwise_append.mp sorted
  obtain ⟨m', post', own, chain, more, limit, regroups, ordered, fewer⟩ :=
    joinUp_chain rfl onward size positive below (List.pairwise_cons.mp sortedBack).2 bounded fits
  have kept : (h.joinUp mid bp).sizeAt mid = n := (joinUp_other less.ne).2.trans holds
  obtain ⟨n', rest, joined, regroups', ordered', grown, static, members, room⟩ :=
    joinDown_chain chain own kept (positive.trans_le more) fit address less limit ordered
  have untouched : ∀ a, a ≠ mid → a ≠ bp →
      ((h.joinUp mid bp).joinDown mid bp).ptrAt a = h.ptrAt a ∧ ((h.joinUp mid bp).joinDown mid bp).sizeAt a = h.sizeAt a := by
    intro a other other'
    obtain ⟨ptr, size⟩ := joinDown_other (h := h.joinUp mid bp) bp other
    obtain ⟨ptr', size'⟩ := joinUp_other (h := h) (p := mid) other'
    exact ⟨ptr.trans ptr', size.trans size'⟩
  have lower : ∀ node ∈ front, node.stop < mid := fun node member => across node member (mid, n) List.mem_cons_self
  refine ⟨n', rest, ?_, ?_, ⟨fun a => ?_, ?_⟩, static, grown, ?_, ?_, fun a other other' => (untouched a other other').2⟩
  · refine chain_append.mpr ⟨mid, chain_frame before fun node member => ?_, joined⟩
    have low := lower node member
    unfold Extent.stop at low
    exact untouched node.1 (by omega) (by omega)
  · refine List.pairwise_append.mpr ⟨sortedFront, ordered', fun node member c there => ?_⟩
    have low := lower node member
    obtain rfl | later := List.mem_cons.mp there
    · exact low
    · have after := List.rel_of_pairwise_cons ordered' later
      unfold Extent.stop at *
      simp only at after
      omega
  · have first := regroups.cover a
    have second := regroups'.cover a
    simp only [cover_append, cover_cons] at first second ⊢
    omega
  · have first := regroups.units
    have second := regroups'.units
    simp only [units_append, units_cons] at first second ⊢
    omega
  · intro c member
    obtain rfl | inPost := members c member
    · exact positive.trans_le more
    · exact (fits c (fewer c inPost)).2.1
  · obtain ⟨-, enough⟩ | apart := room
    · exact ⟨(mid, n'), by simp, more.trans enough⟩
    · exact ⟨(bp, m'), by simp [apart], more⟩

theorem free_brk {bp : Nat} : ((h.joinUp p bp).joinDown p bp).brk = h.brk := by
  simp only [joinDown, joinUp]
  split <;> split <;> rfl

theorem above_static {c : Extent} (sorted : Sorted (nodes base free)) (member : c ∈ free) : base < c.1 := by
  have after := List.rel_of_pairwise_cons sorted member
  unfold Extent.stop at after
  simp only at after
  omega

theorem inFree_of_node {free' : List Extent} {c : Extent} (sorted : Sorted (nodes base free')) (member : c ∈ free')
    (node : c ∈ nodes base free) : c ∈ free := by
  have above := above_static sorted member
  obtain rfl | inFree := List.mem_cons.mp node
  · exact absurd above (Nat.lt_irrefl _)
  · exact inFree

namespace Owns

variable {n : Nat}

theorem apart (owns : Owns base h free live) {node b : Extent} (inList : node ∈ nodes base free) (held : b ∈ live) :
    node.stop ≤ b.1 ∨ b.stop ≤ node.1 := by
  obtain rfl | inFree := List.mem_cons.mp inList
  · have low := (owns.within b (List.mem_append_right free held)).1
    left
    unfold Extent.stop headerSize at *
    simp only
    omega
  · exact apart_of_cover owns.once inFree held (owns.positive node (List.mem_append_left live inFree))
      (owns.positive b (List.mem_append_right free held))

theorem starts_apart {b c : Extent} {rest : List Extent} (owns : Owns base h free (b :: rest)) (member : c ∈ rest) :
    b.stop ≤ c.1 ∨ c.stop ≤ b.1 := by
  have once : ∀ a, cover (b :: rest) a ≤ 1 := by
    intro a
    have all := owns.once a
    rw [cover_append] at all
    omega
  have positive : ∀ c ∈ b :: rest, 0 < c.2 := fun c member => owns.positive c (List.mem_append_right free member)
  exact List.rel_of_pairwise_cons (pairwise_of_cover once positive) member

theorem reshaped {h' : Heap} {free' live' : List Extent} (owns : Owns base h free live)
    (ring : Chain h'.ptrAt h'.sizeAt base (nodes base free') base) (sorted : Sorted (nodes base free'))
    (starts : ∃ i : Nat, ∃ node, (nodes base free')[i]? = some node ∧ node.1 = h'.freep)
    (headers : ∀ b ∈ live', h'.sizeAt b.1 = b.2)
    (covers : ∀ a, cover (free' ++ live') a = cover (free ++ live) a) (positive : ∀ b ∈ free' ++ live', 0 < b.2)
    (brk : h'.brk = h.brk) : Owns base h' free' live' := by
  refine ⟨ring, sorted, starts, headers, fun a => covers a ▸ owns.once a, positive, fun c member => ?_⟩
  rw [brk]
  exact within_of_cover owns.within (fun a => (covers a).le) member (positive c member)

-- `free` of a block finds its place, and makes it a part of the free list.
theorem release {bp m : Nat} (owns : Owns base h free ((bp, m) :: live)) (address : 0 < base) :
    ∃ h' free', (∀ fuel, free.length + 1 ≤ fuel → h.free fuel (bp + headerSize) = some h') ∧
      Owns base h' free' live ∧ units free' = m + units free ∧ (∃ c ∈ free', m ≤ c.2) ∧
      h'.brk = h.brk ∧ 0 < h'.freep := by
  have own : (bp, m) ∈ free ++ (bp, m) :: live := List.mem_append_right free List.mem_cons_self
  have positive : 0 < m := owns.positive _ own
  obtain ⟨low, high⟩ := owns.within _ own
  have bounds : base < bp ∧ bp + headerSize * m ≤ 2 ^ 36 := by
    unfold Extent.stop headerSize at *
    simp only at low high
    omega
  have besides : ∀ node ∈ nodes base free, node.stop ≤ bp ∨ bp + headerSize * m ≤ node.1 :=
    fun node member => owns.apart member List.mem_cons_self
  have distinct : ∀ node ∈ nodes base free, node.1 ≠ bp := by
    intro node member same
    have beside := besides node member
    obtain rfl | inFree := List.mem_cons.mp member
    · omega
    · have full := owns.positive node (List.mem_append_left _ inFree)
      unfold Extent.stop headerSize at beside
      omega
  obtain ⟨front, ⟨p, n⟩, post, split, less, more⟩ :=
    exists_place (ordered_of_sorted owns.sorted) distinct ⟨_, rfl, bounds.1⟩
  simp only at less
  have member : (p, n) ∈ nodes base free := by rw [split]; simp
  have fit : p + headerSize * n ≤ bp := by
    have beside := besides _ member
    unfold Extent.stop headerSize at *
    simp only at beside
    omega
  have later : ∀ c ∈ post, c ∈ nodes base free := fun c inPost => by rw [split]; simp [inPost]
  have fits : ∀ c ∈ post, bp + headerSize * m ≤ c.1 ∧ 0 < c.2 ∧ c.stop ≤ 2 ^ 36 := by
    intro c inPost
    have above := more c inPost
    have inFree : c ∈ free := by
      obtain rfl | inFree := List.mem_cons.mp (later c inPost)
      · simp only at above
        omega
      · exact inFree
    have full := owns.positive c (List.mem_append_left _ inFree)
    have limits := (owns.within c (List.mem_append_left _ inFree)).2
    have beside := besides c (later c inPost)
    unfold Extent.stop headerSize at *
    omega
  have address' : 0 < p := by
    obtain same | inFree := List.mem_cons.mp member
    · obtain ⟨rfl, -⟩ := Prod.mk.inj same
      exact address
    · have above := (owns.within _ (List.mem_append_left _ inFree)).1
      simp only at above
      omega
  obtain ⟨n', rest, linked⟩ := link_in (split ▸ owns.ring) (split ▸ owns.sorted) (owns.headers _ List.mem_cons_self) positive
    address' bounds.1 fit less bounds.2 fits
  obtain ⟨free', whole⟩ := nodes_of_split rest split linked.static
  have covers : ∀ a, cover (free' ++ live) a = cover (free ++ (bp, m) :: live) a := by
    intro a
    have same := linked.regroups.cover a
    rw [← whole, ← split, cover_nodes, cover_one (b := (bp, m)), cover_nodes] at same
    rw [cover_append, cover_append, cover_one (b := (bp, m)), same]
    omega
  have counts : units free' = m + units free := by
    have same := linked.regroups.units
    rwa [← whole, ← split, units_nodes, units_cons, units_nodes] at same
  have full : ∀ c ∈ free', 0 < c.2 := by
    intro c inFree
    have inNodes : c ∈ nodes base free' := List.mem_cons_of_mem _ inFree
    have sorted' : Sorted (nodes base free') := whole ▸ linked.sorted
    rw [whole] at inNodes
    obtain inFront | here | later := by simpa using inNodes
    · have old : c ∈ nodes base free := by rw [split]; simp [inFront]
      exact owns.positive c (List.mem_append_left _ (inFree_of_node sorted' inFree old))
    · subst here
      have above := above_static sorted' inFree
      obtain same | inFree := List.mem_cons.mp member
      · exact absurd (Prod.mk.inj same).1 above.ne'
      · exact (owns.positive _ (List.mem_append_left _ inFree)).trans_le linked.grown
    · exact linked.full c later
  refine ⟨{ (h.joinUp p bp).joinDown p bp with freep := p }, free', ?_, ?_, counts, ?_, ?_, address'⟩
  · intro fuel enough
    obtain ⟨i, start, found, starts⟩ := owns.starts
    obtain ⟨inside, -⟩ := List.getElem?_eq_some_iff.mp found
    have target : front.length < (nodes base free).length := by
      rw [split, List.length_append, List.length_cons]
      omega
    have turns := turnsTo_lt inside target
    have length : (nodes base free).length = free.length + 1 := rfl
    obtain ⟨spare, rfl⟩ := Nat.exists_eq_add_of_le
      (show turnsTo (nodes base free).length front.length i + 1 ≤ fuel by omega)
    have search := findPlace_reaches owns.ring rfl (ordered_of_sorted owns.sorted) split less more spare found
    have fuelled : turnsTo (nodes base free).length front.length i + 1 + spare =
        turnsTo (nodes base free).length front.length i + spare + 1 := by omega
    unfold Heap.free
    simp only [Nat.add_sub_cancel]
    rw [fuelled, ← starts, search]
    rfl
  · refine owns.reshaped (whole ▸ linked.ring) (whole ▸ linked.sorted) ?_ ?_ covers ?_ free_brk
    · exact ⟨front.length, (p, n'), by rw [whole]; simp, rfl⟩
    · intro b held
      refine (linked.others b.1 ?_ ?_).trans (owns.headers b (List.mem_cons_of_mem _ held))
      · intro same
        have beside := owns.apart member (List.mem_cons_of_mem _ held)
        have filled := owns.positive b (List.mem_append_right _ (List.mem_cons_of_mem _ held))
        have above := (owns.within b (List.mem_append_right _ (List.mem_cons_of_mem _ held))).1
        obtain static | inFree := List.mem_cons.mp member
        · obtain ⟨rfl, -⟩ := Prod.mk.inj static
          unfold headerSize at above
          omega
        · have node := owns.positive _ (List.mem_append_left _ inFree)
          unfold Extent.stop headerSize at beside
          simp only at beside node
          omega
      · have beside := owns.starts_apart held
        have filled := owns.positive b (List.mem_append_right _ (List.mem_cons_of_mem _ held))
        unfold Extent.stop headerSize at beside
        simp only at beside
        omega
    · intro c member
      obtain inFree | held := List.mem_append.mp member
      · exact full c inFree
      · exact owns.positive c (List.mem_append_right _ (List.mem_cons_of_mem _ held))
  · obtain ⟨c, inNodes, room⟩ := linked.room
    rw [← whole] at inNodes
    obtain rfl | inFree := List.mem_cons.mp inNodes
    · simp only at room
      omega
    · exact ⟨c, inFree, room⟩
  · exact free_brk

end Owns

theorem pointed {j : Nat} {prev blk : Extent} (here : (nodes base free)[j]? = some prev)
    (there : (nodes base free)[turn (nodes base free).length j]? = some blk) (fits : 0 < blk.2) :
    ∃ front post, nodes base free = front ++ prev :: blk :: post ∧ front.length = j ∧ blk ∈ free := by
  have after : (nodes base free)[j + 1]? = some blk := by
    unfold turn at there
    split at there
    next =>
      obtain rfl : (base, 0) = blk := by simpa [nodes] using there
      exact absurd fits (Nat.lt_irrefl 0)
    next => exact there
  obtain ⟨inside, value⟩ := List.getElem?_eq_some_iff.mp here
  obtain ⟨inside', value'⟩ := List.getElem?_eq_some_iff.mp after
  refine ⟨(nodes base free).take j, (nodes base free).drop (j + 2), ?_, List.length_take_of_le inside.le, ?_⟩
  · have first := List.drop_eq_getElem_cons inside
    have second := List.drop_eq_getElem_cons inside'
    rw [← value, ← value', ← second, ← first, List.take_append_drop]
  · have shifted : free[j]? = some blk := by simpa [nodes] using after
    exact List.mem_of_getElem? shifted

namespace Owns

variable {front post : List Extent} {prev blk : Extent} {nunits : Nat}

theorem take_whole (owns : Owns base h free live) (split : nodes base free = front ++ prev :: blk :: post)
    (inFree : blk ∈ free) :
    ∃ free', Owns base { h.setPtr prev.1 (h.ptrAt blk.1) with freep := prev.1 } free' (blk :: live) ∧
      units free' + blk.2 = units free := by
  obtain ⟨mid, before, at_, holds, points, room, onward⟩ := chain_append.mp (split ▸ owns.ring)
  subst at_
  rw [points] at room onward
  have sorted := owns.sorted
  rw [split] at sorted
  obtain ⟨sortedFront, sortedBack, across⟩ := List.pairwise_append.mp sorted
  obtain ⟨ahead, sortedPost⟩ := List.pairwise_cons.mp sortedBack
  obtain ⟨free', whole⟩ := nodes_of_split (p := prev.1) post split id
  have sorted' : Sorted (nodes base free') := by
    rw [whole]
    refine sorted.sublist (List.Sublist.append_left ?_ front)
    exact .cons_cons _ (List.sublist_cons_self blk post)
  have covers : ∀ a, cover (free' ++ blk :: live) a = cover (free ++ live) a := by
    intro a
    have new : cover (nodes base free') a = cover (front ++ prev :: post) a := by rw [whole]
    have old : cover (nodes base free) a = cover (front ++ prev :: blk :: post) a := by rw [split]
    rw [cover_nodes, cover_append, cover_one] at new old
    rw [cover_one] at old
    rw [cover_append, cover_append, cover_one, new, old]
    omega
  refine ⟨free', owns.reshaped ?_ sorted' ?_ ?_ covers ?_ rfl, ?_⟩
  · rw [whole]
    have frame : ∀ node : Extent, node.1 ≠ prev.1 →
        (h.setPtr prev.1 (h.ptrAt blk.1)).ptrAt node.1 = h.ptrAt node.1 ∧
          (h.setPtr prev.1 (h.ptrAt blk.1)).sizeAt node.1 = h.sizeAt node.1 :=
      fun node other => ⟨ptrAt_setPtr other, sizeAt_setPtr⟩
    refine chain_append.mpr ⟨prev.1, chain_frame before fun node member => frame node ?_, rfl, ?_, ?_⟩
    · have lower := across node member prev List.mem_cons_self
      unfold Extent.stop at lower
      omega
    · exact sizeAt_setPtr.trans holds
    · have next : (h.setPtr prev.1 (h.ptrAt blk.1)).ptrAt prev.1 = h.ptrAt blk.1 := ptrAt_setPtr_self
      change Chain _ _ ((h.setPtr prev.1 (h.ptrAt blk.1)).ptrAt prev.1) post base
      rw [next]
      refine chain_frame onward fun node member => frame node ?_
      have above := ahead node (List.mem_cons_of_mem _ member)
      unfold Extent.stop at above
      omega
  · exact ⟨front.length, prev, by rw [whole]; simp, rfl⟩
  · intro b member
    refine sizeAt_setPtr.trans ?_
    obtain rfl | held := List.mem_cons.mp member
    · exact room
    · exact owns.headers b held
  · intro c member
    obtain inNew | member' := List.mem_append.mp member
    · refine owns.positive c (List.mem_append_left _ (inFree_of_node sorted' inNew ?_))
      have node : c ∈ nodes base free' := List.mem_cons_of_mem _ inNew
      rw [whole] at node
      rw [split]
      obtain inFront | rfl | inPost := by simpa using node
      · simp [inFront]
      · simp
      · simp [inPost]
    · obtain rfl | held := List.mem_cons.mp member'
      · exact owns.positive c (List.mem_append_left _ inFree)
      · exact owns.positive c (List.mem_append_right _ held)
  · have new : units (nodes base free') = units (front ++ prev :: post) := by rw [whole]
    have old : units (nodes base free) = units (front ++ prev :: blk :: post) := by rw [split]
    rw [units_nodes, units_append, units_cons] at new old
    rw [units_cons] at old
    omega

theorem take_part (owns : Owns base h free live) {a n : Nat} (split : nodes base free = front ++ prev :: (a, n) :: post)
    (inFree : (a, n) ∈ free) (positive : 0 < nunits) (less : nunits < n) :
    ∃ free', Owns base
        { (h.setSize a (n - nunits)).setSize (a + headerSize * (n - nunits)) nunits with freep := prev.1 } free'
        ((a + headerSize * (n - nunits), nunits) :: live) ∧ units free' + nunits = units free := by
  obtain ⟨mid, before, at_, holds, points, room, onward⟩ := chain_append.mp (split ▸ owns.ring)
  subst at_
  rw [points] at room onward
  simp only at room onward
  have sorted := owns.sorted
  rw [split] at sorted
  obtain ⟨sortedFront, sortedBack, across⟩ := List.pairwise_append.mp sorted
  obtain ⟨ahead, sortedPost⟩ := List.pairwise_cons.mp sortedBack
  obtain ⟨free', whole⟩ := nodes_of_split (p := prev.1) ((a, n - nunits) :: post) split id
  let h' := (h.setSize a (n - nunits)).setSize (a + headerSize * (n - nunits)) nunits
  have parts : n - nunits + nunits = n := by omega
  have merge : Regroups ((a, n - nunits) :: (a + headerSize * (n - nunits), nunits) :: post) ((a, n) :: post) := by
    have both := regroups_merge (a := a) (m := n - nunits) post positive
    rwa [parts] at both
  have positive' : 0 < n - nunits := by omega
  have inner : a ≠ a + headerSize * (n - nunits) := by
    unfold headerSize
    omega
  have frame : ∀ node : Extent, node.1 ≠ a → node.1 ≠ a + headerSize * (n - nunits) →
      h'.ptrAt node.1 = h.ptrAt node.1 ∧ h'.sizeAt node.1 = h.sizeAt node.1 := by
    intro node other other'
    exact ⟨by rw [ptrAt_setSize, ptrAt_setSize], by rw [sizeAt_setSize other', sizeAt_setSize other]⟩
  have ptrs : ∀ x, h'.ptrAt x = h.ptrAt x := fun x => by rw [ptrAt_setSize, ptrAt_setSize]
  have sorted' : Sorted (nodes base free') := by
    rw [whole]
    obtain ⟨beyond, sortedRest⟩ := List.pairwise_cons.mp sortedPost
    have shorter : ∀ c ∈ post, Extent.stop (a, n - nunits) < c.1 := by
      intro c member
      have after := beyond c member
      unfold Extent.stop headerSize at *
      simp only at *
      omega
    have starts : ∀ c ∈ (a, n - nunits) :: post, ∃ c' ∈ (a, n) :: post, c.1 = c'.1 := by
      intro c member
      obtain rfl | inPost := List.mem_cons.mp member
      · exact ⟨(a, n), List.mem_cons_self, rfl⟩
      · exact ⟨c, List.mem_cons_of_mem _ inPost, rfl⟩
    refine List.pairwise_append.mpr ⟨sortedFront, .cons (fun c member => ?_) (.cons shorter sortedRest), ?_⟩
    · obtain ⟨c', member', same⟩ := starts c member
      exact same ▸ ahead c' member'
    · intro node inFront c member
      obtain rfl | later := List.mem_cons.mp member
      · exact across node inFront _ List.mem_cons_self
      · obtain ⟨c', member', same⟩ := starts c later
        exact same ▸ across node inFront c' (List.mem_cons_of_mem _ member')
  have covers : ∀ x, cover (free' ++ (a + headerSize * (n - nunits), nunits) :: live) x = cover (free ++ live) x := by
    intro x
    have new : cover (nodes base free') x = cover (front ++ prev :: (a, n - nunits) :: post) x := by rw [whole]
    have old : cover (nodes base free) x = cover (front ++ prev :: (a, n) :: post) x := by rw [split]
    have joined := merge.cover x
    rw [cover_nodes, cover_append, cover_one (b := prev)] at new old
    rw [cover_one (b := (a, n - nunits)), cover_one (b := (a + headerSize * (n - nunits), nunits))] at joined
    rw [cover_one (b := (a, n - nunits))] at new
    rw [cover_append, cover_append, cover_one (b := (a + headerSize * (n - nunits), nunits)), new, old, joined]
    omega
  refine ⟨free', owns.reshaped ?_ sorted' ?_ ?_ covers ?_ rfl, ?_⟩
  · rw [whole]
    refine chain_append.mpr ⟨prev.1, chain_frame before fun node member => ?_, rfl, ?_, ?_⟩
    · have lower := across node member (a, n) (List.mem_cons_of_mem _ List.mem_cons_self)
      unfold Extent.stop at lower
      simp only at lower
      exact frame node (by omega) (by omega)
    · have lower := ahead (a, n) List.mem_cons_self
      unfold Extent.stop at lower
      simp only at lower
      exact (frame prev (by omega) (by omega)).2.trans holds
    · change Chain h'.ptrAt h'.sizeAt (h'.ptrAt prev.1) ((a, n - nunits) :: post) base
      rw [ptrs, points]
      refine ⟨rfl, (sizeAt_setSize inner).trans sizeAt_setSize_self, ?_⟩
      rw [ptrs]
      refine chain_frame onward fun node member => ?_
      have above := List.rel_of_pairwise_cons sortedPost member
      unfold Extent.stop headerSize at above
      simp only at above
      refine frame node ?_ ?_
      · omega
      · unfold headerSize
        omega
  · exact ⟨front.length, prev, by rw [whole]; simp, rfl⟩
  · intro b member
    obtain rfl | held := List.mem_cons.mp member
    · exact sizeAt_setSize_self
    · have beside := owns.apart (List.mem_cons_of_mem _ inFree) held
      have filled := owns.positive b (List.mem_append_right _ held)
      unfold Extent.stop headerSize at beside
      simp only at beside
      refine Eq.trans (frame b ?_ ?_).2 (owns.headers b held)
      · omega
      · unfold headerSize
        omega
  · intro c member
    obtain inNew | member' := List.mem_append.mp member
    · have node : c ∈ nodes base free' := List.mem_cons_of_mem _ inNew
      rw [whole] at node
      obtain inFront | rfl | rfl | inPost := by simpa using node
      · exact owns.positive c (List.mem_append_left _ (inFree_of_node sorted' inNew (by rw [split]; simp [inFront])))
      · exact owns.positive c (List.mem_append_left _ (inFree_of_node sorted' inNew (by rw [split]; simp)))
      · exact positive'
      · exact owns.positive c (List.mem_append_left _ (inFree_of_node sorted' inNew (by rw [split]; simp [inPost])))
    · obtain rfl | held := List.mem_cons.mp member'
      · exact positive
      · exact owns.positive c (List.mem_append_right _ held)
  · have new : units (nodes base free') = units (front ++ prev :: (a, n - nunits) :: post) := by rw [whole]
    have old : units (nodes base free) = units (front ++ prev :: (a, n) :: post) := by rw [split]
    rw [units_nodes, units_append, units_cons, units_cons] at new old
    simp only at new old
    omega

theorem address_pos (owns : Owns base h free live) (address : 0 < base) {node : Extent} (member : node ∈ nodes base free) :
    0 < node.1 := by
  obtain rfl | inFree := List.mem_cons.mp member
  · exact address
  · exact address.trans (above_static owns.sorted inFree)

theorem take (owns : Owns base h free live) (address : 0 < base) {j : Nat} (here : (nodes base free)[j]? = some prev)
    (there : (nodes base free)[turn (nodes base free).length j]? = some blk) (positive : 0 < nunits)
    (fits : nunits ≤ blk.2) :
    ∃ h' a free', h.take nunits prev.1 blk.1 = (h', a + headerSize) ∧ Owns base h' free' ((a, nunits) :: live) ∧
      units free' + nunits = units free ∧ h'.brk = h.brk ∧ 0 < h'.freep := by
  obtain ⟨front, post, split, -, inFree⟩ := pointed here there (positive.trans_le fits)
  have freep : 0 < prev.1 := owns.address_pos address (List.mem_of_getElem? here)
  have size : (h.mem blk.1).size = blk.2 := chain_value owns.ring blk (List.mem_of_getElem? there)
  by_cases whole : blk.2 = nunits
  · obtain ⟨free', owns', count⟩ := owns.take_whole split inFree
    refine ⟨_, blk.1, free', if_pos (size.trans whole), ?_, ?_, rfl, freep⟩
    · rw [← whole]
      exact owns'
    · rw [← whole]
      exact count
  · obtain ⟨free', owns', count⟩ := owns.take_part split inFree positive (by omega)
    refine ⟨_, blk.1 + headerSize * (blk.2 - nunits), free', ?_, owns', count, rfl, freep⟩
    have rest : ((h.setSize blk.1 (blk.2 - nunits)).mem blk.1).size = blk.2 - nunits := sizeAt_setSize_self
    unfold Heap.take
    rw [if_neg (by rw [size]; exact whole)]
    simp only [size, rest]

end Owns

section Loop

variable {list : List Extent} {start prev blk : Extent} {i₀ t : Nat}

theorem place_unique {b c : Extent} {i j : Nat} (sorted : list.Pairwise fun b c => b.1 < c.1) (first : list[i]? = some b)
    (second : list[j]? = some c) (same : b.1 = c.1) : i = j := by
  obtain ⟨inside, rfl⟩ := List.getElem?_eq_some_iff.mp first
  obtain ⟨inside', rfl⟩ := List.getElem?_eq_some_iff.mp second
  obtain less | equal | more := Nat.lt_trichotomy i j
  · have before := List.pairwise_iff_getElem.mp sorted i j inside inside' less
    omega
  · exact equal
  · have before := List.pairwise_iff_getElem.mp sorted j i inside' inside more
    omega

-- The loop takes a block on its way to a place `t` that is not behind `freep`, or gets there.
theorem mallocLoop_walk (grants : Nat → Bool) (nunits : Nat) (ring : Chain h.ptrAt h.sizeAt x list x)
    (sorted : list.Pairwise fun b c => b.1 < c.1) (freep : list[i₀]? = some start) (starts : start.1 = h.freep)
    (target : t < list.length) {i : Nat} (here : list[i]? = some prev)
    (there : list[turn list.length i]? = some blk) (ahead : turnsTo list.length t i ≤ turnsTo list.length t i₀) :
    (∃ j prev' blk', list[j]? = some prev' ∧ list[turn list.length j]? = some blk' ∧ nunits ≤ blk'.2 ∧
      ∀ fuel, mallocLoop grants nunits (turnsTo list.length t i + fuel + 1) h prev.1 blk.1 =
        some (h.take nunits prev'.1 blk'.1)) ∨
    ∃ prev' blk', list[t]? = some prev' ∧ list[turn list.length t]? = some blk' ∧
      ∀ fuel, mallocLoop grants nunits (turnsTo list.length t i + fuel + 1) h prev.1 blk.1 =
        mallocLoop grants nunits (fuel + 1) h prev'.1 blk'.1 := by
  induction count : turnsTo list.length t i generalizing i prev blk with
  | zero =>
    obtain ⟨inside, -⟩ := List.getElem?_eq_some_iff.mp here
    obtain rfl := (turnsTo_eq_zero inside).mp count
    exact .inr ⟨prev, blk, here, there, fun fuel => by rw [Nat.zero_add]⟩
  | succ d ih =>
    obtain ⟨inside, -⟩ := List.getElem?_eq_some_iff.mp here
    have other : i ≠ t := fun same => by
      rw [(turnsTo_eq_zero inside).mpr same] at count
      contradiction
    have closer := turnsTo_turn inside target other
    have fuelled : ∀ fuel, d + 1 + fuel + 1 = (d + fuel + 1) + 1 := by omega
    have size : (h.mem blk.1).size = blk.2 := chain_value ring blk (List.mem_of_getElem? there)
    by_cases fits : nunits ≤ blk.2
    · refine .inl ⟨i, prev, blk, here, there, fits, fun fuel => ?_⟩
      rw [fuelled, mallocLoop, size, if_pos fits]
    · have notFreep : blk.1 ≠ h.freep := by
        intro same
        have turned := place_unique sorted there freep (same.trans starts.symm)
        rw [← turned] at ahead
        omega
      obtain ⟨after, found⟩ : ∃ after, list[turn list.length (turn list.length i)]? = some after :=
        ⟨_, List.getElem?_eq_getElem (turn_lt (turn_lt inside))⟩
      have next : (h.mem blk.1).ptr = after.1 := chain_turn ring _ there found
      have onward : ∀ fuel, mallocLoop grants nunits (d + 1 + fuel + 1) h prev.1 blk.1 =
          mallocLoop grants nunits (d + fuel + 1) h blk.1 after.1 := by
        intro fuel
        rw [fuelled, mallocLoop, size, if_neg fits, if_neg notFreep, next]
      simp only [onward]
      exact ih there found (by omega) (by omega)

end Loop

theorem sbrkArg_eq {n : Nat} (small : n < 2 ^ 31) : sbrkArg n = n := by
  have value : (BitVec.ofNat 32 n).toNat = n := by
    rw [BitVec.toNat_ofNat]
    exact Nat.mod_eq_of_lt (by omega)
  unfold sbrkArg
  rw [BitVec.toInt_eq_toNat_of_lt (by rw [value]; omega), value]

namespace Owns

variable {nu : Nat}

-- The memory that `sbrk` gives is a block like one in use.
theorem extend (owns : Owns base h free live) (above : base + headerSize ≤ h.brk) (positive : 0 < nu)
    (limit : h.brk + headerSize * nu ≤ 2 ^ 36) :
    Owns base (Heap.setSize { h with brk := h.brk + headerSize * nu } h.brk nu) free ((h.brk, nu) :: live) := by
  have below : ∀ b ∈ free ++ live, b.1 < h.brk ∧ b.stop ≤ h.brk := by
    intro b member
    have bounds := (owns.within b member).2
    have filled := owns.positive b member
    unfold Extent.stop headerSize at *
    omega
  have clear : ∀ a, h.brk ≤ a → cover (free ++ live) a = 0 := by
    intro a beyond
    refine List.countP_eq_zero.mpr fun b member => ?_
    have limits := below b member
    simp only [decide_eq_true_eq, not_and, not_lt]
    omega
  have covers : ∀ a, cover (free ++ (h.brk, nu) :: live) a = cover (free ++ live) a + cover [(h.brk, nu)] a := by
    intro a
    rw [cover_append, cover_append, cover_one (b := (h.brk, nu))]
    omega
  constructor
  case ring =>
    refine chain_frame owns.ring fun node member => ?_
    have other : node.1 ≠ h.brk := by
      obtain rfl | inFree := List.mem_cons.mp member
      · simp only
        unfold headerSize at above
        omega
      · exact (below node (List.mem_append_left _ inFree)).1.ne
    exact ⟨ptrAt_setSize, sizeAt_setSize other⟩
  case sorted => exact owns.sorted
  case starts => exact owns.starts
  case headers =>
    intro b member
    obtain rfl | held := List.mem_cons.mp member
    · exact sizeAt_setSize_self
    · exact (sizeAt_setSize (below b (List.mem_append_right _ held)).1.ne).trans (owns.headers b held)
  case once =>
    intro a
    have old := owns.once a
    rw [covers]
    by_cases beyond : h.brk ≤ a
    · rw [clear a beyond, Nat.zero_add, cover_pair]
      split <;> simp [cover]
    · rw [cover_pair, if_neg (by omega)]
      simpa [cover] using old
  case positive =>
    intro b member
    obtain inFree | member' := List.mem_append.mp member
    · exact owns.positive b (List.mem_append_left _ inFree)
    · obtain rfl | held := List.mem_cons.mp member'
      · exact positive
      · exact owns.positive b (List.mem_append_right _ held)
  case within =>
    have wider : ∀ b ∈ free ++ live, base + headerSize ≤ b.1 ∧ b.stop ≤ min (h.brk + headerSize * nu) (2 ^ 36) := by
      intro b member
      have bounds := owns.within b member
      omega
    intro b member
    obtain inFree | member' := List.mem_append.mp member
    · exact wider b (List.mem_append_left _ inFree)
    · obtain rfl | held := List.mem_cons.mp member'
      · refine ⟨above, ?_⟩
        change h.brk + headerSize * nu ≤ min (h.brk + headerSize * nu) (2 ^ 36)
        omega
      · exact wider b (List.mem_append_right _ held)

variable (grants : Nat → Bool) {nunits : Nat}

-- Where `freep` points.
theorem first (owns : Owns base h free live) : ∃ (i : Nat) (start blk : Extent), (nodes base free)[i]? = some start ∧
    start.1 = h.freep ∧ (nodes base free)[turn (nodes base free).length i]? = some blk ∧ (h.mem h.freep).ptr = blk.1 := by
  obtain ⟨i, start, found, starts⟩ := owns.starts
  obtain ⟨inside, -⟩ := List.getElem?_eq_some_iff.mp found
  have there := List.getElem?_eq_getElem (turn_lt inside)
  exact ⟨i, start, _, found, starts, there, starts ▸ chain_turn owns.ring i found there⟩

theorem finds (owns : Owns base h free live) (address : 0 < base) (positive : 0 < nunits)
    (room : ∃ c ∈ free, nunits ≤ c.2) :
    ∃ h' a free' least, (∀ fuel, least ≤ fuel →
        mallocLoop grants nunits fuel h h.freep (h.mem h.freep).ptr = some (h', a + headerSize)) ∧
      Owns base h' free' ((a, nunits) :: live) ∧ units free' + nunits = units free ∧ h'.brk = h.brk ∧ 0 < h'.freep := by
  obtain ⟨c, member, fits⟩ := room
  obtain ⟨t, place⟩ := List.mem_iff_getElem?.mp member
  obtain ⟨inside, -⟩ := List.getElem?_eq_some_iff.mp place
  have length : (nodes base free).length = free.length + 1 := rfl
  obtain ⟨i, start, blk, found, starts, there, next⟩ := owns.first
  have after : (nodes base free)[turn (nodes base free).length t]? = some c := by
    unfold turn
    rw [if_neg (by omega)]
    exact place
  have walk := mallocLoop_walk grants nunits owns.ring (ordered_of_sorted owns.sorted) found starts
    (show t < (nodes base free).length by omega) found there le_rfl
  obtain ⟨j, prev, blk', here, there', fits', goes⟩ | ⟨prev, blk', here, there', goes⟩ := walk
  · obtain ⟨h', a, free', taken, rest⟩ := owns.take address here there' positive fits'
    refine ⟨h', a, free', turnsTo (nodes base free).length t i + 1, fun fuel enough => ?_, rest⟩
    obtain ⟨spare, rfl⟩ := Nat.exists_eq_add_of_le enough
    rw [Nat.add_right_comm, next, ← starts, goes, taken]
  · obtain rfl := Option.some.inj (after.symm.trans there')
    obtain ⟨h', a, free', taken, rest⟩ := owns.take address here after positive fits
    have size : (h.mem c.1).size = c.2 := chain_value owns.ring c (List.mem_of_getElem? after)
    refine ⟨h', a, free', turnsTo (nodes base free).length t i + 1, fun fuel enough => ?_, rest⟩
    obtain ⟨spare, rfl⟩ := Nat.exists_eq_add_of_le enough
    rw [Nat.add_right_comm, next, ← starts, goes, mallocLoop, size, if_pos fits, taken]

-- What `morecore` leaves when the kernel gives it memory.
theorem grows (owns : Owns base h free live) (address : 0 < base) (above : base + headerSize ≤ h.brk)
    (positive : 0 < nunits) (small : nunits < 2 ^ 27) (room : h.brk + 2 ^ 31 ≤ 2 ^ 36) (granted : grants h.brk = true) :
    ∃ h' free', (∀ fuel, free.length + 1 ≤ fuel → h.morecore grants fuel nunits = some (h', h'.freep)) ∧
      Owns base h' free' live ∧ (∃ c ∈ free', nunits ≤ c.2) ∧ 0 < h'.freep ∧ h.brk ≤ h'.brk ∧
      units free' = units free + (h'.brk - h.brk) / headerSize := by
  let nu := if nunits < 4096 then 4096 else nunits
  have enough : nunits ≤ nu ∧ 0 < nu ∧ nu < 2 ^ 27 := by
    show nunits ≤ ite _ _ _ ∧ 0 < ite _ _ _ ∧ ite _ _ _ < 2 ^ 27
    split <;> omega
  obtain ⟨least, full, limit⟩ := enough
  have bytes : nu * headerSize < 2 ^ 31 := by
    unfold headerSize
    omega
  have moved : (h.brk + sbrkArg (nu * headerSize)).toNat = h.brk + headerSize * nu := by
    rw [sbrkArg_eq bytes]
    unfold headerSize
    omega
  have extended := owns.extend above full (by unfold headerSize; omega)
  obtain ⟨h', free', freed, owns', count, ⟨c, member, size⟩, brk, freep⟩ := extended.release address
  have end_ : h'.brk = h.brk + headerSize * nu := brk
  refine ⟨h', free', fun fuel fuelled => ?_, owns', ⟨c, member, least.trans size⟩, freep, by omega, ?_⟩
  · have ran := freed fuel fuelled
    unfold morecore
    simp only [if_pos granted]
    change ((Heap.setSize { h with brk := (h.brk + sbrkArg (nu * headerSize)).toNat } h.brk nu).free fuel
      (h.brk + headerSize)).map (fun h => (h, h.freep)) = _
    rw [moved, ran]
    rfl
  · rw [count, end_]
    unfold headerSize
    omega

-- A call of `malloc` with a list ends: with nothing when the kernel has no memory, or with a block.
theorem mallocs (owns : Owns base h free live) (address : 0 < base) (above : base + headerSize ≤ h.brk)
    (positive : 0 < nunits) (small : nunits < 2 ^ 27) (room : h.brk + 2 ^ 31 ≤ 2 ^ 36) :
    ∃ h' ap least, (∀ fuel, least ≤ fuel →
        mallocLoop grants nunits fuel h h.freep (h.mem h.freep).ptr = some (h', ap)) ∧
      (ap = 0 ∧ h' = h ∧ grants h.brk = false ∨ ∃ a free', ap = a + headerSize ∧ Owns base h' free' ((a, nunits) :: live) ∧ 0 < h'.freep ∧
        h.brk ≤ h'.brk ∧ units free' + nunits = units free + (h'.brk - h.brk) / headerSize) := by
  have taken_brk : ∀ {h₁ h₂ : Heap}, h₂.brk = h₁.brk → h₁.brk ≤ h₂.brk ∧ (h₂.brk - h₁.brk) / headerSize = 0 := by
    intro h₁ h₂ same
    rw [same, Nat.sub_self, Nat.zero_div]
    exact ⟨le_rfl, rfl⟩
  by_cases room' : ∃ c ∈ free, nunits ≤ c.2
  · obtain ⟨h', a, free', least, goes, owns', count, brk, freep⟩ := owns.finds grants address positive room'
    obtain ⟨up, same⟩ := taken_brk brk
    exact ⟨h', a + headerSize, least, goes, .inr ⟨a, free', rfl, owns', freep, up, by rw [same, count, Nat.add_zero]⟩⟩
  · obtain ⟨i, start, blk, found, starts, there, next⟩ := owns.first
    obtain ⟨inside, -⟩ := List.getElem?_eq_some_iff.mp found
    obtain ⟨t, target, onto⟩ := turn_onto inside
    have none_ : ∀ blk ∈ nodes base free, ¬ nunits ≤ blk.2 := by
      intro blk member fits
      obtain rfl | inFree := List.mem_cons.mp member
      · simp only at fits
        omega
      · exact room' ⟨blk, inFree, fits⟩
    obtain ⟨_, _, blk', _, there', fits, _⟩ | ⟨prev, blk', -, there', goes⟩ :=
      mallocLoop_walk grants nunits owns.ring (ordered_of_sorted owns.sorted) found starts target found there le_rfl
    · exact absurd fits (none_ blk' (List.mem_of_getElem? there'))
    · rw [onto] at there'
      obtain rfl := Option.some.inj (found.symm.trans there')
      have size : (h.mem start.1).size = start.2 := chain_value owns.ring start (List.mem_of_getElem? found)
      have unfit : ¬ nunits ≤ (h.mem start.1).size := size ▸ none_ start (List.mem_of_getElem? found)
      -- Once round: more memory is asked for.
      have asks : ∀ fuel, mallocLoop grants nunits (turnsTo (nodes base free).length t i + fuel + 1) h h.freep
          (h.mem h.freep).ptr = (h.morecore grants fuel nunits).bind fun got =>
            if got.2 = 0 then some (got.1, 0)
            else mallocLoop grants nunits fuel got.1 got.2 (got.1.mem got.2).ptr := by
        intro fuel
        have round := goes fuel
        rw [starts] at round
        rw [next, round, ← starts, mallocLoop, if_neg unfit, if_pos starts]
      by_cases granted : grants h.brk = true
      · obtain ⟨h₂, free₂, got, owns₂, room₂, freep₂, up, count₂⟩ := owns.grows grants address above positive small room granted
        obtain ⟨h', a, free', least, goes', owns', count, brk, freep⟩ := owns₂.finds grants address positive room₂
        refine ⟨h', a + headerSize, turnsTo (nodes base free).length t i + (free.length + 1 + least) + 1,
          fun fuel enough => ?_, .inr ⟨a, free', rfl, owns', freep, up.trans brk.ge, ?_⟩⟩
        · obtain ⟨spare, rfl⟩ := Nat.exists_eq_add_of_le enough
          have split : turnsTo (nodes base free).length t i + (free.length + 1 + least) + 1 + spare =
              turnsTo (nodes base free).length t i + (free.length + 1 + least + spare) + 1 := by omega
          rw [split, asks, got _ (by omega), Option.bind_some, if_neg freep₂.ne', goes' _ (by omega)]
        · rw [count, count₂, brk]
      · refine ⟨h, 0, turnsTo (nodes base free).length t i + 1, fun fuel enough => ?_, .inl ⟨rfl, rfl, Bool.not_eq_true _ ▸ granted⟩⟩
        obtain ⟨spare, rfl⟩ := Nat.exists_eq_add_of_le enough
        have refused : h.morecore grants spare nunits = some (h, 0) := by
          unfold morecore
          simp only [if_neg granted]
        rw [Nat.add_right_comm, asks, refused, Option.bind_some, if_pos rfl]

end Owns

end Heap

end SystemsSuite.User
