import SystemsSuite.Paging.Fork

set_option autoImplicit false

namespace SystemsSuite.Paging

open Lib Prog

def sbrkEager : Nat := 1

-- An int argument is given by its bits; `throughInt` is its value as a uint64.
def isNegative (n : Nat) : Prop := 2 ^ 31 ≤ u32 n

instance (n : Nat) : Decidable (isNegative n) := inferInstanceAs (Decidable (_ ≤ _))

def signed64 (n : Nat) : Int := if u64 n < 2 ^ 63 then u64 n else u64 n - 2 ^ 64

variable (b : Build)

def growproc (n : Nat) : Kern Bool := do
  let sz := (← read).proc.sz
  if u32 n = 0 then
    modifyProc fun p => { p with sz := sz }
    pure true
  else if isNegative n then
    let sz ← uvmdealloc b .own sz (u64 (sz + throughInt n))
    modifyProc fun p => { p with sz := sz }
    pure true
  else
    let sz ← uvmalloc b .own sz (u64 (sz + throughInt n)) ⟨false, true, false, false⟩
    if sz = 0 then pure false
    else
      modifyProc fun p => { p with sz := sz }
      pure true

-- The first part of `sys_sbrk`: whether `p->sz` could be moved.
def moveSize (n t : Nat) : Kern Bool := do
  let addr := (← read).proc.sz
  if u32 t = sbrkEager ∨ isNegative n then growproc b n
  else if u64 (addr + throughInt n) < addr then pure false
  else
    modifyProc fun p => { p with sz := u64 (p.sz + throughInt n) }
    pure true

-- `heap_brk` after a move by `n`, clamped to the end of the program segments and to `p->sz`.
def Proc.movedBrk (p : Proc) (n : Nat) : Nat :=
  let newbrk := u64 (p.heapBrk + throughInt n)
  let raised := if signed64 newbrk < signed64 p.progEnd then p.progEnd else newbrk
  if signed64 raised > signed64 p.sz then p.sz else raised

def sysSbrk (n t : Nat) : Kern (Option Nat) := do
  let addr := (← read).proc.sz
  if ← moveSize b n t then
    modifyProc fun p => if u32 n = 0 then p else { p with heapBrk := p.movedBrk n }
    pure (some addr)
  else pure none

end SystemsSuite.Paging
