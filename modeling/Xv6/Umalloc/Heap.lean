import Mathlib.Algebra.Order.Ring.Nat
import Mathlib.Logic.Function.Basic
import Xv6.Lib.Exec

/-! The allocator of user programs: `umalloc.c`.

Pointers and sizes are 32-bit numbers. The memory of the program is the headers in it: what `ptr` and
`size` are at every address. `sbrk` is a parameter, which may answer as it likes from one call to the next. -/
namespace Xv6.Umalloc
open Lib Function

/-- `sizeof(Header)` -/
abbrev HEADER : Nat := 8

/-- The value of an unsigned result. -/
def uint (n : Nat) : Nat := n % 2 ^ 32

/-- The value of an unsigned number as an `int`. -/
def toInt (n : Nat) : Int := (BitVec.ofNat 32 n).toInt

/-- A call of `sbrk`: the size that `morecore` records for the new block, the amount that it asks for, and the answer. -/
structure Call where
  units : Nat
  amount : Int
  answer : Option Nat

/-- The address of `base`, and the answers of `sbrk` after earlier calls. -/
structure Env where
  base : Nat
  sbrk : List Call → Int → Option Nat

structure State where
  ptr : Nat → Nat
  size : Nat → Nat
  freep : Nat
  /-- The calls of `sbrk`, the last one first. -/
  calls : List Call

/-- A loop has not ended; these are the calls of `sbrk` until then. -/
structure Hangs where
  calls : List Call

abbrev M := Exec Hangs State

/-- There are no more addresses than that, so that a loop that takes more iterations never ends. -/
@[irreducible] def LOOP : Nat := 2 ^ 32

/-- `p + n` -/
def plus (p n : Nat) : Nat := uint (p + n * HEADER)

/-- `(Header*)ap - 1` -/
def header (ap : Nat) : Nat := uint (ap + (2 ^ 32 - HEADER))

namespace State

def setPtr (s : State) (p q : Nat) : State := {s with ptr := update s.ptr p q}

def setSize (s : State) (p n : Nat) : State := {s with size := update s.size p n}

@[simp] theorem ptr_setPtr (s : State) (p q : Nat) : (s.setPtr p q).ptr = update s.ptr p q := rfl

@[simp] theorem size_setPtr (s : State) (p q : Nat) : (s.setPtr p q).size = s.size := rfl

@[simp] theorem ptr_setSize (s : State) (p n : Nat) : (s.setSize p n).ptr = s.ptr := rfl

@[simp] theorem size_setSize (s : State) (p n : Nat) : (s.setSize p n).size = update s.size p n := rfl

/-- The block at `bp` and the one that follows `p`. -/
def joinNext (s : State) (bp p : Nat) : State :=
  if plus bp (s.size bp) = s.ptr p then
    (s.setSize bp (uint (s.size bp + s.size (s.ptr p)))).setPtr bp (s.ptr (s.ptr p))
  else s.setPtr bp (s.ptr p)

/-- The block at `p` and the one at `bp`. -/
def joinPrev (s : State) (bp p : Nat) : State :=
  if plus p (s.size p) = bp then (s.setSize p (uint (s.size p + s.size bp))).setPtr p (s.ptr bp)
  else s.setPtr p bp

/-- The block at `bp` is put in the list after `p`. -/
def insert (s : State) (bp p : Nat) : State := {(s.joinNext bp p).joinPrev bp p with freep := p}

/-- `p`, after `prevp`, has at least `nunits` units: it is taken out of the list, or its end is split off. The block,
and the state. -/
def take (s : State) (nunits prevp p : Nat) : Nat × State :=
  if s.size p = nunits then (p, {s.setPtr prevp (s.ptr p) with freep := prevp})
  else
    let s := s.setSize p (s.size p - nunits)
    let p := plus p (s.size p)
    (p, {s.setSize p nunits with freep := prevp})

end State

/-- The search of `free` for the place of `bp` in the list, from `p` on. -/
def free_search (bp : Nat) : Nat → Nat → M Nat
  | 0, _ => do
    let s ← get
    throw ⟨s.calls⟩
  | fuel + 1, p => do
    let s ← get
    if p < bp ∧ bp < s.ptr p then pure p
    else if s.ptr p ≤ p ∧ (p < bp ∨ bp < s.ptr p) then pure p
    else free_search bp fuel (s.ptr p)

def free (ap : Nat) : M Unit := do
  let bp := header ap
  let s ← get
  let p ← free_search bp LOOP s.freep
  modify fun s => s.insert bp p

variable (env : Env)

/-- The number of units that `morecore` gets when `nu` are needed. -/
def recorded (nu : Nat) : Nat := if nu < 4096 then 4096 else nu

/-- The call of `sbrk` for `nu` units. -/
def Env.call (s : State) (nu : Nat) : Call :=
  ⟨nu, toInt (uint (nu * HEADER)), env.sbrk s.calls (toInt (uint (nu * HEADER)))⟩

/-- `morecore`: the free list with more memory, or 0. -/
def morecore (nu : Nat) : M Nat := do
  let nu := recorded nu
  let s ← get
  let c := env.call s nu
  set {s with calls := c :: s.calls}
  match c.answer with
  | none => pure 0
  | some hp => do
    modify fun s => s.setSize hp nu
    free (plus hp 1)
    let s ← get
    pure s.freep

/-- The loop of `malloc`. -/
def malloc_loop (nunits : Nat) : Nat → Nat → Nat → M Nat
  | 0, _, _ => do
    let s ← get
    throw ⟨s.calls⟩
  | fuel + 1, prevp, p => do
    let s ← get
    if nunits ≤ s.size p then do
      let r := s.take nunits prevp p
      set r.2
      pure (plus r.1 1)
    else if p = s.freep then do
      let p ← morecore env nunits
      if p = 0 then pure 0
      else do
        let s ← get
        malloc_loop nunits fuel p (s.ptr p)
    else malloc_loop nunits fuel p (s.ptr p)

/-- The number of units of a block for `nbytes` bytes. -/
def nunits (nbytes : Nat) : Nat := uint (nbytes + HEADER - 1) / HEADER + 1

/-- The list before the first call is empty. -/
def State.init (s : State) : State :=
  if s.freep = 0 then ({s.setPtr env.base env.base with freep := env.base}).setSize env.base 0 else s

def malloc (nbytes : Nat) : M Nat := do
  modify fun s => s.init env
  let s ← get
  malloc_loop env (nunits nbytes) LOOP s.freep (s.ptr s.freep)

end Xv6.Umalloc
