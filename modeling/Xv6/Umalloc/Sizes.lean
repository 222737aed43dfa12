import Xv6.Umalloc.Heap

/-! The sizes that `malloc` computes.

The block that `malloc` returns has exactly the number of units it has computed for the request, and `morecore` asks
for exactly the bytes of the block that it records, as long as neither computation wraps. -/
namespace Xv6.Umalloc
open Lib

/-- `sbrk` is asked for a positive amount, the bytes of the recorded block. -/
def Call.Right (c : Call) : Prop := 0 < c.amount ∧ c.amount = c.units * HEADER

theorem uint_lt (n : Nat) : uint n < 2 ^ 32 := Nat.mod_lt _ (by decide)

theorem header_lt (ap : Nat) : header ap < 2 ^ 32 := by
  rw [header]
  exact uint_lt _

theorem header_plus (h : p < 2 ^ 32) : header (plus p 1) = p := by
  simp only [header, plus, uint, HEADER]
  omega

/-! ### The computations -/

/-- The units of a request are enough for it, unless they wrap. -/
theorem le_nunits_iff (h : nbytes < 2 ^ 32) :
    nbytes ≤ (nunits nbytes - 1) * HEADER ↔ nbytes + HEADER ≤ 2 ^ 32 := by
  simp only [nunits, uint, HEADER]
  omega

theorem nunits_le (nbytes : Nat) : 0 < nunits nbytes ∧ nunits nbytes ≤ 2 ^ 29 := by
  simp only [nunits, uint, HEADER]
  omega

theorem toInt_eq (h : n < 2 ^ 32) : toInt n = if n < 2 ^ 31 then (n : Int) else n - 2 ^ 32 := by
  rw [toInt, BitVec.toInt_eq_toNat_cond, BitVec.toNat_ofNat, Nat.mod_eq_of_lt h]
  split <;> split <;> omega

/-- What `morecore` asks for is right below 2^31 bytes. -/
theorem right_iff (hpos : 0 < nu) (hle : nu ≤ 2 ^ 29) (answer : Option Nat) :
    (⟨nu, toInt (uint (nu * HEADER)), answer⟩ : Call).Right ↔ nu < 2 ^ 28 := by
  rw [Call.Right, toInt_eq (uint_lt _)]
  by_cases h : uint (nu * HEADER) < 2 ^ 31
  · rw [if_pos h]
    simp only [uint, HEADER] at h ⊢
    omega
  · rw [if_neg h]
    simp only [uint, HEADER] at h ⊢
    omega

theorem recorded_nunits_lt (h : nbytes + HEADER ≤ 2 ^ 32) :
    recorded (nunits nbytes) < 2 ^ 28 ↔ nbytes + 16 ≤ 2 ^ 31 := by
  rw [recorded]
  by_cases hsmall : nunits nbytes < 4096
  · rw [if_pos hsmall]
    simp only [nunits, uint, HEADER] at h hsmall
    omega
  · rw [if_neg hsmall]
    simp only [nunits, uint, HEADER] at h ⊢
    omega

/-! ### The functions -/

variable {env : Env} {s : State}

/-- Pointers are addresses. -/
def State.Valid (s : State) : Prop := ∀ p, s.ptr p < 2 ^ 32

theorem State.Valid.setPtr (h : s.Valid) (p : Nat) (hq : q < 2 ^ 32) : (s.setPtr p q).Valid := by
  intro x
  by_cases hx : x = p
  · rw [hx, State.ptr_setPtr, Function.update_self]
    exact hq
  · rw [State.ptr_setPtr, Function.update_of_ne hx]
    exact h x

theorem State.Valid.joinNext (h : s.Valid) (bp p : Nat) : (s.joinNext bp p).Valid := by
  unfold State.joinNext
  split
  · exact State.Valid.setPtr h bp (h _)
  · exact h.setPtr bp (h _)

theorem State.Valid.joinPrev (h : s.Valid) (hbp : bp < 2 ^ 32) (p : Nat) : (s.joinPrev bp p).Valid := by
  unfold State.joinPrev
  split
  · exact State.Valid.setPtr h p (h _)
  · exact h.setPtr p hbp

theorem State.Valid.insert (h : s.Valid) (hbp : bp < 2 ^ 32) (p : Nat) : (s.insert bp p).Valid := by
  intro x
  exact (h.joinNext bp p).joinPrev hbp p x

theorem State.calls_insert (s : State) (bp p : Nat) : (s.insert bp p).calls = s.calls := by
  unfold State.insert State.joinPrev State.joinNext
  split <;> split <;> rfl

theorem free_search_calls (bp fuel p : Nat) :
    Runs (free_search bp fuel p) s (fun _ t => t = s) fun e => e.calls = s.calls := by
  induction fuel generalizing p with
  | zero => exact Runs.bind_get (Runs.throw rfl)
  | succ fuel ih =>
    refine Runs.bind_get (Runs.ite (fun _ => Runs.pure rfl) fun _ => Runs.ite (fun _ => Runs.pure rfl) fun _ => ?_)
    exact ih _

theorem free_calls (h : s.Valid) (ap : Nat) :
    Runs (free ap) s (fun _ t => t.Valid ∧ t.calls = s.calls) fun e => e.calls = s.calls := by
  refine Runs.bind_get ((free_search_calls (header ap) LOOP s.freep).bind fun p t ht => ?_)
  rw [ht]
  exact Runs.modify ⟨h.insert (header_lt ap) p, s.calls_insert _ p⟩

theorem morecore_calls (h : s.Valid) (nu : Nat) :
    Runs (morecore env nu) s (fun _ t => t.Valid ∧ t.calls = env.call s (recorded nu) :: s.calls)
      fun e => e.calls = env.call s (recorded nu) :: s.calls := by
  refine Runs.bind_get (Runs.bind_ok rfl ?_)
  cases (env.call s (recorded nu)).answer with
  | none => exact Runs.pure ⟨h, rfl⟩
  | some hp =>
    refine Runs.bind_ok rfl ((free_calls ?_ (plus hp 1)).bind fun _ t ht => Runs.bind_get (Runs.pure ht))
    exact h

theorem size_take (s : State) (n prevp p : Nat) : (s.take n prevp p).2.size (s.take n prevp p).1 = n := by
  unfold State.take
  split
  · rename_i heq
    exact heq
  · exact Function.update_self ..

theorem take_lt (h : p < 2 ^ 32) : (s.take n prevp p).1 < 2 ^ 32 := by
  unfold State.take
  split
  · exact h
  · exact uint_lt _

theorem calls_take (s : State) (n prevp p : Nat) : (s.take n prevp p).2.calls = s.calls := by
  unfold State.take
  split <;> rfl

/-- What is computed for `n` units: the block that is returned has `n` units, and every call of `sbrk` is for as many
as `morecore` makes of them. -/
theorem malloc_loop_sizes (n fuel : Nat) (h : s.Valid) (hp : p < 2 ^ 32) :
    Runs (malloc_loop env n fuel prevp p) s
      (fun r t => (r ≠ 0 → t.size (header r) = n) ∧
        ∀ c ∈ t.calls, c ∈ s.calls ∨ ∃ u, c = env.call u (recorded n))
      fun e => ∀ c ∈ e.calls, c ∈ s.calls ∨ ∃ u, c = env.call u (recorded n) := by
  induction fuel generalizing s prevp p with
  | zero => exact Runs.bind_get (Runs.throw fun c hc => .inl hc)
  | succ fuel ih =>
    refine Runs.bind_get (Runs.ite (fun _ => Runs.bind_ok rfl (Runs.pure ⟨fun _ => ?_, fun c hc => .inl ?_⟩))
      fun _ => Runs.ite (fun _ => ?_) fun _ => ih h (h p))
    · rw [header_plus (take_lt hp), size_take]
    · rwa [calls_take] at hc
    · have hcalls : ∀ {cs : List Call}, cs = env.call s (recorded n) :: s.calls →
          ∀ c ∈ cs, c ∈ s.calls ∨ ∃ u, c = env.call u (recorded n) := by
        intro cs hcs c hc
        rw [hcs] at hc
        exact (List.mem_cons.mp hc).symm.imp id fun hc => ⟨s, hc⟩
      refine ((morecore_calls h n).stops fun e he => hcalls he).bind fun q t ht => Runs.ite (fun _ => ?_) fun _ => ?_
      · exact Runs.pure ⟨fun hr => absurd rfl hr, hcalls ht.2⟩
      · have hmore : ∀ c, (c ∈ t.calls ∨ ∃ u, c = env.call u (recorded n)) →
            c ∈ s.calls ∨ ∃ u, c = env.call u (recorded n) := fun c hc => hc.elim (hcalls ht.2 c) .inr
        refine Runs.bind_get ((ih ht.1 (ht.1 q)).mono (fun r u hu => ⟨hu.1, fun c hc => hmore c (hu.2 c hc)⟩) ?_)
        exact fun e he c hc => hmore c (he c hc)

theorem State.Valid.init (h : s.Valid) (hbase : env.base < 2 ^ 32) : (s.init env).Valid := by
  unfold State.init
  split
  · exact State.Valid.setPtr h _ hbase
  · exact h

/-- What `malloc` promises: a block large enough for the request, and sane calls of `sbrk`. -/
def Fits (nbytes : Nat) (env : Env) (s : State) : Prop :=
  Runs (malloc env nbytes) s
    (fun r t => (r ≠ 0 → nbytes ≤ (t.size (header r) - 1) * HEADER) ∧ ∀ c ∈ t.calls, c ∈ s.calls ∨ c.Right)
    fun e => ∀ c ∈ e.calls, c ∈ s.calls ∨ c.Right

theorem call_right_iff (h : nbytes + HEADER ≤ 2 ^ 32) (u : State) :
    (env.call u (recorded (nunits nbytes))).Right ↔ nbytes + 16 ≤ 2 ^ 31 := by
  obtain ⟨hpos, hle⟩ := nunits_le nbytes
  have hrecorded : 0 < recorded (nunits nbytes) ∧ recorded (nunits nbytes) ≤ 2 ^ 29 := by
    unfold recorded
    split <;> omega
  rw [Env.call, right_iff hrecorded.1 hrecorded.2, recorded_nunits_lt h]

theorem fits_of_small (hsmall : nbytes + 16 ≤ 2 ^ 31) (hbase : env.base < 2 ^ 32) (h : s.Valid) :
    Fits nbytes env s := by
  have hwrap : nbytes + HEADER ≤ 2 ^ 32 := by
    rw [HEADER]
    omega
  have hunits := (le_nunits_iff (by omega)).mpr hwrap
  have hinit : (s.init env).calls = s.calls := by
    unfold State.init
    split <;> rfl
  have hright : ∀ {c : Call}, (c ∈ (s.init env).calls ∨ ∃ u, c = env.call u (recorded (nunits nbytes))) →
      c ∈ s.calls ∨ c.Right := by
    rintro c (hc | ⟨u, rfl⟩)
    · rw [hinit] at hc
      exact .inl hc
    · exact .inr ((call_right_iff hwrap u).mpr hsmall)
  have hvalid := h.init hbase
  refine Runs.bind_ok rfl (Runs.bind_get ((malloc_loop_sizes _ LOOP hvalid (hvalid _)).mono (fun r t ht => ?_) fun e
    he => ?_))
  · refine ⟨fun hr => ?_, fun c hc => hright (ht.2 c hc)⟩
    rw [ht.1 hr]
    exact hunits
  · exact fun c hc => hright (he c hc)

/-! ### Requests that are too large -/

/-- A list with one block of `n` units. -/
def one (n : Nat) : State := ⟨fun p => if p = 8 then 16 else 8, fun p => if p = 16 then n else 0, 8, []⟩

/-- Before the first call. -/
def fresh : State := ⟨fun _ => 0, fun _ => 0, 0, []⟩

/-- No memory is left. -/
def full : Env := ⟨8, fun _ _ => none⟩

theorem exists_loop : ∃ k, LOOP = k + 1 := ⟨2 ^ 32 - 1, by unfold LOOP; rfl⟩

theorem malloc_loop_take (h : n ≤ s.size p) (k : Nat) :
    malloc_loop env n (k + 1) prevp p s = .ok (plus (s.take n prevp p).1 1, (s.take n prevp p).2) := by
  refine (bind_of_ok rfl).trans ?_
  rw [if_pos h]
  rfl

theorem malloc_eq (env : Env) (nbytes : Nat) (s : State) : malloc env nbytes s = malloc_loop env (nunits nbytes) LOOP
    (s.init env).freep ((s.init env).ptr (s.init env).freep) (s.init env) := by
  have hinit : (modify fun s => s.init env : M PUnit) s = .ok (⟨⟩, s.init env) := rfl
  refine (bind_of_ok hinit).trans ?_
  exact bind_of_ok rfl

theorem malloc_one (env : Env) (nbytes : Nat) :
    malloc env nbytes (one (nunits nbytes)) = .ok (24, (one (nunits nbytes)).setPtr 8 8) := by
  obtain ⟨k, hk⟩ := exists_loop
  have hsize : (one (nunits nbytes)).size 16 = nunits nbytes := rfl
  have hinit : (one (nunits nbytes)).init env = one (nunits nbytes) := rfl
  rw [malloc_eq, hinit, hk]
  refine (malloc_loop_take (Nat.le_of_eq hsize.symm) k).trans ?_
  rw [State.take, if_pos hsize]
  rfl

theorem malloc_fresh (nbytes : Nat) :
    ∃ t, malloc full nbytes fresh = .ok (0, t) ∧ ∃ u, t.calls = [full.call u (recorded (nunits nbytes))] := by
  obtain ⟨k, hk⟩ := exists_loop
  have hsize : ¬nunits nbytes ≤ (fresh.init full).size ((fresh.init full).ptr (fresh.init full).freep) :=
      Nat.not_le.mpr (nunits_le nbytes).1
  refine ⟨{fresh.init full with calls := [full.call (fresh.init full) (recorded (nunits nbytes))]}, ?_, _, rfl⟩
  rw [malloc_eq, hk]
  refine (bind_of_ok rfl).trans ?_
  rw [if_neg hsize]
  rfl

/-- **`malloc` keeps its promise in every state exactly when the request is at most 2^31 - 16 bytes.** -/
theorem fits_iff {nbytes : Nat} (h : nbytes < 2 ^ 32) :
    (∀ env s, env.base < 2 ^ 32 → s.Valid → Fits nbytes env s) ↔ nbytes + 16 ≤ 2 ^ 31 := by
  refine ⟨fun hfits => ?_, fun hsmall env s hbase hs => fits_of_small hsmall hbase hs⟩
  have hone : (one (nunits nbytes)).Valid := by
    intro p
    unfold one
    dsimp only
    split <;> decide
  have hblock := (Runs.of_ok (hfits full _ (by decide) hone) (malloc_one full nbytes)).1 (by decide)
  have hsize : ((one (nunits nbytes)).setPtr 8 8).size (header 24) = nunits nbytes := rfl
  rw [hsize, le_nunits_iff h] at hblock
  obtain ⟨t, ht, u, hcalls⟩ := malloc_fresh nbytes
  have hcall := (Runs.of_ok (hfits full fresh (by decide) fun _ => (by decide : 0 < 2 ^ 32)) ht).2
  rw [hcalls, List.forall_mem_singleton] at hcall
  exact (call_right_iff hblock u).mp (hcall.resolve_left List.not_mem_nil)

/-- The largest request that is served. -/
theorem fits_largest : 2147483632 < 2 ^ 32 ∧ Fits 2147483632 full fresh :=
  ⟨by decide, (fits_iff (by decide)).mpr (by decide) full fresh (by decide) fun _ => (by decide : 0 < 2 ^ 32)⟩

/-- A request of 2^32 - 1 bytes gets a block of one unit, and for one of 2^31 bytes `sbrk` is asked for a negative
amount. -/
theorem malloc_wraps : (one 1).Valid ∧ (∃ t, malloc full 4294967295 (one 1) = .ok (24, t) ∧ t.size (header 24) = 1) ∧
    ∃ t c, malloc full 2147483648 fresh = .ok (0, t) ∧ t.calls = [c] ∧ c.amount = -2147483640 := by
  have hone : (one 1).Valid := by
    intro p
    unfold one
    dsimp only
    split <;> decide
  have hunits : nunits 4294967295 = 1 := by decide
  have hblock := malloc_one full 4294967295
  rw [hunits] at hblock
  obtain ⟨t, ht, u, hcalls⟩ := malloc_fresh 2147483648
  have hamount : toInt (uint (recorded (nunits 2147483648) * HEADER)) = -2147483640 := by decide
  exact ⟨hone, ⟨_, hblock, rfl⟩, t, _, ht, hcalls, hamount⟩

end Xv6.Umalloc
