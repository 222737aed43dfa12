import Xv6.Bio.Coherence
import Mathlib.Data.Set.Card

/-! When the buffer cache runs dry.

A buffer cannot be recycled while some process has a reference to it, or the log pins it. Each such
buffer is that of another block, so the cache is dry when `NBUF` blocks are in use. Nothing keeps
processes from using that many: a reader of a file holds a buffer while it waits for the disk,
and there may be more readers than buffers. -/
namespace Xv6.Bio
open Lib

variable {P : Type}

/-- Some process has asked for the block with `bread` and has not finished `brelse`, or the block was
logged with `log_write` and has not been written with `bwrite` since. -/
def InUse (s : Sys P) (n : Nat) : Prop :=
  (∃ p, ∃ b ∈ s.uses p, (s.buf b).blockno = n) ∨ ∃ b, (s.buf b).dirty = true ∧ (s.buf b).blockno = n

/-- The block is in the cache. -/
def Cached (s : Sys P) (n : Nat) : Prop := ∃ b, (s.buf b).dev = ROOTDEV ∧ (s.buf b).blockno = n

/-- The buffers that may not be recycled. -/
def pinned (s : Sys P) : Set Ptr := {b | 0 < (s.buf b).refcnt ∨ (s.buf b).dirty = true}

theorem pinned_lt_iff (s : Sys P) : (pinned s).encard < NBUF ↔ ∃ b, b ∉ pinned s := by
  have huniv : (Set.univ : Set Ptr).encard = NBUF := by
    rw [Set.encard_univ, ENat.card_eq_coe_fintype_card, Fintype.card_fin]
  constructor
  · intro h
    by_contra hall
    have : pinned s = Set.univ := Set.eq_univ_of_forall fun b => not_not.mp fun hb => hall ⟨b, hb⟩
    rw [this, huniv] at h
    exact lt_irrefl _ h
  · rintro ⟨b, hb⟩
    rw [← huniv]
    refine (Set.toFinite _).encard_lt_encard ((Set.subset_univ _).ssubset_of_ne fun he => hb ?_)
    rw [he]
    trivial

variable [Fintype P] {s : Sys P}

theorem exists_uses (hr : Refs s) (hb : 0 < (s.buf b).refcnt) : ∃ p, b ∈ s.uses p := by
  by_contra hno
  have h0 : (s.buf b).refcnt = 0 := by
    rw [hr.count]
    exact Finset.sum_eq_zero fun p _ => List.count_eq_zero.mpr fun hp => hno ⟨p, hp⟩
  omega

theorem inUse_eq_image (hr : Refs s) : {n | InUse s n} = (fun b => (s.buf b).blockno) '' pinned s := by
  ext n
  constructor
  · rintro (⟨p, b, hb, hn⟩ | ⟨b, hb, hn⟩)
    · exact ⟨b, .inl (hr.refcnt_pos hb), hn⟩
    · exact ⟨b, .inr hb, hn⟩
  · rintro ⟨b, hb | hb, hn⟩
    · obtain ⟨p, hp⟩ := exists_uses hr hb
      exact .inl ⟨p, b, hp, hn⟩
    · exact .inr ⟨b, hb, hn⟩

/-- Each buffer that may not be recycled is another block's. -/
theorem injOn_pinned (hr : Refs s) (hd : Data s) : Set.InjOn (fun b => (s.buf b).blockno) (pinned s) := by
  have hroot : ∀ b ∈ pinned s, (s.buf b).dev = ROOTDEV := by
    rintro b (hb | hb)
    · obtain ⟨p, hp⟩ := exists_uses hr hb
      exact hr.root p b hp
    · exact (hd.dirty b hb).2
  intro b hb c hc hbc
  exact hr.unique b c (hroot b hb) (hroot c hc) hbc

theorem encard_inUse (hr : Refs s) (hd : Data s) : {n | InUse s n}.encard = (pinned s).encard := by
  rw [inUse_eq_image hr]
  exact (injOn_pinned hr hd).encard_image

theorem bget_isSome [DecidableEq P] (hr : Refs s) (hd : Data s) (p : P) (n : Nat) :
    (s.bget p ROOTDEV n).isSome ↔ Cached s n ∨ {m | InUse s m}.encard < NBUF := by
  rw [encard_inUse hr hd, pinned_lt_iff, Sys.bget]
  cases hl : s.lookup ROOTDEV n with
  | some b =>
    obtain ⟨hdev, hn⟩ := of_lookup hl
    exact iff_of_true rfl (.inl ⟨b, hdev, hn⟩)
  | none =>
    have hnot : ¬ Cached s n := fun h => by
      obtain ⟨b, hdev, hn⟩ := h
      exact hr.lookup_none.mp hl b hdev hn
    rw [or_iff_right hnot]
    cases hv : s.victim with
    | some b =>
      obtain ⟨h0, hdirty⟩ := of_victim hv
      refine iff_of_true rfl ⟨b, fun hb => ?_⟩
      obtain hb | hb := hb
      · omega
      · rw [hdirty] at hb
        cases hb
    | none =>
      refine iff_of_false Bool.false_ne_true fun h => ?_
      obtain ⟨b, hb⟩ := h
      exact hb (hr.victim_none.mp hv b)

/-- **When the cache runs dry.** In every state that any number of processes reach, a request for a block
finds a buffer, and does not panic, exactly when the block is cached or fewer than `NBUF` blocks are
in use. -/
theorem cache_supplies_iff [DecidableEq P] {disksize : Nat} {disk : Disk} {as : List (Action P)} {s : Sys P}
    (hrun : run (step disksize) (Sys.boot disk) as = some s) (p : P) (n : Nat) :
    (s.bget p ROOTDEV n).isSome ↔ Cached s n ∨ {m | InUse s m}.encard < NBUF := by
  obtain ⟨hr, hd⟩ := coherent_run hrun
  exact bget_isSome hr hd p n

theorem cache_supplies_first : ∃ s,
    run (step FSSIZE) (Sys.boot fun _ => Bytes.zero) [.bread (0 : Fin NPROC) 7] = some s ∧
    Cached s 7 ∧ (s.bget 1 ROOTDEV 7).isSome := by
  have hany : (run (step FSSIZE) (Sys.boot fun _ => Bytes.zero) [.bread (0 : Fin NPROC) 7]).any
      (fun s => (s.buf 0).dev = ROOTDEV ∧ (s.buf 0).blockno = 7) = true := by decide +kernel
  obtain ⟨s, hr, h⟩ := run_any hany
  have hc : Cached s 7 := ⟨0, of_decide_eq_true h⟩
  exact ⟨s, hr, hc, (cache_supplies_iff hr 1 7).mpr (.inl hc)⟩

/-- Thirty processes each lock the buffer of a block of their own, and wait for the disk. -/
def readers : List (Action (Fin NPROC)) :=
  (List.finRange NPROC).take NBUF |>.flatMap fun p => [.bread p (100 + p), .acquire p]

set_option maxRecDepth 100000 in
theorem readers_dry : ∃ s, run (step FSSIZE) (Sys.boot fun _ => Bytes.zero) readers = some s ∧
    (∀ p, (s.uses p).length ≤ 1) ∧ s.pc 30 = .out ∧ s.bget 30 ROOTDEV 200 = none := by
  have hany : (run (step FSSIZE) (Sys.boot fun _ => Bytes.zero) readers).any (fun s =>
      (∀ p, (s.uses p).length ≤ 1) ∧ s.pc 30 = .out ∧ (s.bget 30 ROOTDEV 200).isNone) = true := by
    decide +kernel
  obtain ⟨s, hr, h⟩ := run_any hany
  obtain ⟨h1, h2, h3⟩ := of_decide_eq_true h
  exact ⟨s, hr, h1, h2, Option.isNone_iff_eq_none.mp h3⟩

end Xv6.Bio
