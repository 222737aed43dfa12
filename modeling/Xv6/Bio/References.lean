import Xv6.Bio.Machine
import Xv6.Lib.Count

/-! References to buffers, their locks, and the list they are in.

The reference count of a buffer is the number of processes between the section of `bget` and the
section of `brelse` that deals with it, the holder of a lock is the one process that has the
buffer, and the circle through the head has every buffer once. -/
namespace Xv6.Bio
open Lib Function List

variable {P : Type}

/-- The buffer a process has a reference to, from inside the code of the cache. -/
def Pc.bufs : Pc → List Ptr
  | .out => []
  | .wants _ b => [b]
  | .locked _ b => [b]
  | .putting b => [b]

/-- The buffer a process has locked inside `bread`. -/
def Pc.held : Pc → List Ptr
  | .locked _ b => [b]
  | _ => []

namespace Sys

/-- The buffers a process has references to. -/
def uses (s : Sys P) (p : P) : List Ptr := (s.pc p).bufs ++ s.hand p

/-- The buffers a process has locked. -/
def holds (s : Sys P) (p : P) : List Ptr := (s.pc p).held ++ s.hand p

theorem mem_uses_of_holds {s : Sys P} {p : P} {b : Ptr} (h : b ∈ s.holds p) : b ∈ s.uses p := by
  rw [holds, mem_append] at h
  rw [uses, mem_append]
  refine h.imp_left fun h => ?_
  cases hp : s.pc p with
  | locked n c =>
    rw [hp] at h
    exact h
  | out | wants | putting =>
    rw [hp] at h
    cases h

end Sys

/-- A step that touches only data and flags. -/
structure Quiet (s t : Sys P) : Prop where
  dev : ∀ c, (t.buf c).dev = (s.buf c).dev
  blockno : ∀ c, (t.buf c).blockno = (s.buf c).blockno
  lock : ∀ c, (t.buf c).lock = (s.buf c).lock
  refcnt : ∀ c, (t.buf c).refcnt = (s.buf c).refcnt
  pc : t.pc = s.pc
  hand : t.hand = s.hand
  links : t.links = s.links

namespace Quiet
variable {s t u : Sys P}

theorem refl (s : Sys P) : Quiet s s := ⟨fun _ => rfl, fun _ => rfl, fun _ => rfl, fun _ => rfl, rfl, rfl, rfl⟩

theorem trans (h : Quiet s t) (h' : Quiet t u) : Quiet s u where
  dev c := (h'.dev c).trans (h.dev c)
  blockno c := (h'.blockno c).trans (h.blockno c)
  lock c := (h'.lock c).trans (h.lock c)
  refcnt c := (h'.refcnt c).trans (h.refcnt c)
  pc := h'.pc.trans h.pc
  hand := h'.hand.trans h.hand
  links := h'.links.trans h.links

theorem of_upd (hf : ∀ q, (f q).dev = q.dev ∧ (f q).blockno = q.blockno ∧
    (f q).lock = q.lock ∧ (f q).refcnt = q.refcnt) (s : Sys P) : Quiet s (s.upd b f) := by
  have hbuf : ∀ c, (s.upd b f).buf c = f (s.buf c) ∨ (s.upd b f).buf c = s.buf c := fun c => by
    by_cases h : c = b
    · rw [h]
      exact .inl (Sys.upd_self ..)
    · exact .inr (Sys.upd_of_ne _ _ h)
  refine ⟨fun c => ?_, fun c => ?_, fun c => ?_, fun c => ?_, rfl, rfl, rfl⟩ <;>
    obtain h | h := hbuf c <;> rw [h]
  · exact (hf _).1
  · exact (hf _).2.1
  · exact (hf _).2.2.1
  · exact (hf _).2.2.2

theorem of_same (h : Quiet s t) (hb : u.buf = t.buf) (hl : u.links = t.links) (hp : u.pc = t.pc)
    (hh : u.hand = t.hand) : Quiet s u := by
  refine ⟨fun c => ?_, fun c => ?_, fun c => ?_, fun c => ?_, hp.trans h.pc, hh.trans h.hand, hl.trans h.links⟩ <;>
    rw [hb]
  · exact h.dev c
  · exact h.blockno c
  · exact h.lock c
  · exact h.refcnt c

theorem mark (s : Sys P) (b : Ptr) : Quiet s (s.mark b) :=
  of_upd (f := fun q => {q with dirty := true}) (fun _ => ⟨rfl, rfl, rfl, rfl⟩) s

theorem store (s : Sys P) (b : Ptr) : Quiet s (s.store b) := (refl s).of_same rfl rfl rfl rfl

theorem load (s : Sys P) (b : Ptr) : Quiet s (s.load b) :=
  of_upd (f := fun q => {q with data := s.disk q.blockno, valid := true}) (fun _ => ⟨rfl, rfl, rfl, rfl⟩) s

theorem flush (s : Sys P) (b : Ptr) : Quiet s (s.flush b) :=
  (of_upd (f := fun q => {q with dirty := false, valid := true}) (fun _ => ⟨rfl, rfl, rfl, rfl⟩) s).of_same
    rfl rfl rfl rfl

theorem modify (s : Sys P) (b : Ptr) (data : Block) : Quiet s (s.modify b data) :=
  (of_upd (f := fun q => {q with data := data}) (fun _ => ⟨rfl, rfl, rfl, rfl⟩) s).of_same rfl rfl rfl rfl

end Quiet

/-! ### What `bget` finds -/

theorem of_lookup {s : Sys P} {b : Ptr} {dev n : Nat} (hl : s.lookup dev n = some b) :
    (s.buf b).dev = dev ∧ (s.buf b).blockno = n := by
  have := List.find?_some hl
  rwa [decide_eq_true_eq] at this

theorem of_victim {s : Sys P} {b : Ptr} (hv : s.victim = some b) :
    (s.buf b).refcnt = 0 ∧ (s.buf b).dirty = false := by
  have := List.find?_some hv
  rwa [decide_eq_true_eq] at this

/-- A process goes on, with other buffers in hand, and one buffer changes. -/
structure Move [DecidableEq P] (s t : Sys P) (p : P) (b : Ptr) (c : Pc) (hand : List Ptr) : Prop where
  buf : ∀ x, x ≠ b → t.buf x = s.buf x
  pc : t.pc = update s.pc p c
  hand : t.hand = update s.hand p hand

namespace Move
variable [DecidableEq P] {s t : Sys P} {p : P} {b : Ptr} {c : Pc} {hand : List Ptr} (m : Move s t p b c hand)
include m

theorem uses_self : t.uses p = c.bufs ++ hand := by
  rw [Sys.uses, m.pc, m.hand, update_self, update_self]

theorem holds_self : t.holds p = c.held ++ hand := by
  rw [Sys.holds, m.pc, m.hand, update_self, update_self]

theorem pc_other (hq : q ≠ p) : t.pc q = s.pc q := by rw [m.pc, update_of_ne hq]

theorem uses_other (hq : q ≠ p) : t.uses q = s.uses q := by
  rw [Sys.uses, m.pc_other hq, m.hand, update_of_ne hq, Sys.uses]

theorem holds_other (hq : q ≠ p) : t.holds q = s.holds q := by
  rw [Sys.holds, m.pc_other hq, m.hand, update_of_ne hq, Sys.holds]

end Move

/-! ### The invariant -/

variable [Fintype P]

structure Refs (s : Sys P) : Prop where
  lru : ∃ l, s.links.Circle l ∧ ∀ b, b ∈ l
  count : ∀ b, (s.buf b).refcnt = ∑ p, (s.uses p).count b
  /-- A process has references to buffers of the root device. -/
  root : ∀ p b, b ∈ s.uses p → (s.buf b).dev = ROOTDEV
  /-- A buffer is still that of the block asked for. -/
  asked : ∀ p n b, s.pc p = .wants n b ∨ s.pc p = .locked n b → (s.buf b).blockno = n
  lock : ∀ p b, b ∈ s.holds p → (s.buf b).lock = some p
  once : ∀ p, (s.holds p).Nodup
  unique : ∀ b c, (s.buf b).dev = ROOTDEV → (s.buf c).dev = ROOTDEV → (s.buf b).blockno = (s.buf c).blockno → b = c

namespace Refs
variable {s t : Sys P} {p : P} {b : Ptr} {n : Nat}

theorem length_le {l : List Ptr} (h : l.Nodup) : l.length ≤ NBUF := by
  have := h.length_le_card
  rwa [Fintype.card_fin] at this

theorem not_mem_uses (h : Refs s) (hb : (s.buf b).refcnt = 0) (p : P) : b ∉ s.uses p := by
  rw [h.count, Finset.sum_eq_zero_iff] at hb
  exact count_eq_zero.mp (hb p (Finset.mem_univ p))

theorem refcnt_pos (h : Refs s) (hb : b ∈ s.uses p) : 0 < (s.buf b).refcnt :=
  Nat.pos_of_ne_zero fun h0 => h.not_mem_uses h0 p hb

theorem lookup_none (h : Refs s) : s.lookup dev n = none ↔
    ∀ b, (s.buf b).dev = dev → (s.buf b).blockno ≠ n := by
  obtain ⟨l, hl, hall⟩ := h.lru
  rw [Sys.lookup, hl.path.forward (length_le hl.nodup), List.find?_eq_none]
  constructor
  · intro hn b hd hb
    exact hn b (hall b) (decide_eq_true ⟨hd, hb⟩)
  · intro hn b _ hb
    exact hn b (of_decide_eq_true hb).1 (of_decide_eq_true hb).2

theorem victim_none (h : Refs s) : s.victim = none ↔
    ∀ b, 0 < (s.buf b).refcnt ∨ (s.buf b).dirty = true := by
  obtain ⟨l, hl, hall⟩ := h.lru
  rw [Sys.victim, hl.path.backward (length_le hl.nodup), List.find?_eq_none]
  constructor
  · intro hn b
    have hb := hn b (mem_reverse.mpr (hall b))
    rw [decide_eq_true_eq, not_and_or, Bool.not_eq_false] at hb
    exact hb.imp_left Nat.pos_of_ne_zero
  · intro hn b _ hb
    obtain ⟨h0, hd⟩ := of_decide_eq_true hb
    obtain hb | hb := hn b
    · omega
    · rw [hd] at hb
      cases hb

/-! ### Every step keeps it -/

theorem boot (disk : Disk) : Refs (Sys.boot disk : Sys P) := by
  have hempty : Links.Circle (⟨fun _ => none, fun _ => none⟩ : Links Ptr) [] := ⟨⟨rfl, rfl⟩, nodup_nil⟩
  have hcircle := hempty.foldl_insert (nodup_finRange NBUF) fun _ _ => not_mem_nil
  refine ⟨⟨_, hcircle, fun b => ?_⟩, fun b => ?_, fun p b hb => ?_, fun p n b hp => ?_, fun p b hb => ?_, fun p => ?_,
    fun b c hb => ?_⟩
  · rw [append_nil, mem_reverse]
    exact mem_finRange b
  · exact (Finset.sum_eq_zero fun p _ => rfl).symm
  · cases hb
  · obtain hp | hp := hp <;> cases hp
  · cases hb
  · exact nodup_nil
  · cases hb

theorem quiet (h : Refs s) (hq : Quiet s t) : Refs t := by
  have huses : ∀ p, t.uses p = s.uses p := fun p => by rw [Sys.uses, hq.pc, hq.hand, Sys.uses]
  have hholds : ∀ p, t.holds p = s.holds p := fun p => by rw [Sys.holds, hq.pc, hq.hand, Sys.holds]
  refine ⟨?_, fun b => ?_, fun p b hb => ?_, fun p n b hp => ?_, fun p b hb => ?_, fun p => ?_,
    fun b c hb hc hbc => ?_⟩
  · rw [hq.links]
    exact h.lru
  · rw [hq.refcnt, h.count]
    exact Finset.sum_congr rfl fun p _ => by rw [huses]
  · rw [hq.dev]
    exact h.root p b (huses p ▸ hb)
  · rw [hq.blockno]
    exact h.asked p n b (by rwa [hq.pc] at hp)
  · rw [hq.lock]
    exact h.lock p b (hholds p ▸ hb)
  · rw [hholds]
    exact h.once p
  · rw [hq.dev] at hb hc
    rw [hq.blockno, hq.blockno] at hbc
    exact h.unique b c hb hc hbc

/-- What a move must do to the buffer it is about. -/
structure Fits (s t : Sys P) (p : P) (b : Ptr) (c : Pc) (hand : List Ptr) : Prop where
  lru : ∃ l, t.links.Circle l ∧ ∀ b, b ∈ l
  count : (t.buf b).refcnt + (s.uses p).count b = (s.buf b).refcnt + (c.bufs ++ hand).count b
  same : ∀ x, x ≠ b → (c.bufs ++ hand).count x = (s.uses p).count x
  root : (t.buf b).dev = ROOTDEV
  kept : ∀ q, b ∈ s.uses q → (t.buf b).blockno = (s.buf b).blockno
  asked : ∀ n x, c = .wants n x ∨ c = .locked n x → (t.buf x).blockno = n
  lock : ∀ q, q ≠ p → b ∈ s.holds q → (t.buf b).lock = some q
  held : ∀ x, x ≠ b → x ∈ c.held ++ hand → x ∈ s.holds p
  mine : b ∈ c.held ++ hand → (t.buf b).lock = some p
  once : (c.held ++ hand).Nodup
  unique : ∀ x, x ≠ b → (s.buf x).dev = ROOTDEV → (s.buf x).blockno ≠ (t.buf b).blockno

theorem fits (h : Refs s) (hroot : (s.buf b).dev = ROOTDEV)
    (hdev : (t.buf b).dev = (s.buf b).dev) (hblock : (t.buf b).blockno = (s.buf b).blockno)
    (lru : ∃ l, t.links.Circle l ∧ ∀ b, b ∈ l)
    (count : (t.buf b).refcnt + (s.uses p).count b = (s.buf b).refcnt + (c.bufs ++ hand).count b)
    (same : ∀ x, x ≠ b → (c.bufs ++ hand).count x = (s.uses p).count x)
    (asked : ∀ n x, c = .wants n x ∨ c = .locked n x → (t.buf x).blockno = n)
    (lock : ∀ q, q ≠ p → b ∈ s.holds q → (t.buf b).lock = some q)
    (held : ∀ x, x ≠ b → x ∈ c.held ++ hand → x ∈ s.holds p)
    (mine : b ∈ c.held ++ hand → (t.buf b).lock = some p) (once : (c.held ++ hand).Nodup) :
    Fits s t p b c hand where
  lru := lru
  count := count
  same := same
  root := hdev.trans hroot
  kept _ _ := hblock
  asked := asked
  lock := lock
  held := held
  mine := mine
  once := once
  unique x hx hd he := hx (h.unique x b hd hroot (he.trans hblock))

variable [DecidableEq P]

theorem move (h : Refs s) (c : Pc) (hand : List Ptr) (m : Move s t p b c hand) (f : Fits s t p b c hand) :
    Refs t where
  lru := f.lru
  count x := by
    have hsum := sum_change (fun q => (s.uses q).count x) (fun q => (t.uses q).count x) p
      fun q hq => by rw [m.uses_other hq]
    rw [m.uses_self, ← h.count] at hsum
    by_cases hx : x = b
    · have := f.count
      rw [← hx] at this
      omega
    · rw [f.same x hx] at hsum
      rw [m.buf x hx]
      omega
  root q x hx := by
    by_cases hb : x = b
    · rw [hb]
      exact f.root
    · rw [m.buf x hb]
      by_cases hq : q = p
      · rw [hq, m.uses_self, ← count_pos_iff, f.same x hb, count_pos_iff] at hx
        exact h.root p x hx
      · rw [m.uses_other hq] at hx
        exact h.root q x hx
  asked q n x hx := by
    by_cases hq : q = p
    · rw [hq, m.pc, update_self] at hx
      exact f.asked n x hx
    · rw [m.pc_other hq] at hx
      have hask := h.asked q n x hx
      by_cases hb : x = b
      · have hmem : b ∈ s.uses q := by
          rw [← hb, Sys.uses]
          obtain hx | hx := hx <;> rw [hx] <;> exact mem_cons_self ..
        rw [hb, f.kept q hmem, ← hb, hask]
      · rw [m.buf x hb, hask]
  lock q x hx := by
    by_cases hq : q = p
    · rw [hq, m.holds_self] at hx
      by_cases hb : x = b
      · rw [hb] at hx
        rw [hb, hq, f.mine hx]
      · rw [m.buf x hb, hq, h.lock p x (f.held x hb hx)]
    · rw [m.holds_other hq] at hx
      by_cases hb : x = b
      · rw [hb] at hx
        rw [hb, f.lock q hq hx]
      · rw [m.buf x hb, h.lock q x hx]
  once q := by
    by_cases hq : q = p
    · rw [hq, m.holds_self]
      exact f.once
    · rw [m.holds_other hq]
      exact h.once q
  unique x y hx hy hxy := by
    by_cases hxb : x = b
    · by_cases hyb : y = b
      · rw [hxb, hyb]
      · rw [m.buf y hyb] at hy hxy
        exact absurd (hxb ▸ hxy).symm (f.unique y hyb hy)
    · rw [m.buf x hxb] at hx hxy
      by_cases hyb : y = b
      · exact absurd (hyb ▸ hxy) (f.unique x hxb hx)
      · rw [m.buf y hyb] at hy hxy
        exact h.unique x y hx hy hxy

/-! ### The moves of the machine -/

theorem share (h : Refs s) (hp : s.pc p = .out) (hl : s.lookup ROOTDEV n = some b) : Refs (s.share p n b) := by
  obtain ⟨hdev, hblock⟩ := of_lookup hl
  have hbuf : (s.share p n b).buf b = {s.buf b with refcnt := (s.buf b).refcnt + 1} := by
    rw [Sys.share_buf, Sys.upd_self]
  have huses : s.uses p = s.hand p := by rw [Sys.uses, hp]; rfl
  have hholds : s.holds p = s.hand p := by rw [Sys.holds, hp]; rfl
  refine h.move (.wants n b) (s.hand p) ⟨fun x hx => by rw [Sys.share_buf, Sys.upd_of_ne _ _ hx], rfl, ?_⟩
    (h.fits hdev (by rw [hbuf]) (by rw [hbuf]) h.lru ?_ (fun x hx => ?_) (fun m x hx => ?_) (fun q _ hq => ?_)
      (fun x _ hx => ?_) (fun hb => ?_) ?_)
  · exact (update_eq_self ..).symm
  · rw [hbuf, huses]
    show (s.buf b).refcnt + 1 + _ = _ + (b :: s.hand p).count b
    rw [count_cons_self]
    omega
  · rw [huses]
    exact count_cons_of_ne hx.symm
  · obtain hx | hx := hx
    · cases hx
      rw [hbuf]
      exact hblock
    · cases hx
  · rw [hbuf]
    exact h.lock q b hq
  · rw [hholds]
    exact hx
  · rw [hbuf]
    exact h.lock p b (by rw [hholds]; exact hb)
  · rw [← hholds]
    exact h.once p

theorem recycle (h : Refs s) (hp : s.pc p = .out) (hl : s.lookup ROOTDEV n = none) (hv : s.victim = some b) :
    Refs (s.recycle p ROOTDEV n b) := by
  obtain ⟨href, _⟩ := of_victim hv
  have hunused := h.not_mem_uses href
  have hbuf : (s.recycle p ROOTDEV n b).buf b =
      {s.buf b with dev := ROOTDEV, blockno := n, valid := false, dirty := false, refcnt := 1} := by
    rw [Sys.recycle_buf, Sys.upd_self]
  have huses : s.uses p = s.hand p := by rw [Sys.uses, hp]; rfl
  have hholds : s.holds p = s.hand p := by rw [Sys.holds, hp]; rfl
  refine h.move (.wants n b) (s.hand p) ⟨fun x hx => by rw [Sys.recycle_buf, Sys.upd_of_ne _ _ hx], rfl, ?_⟩
    ⟨h.lru, ?_, fun x hx => ?_, by rw [hbuf], fun q hq => absurd hq (hunused q), fun m x hx => ?_,
      fun q _ hq => absurd (Sys.mem_uses_of_holds hq) (hunused q), fun x _ hx => ?_, fun hb => ?_, ?_,
      fun x _ hd => ?_⟩
  · exact (update_eq_self ..).symm
  · rw [hbuf, href]
    show 1 + (s.uses p).count b = 0 + (b :: s.hand p).count b
    rw [count_cons_self, huses]
    omega
  · rw [huses]
    exact count_cons_of_ne hx.symm
  · obtain hx | hx := hx
    · cases hx
      rw [hbuf]
    · cases hx
  · rw [hholds]
    exact hx
  · exact absurd (huses ▸ hb) (hunused p)
  · rw [← hholds]
    exact h.once p
  · rw [hbuf]
    exact h.lookup_none.mp hl x hd

theorem acquire (h : Refs s) (hp : s.pc p = .wants n b) (hl : (s.buf b).lock = none) :
    Refs (s.acquire p n b) := by
  have huses : s.uses p = b :: s.hand p := by rw [Sys.uses, hp]; rfl
  have hholds : s.holds p = s.hand p := by rw [Sys.holds, hp]; rfl
  have hfree : ∀ q, b ∉ s.holds q := fun q hq => by
    have := h.lock q b hq
    rw [hl] at this
    cases this
  have hbuf : (s.acquire p n b).buf b = {s.buf b with lock := some p} := by
    rw [Sys.acquire_buf, Sys.upd_self]
  refine h.move (.locked n b) (s.hand p) ⟨fun x hx => by rw [Sys.acquire_buf, Sys.upd_of_ne _ _ hx], rfl, ?_⟩
    (h.fits (h.root p b (by rw [huses]; exact mem_cons_self ..)) (by rw [hbuf]) (by rw [hbuf]) h.lru ?_
      (fun x _ => ?_) (fun m x hx => ?_) (fun q _ hq => absurd hq (hfree q)) (fun x hx hm => ?_) (fun _ => ?_) ?_)
  · exact (update_eq_self ..).symm
  · rw [hbuf, huses]
    rfl
  · rw [huses]
    rfl
  · obtain hx | hx := hx
    · cases hx
    · cases hx
      rw [hbuf]
      exact h.asked p n b (.inl hp)
  · rw [hholds]
    exact mem_of_ne_of_mem hx hm
  · rw [hbuf]
  · exact nodup_cons.mpr ⟨hholds ▸ hfree p, hholds ▸ h.once p⟩

theorem give (h : Refs s) (hp : s.pc p = .locked n b) : Refs (s.give p b) := by
  have huses : s.uses p = b :: s.hand p := by rw [Sys.uses, hp]; rfl
  have hholds : s.holds p = b :: s.hand p := by rw [Sys.holds, hp]; rfl
  have hmem : b ∈ s.holds p := by rw [hholds]; exact mem_cons_self ..
  refine h.move .out (b :: s.hand p) ⟨fun x _ => rfl, rfl, rfl⟩
    (h.fits (h.root p b (Sys.mem_uses_of_holds hmem)) rfl rfl h.lru ?_ (fun x _ => ?_) (fun m x hx => ?_)
      (fun q _ hq => h.lock q b hq) (fun x _ hx => ?_) (fun _ => h.lock p b hmem) ?_)
  · rw [huses]
    rfl
  · rw [huses]
    rfl
  · obtain hx | hx := hx <;> cases hx
  · rw [hholds]
    exact hx
  · exact hholds ▸ h.once p

theorem brelse (h : Refs s) (hb : s.Has p b) : Refs (s.brelse p b) := by
  obtain ⟨hp, hb⟩ := hb
  have huses : s.uses p = s.hand p := by rw [Sys.uses, hp]; rfl
  have hholds : s.holds p = s.hand p := by rw [Sys.holds, hp]; rfl
  have hlock := h.lock p b (hholds ▸ hb)
  have hbuf : (s.brelse p b).buf b = {s.buf b with lock := none} := by
    rw [Sys.brelse_buf, Sys.upd_self]
  have hperm := perm_cons_erase hb
  refine h.move (.putting b) ((s.hand p).erase b) ⟨fun x hx => by rw [Sys.brelse_buf, Sys.upd_of_ne _ _ hx], rfl, rfl⟩
    (h.fits (h.root p b (huses ▸ hb)) (by rw [hbuf]) (by rw [hbuf]) h.lru ?_ (fun x _ => ?_) (fun m x hx => ?_)
      (fun q hq hm => ?_) (fun x _ hx => ?_) (fun hm => ?_) ?_)
  · rw [hbuf, huses, hperm.count_eq]
    rfl
  · rw [huses, hperm.count_eq]
    rfl
  · obtain hx | hx := hx <;> cases hx
  · have := h.lock q b hm
    rw [hlock] at this
    exact absurd (Option.some.inj this).symm hq
  · rw [hholds]
    exact mem_of_mem_erase hx
  · exact absurd hm (List.Nodup.not_mem_erase (hholds ▸ h.once p))
  · exact (hholds ▸ h.once p).erase b

theorem put (h : Refs s) (hp : s.pc p = .putting b) : Refs (s.put p b) := by
  have huses : s.uses p = b :: s.hand p := by rw [Sys.uses, hp]; rfl
  have hholds : s.holds p = s.hand p := by rw [Sys.holds, hp]; rfl
  have hmem : b ∈ s.uses p := by rw [huses]; exact mem_cons_self ..
  have hpos := h.refcnt_pos hmem
  -- the list aside, the section drops one reference
  have hdrop : ∀ {t : Sys P}, t.buf = (s.upd b fun q => {q with refcnt := q.refcnt - 1}).buf →
      t.pc = update s.pc p .out → t.hand = s.hand → (∃ l, t.links.Circle l ∧ ∀ b, b ∈ l) → Refs t := by
    intro t ht hpc hhand hlru
    have hbuf : t.buf b = {s.buf b with refcnt := (s.buf b).refcnt - 1} := by rw [ht, Sys.upd_self]
    refine h.move .out (s.hand p) ⟨fun x hx => by rw [ht, Sys.upd_of_ne _ _ hx], hpc, ?_⟩
      (h.fits (h.root p b hmem) (by rw [hbuf]) (by rw [hbuf]) hlru ?_ (fun x hx => ?_) (fun m x hx => ?_)
        (fun q _ hq => ?_) (fun x _ hx => ?_) (fun hm => ?_) ?_)
    · rw [hhand]
      exact (update_eq_self ..).symm
    · rw [hbuf, huses, count_cons_self]
      show (s.buf b).refcnt - 1 + _ = _ + (s.hand p).count b
      omega
    · rw [huses, count_cons_of_ne hx.symm]
      rfl
    · obtain hx | hx := hx <;> cases hx
    · rw [hbuf]
      exact h.lock q b hq
    · rw [hholds]
      exact hx
    · rw [hbuf]
      exact h.lock p b (hholds ▸ hm)
    · exact hholds ▸ h.once p
  rw [Sys.put]
  split
  case isTrue =>
    refine hdrop rfl rfl rfl ?_
    obtain ⟨l, hl, hall⟩ := h.lru
    refine ⟨b :: l.erase b, (hl.unlink (hall b)).insert (List.Nodup.not_mem_erase hl.nodup), fun c => ?_⟩
    by_cases hc : c = b
    · rw [hc]
      exact mem_cons_self ..
    · exact mem_cons_of_mem _ ((mem_erase_of_ne hc).mpr (hall c))
  case isFalse => exact hdrop rfl rfl rfl h.lru

theorem step (h : Refs s) (hs : Bio.step disksize s a = some s') :
    Refs s' := by
  cases a with
  | bread p n =>
    obtain ⟨hp, ⟨b, hl, rfl⟩ | ⟨b, hl, hv, rfl⟩⟩ := of_bread hs
    · exact h.share hp hl
    · exact h.recycle hp hl hv
  | acquire p =>
    obtain ⟨n, b, hp, hl, rfl⟩ := of_acquire hs
    exact h.acquire hp hl
  | fetch p =>
    obtain ⟨n, b, hp, ⟨_, rfl⟩ | ⟨_, t, ht, rfl⟩⟩ := of_fetch hs
    · exact h.give hp
    · obtain ⟨_, ⟨_, rfl⟩ | ⟨_, _, rfl⟩⟩ := of_iderw ht
      · exact (h.quiet (.flush s b)).give hp
      · exact (h.quiet (.load s b)).give hp
  | modify p b data =>
    obtain ⟨_, rfl⟩ := of_modify hs
    exact h.quiet (.modify s b data)
  | bwrite p b =>
    obtain ⟨_, rfl⟩ := of_bwrite hs
    exact h.quiet (((Quiet.mark s b).trans (.flush _ b)).trans (.store _ b))
  | log_write p b =>
    obtain ⟨_, rfl⟩ := of_log_write hs
    exact h.quiet ((Quiet.mark s b).trans (.store _ b))
  | brelse p b =>
    obtain ⟨hb, _, rfl⟩ := of_brelse hs
    exact h.brelse hb
  | put p =>
    obtain ⟨b, hp, rfl⟩ := of_put hs
    exact h.put hp

end Refs

/-! ### Recycling -/

/-- A buffer becomes another block's only when nobody refers to it and the log does not pin it. -/
theorem recycled_idle {P : Type} [DecidableEq P] {disksize : Nat} {a : Action P} {s s' : Sys P} {b : Ptr}
    (hs : step disksize s a = some s')
    (hb : (s'.buf b).dev ≠ (s.buf b).dev ∨ (s'.buf b).blockno ≠ (s.buf b).blockno) :
    (s.buf b).refcnt = 0 ∧ (s.buf b).dirty = false := by
  -- only the second loop of `bget` gives a buffer another number
  have hkeeps : ∀ {t : Sys P} {c : Ptr} {f : Buf P → Buf P}, t.buf = (s.upd c f).buf →
      (f (s.buf c)).dev = (s.buf c).dev → (f (s.buf c)).blockno = (s.buf c).blockno →
      ¬ ((t.buf b).dev ≠ (s.buf b).dev ∨ (t.buf b).blockno ≠ (s.buf b).blockno) := by
    intro t c f ht hd hn
    rw [ht]
    by_cases hbc : b = c
    · subst hbc
      rw [Sys.upd_self, hd, hn]
      exact fun h => h.elim (fun h => h rfl) fun h => h rfl
    · rw [Sys.upd_of_ne _ _ hbc]
      exact fun h => h.elim (fun h => h rfl) fun h => h rfl
  have hquiet : ∀ {t u : Sys P}, Quiet s t → u.buf = t.buf →
      ¬ ((u.buf b).dev ≠ (s.buf b).dev ∨ (u.buf b).blockno ≠ (s.buf b).blockno) := by
    intro t u hq hu
    rw [hu, hq.dev, hq.blockno]
    exact fun h => h.elim (fun h => h rfl) fun h => h rfl
  cases a with
  | bread p n =>
    obtain ⟨_, ⟨c, _, rfl⟩ | ⟨c, _, hv, rfl⟩⟩ := of_bread hs
    · exact absurd hb (hkeeps (Sys.share_buf ..) rfl rfl)
    · obtain rfl : b = c := by
        by_contra hbc
        rw [Sys.recycle_buf, Sys.upd_of_ne _ _ hbc] at hb
        exact hb.elim (fun h => h rfl) fun h => h rfl
      exact of_victim hv
  | acquire p =>
    obtain ⟨n, c, _, _, rfl⟩ := of_acquire hs
    exact absurd hb (hkeeps (Sys.acquire_buf ..) rfl rfl)
  | fetch p =>
    obtain ⟨n, c, _, ⟨_, rfl⟩ | ⟨_, t, ht, rfl⟩⟩ := of_fetch hs
    · exact absurd hb (hquiet (.refl s) rfl)
    · obtain ⟨_, ⟨_, rfl⟩ | ⟨_, _, rfl⟩⟩ := of_iderw ht
      · exact absurd hb (hquiet (.flush s c) rfl)
      · exact absurd hb (hquiet (.load s c) rfl)
  | modify p c data =>
    obtain ⟨_, rfl⟩ := of_modify hs
    exact absurd hb (hquiet (.modify s c data) rfl)
  | bwrite p c =>
    obtain ⟨_, rfl⟩ := of_bwrite hs
    exact absurd hb (hquiet (((Quiet.mark s c).trans (.flush _ c)).trans (.store _ c)) rfl)
  | log_write p c =>
    obtain ⟨_, rfl⟩ := of_log_write hs
    exact absurd hb (hquiet ((Quiet.mark s c).trans (.store _ c)) rfl)
  | brelse p c =>
    obtain ⟨_, _, rfl⟩ := of_brelse hs
    exact absurd hb (hkeeps (Sys.brelse_buf ..) rfl rfl)
  | put p =>
    obtain ⟨c, _, rfl⟩ := of_put hs
    exact absurd hb (hkeeps (Sys.put_buf ..) rfl rfl)

end Xv6.Bio
