import Xv6.Pipes.Fifo

/-! Who sleeps on a pipe, and why.

A reader should be asleep only while the pipe is empty and may still be written to, a writer only
while it is full and may still be read. One exit of `pipewrite` breaks this: when the ring is full
and the caller has been killed, or the read end is closed, it returns at once, without the `wakeup`
for the bytes it has stored since it last slept. If somebody is asleep in `piperead`, the pipe was
empty before, so this takes a write of more than `PIPESIZE` bytes. -/
namespace Xv6.Pipes
open Lib Function

variable {P : Type}

/-- Whoever sleeps on the pipe has reason to. -/
structure Awake (s : Sys P) : Prop where
  nread : ∀ p, s.chan p = some .nread → s.pipe.Empty ∧ s.pipe.writeopen = true
  nwrite : ∀ p, s.chan p = some .nwrite → s.pipe.Full ∧ s.pipe.readopen = true

/-- A call of `pipewrite` that must give up when the ring is full has more bytes left than fit in
it, and somebody sleeps in `piperead`. -/
def Abandons (s : Sys P) (a : Action P) : Prop :=
  ∃ p addr i, a = .run p ∧ s.call p = .writing addr i ∧ (s.pipe.readopen = false ∨ s.killed p) ∧
    i + PIPESIZE < addr.length ∧ ∃ r, s.chan r = some .nread

variable {s s' t : Sys P} {p r : P} {a : Action P}

theorem not_abandons (h : ∀ p addr i, a = .run p → s.call p ≠ .writing addr i) : ¬ Abandons s a := by
  intro hab
  obtain ⟨p, addr, i, ha, hc, _⟩ := hab
  exact h p addr i ha hc

namespace Pipe

theorem fill_of_full {p : Pipe} (h : p.Full) (bytes : List Byte) : p.fill bytes = (p, 0) := by
  cases bytes with
  | nil => rfl
  | cons b rest => rw [fill, if_pos h]

theorem Filled.size_eq {p q : Pipe} {bytes : List Byte} {k : Nat} (h : Filled p bytes q k) :
    q.size = p.size + k := by
  have := congrArg List.length h.contents
  rwa [Ring.length_contents, List.length_append, Ring.length_contents, List.length_take,
    Nat.min_eq_left h.le] at this

end Pipe

theorem sleep_chan [DecidableEq P] (h : (s.sleep p chan).chan r = some c) :
    c = chan ∨ s.chan r = some c := by
  have h : update s.chan p (some chan) r = some c := h
  rw [update_apply] at h
  split at h
  case isTrue => exact .inl (Option.some.inj h).symm
  case isFalse => exact .inr h

theorem wakeup_chan (h : (s.wakeup chan).chan r = some c) : s.chan r = some c ∧ c ≠ chan := by
  have h : (if s.chan r = some chan then none else s.chan r) = some c := h
  split at h
  case isTrue => cases h
  case isFalse hne => exact ⟨h, fun he => hne (he ▸ h)⟩

namespace Awake

theorem start (data : Nat → Byte) : Awake (Sys.start data : Sys P) :=
  ⟨fun _ h => (by cases h), fun _ h => (by cases h)⟩

theorem of_fewer (h : Awake s) (hchan : ∀ r c, t.chan r = some c → s.chan r = some c)
    (hring : t.pipe.toRing = s.pipe.toRing)
    (hw : (∃ r, t.chan r = some .nread) → t.pipe.writeopen = s.pipe.writeopen)
    (hr : (∃ r, t.chan r = some .nwrite) → t.pipe.readopen = s.pipe.readopen) : Awake t where
  nread r hc := by
    rw [Pipe.Empty, hring, hw ⟨r, hc⟩]
    exact h.nread r (hchan r _ hc)
  nwrite r hc := by
    rw [Pipe.Full, hring, hr ⟨r, hc⟩]
    exact h.nwrite r (hchan r _ hc)

/-- The processes that sleep on `&p->nwrite` keep a section of `pipewrite` from storing anything. -/
theorem filled (h : Awake s) (hc : s.chan r = some .nwrite) (bytes : List Byte) :
    (s.pipe.fill bytes).1.Full ∧ (s.pipe.fill bytes).1.readopen = true := by
  obtain ⟨hf, ho⟩ := h.nwrite r hc
  rw [Pipe.fill_of_full hf]
  exact ⟨hf, ho⟩

theorem pipeclose (h : Awake s) (writable : Bool) : Awake (s.pipeclose writable) := by
  cases writable with
  | true =>
    refine h.of_fewer (fun r c hc => (wakeup_chan hc).1) rfl (fun hr => ?_) fun _ => rfl
    obtain ⟨r, hr⟩ := hr
    exact absurd rfl (wakeup_chan hr).2
  | false =>
    refine h.of_fewer (fun r c hc => (wakeup_chan hc).1) rfl (fun _ => rfl) fun hr => ?_
    obtain ⟨r, hr⟩ := hr
    exact absurd rfl (wakeup_chan hr).2

variable [DecidableEq P]

theorem piperead (h : Awake s) (n : Nat) : Awake (s.piperead p n) := by
  rw [Sys.piperead]
  split
  case isTrue he =>
    split
    case isTrue => exact h.of_fewer (fun _ _ hc => hc) rfl (fun _ => rfl) fun _ => rfl
    case isFalse =>
      -- the reader falls asleep on an empty pipe
      refine ⟨fun r hc => he, fun r hc => ?_⟩
      obtain hc | hc := sleep_chan hc
      · cases hc
      · exact h.nwrite r hc
  case isFalse hne =>
    refine ⟨fun r hc => ?_, fun r hc => absurd rfl (wakeup_chan hc).2⟩
    exact absurd (h.nread r (wakeup_chan hc).1) hne

theorem pipewrite (hf : Fifo s) (h : Awake s) {addr : List Byte} {i : Nat} (hc : s.call p = .writing addr i) :
    Awake (s.pipewrite p addr i) ↔ ¬ Abandons s (.run p) := by
  have hfill := Pipe.fill_spec hf.size (addr.drop i)
  have hsize := hfill.size_eq
  have hle := hfill.size
  have hcall : ∀ {addr' i'}, s.call p = .writing addr' i' → addr' = addr ∧ i' = i := by
    intro addr' i' hc'
    rw [hc, Call.writing.injEq] at hc'
    exact ⟨hc'.1.symm, hc'.2.symm⟩
  have hzero : (∃ r, s.chan r = some .nread) → s.pipe.size = 0 := by
    intro hr
    obtain ⟨r, hr⟩ := hr
    exact (Pipe.empty_iff _).mp (h.nread r hr).1
  simp only [Sys.pipewrite]
  split
  case isTrue hlt =>
    have hfull := hfill.full (by rw [List.length_drop]; omega)
    split
    case isTrue hgive =>
      -- the call gives up: nobody is woken
      constructor
      · intro hawake hab
        obtain ⟨_, _, _, _, _, _, _, r, hr⟩ := hab
        exact Pipe.not_full_of_empty (hawake.nread r hr).1 hfull
      · intro hab
        refine ⟨fun r hr => ?_, fun r hr => h.filled hr _⟩
        have h0 := hzero ⟨r, hr⟩
        rw [Pipe.full_iff] at hfull
        exact absurd ⟨p, addr, i, rfl, hc, hgive, by omega, r, hr⟩ hab
    case isFalse hgo =>
      refine iff_of_true ⟨fun r hr => ?_, fun r _ => ⟨hfull, ?_⟩⟩ fun hab => ?_
      · obtain hr | hr := sleep_chan hr
        · cases hr
        · exact absurd rfl (wakeup_chan hr).2
      · have hopen := hfill.ends.readopen
        rw [not_or, Bool.not_eq_false] at hgo
        exact hopen.trans hgo.1
      · obtain ⟨q, _, _, hq, _, hgive, _⟩ := hab
        cases hq
        exact hgo hgive
  case isFalse hlt =>
    refine iff_of_true ⟨fun r hr => absurd rfl (wakeup_chan hr).2, fun r hr => h.filled (wakeup_chan hr).1 _⟩ ?_
    intro hab
    obtain ⟨q, addr', i', hq, hc', _, hlong, hr⟩ := hab
    cases hq
    obtain ⟨rfl, rfl⟩ := hcall hc'
    have h0 := hzero hr
    omega

/-- One step forgets a sleeper exactly when a call of `pipewrite` gives up on a sleeping reader. -/
theorem step (hf : Fifo s) (h : Awake s) (hs : Pipes.step s a = some s') : Awake s' ↔ ¬ Abandons s a := by
  cases a with
  | pipewrite p addr =>
    obtain ⟨_, rfl⟩ := of_pipewrite hs
    exact iff_of_true (h.of_fewer (fun _ _ hc => hc) rfl (fun _ => rfl) fun _ => rfl)
      (not_abandons fun _ _ _ ha => by cases ha)
  | piperead p n =>
    obtain ⟨_, rfl⟩ := of_piperead hs
    exact iff_of_true (h.of_fewer (fun _ _ hc => hc) rfl (fun _ => rfl) fun _ => rfl)
      (not_abandons fun _ _ _ ha => by cases ha)
  | run p =>
    obtain ⟨_, ⟨n, hc, rfl⟩ | ⟨addr, i, hc, rfl⟩⟩ := of_run hs
    · refine iff_of_true (h.piperead n) (not_abandons fun q addr i ha hw => ?_)
      cases ha
      rw [hc] at hw
      cases hw
    · exact pipewrite hf h hc
  | pipeclose writable =>
    obtain rfl := of_pipeclose hs
    exact iff_of_true (h.pipeclose writable) (not_abandons fun _ _ _ ha => by cases ha)
  | kill p =>
    cases hs
    refine iff_of_true (h.of_fewer (fun r c hc => ?_) rfl (fun _ => rfl) fun _ => rfl)
      (not_abandons fun _ _ _ ha => by cases ha)
    have hc : update s.chan p none r = some c := hc
    rw [update_apply] at hc
    split at hc
    case isTrue => cases hc
    case isFalse => exact hc
  | mark p =>
    cases hs
    exact iff_of_true (h.of_fewer (fun _ _ hc => hc) rfl (fun _ => rfl) fun _ => rfl)
      (not_abandons fun _ _ _ ha => by cases ha)

end Awake

/-- **When a wakeup is lost.** Along any run on a new pipe, every process that sleeps on the pipe has
reason to, after every step, exactly when no call of `pipewrite` that must give up on a full ring is
let run with more than `PIPESIZE` bytes left while a process sleeps in `piperead`. -/
theorem no_lost_wakeup_iff [DecidableEq P] (data : Nat → Byte) (as : List (Action P)) :
    Along step (fun _ _ s' => Awake s') (Sys.start data) as ↔
      Along step (fun s a _ => ¬ Abandons s a) (Sys.start data) as :=
  along_congr (I := fun s => Fifo s ∧ Awake s) (fun _ _ _ h hs => h.2.step h.1 hs)
    (fun _ _ _ h hs hab => ⟨h.1.step hs, (h.2.step h.1 hs).mpr hab⟩) ⟨.start data, .start data⟩ as

/-- A reader goes to sleep; a writer of 513 bytes is killed, fills the pipe and gives up. -/
def forgotten : List (Action Nat) :=
  [.piperead 0 1, .run 0, .pipewrite 1 (List.replicate 513 0), .kill 1, .run 1]

set_option maxRecDepth 100000 in
/-- The reader sleeps on, before a full pipe. -/
theorem forgotten_sleeps : ∃ s, run step (Sys.start fun _ => 0) forgotten = some s ∧
    s.chan 0 = some .nread ∧ s.pipe.Full ∧ s.pipe.writeopen = true ∧
    s.call 1 = .wrote (List.replicate 513 0) 512 (-1) := by
  have hany : (run step (Sys.start fun _ => 0) forgotten).any (fun s =>
      s.chan 0 = some .nread ∧ s.pipe.Full ∧ s.pipe.writeopen = true ∧
      s.call 1 = .wrote (List.replicate 513 0) 512 (-1)) = true := by decide +kernel
  obtain ⟨s, hr, h⟩ := run_any hany
  exact ⟨s, hr, of_decide_eq_true h⟩

end Xv6.Pipes
