import Xv6.Pipes.Machine

/-! A pipe is a queue that loses nothing.

What an observer of `p->lock` sees, in the order in which the lock is taken: the bytes stored by
all calls of `pipewrite`, and the bytes returned by all calls of `piperead`. What was returned,
followed by what is in the ring, is what was stored, however the calls are interleaved, how often
they sleep and how often the counters wrap. -/
namespace Xv6.Pipes
open Lib Function List

variable {P : Type} [DecidableEq P]

/-- The bytes that a call of `pipewrite` has stored. -/
def Call.bytes : Call → List Byte
  | .writing addr i => addr.take i
  | .wrote addr i _ => addr.take i
  | _ => []

/-- What a call of `piperead` that did not fail has returned. -/
def Call.result : Call → Option (List Byte)
  | .read _ r => r
  | _ => none

/-- The index of `pipewrite` is inside the buffer, and past its end when the call returns its length. -/
def Call.Inside : Call → Prop
  | .writing addr i => i ≤ addr.length
  | .wrote addr i r => i ≤ addr.length ∧ (r = addr.length → i = addr.length)
  | _ => True

namespace Sys

/-- The bytes that the call `p` has stored, in order. -/
def storedBy (s : Sys P) (p : P) : List Byte := (s.stored.filter (·.1 = p)).map (·.2)

/-- What the call `p` has returned. -/
def returnedBy (s : Sys P) (p : P) : List (List Byte) := (s.returned.filter (·.1 = p)).map (·.2)

end Sys

/-- The pipe is the queue of what was stored and has not been returned, and each call has stored
the bytes before its index. -/
structure Fifo (s : Sys P) : Prop where
  size : s.pipe.size ≤ PIPESIZE
  queue : s.returned.flatMap (·.2) ++ s.pipe.contents = s.stored.map (·.2)
  own : ∀ p, s.storedBy p = (s.call p).bytes
  answer : ∀ p, s.returnedBy p = (s.call p).result.toList
  inside : ∀ p, (s.call p).Inside

variable {s s' t : Sys P} {p : P} {a : Action P}

/-- Of things marked with `p`, those of the call `r`. -/
theorem tagged {α : Type} (p r : P) (l : List α) :
    ((l.map fun a => (p, a)).filter (·.1 = r)).map (·.2) = if r = p then l else [] := by
  rw [filter_map, map_map]
  by_cases h : r = p
  · simp [Function.comp_def, h]
  · simp [Function.comp_def, h, Ne.symm h]

namespace Fifo

theorem start (data : Nat → Byte) : Fifo (Sys.start data : Sys P) where
  size := by
    have h0 : (Sys.start data : Sys P).pipe.size = 0 := (Ring.size_eq_zero _).mpr rfl
    rw [h0]
    exact Nat.zero_le _
  queue := (Ring.contents_eq_nil _).mpr rfl
  own _ := rfl
  answer _ := rfl
  inside _ := trivial

theorem of_same (h : Fifo s) (hpipe : t.pipe.toRing = s.pipe.toRing) (hcall : t.call = s.call)
    (hstored : t.stored = s.stored) (hreturned : t.returned = s.returned) : Fifo t where
  size := by rw [hpipe]; exact h.size
  queue := by rw [hpipe, hstored, hreturned]; exact h.queue
  own q := by rw [Sys.storedBy, hstored, hcall]; exact h.own q
  answer q := by rw [Sys.returnedBy, hreturned, hcall]; exact h.answer q
  inside q := by rw [hcall]; exact h.inside q

/-- A call stores bytes, or returns answers, or only goes on. -/
theorem advance (h : Fifo s) (bytes : List Byte) (answers : List (List Byte))
    (hcall : t.call = update s.call p c)
    (hstored : t.stored = s.stored ++ bytes.map fun b => (p, b))
    (hreturned : t.returned = s.returned ++ answers.map fun b => (p, b))
    (hsize : t.pipe.size ≤ PIPESIZE)
    (hqueue : answers.flatten ++ t.pipe.contents = s.pipe.contents ++ bytes)
    (hb : c.bytes = (s.call p).bytes ++ bytes) (hr : c.result.toList = (s.call p).result.toList ++ answers)
    (hc : c.Inside) : Fifo t where
  size := hsize
  queue := by
    rw [hstored, hreturned, flatMap_append, append_assoc, flatMap_map, map_append,
      map_map, ← h.queue, append_assoc]
    refine congrArg _ ((congrArg (· ++ _) flatMap_id').trans (hqueue.trans ?_))
    exact congrArg _ (map_id' bytes).symm
  own r := by
    rw [Sys.storedBy, hstored, filter_append, map_append, tagged, hcall, update_apply]
    split
    case isTrue he => rw [he, hb, ← h.own, Sys.storedBy]
    case isFalse => rw [append_nil, ← h.own, Sys.storedBy]
  answer r := by
    rw [Sys.returnedBy, hreturned, filter_append, map_append, tagged, hcall, update_apply]
    split
    case isTrue he => rw [he, hr, ← h.answer, Sys.returnedBy]
    case isFalse => rw [append_nil, ← h.answer, Sys.returnedBy]
  inside r := by
    rw [hcall, update_apply]
    split
    case isTrue => exact hc
    case isFalse => exact h.inside r

theorem goto (h : Fifo s) (hb : c.bytes = (s.call p).bytes)
    (hr : c.result = (s.call p).result) (hc : c.Inside) : Fifo (s.goto p c) :=
  h.advance (p := p) [] [] rfl (append_nil _).symm (append_nil _).symm h.size
    (append_nil _).symm (by rw [hb, append_nil]) (by rw [hr, append_nil]) hc

/-- A section of `pipewrite`. -/
theorem pipewrite (h : Fifo s) (hc : s.call p = .writing addr i) :
    Fifo (s.pipewrite p addr i) := by
  have hf := Pipe.fill_spec h.size (addr.drop i)
  have hi : i ≤ addr.length := by
    have := h.inside p
    rwa [hc] at this
  have hle := hf.le
  rw [length_drop] at hle
  have hbytes : addr.take (i + (s.pipe.fill (addr.drop i)).2) =
      (s.call p).bytes ++ (addr.drop i).take (s.pipe.fill (addr.drop i)).2 := by
    rw [hc, take_add]
    rfl
  -- whatever the call does next, it has stored the same bytes
  have hnext : ∀ {t : Sys P} {c : Call}, t.call = update s.call p c →
      t.stored = s.stored ++ ((addr.drop i).take (s.pipe.fill (addr.drop i)).2).map (fun b => (p, b)) →
      t.returned = s.returned → t.pipe = (s.pipe.fill (addr.drop i)).1 →
      c.bytes = addr.take (i + (s.pipe.fill (addr.drop i)).2) → c.result = none → c.Inside → Fifo t := by
    intro t c hcall hstored hreturned hpipe hb hr hin
    refine h.advance _ [] hcall hstored (by rw [hreturned]; exact (append_nil _).symm)
      (by rw [hpipe]; exact hf.size) (by rw [hpipe]; exact hf.contents) (hb.trans hbytes) ?_ hin
    rw [hr, hc]
    rfl
  simp only [Sys.pipewrite]
  split
  case isTrue hlt =>
    split
    case isTrue =>
      refine hnext rfl rfl rfl rfl rfl rfl ⟨by omega, fun h => ?_⟩
      omega
    case isFalse => exact hnext rfl rfl rfl rfl rfl rfl (Nat.le_of_lt hlt)
  case isFalse hlt => exact hnext rfl rfl rfl rfl rfl rfl ⟨by omega, fun _ => by omega⟩

/-- A section of `piperead`. -/
theorem piperead (h : Fifo s) (hc : s.call p = .reading n) : Fifo (s.piperead p n) := by
  rw [Sys.piperead]
  split
  case isTrue =>
    split
    case isTrue => exact h.goto (by rw [hc]; rfl) (by rw [hc]; rfl) trivial
    case isFalse => exact h.of_same rfl rfl rfl rfl
  case isFalse =>
    have hd := Pipe.drain_spec s.pipe n
    refine h.advance (p := p) [] [(s.pipe.drain n).2] rfl (append_nil _).symm rfl
      (hd.size.trans h.size) ?_ (by rw [hc]; rfl) (by rw [hc]; rfl) trivial
    rw [append_nil, flatten_singleton]
    exact hd.contents.symm

theorem step (h : Fifo s) (hs : Pipes.step s a = some s') : Fifo s' := by
  cases a with
  | pipewrite p addr =>
    obtain ⟨hc, rfl⟩ := of_pipewrite hs
    exact h.goto (by rw [hc]; rfl) (by rw [hc]; rfl) (Nat.zero_le _)
  | piperead p n =>
    obtain ⟨hc, rfl⟩ := of_piperead hs
    exact h.goto (by rw [hc]; rfl) (by rw [hc]; rfl) trivial
  | run p =>
    obtain ⟨_, ⟨n, hc, rfl⟩ | ⟨addr, i, hc, rfl⟩⟩ := of_run hs
    · exact h.piperead hc
    · exact h.pipewrite hc
  | pipeclose writable =>
    obtain rfl := of_pipeclose hs
    cases writable with
    | true => exact h.of_same rfl rfl rfl rfl
    | false => exact h.of_same rfl rfl rfl rfl
  | kill p =>
    cases hs
    exact h.of_same rfl rfl rfl rfl
  | mark p =>
    cases hs
    exact h.of_same rfl rfl rfl rfl

theorem run (hr : Lib.run Pipes.step (Sys.start data) as = some s) :
    Fifo s :=
  run_invariant (I := fun _ s => Fifo s) (start data) (fun _ _ _ _ h hs => h.step hs) hr

end Fifo

/-- `piperead` of at least one byte returns none only when there is none and there will be none. -/
theorem read_nothing (hs : step s (.run p) = some s') (hc : s.call p = .reading n) (hn : 0 < n)
    (hr : s'.call p = .read n (some [])) : s.pipe.Empty ∧ s.pipe.writeopen = false := by
  obtain ⟨_, ⟨m, hm, rfl⟩ | ⟨addr, i, hi, _⟩⟩ := of_run hs
  · obtain rfl : n = m := by
      rw [hm] at hc
      exact (Call.reading.inj hc).symm
    rw [Sys.piperead] at hr
    split at hr
    case isTrue =>
      split at hr
      case isTrue =>
        rw [Sys.goto_self] at hr
        cases hr
      case isFalse =>
        have hr : s.call p = .read n (some []) := hr
        rw [hc] at hr
        cases hr
    case isFalse hopen =>
      rw [Sys.goto_self, Call.read.injEq, Option.some.injEq] at hr
      have he := (Pipe.drain_spec s.pipe n).none hr.2 hn
      exact ⟨he, Bool.eq_false_iff.mpr fun hw => hopen ⟨he, hw⟩⟩
  · rw [hi] at hc
    cases hc

/-- **Pipes are lossless queues.** After any run of calls, closes and kills on a new pipe: the counters
are at most `PIPESIZE` apart; what `piperead` returned, followed by the ring, is what `pipewrite`
stored; each call has stored its own bytes in order, all of them when it returned their number; each
answer of `piperead` is there once; and an answer of no bytes means the end of the stream. -/
theorem pipe_lossless {data : Nat → Byte} {as : List (Action P)} {s : Sys P}
    (hr : run step (Sys.start data) as = some s) :
    s.pipe.size ≤ PIPESIZE ∧
    s.returned.flatMap (·.2) ++ s.pipe.contents = s.stored.map (·.2) ∧
    (∀ p addr i, s.call p = .writing addr i → s.storedBy p = addr.take i) ∧
    (∀ p addr i r, s.call p = .wrote addr i r → s.storedBy p = addr.take i ∧
      (r = addr.length → s.storedBy p = addr)) ∧
    (∀ p n bytes, s.call p = .read n (some bytes) → s.returnedBy p = [bytes]) ∧
    ∀ p n s', step s (.run p) = some s' → s.call p = .reading n → 0 < n →
      s'.call p = .read n (some []) → s.pipe.contents = [] ∧ s.pipe.writeopen = false := by
  have h := Fifo.run hr
  refine ⟨h.size, h.queue, fun p addr i hc => ?_, fun p addr i r hc => ⟨?_, fun hn => ?_⟩, fun p n bytes hc => ?_,
    fun p n s' hs hc hn hr => ?_⟩
  · rw [h.own, hc]
    rfl
  · rw [h.own, hc]
    rfl
  · have hin := h.inside p
    rw [hc] at hin
    rw [h.own, hc, Call.bytes, hin.2 hn, take_length]
  · rw [h.answer, hc]
    rfl
  · obtain ⟨he, hw⟩ := read_nothing hs hc hn hr
    exact ⟨(Ring.contents_eq_nil _).mpr he, hw⟩

/-- Two bytes are written, and one of them is read. -/
def exchange : List (Action Nat) := [.pipewrite 0 [104, 105], .run 0, .piperead 1 1, .run 1]

theorem pipe_lossless_exchange : ∃ s, run step (Sys.start fun _ => 0) exchange = some s ∧
    s.call 0 = .wrote [104, 105] 2 2 ∧ s.storedBy 0 = [104, 105] ∧ s.returned = [(1, [104])] ∧
    s.returned.flatMap (·.2) ++ s.pipe.contents = s.stored.map (·.2) := by
  have hany : (run step (Sys.start fun _ => 0) exchange).any (fun s =>
      s.call 0 = .wrote [104, 105] 2 2 ∧ s.returned = [(1, [104])]) = true := by decide +kernel
  obtain ⟨s, hr, h⟩ := run_any hany
  obtain ⟨hc, hret⟩ := of_decide_eq_true h
  obtain ⟨_, hqueue, _, hown, _⟩ := pipe_lossless hr
  exact ⟨s, hr, hc, (hown 0 _ _ _ hc).2 rfl, hret, hqueue⟩

end Xv6.Pipes
