import Mathlib.Logic.Function.Basic
import Mathlib.Data.List.Nodup

/-! Doubly linked lists through a head.

The nodes are linked in a circle through a head, `none`. `Path k x l y` says that from `x` the
links lead through the nodes of `l` to `y`, and back; the circle is a path from the head to the
head. Taking a node out and putting it in after the head are the usual four pointer writes. -/
namespace Xv6.Lib
open Function List

/-- The two pointers of each node; `none` is the head. -/
structure Links (β : Type) where
  next : Option β → Option β
  prev : Option β → Option β

namespace Links
variable {β : Type}

/-- From `x` through `l` to `y`, and back. -/
def Path (k : Links β) : Option β → List β → Option β → Prop
  | x, [], y => k.next x = y ∧ k.prev y = x
  | x, b :: l, y => k.next x = some b ∧ k.prev (some b) = x ∧ k.Path (some b) l y

/-- The circle through the head has the nodes of `l`, each once. -/
structure Circle (k : Links β) (l : List β) : Prop where
  path : k.Path none l none
  nodup : l.Nodup

variable {k k' : Links β} {x y : Option β} {l l₁ l₂ : List β} {b : β}

theorem path_append : k.Path x (l₁ ++ b :: l₂) y ↔ k.Path x l₁ (some b) ∧ k.Path (some b) l₂ y := by
  induction l₁ generalizing x with
  | nil => exact and_assoc.symm
  | cons c l₁ ih => simp only [cons_append, Path, ih, and_assoc]

/-- A path depends only on the pointers along it. -/
theorem Path.congr (h : k.Path x l y) (hn : ∀ z, z = x ∨ (∃ c ∈ l, z = some c) → k'.next z = k.next z)
    (hp : ∀ z, z = y ∨ (∃ c ∈ l, z = some c) → k'.prev z = k.prev z) : k'.Path x l y := by
  induction l generalizing x with
  | nil => exact ⟨(hn x (.inl rfl)).trans h.1, (hp y (.inl rfl)).trans h.2⟩
  | cons c l ih =>
    obtain ⟨h1, h2, h3⟩ := h
    have hc : ∃ d ∈ c :: l, some c = some d := ⟨c, mem_cons_self .., rfl⟩
    refine ⟨(hn x (.inl rfl)).trans h1, (hp _ (.inr hc)).trans h2, ih h3 ?_ ?_⟩
    · rintro z (rfl | ⟨d, hd, rfl⟩)
      · exact hn _ (.inr hc)
      · exact hn _ (.inr ⟨d, mem_cons_of_mem _ hd, rfl⟩)
    · rintro z (rfl | ⟨d, hd, rfl⟩)
      · exact hp _ (.inl rfl)
      · exact hp _ (.inr ⟨d, mem_cons_of_mem _ hd, rfl⟩)

/-- The node before the end of a path is on it. -/
theorem Path.prev_mem (h : k.Path x l y) : k.prev y = x ∨ ∃ c ∈ l, k.prev y = some c := by
  induction l generalizing x with
  | nil => exact .inl h.2
  | cons c l ih =>
    obtain h | ⟨d, hd, h⟩ := ih h.2.2
    · exact .inr ⟨c, mem_cons_self .., h⟩
    · exact .inr ⟨d, mem_cons_of_mem _ hd, h⟩

/-! ### Following the pointers -/

/-- The nodes after `x`, following `next` up to the head. -/
def forward (k : Links β) : Nat → Option β → List β
  | 0, _ => []
  | fuel + 1, x =>
    match k.next x with
    | none => []
    | some b => b :: k.forward fuel (some b)

/-- The nodes before `x`, following `prev` up to the head. -/
def backward (k : Links β) (fuel : Nat) (x : Option β) : List β := (⟨k.prev, k.next⟩ : Links β).forward fuel x

theorem Path.forward (h : k.Path x l none) {fuel : Nat} (hf : l.length ≤ fuel) :
    k.forward fuel x = l := by
  induction l generalizing x fuel with
  | nil =>
    cases fuel with
    | zero => rfl
    | succ fuel => rw [Links.forward, h.1]
  | cons c l ih =>
    cases fuel with
    | zero => cases hf
    | succ fuel =>
      rw [Links.forward, h.1]
      exact congrArg _ (ih h.2.2 (Nat.le_of_succ_le_succ hf))

/-- Read backwards, a path is a path of the links the other way round. -/
theorem Path.reverse (h : k.Path x l y) : (⟨k.prev, k.next⟩ : Links β).Path y l.reverse x := by
  induction l generalizing x with
  | nil => exact ⟨h.2, h.1⟩
  | cons c l ih =>
    rw [reverse_cons]
    exact path_append.mpr ⟨ih h.2.2, h.2.1, h.1⟩

theorem Path.backward (h : k.Path none l y) {fuel : Nat} (hf : l.length ≤ fuel) :
    k.backward fuel y = l.reverse :=
  h.reverse.forward (by rwa [length_reverse])

/-! ### Taking a node out, and putting it in front -/

variable [DecidableEq β]

/-- `b->next->prev = b->prev; b->prev->next = b->next;` -/
def unlink (k : Links β) (b : β) : Links β :=
  let k := {k with prev := update k.prev (k.next (some b)) (k.prev (some b))}
  {k with next := update k.next (k.prev (some b)) (k.next (some b))}

/-- `b->next = head.next; b->prev = &head; head.next->prev = b; head.next = b;` -/
def insert (k : Links β) (b : β) : Links β :=
  let k := {k with next := update k.next (some b) (k.next none)}
  let k := {k with prev := update k.prev (some b) none}
  let k := {k with prev := update k.prev (k.next none) (some b)}
  {k with next := update k.next none (some b)}

/-- The end of a path is moved to `z`. -/
theorem Path.redirect {z : Option β} (h : k.Path x l y) (hx : ∀ c ∈ l, x ≠ some c) (hl : l.Nodup)
    (hz : ∀ c ∈ l, z ≠ some c) (hn : k'.next = update k.next (k.prev y) z)
    (hp : k'.prev = update k.prev z (k.prev y)) : k'.Path x l z := by
  induction l generalizing x with
  | nil =>
    rw [Path, hn, hp, h.2, update_self, update_self]
    exact ⟨rfl, rfl⟩
  | cons c l ih =>
    obtain ⟨h1, h2, h3⟩ := h
    obtain ⟨hc, hl⟩ := nodup_cons.mp hl
    have hne : x ≠ k.prev y := by
      obtain he | ⟨d, hd, he⟩ := h3.prev_mem
      · rw [he]
        exact hx c (mem_cons_self ..)
      · rw [he]
        exact hx d (mem_cons_of_mem _ hd)
    refine ⟨?_, ?_, ih h3 (fun d hd he => hc (Option.some.inj he ▸ hd)) hl
      fun d hd => hz d (mem_cons_of_mem _ hd)⟩
    · rw [hn, update_of_ne hne, h1]
    · rw [hp, update_of_ne (hz c (mem_cons_self ..)).symm, h2]

theorem Circle.unlink (h : k.Circle l) (hb : b ∈ l) : (k.unlink b).Circle (l.erase b) := by
  obtain ⟨l₁, l₂, rfl⟩ := append_of_mem hb
  obtain ⟨hl₁, hl₂, hdis⟩ := nodup_append.mp h.nodup
  obtain ⟨hb₂, hl₂⟩ := nodup_cons.mp hl₂
  have hb₁ : b ∉ l₁ := fun hm => hdis b hm b (mem_cons_self ..) rfl
  have hdis' : ∀ c ∈ l₁, c ∉ l₂ := fun c h1 h2 => hdis c h1 c (mem_cons_of_mem _ h2) rfl
  have herase : (l₁ ++ b :: l₂).erase b = l₁ ++ l₂ := by
    rw [erase_append_right _ hb₁, erase_cons_head]
  obtain ⟨hp₁, hp₂⟩ := path_append.mp h.path
  refine ⟨?_, by rw [herase]; exact (h.nodup.sublist (by simp))⟩
  rw [herase]
  -- the node after `b` is the head or the first of `l₂`
  have hself : k.next (some b) ≠ some b := by
    cases l₂ with
    | nil => rw [hp₂.1]; exact Option.some_ne_none b |>.symm
    | cons c l₂ =>
      rw [hp₂.1]
      intro he
      exact hb₂ (Option.some.inj he ▸ mem_cons_self ..)
  have hprev : (k.unlink b).prev = update k.prev (k.next (some b)) (k.prev (some b)) := rfl
  have hnext : (k.unlink b).next = update k.next (k.prev (some b)) (k.next (some b)) := by
    show update k.next (update k.prev (k.next (some b)) (k.prev (some b)) (some b)) _ = _
    rw [update_of_ne hself.symm]
  cases l₂ with
  | nil =>
    rw [hp₂.1] at hprev hnext
    rw [append_nil]
    exact hp₁.redirect (fun _ _ => (Option.some_ne_none _).symm) hl₁ (fun _ _ => (Option.some_ne_none _).symm)
      hnext hprev
  | cons c l₂ =>
    obtain ⟨hc, hl₂⟩ := nodup_cons.mp hl₂
    rw [hp₂.1] at hprev hnext
    refine path_append.mpr ⟨hp₁.redirect (fun _ _ => (Option.some_ne_none _).symm) hl₁ (fun d hd he => ?_)
      hnext hprev, hp₂.2.2.congr (fun z hz => ?_) fun z hz => ?_⟩
    · exact hdis' d hd (Option.some.inj he ▸ mem_cons_self ..)
    · rw [hnext, update_of_ne]
      rintro rfl
      obtain hm | ⟨d, hd, hm⟩ := hp₁.prev_mem
      · rw [hm] at hz
        obtain hz | ⟨e, _, hz⟩ := hz <;> cases hz
      · rw [hm] at hz
        obtain hz | ⟨e, he, hz⟩ := hz
        · exact hdis' d hd (Option.some.inj hz ▸ mem_cons_self ..)
        · exact hdis' d hd (mem_cons_of_mem _ (Option.some.inj hz ▸ he))
    · rw [hprev, update_of_ne]
      rintro rfl
      obtain hz | ⟨e, he, hz⟩ := hz
      · cases hz
      · exact hc (Option.some.inj hz ▸ he)

theorem Circle.insert (h : k.Circle l) (hb : b ∉ l) : (k.insert b).Circle (b :: l) := by
  refine ⟨?_, nodup_cons.mpr ⟨hb, h.nodup⟩⟩
  have hfirst : k.next none ≠ some b := by
    cases l with
    | nil => rw [h.path.1]; exact (Option.some_ne_none b).symm
    | cons c l =>
      rw [h.path.1]
      intro he
      exact hb (Option.some.inj he ▸ mem_cons_self ..)
  have hnone : update k.next (some b) (k.next none) none = k.next none :=
    update_of_ne (Option.some_ne_none b).symm ..
  have hnext : (k.insert b).next = update (update k.next (some b) (k.next none)) none (some b) := rfl
  have hprev : (k.insert b).prev = update (update k.prev (some b) none) (k.next none) (some b) := by
    show update _ (update k.next (some b) (k.next none) none) _ = _
    rw [hnone]
  have hnb : (k.insert b).next (some b) = k.next none := by
    rw [hnext, update_of_ne (Option.some_ne_none b), update_self]
  have hpf : (k.insert b).prev (k.next none) = some b := by rw [hprev, update_self]
  refine ⟨by rw [hnext, update_self], ?_, ?_⟩
  · rw [hprev, update_of_ne hfirst.symm, update_self]
  cases l with
  | nil =>
    rw [h.path.1] at hnb hpf
    exact ⟨hnb, hpf⟩
  | cons c l =>
    obtain ⟨h1, _, h3⟩ := h.path
    rw [h1] at hnb hpf
    have hbc : b ≠ c := fun he => hb (he ▸ mem_cons_self ..)
    have hbl : b ∉ l := fun hm => hb (mem_cons_of_mem _ hm)
    refine ⟨hnb, hpf, h3.congr (fun z hz => ?_) fun z hz => ?_⟩
    · have hz0 : z ≠ none := by
        rintro rfl
        obtain hz | ⟨d, _, hz⟩ := hz <;> cases hz
      have hzb : z ≠ some b := by
        rintro rfl
        obtain hz | ⟨d, hd, hz⟩ := hz
        · exact hbc (Option.some.inj hz)
        · exact hbl (Option.some.inj hz ▸ hd)
      rw [hnext, update_of_ne hz0, update_of_ne hzb]
    · have hzc : z ≠ k.next none := by
        rw [h1]
        rintro rfl
        obtain hz | ⟨d, hd, hz⟩ := hz
        · cases hz
        · exact (nodup_cons.mp h.nodup).1 (Option.some.inj hz ▸ hd)
      have hzb : z ≠ some b := by
        rintro rfl
        obtain hz | ⟨d, hd, hz⟩ := hz
        · cases hz
        · exact hbl (Option.some.inj hz ▸ hd)
      rw [hprev, update_of_ne hzc, update_of_ne hzb]

/-- Nodes put in at the front one after the other. -/
theorem Circle.foldl_insert {bs : List β} (h : k.Circle l) (hbs : bs.Nodup) (hd : ∀ b ∈ bs, b ∉ l) :
    (bs.foldl Links.insert k).Circle (bs.reverse ++ l) := by
  induction bs generalizing k l with
  | nil => exact h
  | cons b bs ih =>
    obtain ⟨hb, hbs⟩ := nodup_cons.mp hbs
    rw [foldl_cons, reverse_cons, append_assoc]
    refine ih (h.insert (hd b (mem_cons_self ..))) hbs fun c hc hm => ?_
    obtain rfl | hm := mem_cons.mp hm
    · exact hb hc
    · exact hd c (mem_cons_of_mem _ hc) hm

end Links
end Xv6.Lib
