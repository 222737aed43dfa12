import Xv6.Fs.Dir
import Xv6.Fs.InodeProofs
import Mathlib.Data.List.DropRight

/-! Names and directory contents.

A name is what `namecmp` sees of a buffer: its bytes up to the first zero, `DIRSIZ`
at most. A directory's contents are its entries, each an inode number and a name;
an entry with number zero is empty. -/
namespace Xv6.Fs
open Lib List

abbrev Name := List Byte

/-- The string that starts a buffer. -/
def cstr (s : List Byte) : List Byte := s.takeWhile (· ≠ 0)

/-- The name in a buffer. -/
def name (s : List Byte) : Name := cstr (s.take DIRSIZ)

theorem cstr_cons (c : Byte) (s : List Byte) : cstr (c :: s) = if c = 0 then [] else c :: cstr s := by
  rw [cstr, takeWhile_cons]
  by_cases hc : c = 0
  · rw [if_pos hc, if_neg (by simp [hc])]
  · rw [if_neg hc, if_pos (decide_eq_true hc)]
    rfl

/-! ### `strncmp` and `strncpy` -/

theorem strncmp_eq_zero (p q : List Byte) (n : Nat) :
    strncmp p q n = 0 ↔ cstr (p.take n) = cstr (q.take n) := by
  induction n generalizing p q with
  | zero => simp [strncmp]
  | succ n ih =>
    have hnat : ∀ a b : Byte, ((a.toNat : Int) - b.toNat = 0) ↔ a = b := fun a b => by
      rw [Int.sub_eq_zero, Int.ofNat_inj, BitVec.toNat_inj]
    have hcons : ∀ r : List Byte, cstr (r.take (n + 1)) =
        if char r = 0 then [] else char r :: cstr (r.tail.take n) := fun r => by
      cases r with
      | nil => rfl
      | cons c r =>
        rw [take_succ_cons, cstr_cons]
        rfl
    rw [strncmp, hcons p, hcons q]
    by_cases h : char p ≠ 0 ∧ char p = char q
    · rw [if_pos h, ih, if_neg h.1, if_neg (by rw [← h.2]; exact h.1), h.2, List.cons.injEq,
        and_iff_right rfl]
    · rw [if_neg h, hnat]
      by_cases hp : char p = 0
      · rw [if_pos hp, hp]
        by_cases hq : char q = 0
        · rw [if_pos hq, hq]
          exact iff_of_true rfl rfl
        · rw [if_neg hq]
          exact iff_of_false (fun he => hq he.symm) fun he => by cases he
      · rw [if_neg hp]
        have hne : char p ≠ char q := fun he => h ⟨hp, he⟩
        by_cases hq : char q = 0
        · rw [if_pos hq]
          exact iff_of_false hne fun he => by cases he
        · rw [if_neg hq, List.cons.injEq]
          exact iff_of_false hne fun he => hne he.1

theorem namecmp_eq_zero (s t : List Byte) : namecmp s t = 0 ↔ name s = name t :=
  strncmp_eq_zero s t DIRSIZ

theorem length_strncpy (t : List Byte) (n : Nat) : (strncpy t n).length = n := by
  induction n generalizing t with
  | zero => rfl
  | succ n ih =>
    rw [strncpy]
    split
    · simp
    · simp [ih]

theorem cstr_strncpy (t : List Byte) (n : Nat) : cstr (strncpy t n) = cstr (t.take n) := by
  induction n generalizing t with
  | zero => rfl
  | succ n ih =>
    rw [strncpy]
    cases t with
    | nil => rfl
    | cons c t =>
      rw [take_succ_cons, cstr_cons]
      by_cases hc : c = 0
      · rw [if_pos hc, if_pos (by exact hc), replicate_succ, cstr_cons, if_pos rfl]
      · rw [if_neg hc, if_neg (by exact hc), cstr_cons, if_neg (by exact hc), tail_cons, ih]
        rfl

theorem name_strncpy (t : List Byte) : name (strncpy t DIRSIZ) = name t := by
  rw [name, take_of_length_le (Nat.le_of_eq (length_strncpy t DIRSIZ)), cstr_strncpy]
  rfl

/-! ### Entries -/

@[ext] structure Entry where
  inum : Nat
  name : Name
deriving DecidableEq

/-- The entry that the bytes of a `struct dirent` hold. -/
def Entry.read (de : List Byte) : Entry := ⟨(deInum de).toNat, Fs.name (deName de)⟩

/-- The bytes of entry `k` of a directory. -/
def deAt (data : List Byte) (k : Nat) : List Byte := (data.drop (DIRENT * k)).take DIRENT

/-- Entry `k` of a directory. -/
def dirent? (data : List Byte) (k : Nat) : Option Entry :=
  if DIRENT * k + DIRENT ≤ data.length then some (Entry.read (deAt data k)) else none

/-- How many entries a directory has. -/
def nentries (data : List Byte) : Nat := data.length / DIRENT

theorem dirent?_eq_none : dirent? data k = none ↔ nentries data ≤ k := by
  rw [dirent?, nentries]
  simp only [DIRENT, DIRSIZ]
  split
  · simp
    omega
  · simp
    omega

theorem dirent?_of_lt (h : k < nentries data) :
    dirent? data k = some (Entry.read (deAt data k)) := by
  rw [nentries] at h
  simp only [DIRENT, DIRSIZ] at h
  exact if_pos (by simp only [DIRENT, DIRSIZ]; omega)

theorem lt_of_dirent? (h : dirent? data k = some e) :
    k < nentries data := by
  by_contra hk
  rw [dirent?_eq_none.mpr (Nat.not_lt.mp hk)] at h
  cases h

theorem length_deAt (h : k < nentries data) :
    (deAt data k).length = DIRENT := by
  rw [nentries] at h
  simp only [deAt, length_take, length_drop, DIRENT, DIRSIZ] at h ⊢
  omega

theorem getD_deAt (data : List Byte) (k : Nat) (hm : m < DIRENT) :
    (deAt data k).getD m 0 = data.getD (DIRENT * k + m) 0 := by
  rw [deAt, getD_eq_getElem?_getD, List.getElem?_take, if_pos hm, List.getElem?_drop,
    getD_eq_getElem?_getD]

theorem Entry.read_dirent (i : BitVec 16) (s : List Byte) :
    Entry.read (dirent i s) = ⟨i.toNat, Fs.name s⟩ := by
  rw [Entry.read, deInum, deName, dirent]
  simp only [getD_cons_succ, getD_cons_zero, drop_succ_cons, drop_zero]
  rw [Bytes.append_extract16]

/-- An entry is put in place of entry `k`, or after the last one. -/
structure PutEntry (data data' : List Byte) (k : Nat) (e : Entry) : Prop where
  aligned : data'.length % DIRENT = 0
  entries : ∀ j, dirent? data' j = if j = k then some e else dirent? data j

theorem PutEntry.self (h : PutEntry data data' k e) :
    dirent? data' k = some e := by
  rw [h.entries, if_pos rfl]

theorem PutEntry.other (h : PutEntry data data' k e)
    (hj : j ≠ k) : dirent? data' j = dirent? data j := by
  rw [h.entries, if_neg hj]

theorem putEntry_splice (ha : data.length % DIRENT = 0)
    (hk : k ≤ nentries data) (hs : src.length = DIRENT) :
    PutEntry data (splice data (DIRENT * k) src) k (Entry.read src) := by
  have hoff : DIRENT * k ≤ data.length := by
    rw [nentries] at hk
    simp only [DIRENT, DIRSIZ] at *
    omega
  have hlen : (splice data (DIRENT * k) src).length = _ := length_splice hoff
  rw [hs] at hlen
  refine ⟨?_, fun j => ?_⟩
  · rw [hlen]
    simp only [DIRENT, DIRSIZ] at *
    omega
  by_cases hj : j = k
  · subst hj
    have hself : deAt (splice data (DIRENT * j) src) j = src := by
      have hl : (deAt (splice data (DIRENT * j) src) j).length = DIRENT := by
        rw [deAt, length_take, length_drop, hlen]
        omega
      refine list_ext_getD (hl.trans hs.symm) fun m hm => ?_
      rw [hl] at hm
      rw [getD_deAt _ _ hm, getD_splice hoff, if_pos (by omega), Nat.add_sub_cancel_left]
    rw [if_pos rfl, dirent?, if_pos (by omega), hself]
  · rw [if_neg hj]
    have hin : DIRENT * j + DIRENT ≤ (splice data (DIRENT * k) src).length ↔
        DIRENT * j + DIRENT ≤ data.length := by
      rw [hlen]
      simp only [DIRENT, DIRSIZ] at *
      omega
    by_cases hd : DIRENT * j + DIRENT ≤ data.length
    · have hlj : ∀ l : List Byte, DIRENT * j + DIRENT ≤ l.length → (deAt l j).length = DIRENT :=
        fun l hl => by
          rw [deAt, length_take, length_drop]
          omega
      have hsame : deAt (splice data (DIRENT * k) src) j = deAt data j := by
        refine list_ext_getD ((hlj _ (hin.mpr hd)).trans (hlj _ hd).symm) fun m hm => ?_
        rw [hlj _ (hin.mpr hd)] at hm
        rw [getD_deAt _ _ hm, getD_deAt _ _ hm, getD_splice hoff, if_neg]
        simp only [DIRENT, DIRSIZ] at *
        omega
      rw [dirent?, if_pos (hin.mpr hd), dirent?, if_pos hd, hsame]
    · rw [dirent?, if_neg (fun h => hd (hin.mp h)), dirent?, if_neg hd]

/-! ### Looking names up -/

/-- Entry `k` names inode `i`. -/
def Holds (data : List Byte) (k i : Nat) (nm : Name) : Prop := dirent? data k = some ⟨i, nm⟩ ∧ i ≠ 0

/-- Entry `k`, when it is the one looked for. -/
def hit (data : List Byte) (nm : Name) (k : Nat) : Option (Nat × Nat) :=
  match dirent? data k with
  | some e => if e.inum ≠ 0 ∧ e.name = nm then some (k, e.inum) else none
  | none => none

/-- The first entry with a name, and the inode it names. -/
def find (data : List Byte) (nm : Name) : Option (Nat × Nat) :=
  (List.range (nentries data)).findSome? (hit data nm)

variable {data : List Byte} {nm : Name} {k i : Nat}

theorem hit_eq_some : hit data nm k = some x ↔ Holds data k x.2 nm ∧ x.1 = k := by
  obtain ⟨l, i⟩ := x
  rw [hit, Holds]
  cases h : dirent? data k with
  | none => simp
  | some e =>
    obtain ⟨j, n⟩ := e
    by_cases hc : j ≠ 0 ∧ n = nm
    · simp only [if_pos hc, Option.some.injEq, Prod.mk.injEq, Entry.mk.injEq]
      constructor
      · rintro ⟨rfl, rfl⟩
        exact ⟨⟨⟨rfl, hc.2⟩, hc.1⟩, rfl⟩
      · rintro ⟨⟨⟨rfl, _⟩, _⟩, rfl⟩
        exact ⟨rfl, rfl⟩
    · simp only [if_neg hc, Option.some.injEq, Entry.mk.injEq]
      refine iff_of_false (fun h => by cases h) ?_
      rintro ⟨⟨⟨rfl, rfl⟩, hi⟩, _⟩
      exact hc ⟨hi, rfl⟩

theorem holds_of_find (h : find data nm = some (k, i)) : Holds data k i nm := by
  obtain ⟨l, _, hl⟩ := exists_of_findSome?_eq_some h
  obtain ⟨hh, hk⟩ := hit_eq_some.mp hl
  rw [show k = l from hk]
  exact hh

theorem find_eq_none : find data nm = none ↔ ∀ k i, ¬ Holds data k i nm := by
  rw [find, List.findSome?_eq_none_iff]
  constructor
  · intro h k i hh
    have := h k (mem_range.mpr (lt_of_dirent? hh.1))
    rw [(hit_eq_some (x := (k, i))).mpr ⟨hh, rfl⟩] at this
    cases this
  · intro h k _
    cases hx : hit data nm k with
    | none => rfl
    | some x => exact absurd (hit_eq_some.mp hx).1 (h k x.2)

/-- Entry `k` is free: empty, or just after the last one. -/
def Vacant (data : List Byte) (k : Nat) : Prop :=
  k ≤ nentries data ∧ ∀ e, dirent? data k = some e → e.inum = 0

theorem PutEntry.holds_iff (h : PutEntry data data' k ⟨i, nm⟩) (hv : Vacant data k) (hi : i ≠ 0) :
    Holds data' l j m ↔ Holds data l j m ∨ (l = k ∧ j = i ∧ m = nm) := by
  rw [Holds, Holds, h.entries]
  by_cases hl : l = k
  · rw [if_pos hl, Option.some.injEq, Entry.mk.injEq, hl]
    constructor
    · rintro ⟨⟨rfl, rfl⟩, _⟩
      exact .inr ⟨rfl, rfl, rfl⟩
    · rintro (⟨hh, hj⟩ | ⟨_, rfl, rfl⟩)
      · exact absurd (hv.2 _ hh) hj
      · exact ⟨⟨rfl, rfl⟩, hi⟩
  · rw [if_neg hl]
    exact ⟨.inl, fun hh => hh.resolve_right fun hc => hl hc.1⟩

theorem PutEntry.holds_iff_empty
    (h : PutEntry data data' k ⟨0, nm⟩) : Holds data' l j m ↔ Holds data l j m ∧ l ≠ k := by
  rw [Holds, Holds, h.entries]
  by_cases hl : l = k
  · rw [if_pos hl, Option.some.injEq, Entry.mk.injEq]
    exact iff_of_false (fun hc => hc.2 hc.1.1.symm) fun hc => hc.2 hl
  · rw [if_neg hl]
    exact (and_iff_left hl).symm

/-! ### Path elements -/

/-- The names of a path, in order; no more than `fuel` of them. -/
def elems : Nat → List Byte → List Name
  | 0, _ => []
  | fuel + 1, path =>
    match skipelem path with
    | none => []
    | some (s, rest) => name s :: elems fuel rest

/-- The path after an element is shorter. -/
theorem length_skipelem (h : skipelem path = some (s, rest)) :
    rest.length < path.length := by
  rw [skipelem] at h
  simp only at h
  split at h
  · cases h
  · rename_i hc
    rw [Option.some.injEq, Prod.mk.injEq] at h
    rw [← h.2]
    have h1 := (dropWhile_sublist (· = slash) (l := path)).length_le
    cases hs : path.dropWhile (· = slash) with
    | nil => exact absurd (by rw [hs]; rfl) hc
    | cons c s =>
      rw [hs] at hc h1
      have hne : c ≠ slash := fun he => by
        have := List.head?_dropWhile_not (· = slash) path
        rw [hs] at this
        simp [he] at this
      have h2 : 0 < ((c :: s).takeWhile fun c => decide (c ≠ slash ∧ c ≠ 0)).length := by
        rw [takeWhile_cons, if_pos (decide_eq_true ⟨hne, hc⟩)]
        exact Nat.succ_pos _
      have h3 := (dropWhile_sublist (· = slash)
        (l := (c :: s).drop ((c :: s).takeWhile fun c => decide (c ≠ slash ∧ c ≠ 0)).length)).length_le
      rw [length_drop] at h3
      have h4 : 0 < (c :: s).length := Nat.succ_pos _
      omega

/-- The path after an element does not begin with a slash: it is empty or has elements. -/
theorem char_skipelem (h : skipelem path = some (s, rest)) :
    char rest = 0 ↔ skipelem rest = none := by
  rw [skipelem] at h
  simp only at h
  split at h
  · cases h
  · rw [Option.some.injEq, Prod.mk.injEq] at h
    have hd : rest.dropWhile (· = slash) = rest := by
      rw [← h.2, dropWhile_idempotent]
    rw [skipelem, hd]
    simp only
    split
    · rename_i hc
      exact iff_of_true hc rfl
    · rename_i hc
      exact iff_of_false hc fun h => by cases h

end Xv6.Fs
