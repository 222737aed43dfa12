import Xv6.Lib.Leaves
import Xv6.Fs.Exec
import Xv6.Fs.Names

/-! References to cached inodes, counted.

`Hold b s T` counts the references of every entry of the inode cache: `b` are those held
outside the call that runs, and `T` lists those it holds itself. No assumption on the
disk is made: what a call reads there may send it down any of its paths, and on all of
them its references come out even. -/
namespace Xv6.Fs
open Lib

variable (sb : Superblock)

/-! ### What most of the code leaves alone -/

/-- The count and the name of each entry of the inode cache. -/
def tags (s : State) (ip : Ptr) : Nat × Nat × Nat :=
  ((s.icache ip).ref, (s.icache ip).dev, (s.icache ip).inum)

theorem tags_upd (h : ∀ i, ((g i).ref, (g i).dev, (g i).inum) = (i.ref, i.dev, i.inum)) :
    tags (s.upd ip g) = tags s := by
  funext q
  by_cases hq : q = ip
  · rw [hq, tags, State.upd_self]
    exact h _
  · rw [tags, State.upd_other s ip g hq]
    rfl

theorem leaves_panic {α : Type} (p : Panic) : Leaves tags (panic p : M α) := Leaves.throw _

theorem leaves_inode (ip : Ptr) : Leaves tags (inode ip) := fun _ => Runs.bind_get (Runs.pure rfl)

theorem leaves_setInode (h : ∀ i, ((g i).ref, (g i).dev, (g i).inum) = (i.ref, i.dev, i.inum)) :
    Leaves tags (setInode ip g) :=
  Leaves.modify fun _ => tags_upd h

theorem leaves_setDinode (ip : Ptr) (g : Dinode → Dinode) : Leaves tags (setDinode ip g) :=
  leaves_setInode fun _ => rfl

theorem leaves_store (b : Nat) (f : Block → Block) : Leaves tags (store b f) :=
  Leaves.modify fun _ => rfl

theorem leaves_bread (dev b : Nat) : Leaves tags (bread dev b) :=
  Leaves.bind_get fun _ =>
    Leaves.ite (fun _ => leaves_panic _) fun _ => Leaves.ite (fun _ => leaves_panic _) fun _ => Leaves.pure _

theorem leaves_log_write (b : Nat) : Leaves tags (log_write sb b) :=
  Leaves.bind_get fun _ =>
    Leaves.ite (fun _ => leaves_panic _) fun _ =>
      Leaves.ite (fun _ => leaves_panic _) fun _ => Leaves.modify fun _ => rfl

theorem leaves_begin_op : Leaves tags begin_op :=
  Leaves.bind_get fun _ => Leaves.ite (fun _ => Leaves.throw _) fun _ => Leaves.modify fun _ => rfl

theorem leaves_end_op : Leaves tags end_op := Leaves.modify fun _ => rfl

/-! ### Blocks -/

theorem leaves_bzero (dev b : Nat) : Leaves tags (bzero sb dev b) :=
  (leaves_bread dev b).bind fun _ => (leaves_store b _).bind fun _ => leaves_log_write sb b

theorem leaves_balloc_from (dev : Nat) (bs : List Nat) : Leaves tags (balloc_from sb dev bs) := by
  induction bs with
  | nil => exact leaves_panic _
  | cons b rest ih =>
    refine Leaves.ite (fun _ => (leaves_bread dev _).bind fun bp => ?_) fun _ => leaves_panic _
    cases freeBit sb bp b BPB 0 with
    | none => exact ih
    | some bi =>
      exact (leaves_store _ _).bind fun _ => (leaves_log_write sb _).bind fun _ =>
        (leaves_bzero sb dev _).bind fun _ => Leaves.pure _

theorem leaves_balloc (dev : Nat) : Leaves tags (balloc sb dev) := leaves_balloc_from sb dev _

theorem leaves_bfree (dev b : Nat) : Leaves tags (bfree sb dev b) :=
  (leaves_bread dev _).bind fun _ => Leaves.ite (fun _ => leaves_panic _) fun _ =>
    (leaves_store _ _).bind fun _ => leaves_log_write sb _

/-! ### Inodes -/

theorem leaves_iupdate (ip : Ptr) : Leaves tags (iupdate sb ip) :=
  (leaves_inode ip).bind fun _ => (leaves_bread _ _).bind fun _ =>
    (leaves_store _ _).bind fun _ => leaves_log_write sb _

theorem leaves_acquiresleep (ip : Ptr) : Leaves tags (acquiresleep ip) :=
  (leaves_inode ip).bind fun _ =>
    Leaves.ite (fun _ => Leaves.throw _) fun _ => leaves_setInode fun _ => rfl

theorem leaves_releasesleep (ip : Ptr) : Leaves tags (releasesleep ip) := leaves_setInode fun _ => rfl

theorem leaves_ilock (ip : Ptr) : Leaves tags (ilock sb ip) := by
  refine (leaves_inode ip).bind fun _ => Leaves.ite (fun _ => leaves_panic _) fun _ => ?_
  refine (leaves_acquiresleep ip).bind fun _ => Leaves.ite (fun _ => ?_) fun _ => Leaves.pure _
  refine (leaves_bread _ _).bind fun _ => Leaves.bind (leaves_setInode fun _ => ?_) fun _ => ?_
  · rfl
  · exact Leaves.ite (fun _ => leaves_panic _) fun _ => Leaves.pure _

theorem leaves_iunlock (ip : Ptr) : Leaves tags (iunlock ip) :=
  (leaves_inode ip).bind fun _ =>
    Leaves.ite (fun _ => leaves_panic _) fun _ => leaves_releasesleep ip

/-- An address that is there, or a block allocated for it and recorded by `x`. -/
private theorem leaves_address [Decidable c] (dev : Nat) (x : Nat → M Unit) (a : Nat)
    (hx : ∀ b, Leaves tags (x b)) :
    Leaves tags (if c then do let b ← balloc sb dev; x b; pure b else pure a) :=
  Leaves.ite (fun _ => (leaves_balloc sb dev).bind fun b => (hx b).bind fun _ => Leaves.pure _)
    fun _ => Leaves.pure _

theorem leaves_bmap (ip : Ptr) (bn : Nat) : Leaves tags (bmap sb ip bn) := by
  refine (leaves_inode ip).bind fun i => ?_
  by_cases h : bn < NDIRECT
  · rw [dif_pos h]
    exact leaves_address sb i.dev _ _ fun b => leaves_setDinode ip _
  rw [dif_neg h]
  refine Leaves.ite (fun _ => ?_) fun _ => leaves_panic _
  refine (leaves_address sb i.dev _ _ fun b => leaves_setDinode ip _).bind fun addr => ?_
  refine (leaves_bread _ _).bind fun bp => Leaves.ite (fun _ => ?_) fun _ => Leaves.pure _
  exact (leaves_balloc sb _).bind fun b => (leaves_store _ _).bind fun _ =>
    (leaves_log_write sb _).bind fun _ => Leaves.pure _

theorem leaves_itrunc (ip : Ptr) : Leaves tags (itrunc sb ip) := by
  have hdirect : Leaves tags (itrunc_direct sb ip) := Leaves.forM fun k =>
    (leaves_inode ip).bind fun i => Leaves.ite
      (fun _ => (leaves_bfree sb _ _).bind fun _ => leaves_setDinode ip _) fun _ => Leaves.pure _
  have hentries : ∀ dev addr, Leaves tags (itrunc_entries sb dev addr) := fun dev addr =>
    Leaves.forM fun j => Leaves.bind_get fun s =>
      Leaves.ite (fun _ => leaves_bfree sb _ _) fun _ => Leaves.pure _
  refine hdirect.bind fun _ => (leaves_inode ip).bind fun i => ?_
  refine Leaves.bind (Leaves.ite (fun _ => ?_) fun _ => Leaves.pure _) fun _ =>
    (leaves_setDinode ip _).bind fun _ => leaves_iupdate sb ip
  exact (leaves_bread _ _).bind fun _ => (hentries _ _).bind fun _ =>
    (leaves_bfree sb _ _).bind fun _ => leaves_setDinode ip _

/-! ### Contents -/

theorem leaves_conswait (target n : Nat) : Leaves tags (conswait target n) := by
  induction n with
  | zero => exact Leaves.pure _
  | succ n ih =>
    intro s
    refine Runs.bind_get ?_
    match hc : s.console with
    | [] => exact Runs.throw trivial
    | none :: rest => exact Runs.bind_ok rfl (Runs.pure rfl)
    | some c :: rest =>
      refine Runs.ite (fun _ => Runs.bind_ok rfl (Runs.pure ?_)) fun _ => Runs.bind_ok rfl ?_
      · by_cases h : n + 1 < target
        · rw [if_pos h]
        · rw [if_neg h]
          rfl
      · refine Runs.ite (fun _ => Runs.pure rfl) fun _ => ?_
        exact (ih {s with console := rest}).bind fun _ _ h => Runs.pure h

theorem leaves_consoleread (ip : Ptr) (n : Nat) : Leaves tags (consoleread sb ip n) :=
  (leaves_iunlock ip).bind fun _ => (leaves_conswait n n).bind fun _ =>
    (leaves_ilock sb ip).bind fun _ => Leaves.pure _

theorem leaves_consolewrite (ip : Ptr) (src : List Byte) : Leaves tags (consolewrite sb ip src) :=
  (leaves_iunlock ip).bind fun _ => (leaves_ilock sb ip).bind fun _ => Leaves.pure _

theorem leaves_readi_from (ip : Ptr) (fuel off n : Nat) : Leaves tags (readi_from sb ip fuel off n) := by
  induction fuel generalizing off n with
  | zero => exact Leaves.pure _
  | succ fuel ih =>
    refine Leaves.ite (fun _ => Leaves.pure _) fun _ => (leaves_inode ip).bind fun i => ?_
    exact (leaves_bmap sb ip _).bind fun b => (leaves_bread _ _).bind fun bp =>
      (ih _ _).bind fun _ => Leaves.pure _

theorem leaves_readi (ip : Ptr) (off n : Nat) : Leaves tags (readi sb ip off n) := by
  refine (leaves_inode ip).bind fun i => Leaves.ite (fun _ => ?_) fun _ => ?_
  · exact Leaves.ite (fun _ => leaves_consoleread sb ip n) fun _ => Leaves.pure _
  · exact Leaves.ite (fun _ => Leaves.pure _) fun _ =>
      (leaves_readi_from sb ip _ _ _).bind fun _ => Leaves.pure _

theorem leaves_writei_from (ip : Ptr) (fuel off : Nat) (src : List Byte) :
    Leaves tags (writei_from sb ip fuel off src) := by
  induction fuel generalizing off src with
  | zero => exact Leaves.pure _
  | succ fuel ih =>
    refine Leaves.ite (fun _ => Leaves.pure _) fun _ => (leaves_inode ip).bind fun i => ?_
    exact (leaves_bmap sb ip _).bind fun b => (leaves_bread _ _).bind fun _ =>
      (leaves_store _ _).bind fun _ => (leaves_log_write sb _).bind fun _ => ih _ _

theorem leaves_writei (ip : Ptr) (src : List Byte) (off : Nat) : Leaves tags (writei sb ip src off) := by
  refine (leaves_inode ip).bind fun i => Leaves.ite (fun _ => ?_) fun _ => ?_
  · exact Leaves.ite (fun _ => leaves_consolewrite sb ip src) fun _ => Leaves.pure _
  refine Leaves.ite (fun _ => Leaves.pure _) fun _ => Leaves.ite (fun _ => Leaves.pure _) fun _ => ?_
  refine (leaves_writei_from sb ip _ _ _).bind fun off => (leaves_inode ip).bind fun i => ?_
  refine Leaves.bind (Leaves.ite (fun _ => ?_) fun _ => Leaves.pure _) fun _ => Leaves.pure _
  exact (leaves_setDinode ip _).bind fun _ => leaves_iupdate sb ip

/-! ### Directories and programs -/

theorem leaves_readDirent (dp : Ptr) (off : Nat) (p : Panic) : Leaves tags (readDirent sb dp off p) := by
  refine (leaves_readi sb dp off DIRENT).bind fun r => ?_
  cases r with
  | none => exact leaves_panic p
  | some de => exact Leaves.ite (fun _ => leaves_panic p) fun _ => Leaves.pure _

theorem leaves_emptyDirent (dp : Ptr) (fuel off : Nat) : Leaves tags (emptyDirent sb dp fuel off) := by
  induction fuel generalizing off with
  | zero => exact Leaves.pure _
  | succ fuel ih =>
    refine (leaves_inode dp).bind fun i => Leaves.ite (fun _ => Leaves.pure _) fun _ => ?_
    exact (leaves_readDirent sb dp off _).bind fun de => Leaves.ite (fun _ => Leaves.pure _) fun _ => ih _

theorem leaves_isdirempty (dp : Ptr) : Leaves tags (isdirempty sb dp) := by
  have hfrom : ∀ fuel off, Leaves tags (isdirempty_from sb dp fuel off) := by
    intro fuel
    induction fuel with
    | zero => exact fun _ => Leaves.pure _
    | succ fuel ih =>
      intro off
      refine (leaves_inode dp).bind fun i => Leaves.ite (fun _ => Leaves.pure _) fun _ => ?_
      exact (leaves_readDirent sb dp off _).bind fun de => Leaves.ite (fun _ => Leaves.pure _) fun _ => ih _
  exact (leaves_inode dp).bind fun i => hfrom _ _

theorem leaves_loaduvm (ip : Ptr) (offset sz : Nat) : Leaves tags (loaduvm sb ip offset sz) := by
  have hfrom : ∀ fuel i, Leaves tags (loaduvm_from sb ip offset sz fuel i) := by
    intro fuel
    induction fuel with
    | zero => exact fun _ => Leaves.pure _
    | succ fuel ih =>
      intro i
      refine Leaves.ite (fun _ => (leaves_readi sb ip _ _).bind fun r => ?_) fun _ => Leaves.pure _
      exact Leaves.ite (fun _ => Leaves.pure _) fun _ => ih _
  exact hfrom _ _

theorem leaves_exec_from (ip : Ptr) (m : Memory) (n i off sz : Nat) :
    Leaves tags (exec_from sb ip m n i off sz) := by
  induction n generalizing i off sz with
  | zero => exact Leaves.pure _
  | succ n ih =>
    refine (leaves_readi sb ip off PROGHDR).bind fun r => ?_
    cases r with
    | none => exact Leaves.pure _
    | some ph =>
      refine Leaves.ite (fun _ => Leaves.pure _) fun _ => Leaves.ite (fun _ => ih _ _ _) fun _ => ?_
      refine Leaves.ite (fun _ => Leaves.pure _) fun _ => Leaves.ite (fun _ => Leaves.pure _) fun _ => ?_
      refine Leaves.ite (fun _ => Leaves.pure _) fun _ => Leaves.ite (fun _ => Leaves.pure _) fun _ => ?_
      exact (leaves_loaduvm sb ip _ _).bind fun loaded =>
        Leaves.ite (fun _ => Leaves.pure _) fun _ => ih _ _ _

theorem leaves_exec_stack (m : Memory) (sz : Nat) : Leaves tags (exec_stack m sz) :=
  Leaves.ite (fun _ => Leaves.pure _) fun _ => Leaves.ite (fun _ => Leaves.pure _) fun _ => Leaves.pure _

/-! ### References held -/

/-- The references of the inode cache are the ones `b` counts and those of the list `T`, and
no inode is in the cache twice. -/
structure Hold (b : Ptr → Nat) (s : State) (T : List Ptr) : Prop where
  ref : ∀ ip, (s.icache ip).ref = b ip + T.count ip
  one : ∀ ip q, 0 < (s.icache ip).ref → 0 < (s.icache q).ref → (s.icache ip).dev = (s.icache q).dev →
    (s.icache ip).inum = (s.icache q).inum → ip = q

variable {b : Ptr → Nat} {s s' : State} {T : List Ptr}

theorem Hold.move (h : Hold b s T)
    (hb : ∀ ip, b ip + T.count ip = b' ip + T'.count ip) : Hold b' s T' :=
  ⟨fun ip => (h.ref ip).trans (hb ip), h.one⟩

/-- The names stay, of the entries in use, and the counts are those of `T'`. -/
theorem Hold.recount (h : Hold b s T)
    (hname : ∀ q, 0 < (s'.icache q).ref → 0 < (s.icache q).ref ∧ (s'.icache q).dev = (s.icache q).dev ∧
      (s'.icache q).inum = (s.icache q).inum)
    (href : ∀ q, (s'.icache q).ref = b q + T'.count q) : Hold b s' T' := by
  refine ⟨href, fun ip q hp hq hd hi => ?_⟩
  obtain ⟨hp, hpd, hpi⟩ := hname ip hp
  obtain ⟨hq, hqd, hqi⟩ := hname q hq
  rw [hpd, hqd] at hd
  rw [hpi, hqi] at hi
  exact h.one ip q hp hq hd hi

theorem Hold.of_tags (h : Hold b s T) (ht : tags s' = tags s) : Hold b s' T := by
  have heq : ∀ ip, (s'.icache ip).ref = (s.icache ip).ref ∧ (s'.icache ip).dev = (s.icache ip).dev ∧
      (s'.icache ip).inum = (s.icache ip).inum := by
    intro ip
    have := congrFun ht ip
    simp only [tags, Prod.mk.injEq] at this
    exact this
  exact h.recount (fun q hq => ⟨(heq q).1 ▸ hq, (heq q).2⟩) fun q => (heq q).1.trans (h.ref q)

theorem Hold.leaves {α : Type} {x : M α} (h : Hold b s T) (hx : Leaves tags x) :
    Runs x s (fun _ s' => Hold b s' T) fun _ => True :=
  (hx s).post fun _ _ ht => h.of_tags ht

theorem Hold.swap (h : Hold b s (ip :: dp :: T)) : Hold b s (dp :: ip :: T) :=
  h.move fun q => by rw [(List.Perm.swap ip dp T).count_eq q]

theorem Hold.upd (h : Hold b s T) (hr : 0 < (s.icache ip).ref)
    (hn : n = b ip + T'.count ip) (hT : ∀ q, q ≠ ip → T'.count q = T.count q) :
    Hold b (s.upd ip fun i => {i with ref := n}) T' := by
  refine h.recount (fun q hq => ?_) fun q => ?_
  all_goals
    by_cases hqi : q = ip
    · subst hqi
      rw [State.upd_self]
      first | exact ⟨hr, rfl, rfl⟩ | exact hn
    · rw [State.upd_other s ip _ hqi] at *
      first | exact ⟨hq, rfl, rfl⟩ | rw [hT q hqi, h.ref q]

theorem Hold.raise (h : Hold b s T) (hr : 0 < (s.icache ip).ref) :
    Hold b (s.upd ip fun i => {i with ref := i.ref + 1}) (ip :: T) := by
  refine h.upd (n := (s.icache ip).ref + 1) hr ?_ fun q hq => List.count_cons_of_ne (Ne.symm hq)
  rw [List.count_cons_self, h.ref ip]
  omega

theorem Hold.lower (h : Hold b s (ip :: T)) :
    Hold b (s.upd ip fun i => {i with ref := i.ref - 1}) T := by
  have hr := h.ref ip
  rw [List.count_cons_self] at hr
  refine h.upd (n := (s.icache ip).ref - 1) (by omega) (by omega) fun q hq => ?_
  rw [List.count_cons_of_ne (Ne.symm hq)]

/-- A free entry taken for an inode that is not in the cache. -/
theorem Hold.recycle (h : Hold b s T) (hr : (s.icache ip).ref = 0)
    (hnew : ∀ q, 0 < (s.icache q).ref → (s.icache q).dev = dev → (s.icache q).inum ≠ inum) :
    Hold b (s.upd ip fun i => {i with dev := dev, inum := inum, ref := 1, valid := false}) (ip :: T) := by
  have hzero : b ip + T.count ip = 0 := by rw [← h.ref ip, hr]
  refine ⟨fun q => ?_, fun q r hq hr' hd hi => ?_⟩
  · by_cases hqi : q = ip
    · subst hqi
      rw [State.upd_self, List.count_cons_self]
      show 1 = _
      omega
    · rw [State.upd_other s ip _ hqi, List.count_cons_of_ne (Ne.symm hqi)]
      exact h.ref q
  · by_cases hqi : q = ip
    · by_cases hri : r = ip
      · rw [hqi, hri]
      · subst hqi
        rw [State.upd_other s q _ hri] at hr' hd hi
        rw [State.upd_self] at hd hi
        exact absurd hi.symm (hnew r hr' hd.symm)
    · rw [State.upd_other s ip _ hqi] at hq hd hi
      by_cases hri : r = ip
      · subst hri
        rw [State.upd_self] at hd hi
        exact absurd hi (hnew q hq hd)
      · rw [State.upd_other s ip _ hri] at hr' hd hi
        exact h.one q r hq hr' hd hi

/-! ### Getting and putting references -/

theorem Hold.iget (h : Hold b s T) (dev inum : Nat) :
    Runs (iget dev inum) s (fun ip s' => Hold b s' (ip :: T)) fun _ => True := by
  refine Runs.bind_get ?_
  match hf : (List.finRange NINODE).find? fun ip =>
      0 < (s.icache ip).ref && (s.icache ip).dev == dev && (s.icache ip).inum == inum with
  | some ip =>
    have hr := List.find?_some hf
    simp only [Bool.and_eq_true, decide_eq_true_eq] at hr
    exact bind_setInode (Runs.pure (h.raise hr.1.1))
  | none =>
    match hz : (List.finRange NINODE).find? fun ip => (s.icache ip).ref == 0 with
    | none => exact Runs.throw trivial
    | some ip =>
      have hr := List.find?_some hz
      refine bind_setInode (Runs.pure (h.recycle (beq_iff_eq.mp hr) fun q hq hd hi => ?_))
      have := List.find?_eq_none.mp hf q (List.mem_finRange q)
      simp only [Bool.and_eq_true, decide_eq_true_eq, beq_iff_eq, not_and] at this
      exact this ⟨hq, hd⟩ hi

theorem Hold.idup (h : Hold b s T) (hr : 0 < b ip) :
    Runs (idup ip) s (fun r s' => r = ip ∧ Hold b s' (ip :: T)) fun _ => True :=
  bind_setInode (Runs.pure ⟨rfl, h.raise (by rw [h.ref ip]; omega)⟩)

theorem Hold.iput (h : Hold b s (ip :: T)) :
    Runs (iput sb ip) s (fun _ s' => Hold b s' T) fun _ => True := by
  refine (h.leaves (leaves_acquiresleep ip)).bind fun _ s₁ h₁ => bind_inode ?_
  have hfree : Leaves tags (do
      itrunc sb ip
      setDinode ip fun d => {d with type := 0}
      iupdate sb ip
      setInode ip fun i => {i with valid := false}) :=
    (leaves_itrunc sb ip).bind fun _ => (leaves_setDinode ip _).bind fun _ =>
      (leaves_iupdate sb ip).bind fun _ => leaves_setInode fun _ => rfl
  refine (h₁.leaves (Leaves.ite (fun _ => hfree) fun _ => Leaves.pure _)).bind fun _ s₂ h₂ => ?_
  refine (h₂.leaves (leaves_releasesleep ip)).bind fun _ s₃ h₃ => ?_
  exact Runs.modify h₃.lower

theorem Hold.iunlockput (h : Hold b s (ip :: T)) :
    Runs (iunlockput sb ip) s (fun _ s' => Hold b s' T) fun _ => True :=
  (h.leaves (leaves_iunlock ip)).bind fun _ _ h => h.iput sb

theorem Hold.ialloc (h : Hold b s T) (dev : Nat) (type : BitVec 16) :
    Runs (ialloc sb dev type) s (fun ip s' => Hold b s' (ip :: T)) fun _ => True := by
  rw [Fs.ialloc]
  generalize List.range' 1 (sb.ninodes - 1) = l
  induction l generalizing s with
  | nil => exact Runs.throw trivial
  | cons inum rest ih =>
    refine (h.leaves (leaves_bread dev _)).bind fun bp s₁ h₁ => Runs.ite (fun _ => ?_) fun _ => ih h₁
    refine (h₁.leaves (leaves_store _ _)).bind fun _ s₂ h₂ => ?_
    exact (h₂.leaves (leaves_log_write sb _)).bind fun _ s₃ h₃ => h₃.iget dev inum

/-! ### Lookups -/

/-- The references after a lookup: one more for what was found. -/
def Found (b : Ptr → Nat) (T : List Ptr) {α : Type} (r : Option (Ptr × α)) (s : State) : Prop :=
  match r with
  | none => Hold b s T
  | some (ip, _) => Hold b s (ip :: T)

theorem Hold.dirlookup (h : Hold b s T) (dp : Ptr) (name : List Byte) :
    Runs (dirlookup sb dp name) s (fun r s' => Found b T r s') fun _ => True := by
  have hfrom : ∀ fuel off s, Hold b s T →
      Runs (dirlookup_from sb dp name fuel off) s (fun r s' => Found b T r s') fun _ => True := by
    intro fuel
    induction fuel with
    | zero => exact fun _ _ h => Runs.pure h
    | succ fuel ih =>
      intro off s h
      refine bind_inode (Runs.ite (fun _ => Runs.pure h) fun _ => ?_)
      refine (h.leaves (leaves_readDirent sb dp off _)).bind fun de s₁ h₁ => ?_
      refine Runs.ite (fun _ => ih _ _ h₁) fun _ => Runs.ite (fun _ => ?_) fun _ => ih _ _ h₁
      exact (h₁.iget _ _).bind fun ip s₂ h₂ => Runs.pure h₂
  exact bind_inode (Runs.ite (fun _ => Runs.throw trivial) fun _ => hfrom _ _ _ h)

theorem Hold.namex_from (parent : Bool) (name : List Byte)
    (h : Hold b s (ip :: T)) (hf : path.length < fuel) :
    Runs (namex_from sb parent fuel ip path name) s (fun r s' => Found b T r s') fun _ => True := by
  induction fuel generalizing s ip path name with
  | zero => exact absurd hf (Nat.not_lt_zero _)
  | succ fuel ih =>
    rw [Fs.namex_from]
    cases hs : skipelem path with
    | none => exact Runs.ite (fun _ => (h.iput sb).bind fun _ _ h => Runs.pure h) fun _ => Runs.pure h
    | some e =>
      obtain ⟨elem, rest⟩ := e
      have hrest : rest.length < fuel := Nat.lt_of_lt_of_le (length_skipelem hs) (Nat.le_of_lt_succ hf)
      refine (h.leaves (leaves_ilock sb ip)).bind fun _ s₁ h₁ => bind_inode (Runs.ite (fun _ => ?_) fun _ => ?_)
      · exact (h₁.iunlockput sb).bind fun _ _ h => Runs.pure h
      refine Runs.ite (fun _ => ?_) fun _ => ?_
      · exact (h₁.leaves (leaves_iunlock ip)).bind fun _ _ h => Runs.pure h
      refine (h₁.dirlookup sb ip elem).bind fun r s₂ h₂ => ?_
      match r with
      | none => exact (Hold.iunlockput sb h₂).bind fun _ _ h => Runs.pure h
      | some (next, _) =>
        exact ((Hold.swap h₂).iunlockput sb).bind fun _ _ h => ih elem h hrest

theorem Hold.namex (h : Hold b s T) (hcwd : 0 < b cwd) (path : List Byte) (parent : Bool) :
    Runs (namex sb cwd path parent) s (fun r s' => Found b T r s') fun _ => True := by
  have hstart : Runs (if char path = slash then Fs.iget ROOTDEV ROOTINO else Fs.idup cwd) s
      (fun ip s' => Hold b s' (ip :: T)) fun _ => True :=
    Runs.ite (fun _ => h.iget _ _) fun _ => (h.idup hcwd).post fun _ _ hr => by
      rw [hr.1]
      exact hr.2
  exact hstart.bind fun ip s₁ h₁ => h₁.namex_from sb parent [] (Nat.lt_succ_self _)

theorem Hold.nameiparent (h : Hold b s T) (hcwd : 0 < b cwd) (path : List Byte) :
    Runs (nameiparent sb cwd path) s (fun r s' => Found b T r s') fun _ => True :=
  h.namex sb hcwd path true

/-- The references after `namei` or `create`: one more for the inode it answers. -/
abbrev Gained (b : Ptr → Nat) (T : List Ptr) (r : Option Ptr) (s : State) : Prop :=
  Hold b s (r.toList ++ T)

theorem Hold.namei (h : Hold b s T) (hcwd : 0 < b cwd) (path : List Byte) :
    Runs (namei sb cwd path) s (fun r s' => Gained b T r s') fun _ => True := by
  refine (h.namex sb hcwd path false).bind fun r s₁ h₁ => Runs.pure ?_
  match r with
  | none => exact h₁
  | some (ip, _) => exact h₁

theorem Hold.dirlink (h : Hold b s T) (name : List Byte) (inum : Nat) :
    Runs (dirlink sb dp name inum) s (fun _ s' => Hold b s' T) fun _ => True := by
  refine (h.dirlookup sb dp name).bind fun r s₁ h₁ => ?_
  match r with
  | some (ip, _) => exact (Hold.iput sb h₁).bind fun _ _ h => Runs.pure h
  | none =>
    refine bind_inode ((Hold.leaves h₁ (leaves_emptyDirent sb dp _ _)).bind fun off s₂ h₂ => ?_)
    refine (h₂.leaves (leaves_writei sb dp _ off)).bind fun r s₃ h₃ => ?_
    exact Runs.ite (fun _ => Runs.throw trivial) fun _ => Runs.pure h₃

/-! ### System calls -/

private theorem leaves_set_update (ip : Ptr) (g : Dinode → Dinode) :
    Leaves tags (do setDinode ip g; iupdate sb ip) :=
  (leaves_setDinode ip g).bind fun _ => leaves_iupdate sb ip

theorem Hold.end_with {α : Type} (h : Hold b s T) (a : α) :
    Runs (do end_op; pure a : M α) s (fun _ s' => Hold b s' T) fun _ => True :=
  (h.leaves leaves_end_op).bind fun _ _ h => Runs.pure h

theorem Hold.iunlockput_end {α : Type} {ip : Ptr} (h : Hold b s (ip :: T)) (a : α) :
    Runs (do Fs.iunlockput sb ip; end_op; pure a : M α) s (fun _ s' => Hold b s' T) fun _ => True :=
  (h.iunlockput sb).bind fun _ _ h => h.end_with a

theorem Hold.link_bad (h : Hold b s (ip :: T)) :
    Runs (link_bad sb ip) s (fun _ s' => Hold b s' T) fun _ => True := by
  refine (h.leaves (leaves_ilock sb ip)).bind fun _ s₁ h₁ => ?_
  refine (h₁.leaves (leaves_setDinode ip _)).bind fun _ s₂ h₂ => ?_
  exact (h₂.leaves (leaves_iupdate sb ip)).bind fun _ s₃ h₃ => h₃.iunlockput_end sb _

theorem Hold.sys_link (h : Hold b s T) (hcwd : 0 < b cwd) (args : Option (List Byte × List Byte)) :
    Runs (sys_link sb cwd args) s (fun _ s' => Hold b s' T) fun _ => True := by
  match args with
  | none => exact Runs.pure h
  | some (old, new) =>
    refine (h.leaves leaves_begin_op).bind fun _ s₁ h₁ => (h₁.namei sb hcwd old).bind fun r s₂ h₂ => ?_
    match r with
    | none => exact Hold.end_with h₂ _
    | some ip =>
      refine (Hold.leaves h₂ (leaves_ilock sb ip)).bind fun _ s₃ h₃ => bind_inode ?_
      refine Runs.ite (fun _ => h₃.iunlockput_end sb _) fun _ => ?_
      refine (h₃.leaves (leaves_setDinode ip _)).bind fun _ s₄ h₄ => ?_
      refine (h₄.leaves (leaves_iupdate sb ip)).bind fun _ s₅ h₅ => ?_
      refine (h₅.leaves (leaves_iunlock ip)).bind fun _ s₆ h₆ => ?_
      refine (h₆.nameiparent sb hcwd new).bind fun r s₇ h₇ => ?_
      match r with
      | none => exact Hold.link_bad sb h₇
      | some (dp, name) =>
        refine (Hold.leaves h₇ (leaves_ilock sb dp)).bind fun _ s₈ h₈ => bind_inode (bind_inode ?_)
        have hlink : Runs (if (s₈.icache dp).dev ≠ (s₈.icache ip).dev then pure (-1)
            else Fs.dirlink sb dp name (s₈.icache ip).inum) s₈ (fun _ s' => Hold b s' (dp :: ip :: T))
            fun _ => True := Runs.ite (fun _ => Runs.pure h₈) fun _ => h₈.dirlink sb name _
        refine hlink.bind fun r s₉ h₉ => Runs.ite (fun _ => ?_) fun _ => ?_
        · exact (h₉.iunlockput sb).bind fun _ _ h => h.link_bad sb
        · exact (h₉.iunlockput sb).bind fun _ _ h => (h.iput sb).bind fun _ _ h => h.end_with _

theorem Hold.sys_unlink (h : Hold b s T) (hcwd : 0 < b cwd) (path : Option (List Byte)) :
    Runs (sys_unlink sb cwd path) s (fun _ s' => Hold b s' T) fun _ => True := by
  match path with
  | none => exact Runs.pure h
  | some path =>
    refine (h.leaves leaves_begin_op).bind fun _ s₁ h₁ => (h₁.nameiparent sb hcwd path).bind fun r s₂ h₂ => ?_
    match r with
    | none => exact Hold.end_with h₂ _
    | some (dp, name) =>
      refine (Hold.leaves h₂ (leaves_ilock sb dp)).bind fun _ s₃ h₃ => ?_
      refine Runs.ite (fun _ => h₃.iunlockput_end sb _) fun _ => ?_
      refine (h₃.dirlookup sb dp name).bind fun r s₄ h₄ => ?_
      match r with
      | none => exact Hold.iunlockput_end sb h₄ _
      | some (ip, off) =>
        refine (Hold.leaves h₄ (leaves_ilock sb ip)).bind fun _ s₅ h₅ => bind_inode ?_
        refine Runs.ite (fun _ => Runs.throw trivial) fun _ => ?_
        refine (h₅.leaves (Leaves.ite (fun _ => leaves_isdirempty sb ip) fun _ => Leaves.pure _)).bind
          fun empty s₆ h₆ => Runs.ite (fun _ => ?_) fun _ => ?_
        · exact (h₆.iunlockput sb).bind fun _ _ h => h.iunlockput_end sb _
        refine (h₆.leaves (leaves_writei sb dp _ off)).bind fun r s₇ h₇ => ?_
        refine Runs.ite (fun _ => Runs.throw trivial) fun _ => ?_
        refine (h₇.leaves (Leaves.ite (fun _ => leaves_set_update sb dp _) fun _ => Leaves.pure _)).bind
          fun _ s₈ h₈ => ?_
        refine (h₈.swap.iunlockput sb).bind fun _ s₉ h₉ => ?_
        refine (h₉.leaves (leaves_setDinode ip _)).bind fun _ s₁₀ h₁₀ => ?_
        exact (h₁₀.leaves (leaves_iupdate sb ip)).bind fun _ _ h => h.iunlockput_end sb _

private theorem Hold.dots (h : Hold b s T) (type : BitVec 16) (i d : Nat) :
    Runs (if type = T_DIR then do
        setDinode dp fun d => {d with nlink := d.nlink + 1}
        iupdate sb dp
        let r ← Fs.dirlink sb ip dot i
        if r < 0 then panic .createDots
        else do
          let r ← Fs.dirlink sb ip dotdot d
          if r < 0 then panic .createDots else pure ()
      else pure () : M Unit) s (fun _ s' => Hold b s' T) fun _ => True := by
  refine Runs.ite (fun _ => ?_) fun _ => Runs.pure h
  refine (h.leaves (leaves_setDinode dp _)).bind fun _ s₁ h₁ => ?_
  refine (h₁.leaves (leaves_iupdate sb dp)).bind fun _ s₂ h₂ => (h₂.dirlink sb dot i).bind fun r s₃ h₃ => ?_
  refine Runs.ite (fun _ => Runs.throw trivial) fun _ => (h₃.dirlink sb dotdot d).bind fun r s₄ h₄ => ?_
  exact Runs.ite (fun _ => Runs.throw trivial) fun _ => Runs.pure h₄

theorem Hold.create (h : Hold b s T) (hcwd : 0 < b cwd) (path : List Byte)
    (type major minor : BitVec 16) :
    Runs (create sb cwd path type major minor) s (fun r s' => Gained b T r s') fun _ => True := by
  refine (h.nameiparent sb hcwd path).bind fun r s₁ h₁ => ?_
  match r with
  | none => exact Runs.pure h₁
  | some (dp, name) =>
    refine (Hold.leaves h₁ (leaves_ilock sb dp)).bind fun _ s₂ h₂ => (h₂.dirlookup sb dp name).bind fun r s₃ h₃ => ?_
    match r with
    | some (ip, _) =>
      refine ((Hold.swap h₃).iunlockput sb).bind fun _ s₄ h₄ => ?_
      refine (h₄.leaves (leaves_ilock sb ip)).bind fun _ s₅ h₅ => bind_inode ?_
      refine Runs.ite (fun _ => Runs.pure h₅) fun _ => ?_
      exact (h₅.iunlockput sb).bind fun _ _ h => Runs.pure h
    | none =>
      refine bind_inode ((Hold.ialloc sb h₃ _ type).bind fun ip s₄ h₄ => ?_)
      refine (h₄.leaves (leaves_ilock sb ip)).bind fun _ s₅ h₅ => ?_
      refine (h₅.leaves (leaves_setDinode ip _)).bind fun _ s₆ h₆ => ?_
      refine (h₆.leaves (leaves_iupdate sb ip)).bind fun _ s₇ h₇ => bind_inode ?_
      refine (h₇.dots sb type _ _).bind fun _ s₈ h₈ => (h₈.dirlink sb name _).bind fun r s₉ h₉ => ?_
      refine Runs.ite (fun _ => Runs.throw trivial) fun _ => ?_
      exact (h₉.swap.iunlockput sb).bind fun _ _ h => Runs.pure h

theorem Hold.mknode (h : Hold b s T) (hcwd : 0 < b cwd) (path : List Byte)
    (type major minor : BitVec 16) :
    Runs (mknode sb cwd path type major minor) s (fun _ s' => Hold b s' T) fun _ => True := by
  refine (h.create sb hcwd path type major minor).bind fun r s₁ h₁ => ?_
  match r with
  | none => exact Hold.end_with h₁ _
  | some ip => exact Hold.iunlockput_end sb h₁ _

theorem Hold.sys_mkdir (h : Hold b s T) (hcwd : 0 < b cwd) (path : Option (List Byte)) :
    Runs (sys_mkdir sb cwd path) s (fun _ s' => Hold b s' T) fun _ => True := by
  refine (h.leaves leaves_begin_op).bind fun _ s₁ h₁ => ?_
  match path with
  | none => exact h₁.end_with _
  | some path => exact h₁.mknode sb hcwd path _ _ _

theorem Hold.sys_mknod (h : Hold b s T) (hcwd : 0 < b cwd)
    (args : Option (List Byte × BitVec 32 × BitVec 32)) :
    Runs (sys_mknod sb cwd args) s (fun _ s' => Hold b s' T) fun _ => True := by
  refine (h.leaves leaves_begin_op).bind fun _ s₁ h₁ => ?_
  match args with
  | none => exact h₁.end_with _
  | some (path, _, _) => exact h₁.mknode sb hcwd path _ _ _

theorem Hold.exec_load (h : Hold b s (ip :: T)) (m : Memory) :
    Runs (exec_load sb ip m) s (fun _ s' => Hold b s' T) fun _ => True := by
  refine (h.leaves (leaves_readi sb ip 0 _)).bind fun r s₁ h₁ => ?_
  match r with
  | none => exact h₁.iunlockput_end sb _
  | some elf =>
    refine Runs.ite (fun _ => h₁.iunlockput_end sb _) fun _ => ?_
    refine Runs.ite (fun _ => h₁.iunlockput_end sb _) fun _ => ?_
    refine Runs.ite (fun _ => h₁.iunlockput_end sb _) fun _ => ?_
    refine (h₁.leaves (leaves_exec_from sb ip m _ _ _ _)).bind fun r s₂ h₂ => ?_
    match r with
    | none => exact h₂.iunlockput_end sb _
    | some sz =>
      refine (h₂.iunlockput sb).bind fun _ s₃ h₃ => ?_
      exact (h₃.leaves leaves_end_op).bind fun _ _ h => h.leaves (leaves_exec_stack m _)

theorem Hold.sys_exec (h : Hold b s T) (hcwd : 0 < b cwd) (m : Memory) (path : Option (List Byte)) :
    Runs (sys_exec sb cwd m path) s (fun _ s' => Hold b s' T) fun _ => True := by
  match path with
  | none => exact Runs.pure h
  | some path =>
    refine (h.leaves leaves_begin_op).bind fun _ s₁ h₁ => (h₁.namei sb hcwd path).bind fun r s₂ h₂ => ?_
    match r with
    | none => exact Hold.end_with h₂ _
    | some ip => exact (Hold.leaves h₂ (leaves_ilock sb ip)).bind fun _ s₃ h₃ => h₃.exec_load sb m

end Xv6.Fs
