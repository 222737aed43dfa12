import Mathlib.Data.List.Pairwise
import Mathlib.Data.List.Perm.Basic
import Xv6.Umalloc.Heap

/-! Blocks of memory, and the units that they are made of.

A list of blocks tiles another one when both are made of the same units. When the units of one are apart from each
other, so are those of the other, and the blocks are disjoint. -/
namespace Xv6.Umalloc
open Lib List

structure Block where
  addr : Nat
  size : Nat

namespace Block

/-- The address after the block. -/
def stop (b : Block) : Nat := b.addr + b.size * HEADER

/-- The addresses of the units. -/
def units (b : Block) : List Nat := (List.range b.size).map fun i => b.addr + i * HEADER

def Disjoint (b c : Block) : Prop := b.stop ≤ c.addr ∨ c.stop ≤ b.addr

/-- Two blocks, one after the other, as one. -/
def join (b c : Block) : Block := ⟨b.addr, b.size + c.size⟩

variable {b c : Block} {x : Nat}

theorem mem_units : x ∈ b.units ↔ ∃ i < b.size, b.addr + i * HEADER = x := by
  simp only [units, mem_map, mem_range]

theorem addr_le_stop (b : Block) : b.addr ≤ b.stop := Nat.le_add_right ..

theorem stop_join (h : b.stop = c.addr) : (b.join c).stop = c.stop := by
  simp only [stop, join, HEADER] at h ⊢
  omega

theorem units_join (h : b.stop = c.addr) : (b.join c).units = b.units ++ c.units := by
  rw [units, units, units, join, range_add, map_append, map_map]
  congr 1
  refine map_congr_left fun i _ => ?_
  rw [stop] at h
  simp only [Function.comp_apply, HEADER] at h ⊢
  omega

theorem Disjoint.symm (h : b.Disjoint c) : c.Disjoint b := Or.symm h

end Block

/-- Two units do not overlap. -/
def Away (x y : Nat) : Prop := x + HEADER ≤ y ∨ y + HEADER ≤ x

/-- The units of the blocks. -/
def units (bs : List Block) : List Nat := bs.flatMap Block.units

/-- The two lists are made of the same units. -/
def Tiles (bs cs : List Block) : Prop := (units bs).Perm (units cs)

variable {b : Block} {bs cs : List Block}

theorem units_cons (b : Block) (bs : List Block) : units (b :: bs) = b.units ++ units bs := flatMap_cons

theorem units_append (bs cs : List Block) : units (bs ++ cs) = units bs ++ units cs := flatMap_append

theorem Tiles.perm (h : Tiles bs cs) (hp : ds.Perm bs) : Tiles ds cs := (hp.flatMap_right _).trans h

theorem away_units (b : Block) : b.units.Pairwise Away := by
  rw [Block.units, pairwise_map]
  refine pairwise_lt_range.imp fun {i j} hij => .inl ?_
  simp only [HEADER]
  omega

theorem away_of_above (h : bs.Pairwise fun b c => c.stop ≤ b.addr) : (units bs).Pairwise Away := by
  refine pairwise_flatMap.mpr ⟨fun b _ => away_units b, h.imp fun {b c} hbc x hx y hy => .inr ?_⟩
  obtain ⟨i, hi, rfl⟩ := Block.mem_units.mp hx
  obtain ⟨j, hj, rfl⟩ := Block.mem_units.mp hy
  simp only [Block.stop, HEADER] at hbc ⊢
  omega

theorem Tiles.away (h : Tiles bs cs) (hcs : (units cs).Pairwise Away) : (units bs).Pairwise Away :=
  (List.Perm.pairwise_iff (fun hxy => Or.symm hxy) h).mpr hcs

/-- Blocks whose units are apart are disjoint. -/
theorem disjoint_of_away (h : (units bs).Pairwise Away) (hpos : ∀ b ∈ bs, 0 < b.size) : bs.Pairwise
    Block.Disjoint := by
  refine (pairwise_flatMap.mp h).2.imp_of_mem fun {b c} hb hc hbc => ?_
  by_contra hoverlap
  obtain ⟨hlt, hlt'⟩ := not_or.mp hoverlap
  have hb' := hpos b hb
  have hc' := hpos c hc
  simp only [Block.stop, HEADER] at hlt hlt'
  -- The first unit of the block that starts later is inside the other block.
  rcases Nat.le_total b.addr c.addr with hle | hle
  · have haway := hbc (b.addr + (c.addr - b.addr) / HEADER * HEADER)
      (Block.mem_units.mpr ⟨_, by simp only [HEADER]; omega, rfl⟩) c.addr (Block.mem_units.mpr ⟨0, hc', by simp⟩)
    simp only [Away, HEADER] at haway
    omega
  · have haway := hbc b.addr (Block.mem_units.mpr ⟨0, hb', by simp⟩) (c.addr + (b.addr - c.addr) / HEADER * HEADER)
      (Block.mem_units.mpr ⟨_, by simp only [HEADER]; omega, rfl⟩)
    simp only [Away, HEADER] at haway
    omega

theorem Tiles.bounds (h : Tiles bs cs) (hcs : ∀ c ∈ cs, lo ≤ c.addr ∧ c.stop ≤ hi) (hb : b ∈ bs)
    (hpos : 0 < b.size) : lo ≤ b.addr ∧ b.stop ≤ hi := by
  have hunit : ∀ i < b.size, lo ≤ b.addr + i * HEADER ∧ b.addr + i * HEADER + HEADER ≤ hi := by
    intro i hi
    have hmem : b.addr + i * HEADER ∈ units cs :=
      h.subset (mem_flatMap.mpr ⟨b, hb, Block.mem_units.mpr ⟨i, hi, rfl⟩⟩)
    obtain ⟨c, hc, hx⟩ := mem_flatMap.mp hmem
    obtain ⟨j, hj, hx⟩ := Block.mem_units.mp hx
    have hbounds := hcs c hc
    rw [← hx]
    simp only [Block.stop, HEADER] at hbounds ⊢
    omega
  have hfirst := hunit 0 hpos
  have hlast := hunit (b.size - 1) (by omega)
  simp only [Block.stop, HEADER] at hfirst hlast ⊢
  omega

end Xv6.Umalloc
