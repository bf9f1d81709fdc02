import Mathlib.Data.Nat.Find
import Mathlib.Data.Nat.Log
import Mathlib.Order.WellFounded
import LightClient.Chain
/-!
# The locator

A locator lists the tip, then the blocks below it one by one, and then every block about twice as far below the tip as
the one before, down to the genesis block. How far below the tip they lie does not depend on the chain (`depth`), only
how many of them there are (`exists_rounds`). The distances at most double from one to the next (`depth_succ_le`), so
whatever block we share with a peer, the locator lists one that is at most twice as deep (`exists_near`).
-/
namespace LightClient
namespace Chain

/-! ## Depths -/

/-- The step to the next block once so many are listed. -/
def stride (listed : Nat) : Nat := 2 ^ (listed + 1 - denseEntries)

/-- How far below the tip the block lies that is listed after so many others. -/
def depth : Nat → Nat
  | 0 => 0
  | listed + 1 => depth listed + stride (listed + 1)

theorem stride_pos (listed : Nat) : 0 < stride listed := Nat.two_pow_pos _

theorem stride_succ (listed : Nat) :
    stride (listed + 1) = if denseEntries ≤ listed + 1 then stride listed * 2 else stride listed := by
  unfold stride
  split
  · rename_i hsparse
    rw [← Nat.pow_succ, Nat.succ_eq_add_one, Nat.sub_add_comm hsparse]
  · rename_i hdense
    rw [Nat.sub_eq_zero_of_le (by omega), Nat.sub_eq_zero_of_le (by omega)]

theorem strictMono_depth : StrictMono depth :=
  strictMono_nat_of_lt_succ fun listed => Nat.lt_add_of_pos_right (stride_pos (listed + 1))

theorem depth_of_dense {listed : Nat} (h : listed < denseEntries) : depth listed = listed := by
  induction listed with
  | zero => rfl
  | succ listed ih =>
    have hone : stride (listed + 1) = 1 := by
      rw [stride, Nat.sub_eq_zero_of_le (by omega), Nat.pow_zero]
    rw [depth, ih (by omega), hone]

/-- Behind the blocks that are listed one by one, the distances to a point a little above the tip double. -/
theorem depth_of_sparse (more : Nat) : depth (more + 9) = 2 ^ (more + 1) + 7 := by
  induction more with
  | zero => rfl
  | succ more ih =>
    have hstride : stride (more + 9 + 1) = 2 ^ (more + 1) := rfl
    rw [Nat.add_right_comm, depth, ih, hstride, Nat.pow_succ 2 (more + 1)]
    omega

/-- **The next block is at most twice as deep**, and two more. -/
theorem depth_succ_le (listed : Nat) : depth (listed + 1) ≤ 2 * depth listed + 2 := by
  rcases Nat.lt_or_ge listed 9 with hdense | hsparse
  · rw [depth_of_dense (show listed + 1 < denseEntries from Nat.succ_lt_succ hdense),
      depth_of_dense (Nat.lt_of_lt_of_le hdense (by decide))]
    omega
  · obtain ⟨more, rfl⟩ := Nat.exists_eq_add_of_le' hsparse
    rw [Nat.add_right_comm, depth_of_sparse, depth_of_sparse, Nat.pow_succ 2 (more + 1)]
    omega

/-! ## Rounds -/

theorem locatorHeights_of_reached {top listed : Nat} (h : top ≤ depth listed) :
    locatorHeights (top - depth listed) (stride listed) listed = [0] := by
  rw [Nat.sub_eq_zero_of_le h, locatorHeights]

/-- One round: the block is listed, and the next one is the next depth below the tip. -/
theorem locatorHeights_of_above {top listed : Nat} (h : depth listed < top) :
    locatorHeights (top - depth listed) (stride listed) listed =
      (top - depth listed) :: locatorHeights (top - depth (listed + 1)) (stride (listed + 1)) (listed + 1) := by
  obtain ⟨height, hheight⟩ : ∃ height, top - depth listed = height + 1 := ⟨top - depth listed - 1, by omega⟩
  have hpos := stride_pos (listed + 1)
  have hnext : height - (stride (listed + 1) - 1) = top - depth (listed + 1) := by
    rw [depth]
    omega
  rw [hheight, locatorHeights, ← stride_succ, hnext]

/-- It takes so many more rounds to get down to the genesis block. -/
structure Remaining (top listed rounds : Nat) : Prop where
  above {i : Nat} : i < rounds → depth (listed + i) < top
  reached : top ≤ depth (listed + rounds)

theorem Remaining.none {top listed : Nat} (h : top ≤ depth listed) : Remaining top listed 0 :=
  ⟨fun hi => absurd hi (Nat.not_lt_zero _), h⟩

theorem Remaining.succ {top listed rounds : Nat} (habove : depth listed < top)
    (h : Remaining top (listed + 1) rounds) : Remaining top listed (rounds + 1) where
  above {i} hi := by
    cases i with
    | zero => exact habove
    | succ i =>
      rw [Nat.add_comm i, ← Nat.add_assoc]
      exact h.above (Nat.lt_of_succ_lt_succ hi)
  reached := by
    rw [Nat.add_comm rounds, ← Nat.add_assoc]
    exact h.reached

/-- **The rounds that are left** once some blocks are listed: one for each depth that does not reach the genesis
block. -/
theorem exists_remaining (top : Nat) : ∀ (fuel listed : Nat), top ≤ depth (listed + fuel) →
    ∃ rounds, Remaining top listed rounds ∧
      locatorHeights (top - depth listed) (stride listed) listed =
        (List.range rounds).map (fun i => top - depth (listed + i)) ++ [0]
  | 0, listed, h => ⟨0, .none h, locatorHeights_of_reached h⟩
  | fuel + 1, listed, h => by
    rcases Nat.lt_or_ge (depth listed) top with habove | hreached
    · rw [Nat.add_comm fuel, ← Nat.add_assoc] at h
      obtain ⟨rounds, hrounds, hlist⟩ := exists_remaining top fuel (listed + 1) h
      have hshift (i : Nat) : listed + 1 + i = listed + (i + 1) := by omega
      refine ⟨rounds + 1, hrounds.succ habove, ?_⟩
      rw [locatorHeights_of_above habove, hlist, List.range_succ_eq_map, List.map_cons, List.map_map]
      simp only [hshift]
      rfl
    · exact ⟨0, .none hreached, locatorHeights_of_reached hreached⟩

/-! ## Heights -/

/-- The heights of the blocks that are listed in so many rounds, and that of the genesis block. -/
def listedHeights (top rounds : Nat) : List Nat := (List.range rounds).map (fun i => top - depth i) ++ [0]

theorem mem_listedHeights {top rounds height : Nat} :
    height ∈ listedHeights top rounds ↔ (∃ i < rounds, top - depth i = height) ∨ height = 0 := by
  rw [listedHeights, List.mem_append, List.mem_singleton, List.mem_map]
  simp only [List.mem_range]

theorem le_of_mem_listedHeights {top rounds height : Nat} (h : height ∈ listedHeights top rounds) : height ≤ top := by
  obtain ⟨i, -, rfl⟩ | rfl := mem_listedHeights.1 h
  · exact Nat.sub_le _ _
  · exact Nat.zero_le _

/-- **What a locator lists.** -/
theorem exists_rounds (top : Nat) :
    ∃ rounds, Remaining top 0 rounds ∧ locatorHeights top 1 0 = listedHeights top rounds := by
  have hfuel : top ≤ depth (0 + top) := by
    rw [Nat.zero_add]
    exact StrictMono.le_apply strictMono_depth
  obtain ⟨rounds, hrounds, hlist⟩ := exists_remaining top top 0 hfuel
  simp only [Nat.zero_add] at hlist
  exact ⟨rounds, hrounds, hlist⟩

namespace Remaining

variable {top rounds : Nat} (h : Remaining top 0 rounds)
include h

theorem depth_lt {i : Nat} (hi : i < rounds) : depth i < top := Nat.zero_add i ▸ h.above hi

theorem le_depth : top ≤ depth rounds := Nat.zero_add rounds ▸ h.reached

theorem pairwise_listedHeights : (listedHeights top rounds).Pairwise (· > ·) := by
  rw [listedHeights, List.pairwise_append, List.pairwise_map]
  refine ⟨?_, List.pairwise_singleton _ _, fun height hheight genesis hgenesis => ?_⟩
  · refine List.pairwise_lt_range.imp_of_mem fun {i j} _ hj hij => ?_
    have hdeeper := strictMono_depth hij
    have hshallow := h.depth_lt (List.mem_range.1 hj)
    omega
  · obtain ⟨i, hi, rfl⟩ := List.mem_map.1 hheight
    rw [List.mem_singleton.1 hgenesis]
    exact Nat.sub_pos_of_lt (h.depth_lt (List.mem_range.1 hi))

theorem head?_listedHeights : (listedHeights top rounds).head? = some top := by
  cases rounds with
  | zero => exact congrArg some (Nat.le_zero.1 h.le_depth).symm
  | succ rounds =>
    rw [listedHeights, List.range_succ_eq_map]
    rfl

/-- Ten blocks, or all of them, are listed one by one. -/
theorem getElem?_listedHeights {i : Nat} (hdense : i < denseEntries) (hi : i ≤ top) :
    (listedHeights top rounds)[i]? = some (top - i) := by
  rw [listedHeights]
  rcases Nat.lt_or_ge i rounds with hlt | hge
  · rw [List.getElem?_append_left (by simpa using hlt), List.getElem?_map, List.getElem?_range hlt, Option.map_some,
      depth_of_dense hdense]
  · -- the rounds end among the first ten, so that the genesis block is the next one after them
    have hend := h.le_depth
    rw [depth_of_dense (Nat.lt_of_le_of_lt hge hdense)] at hend
    have hall : i = rounds := by omega
    rw [List.getElem?_append_right (by simpa using hge), List.length_map, List.length_range, hall, Nat.sub_self,
      List.getElem?_cons_zero, Nat.sub_eq_zero_of_le hend]

/-- A chain whose length doubles takes one more entry. -/
theorem length_listedHeights_le : (listedHeights top rounds).length ≤ 11 + Nat.log 2 (top + 1) := by
  rw [listedHeights, List.length_append, List.length_map, List.length_range, List.length_singleton]
  rcases Nat.lt_or_ge rounds 11 with hfew | hmany
  · omega
  · obtain ⟨more, rfl⟩ := Nat.exists_eq_add_of_le' (show 10 ≤ rounds by omega)
    have hlast := h.depth_lt (show more + 9 < more + 10 by omega)
    rw [depth_of_sparse] at hlast
    have hlog : more + 1 ≤ Nat.log 2 (top + 1) := Nat.le_log_of_pow_le Nat.one_lt_two (by omega)
    omega

/-- **Near every height there is one that is listed**: the next one below it is at most twice as deep. -/
theorem exists_near {shared : Nat} (hshared : shared ≤ top) :
    ∃ height ∈ listedHeights top rounds, height ≤ shared ∧
      (∀ height' ∈ listedHeights top rounds, height' ≤ shared → height' ≤ height) ∧
      top - height ≤ 2 * (top - shared) := by
  have hend := h.le_depth
  -- the first depth that is at least that of the shared block
  have hreach : ∃ k, top - shared ≤ depth k := ⟨rounds, by omega⟩
  obtain ⟨k, hk, hleast⟩ : ∃ k, top - shared ≤ depth k ∧ ∀ j < k, depth j < top - shared :=
    ⟨Nat.find hreach, Nat.find_spec hreach, fun j hj => Nat.lt_of_not_le (Nat.find_min hreach hj)⟩
  have hleast' {j : Nat} (hj : top - shared ≤ depth j) : k ≤ j :=
    Nat.le_of_not_lt fun hlt => Nat.not_le_of_lt (hleast j hlt) hj
  have hnear : depth k ≤ 2 * (top - shared) := by
    cases k with
    | zero => exact Nat.zero_le _
    | succ k =>
      have hbelow := hleast k (Nat.lt_succ_self k)
      have hstep := depth_succ_le k
      omega
  refine ⟨top - depth k, ?_, by omega, fun height hmem hle => ?_, by omega⟩
  · rcases Nat.lt_or_ge k rounds with hlt | hge
    · exact mem_listedHeights.2 (Or.inl ⟨k, hlt, rfl⟩)
    · have hlast : k = rounds := Nat.le_antisymm (hleast' (by omega)) hge
      exact mem_listedHeights.2 (Or.inr (Nat.sub_eq_zero_of_le (hlast ▸ hend)))
  · obtain ⟨j, hj, rfl⟩ | rfl := mem_listedHeights.1 hmem
    · have hshallow := h.depth_lt hj
      have hdeeper := strictMono_depth.monotone (hleast' (j := j) (by omega))
      omega
    · exact Nat.zero_le _

end Remaining

/-! ## Hashes -/

/-- A list of heights of the main chain stands for as many blocks. -/
theorem map_some_filterMap_hashAt? {c : Chain} {heights : List Nat} (h : ∀ height ∈ heights, height < c.main.length) :
    (heights.filterMap c.hashAt?).map some = heights.map c.hashAt? := by
  induction heights with
  | nil => rfl
  | cons height heights ih =>
    obtain ⟨hash, hget⟩ : ∃ hash, c.hashAt? height = some hash :=
      ⟨_, List.getElem?_eq_getElem (h height List.mem_cons_self)⟩
    rw [List.filterMap_cons_some hget, List.map_cons, ih fun x hx => h x (List.mem_cons_of_mem _ hx), List.map_cons,
      hget]

/-- **The locator** of a main chain lists blocks of it at ever lower heights, from the tip to the genesis block: the
first ten, or all, one by one, and at most one more for every doubling of the length. Whatever height we share with a
peer, the highest one listed that is not above it is at most twice as far below the tip. -/
theorem locator_near (c : Chain) (h : c.main ≠ []) :
    ∃ heights : List Nat, c.locator.map some = heights.map c.hashAt? ∧ heights.Pairwise (· > ·) ∧
      heights.head? = some c.height ∧ c.hashAt? c.height = c.main.getLast? ∧
      heights.getLast? = some 0 ∧ c.hashAt? 0 = c.main.head? ∧
      heights.take (min 10 c.main.length) = (List.range (min 10 c.main.length)).map (c.height - ·) ∧
      heights.length ≤ 11 + Nat.log 2 c.main.length ∧
      ∀ shared ≤ c.height, ∃ height ∈ heights, height ≤ shared ∧
        (∀ height' ∈ heights, height' ≤ shared → height' ≤ height) ∧
        c.height - height ≤ 2 * (c.height - shared) := by
  have hheight : c.height + 1 = c.main.length := Nat.sub_add_cancel (List.length_pos_iff.2 h)
  obtain ⟨rounds, hrounds, hlist⟩ := exists_rounds c.height
  have hlocator : c.locator = (listedHeights c.height rounds).filterMap c.hashAt? := by
    rw [locator, if_neg (by simpa using h), hlist]
  have hmain (height : Nat) (hmem : height ∈ listedHeights c.height rounds) : height < c.main.length := by
    have := le_of_mem_listedHeights hmem
    omega
  have hdense : (listedHeights c.height rounds).take (min 10 c.main.length) =
      (List.range (min 10 c.main.length)).map (c.height - ·) := by
    refine List.ext_getElem? fun i => ?_
    rw [List.getElem?_take, List.getElem?_map]
    split
    · rename_i hi
      rw [List.getElem?_range hi, Option.map_some]
      exact hrounds.getElem?_listedHeights (show i < 10 by omega) (by omega)
    · rename_i hi
      rw [List.getElem?_eq_none (by rw [List.length_range]; omega), Option.map_none]
  refine ⟨listedHeights c.height rounds, ?_, hrounds.pairwise_listedHeights, hrounds.head?_listedHeights,
    List.getLast?_eq_getElem?.symm, List.getLast?_concat, List.head?_eq_getElem?.symm, hdense, ?_,
    fun shared hshared => hrounds.exists_near hshared⟩
  · rw [hlocator, map_some_filterMap_hashAt? hmain]
  · rw [← hheight]
    exact hrounds.length_listedHeights_le

end Chain

namespace Sample

/-- A main chain of thirty-one blocks. -/
def longChain : Chain where
  headers := ∅
  main := (List.range 31).map fun i => ⟨List.replicate 32 (UInt8.ofNat i), List.length_replicate⟩
  blockTxids := ∅
  confirmed := ∅
  unconfirmed := ∅
  watched := []
  isClosed := false

end Sample

open Sample in
/-- The locator has fifteen entries at most. If the block ten below the tip is shared, then one of them is at or below
that block and at most twice as deep. -/
theorem Chain.locator_near_longChain :
    longChain.main ≠ [] ∧ ∃ heights : List Nat, longChain.locator.map some = heights.map longChain.hashAt? ∧
      heights.take 10 = [30, 29, 28, 27, 26, 25, 24, 23, 22, 21] ∧ heights.getLast? = some 0 ∧ heights.length ≤ 15 ∧
      ∃ height ∈ heights, 10 ≤ height ∧ height ≤ 20 := by
  have hmain : longChain.main ≠ [] := by decide
  have htop : longChain.height = 30 := rfl
  have hlog : Nat.log 2 longChain.main.length = 4 := Nat.log_eq_of_pow_le_of_lt_pow (by decide) (by decide)
  obtain ⟨heights, hlocator, -, -, -, hlast, -, hdense, hfew, hnear⟩ := locator_near longChain hmain
  obtain ⟨height, hmem, hle, -, hclose⟩ := hnear 20 (by decide)
  rw [hlog] at hfew
  exact ⟨hmain, heights, hlocator, hdense, hlast, hfew, height, hmem, by omega, hle⟩

end LightClient
