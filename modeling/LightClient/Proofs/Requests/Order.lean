import Mathlib.Data.List.Chain
import Mathlib.Data.List.Nodup
import Mathlib.Data.List.Perm.Subperm
import LightClient.Proofs.Requests.Bookkeeping
/-!
# The order in which a round hands over its blocks

The arrived blocks of a round form a forest if each has a depth, one more than its parent's if the parent arrived, too.
Then `ordered` lists every arrived block exactly once (`ordered_perm`). Where the blocks can be put in a line, each on
top of the one before, it lists them in that line (`ordered_of_line`).
-/
namespace LightClient
namespace Requests

/-! ## Forests -/

section Forest

variable {arrived : List (Digest × Arrival)} {depth : Digest → Nat}

/-- The depth of an arrived block is one more than its parent's, or zero if the parent did not arrive. -/
def IsDepth (arrived : List (Digest × Arrival)) (depth : Digest → Nat) : Prop :=
  ∀ a ∈ arrived, depth a.1 =
    if a.2.block.previous ∈ arrived.map Prod.fst then depth a.2.block.previous + 1 else 0

instance : Decidable (IsDepth arrived depth) :=
  inferInstanceAs (Decidable (∀ a ∈ arrived, depth a.1 =
    if a.2.block.previous ∈ arrived.map Prod.fst then depth a.2.block.previous + 1 else 0))

/-- A block lies so many generations above another one. -/
inductive Descends (arrived : List (Digest × Arrival)) : Nat → Digest × Arrival → Digest × Arrival → Prop where
  | refl {a} : a ∈ arrived → Descends arrived 0 a a
  | child {k a c x} : a ∈ arrived → c ∈ arrived → c.2.block.previous = a.1 → Descends arrived k c x →
      Descends arrived (k + 1) a x

theorem Descends.mem_left {k : Nat} {a x : Digest × Arrival} (h : Descends arrived k a x) : a ∈ arrived := by
  cases h <;> assumption

theorem Descends.mem_right {k : Nat} {a x : Digest × Arrival} (h : Descends arrived k a x) : x ∈ arrived := by
  induction h with
  | refl ha => exact ha
  | child _ _ _ _ ih => exact ih

/-- A descent may also be taken apart at its lower end. -/
theorem Descends.parent {k : Nat} {a x : Digest × Arrival} (h : Descends arrived (k + 1) a x) :
    ∃ p, Descends arrived k a p ∧ x.2.block.previous = p.1 := by
  induction k generalizing a with
  | zero =>
    cases h with
    | child ha hc hprev hx =>
      cases hx
      exact ⟨a, .refl ha, hprev⟩
  | succ k ih =>
    cases h with
    | child ha hc hprev hx =>
      obtain ⟨p, hp, hxp⟩ := ih hx
      exact ⟨p, .child ha hc hprev hp, hxp⟩

theorem Descends.snoc {k : Nat} {a p x : Digest × Arrival} (h : Descends arrived k a p) (hx : x ∈ arrived)
    (hprev : x.2.block.previous = p.1) : Descends arrived (k + 1) a x := by
  induction h with
  | refl ha => exact .child ha hx hprev (.refl hx)
  | child ha hc hca _ ih => exact .child ha hc hca (ih hprev)

theorem eq_of_key_eq (hkeys : (arrived.map Prod.fst).Nodup) {a b : Digest × Arrival} (ha : a ∈ arrived)
    (hb : b ∈ arrived) (h : a.1 = b.1) : a = b :=
  List.inj_on_of_nodup_map hkeys ha hb h

/-- The ancestor of a block at a distance is unique. -/
theorem Descends.unique (hkeys : (arrived.map Prod.fst).Nodup) {k : Nat} {a b x y : Digest × Arrival}
    (ha : Descends arrived k a x) (hb : Descends arrived k b y) (hxy : x = y) : a = b := by
  induction k generalizing x y with
  | zero =>
    cases ha
    cases hb
    exact hxy
  | succ k ih =>
    obtain ⟨p, hp, hxp⟩ := ha.parent
    obtain ⟨q, hq, hyq⟩ := hb.parent
    refine ih hp hq (eq_of_key_eq hkeys hp.mem_right hq.mem_right ?_)
    rw [← hxp, ← hyq, hxy]

theorem IsDepth.of_parent (hd : IsDepth arrived depth) {a x : Digest × Arrival} (ha : a ∈ arrived)
    (hx : x ∈ arrived) (hprev : x.2.block.previous = a.1) : depth x.1 = depth a.1 + 1 := by
  rw [hd x hx, if_pos (by rw [hprev]; exact List.mem_map_of_mem ha), hprev]

theorem Descends.depth_eq (hd : IsDepth arrived depth) {k : Nat} {a x : Digest × Arrival}
    (h : Descends arrived k a x) : depth x.1 = depth a.1 + k := by
  induction h with
  | refl _ => rfl
  | child ha hc hprev _ ih =>
    rw [ih, hd.of_parent ha hc hprev]
    omega

/-- **Every block lies above one whose parent did not arrive.** -/
theorem exists_root (hd : IsDepth arrived depth) (n : Nat) {x : Digest × Arrival} (hx : x ∈ arrived)
    (hn : depth x.1 = n) :
    ∃ a, Descends arrived n a x ∧ a.2.block.previous ∉ arrived.map Prod.fst := by
  induction n generalizing x with
  | zero =>
    refine ⟨x, .refl hx, fun hmem => ?_⟩
    rw [hd x hx, if_pos hmem] at hn
    omega
  | succ n ih =>
    have hdx := hd x hx
    split at hdx
    · rename_i hmem
      obtain ⟨p, hp, hpx⟩ := List.mem_map.1 hmem
      obtain ⟨a, ha, hroot⟩ := ih hp (by rw [hpx]; omega)
      exact ⟨a, ha.snoc hx hpx.symm, hroot⟩
    · omega

/-- The ancestors of a block have all the depths below its own, so there are fewer depths than blocks. -/
theorem depth_lt_length (hd : IsDepth arrived depth) {x : Digest × Arrival} (hx : x ∈ arrived) :
    depth x.1 < arrived.length := by
  have hall : ∀ n y, y ∈ arrived → depth y.1 = n →
      ∀ j ≤ n, j ∈ arrived.map (fun a => depth a.1) := by
    intro n
    induction n with
    | zero =>
      intro y hy hn j hj
      obtain rfl : j = 0 := by omega
      exact List.mem_map.2 ⟨y, hy, hn⟩
    | succ n ih =>
      intro y hy hn j hj
      by_cases hjn : j = n + 1
      · exact List.mem_map.2 ⟨y, hy, by omega⟩
      · have hdy := hd y hy
        split at hdy
        · rename_i hmem
          obtain ⟨p, hp, hpy⟩ := List.mem_map.1 hmem
          exact ih p hp (by rw [hpy]; omega) j (by omega)
        · omega
  -- the depths from zero to that of the block are all taken
  have hsub : List.range (depth x.1 + 1) ⊆ arrived.map (fun a => depth a.1) := fun j hj =>
    hall _ x hx rfl j (by simpa [Nat.lt_succ_iff] using hj)
  have hle := (List.subperm_of_subset List.nodup_range hsub).length_le
  rw [List.length_range, List.length_map] at hle
  omega

/-! ## Families -/

theorem mem_childrenAmong {parent : Digest} {x : Digest × Arrival} :
    x ∈ childrenAmong arrived parent ↔ x ∈ arrived ∧ x.2.block.previous = parent := by
  simp [childrenAmong]

theorem mem_familyAmong (n : Nat) {a x : Digest × Arrival} (ha : a ∈ arrived) :
    x ∈ familyAmong arrived n a ↔ ∃ k < n, Descends arrived k a x := by
  induction n generalizing a with
  | zero => simp [familyAmong]
  | succ n ih =>
    rw [familyAmong, List.mem_cons, List.mem_flatMap]
    constructor
    · rintro (rfl | ⟨c, hc, hx⟩)
      · exact ⟨0, by omega, .refl ha⟩
      · obtain ⟨hc, hprev⟩ := mem_childrenAmong.1 hc
        obtain ⟨k, hk, hx⟩ := (ih hc).1 hx
        exact ⟨k + 1, by omega, .child ha hc hprev hx⟩
    · rintro ⟨k, hk, h⟩
      cases h with
      | refl _ => exact Or.inl rfl
      | child _ hc hprev hx =>
        exact Or.inr ⟨_, mem_childrenAmong.2 ⟨hc, hprev⟩, (ih hc).2 ⟨_, by omega, hx⟩⟩

/-- Families of different blocks of one depth have nothing in common. -/
theorem disjoint_familyAmong (hkeys : (arrived.map Prod.fst).Nodup) (hd : IsDepth arrived depth) (n : Nat)
    {a b : Digest × Arrival} (ha : a ∈ arrived) (hb : b ∈ arrived) (hab : a ≠ b) (hdepth : depth a.1 = depth b.1) :
    (familyAmong arrived n a).Disjoint (familyAmong arrived n b) := by
  intro x hxa hxb
  obtain ⟨j, -, hj⟩ := (mem_familyAmong n ha).1 hxa
  obtain ⟨k, -, hk⟩ := (mem_familyAmong n hb).1 hxb
  have h1 := hj.depth_eq hd
  have h2 := hk.depth_eq hd
  obtain rfl : j = k := by omega
  exact hab (hj.unique hkeys hk rfl)

theorem nodup_flatMap_familyAmong (hkeys : (arrived.map Prod.fst).Nodup) (hd : IsDepth arrived depth) (n : Nat)
    {heads : List (Digest × Arrival)} (hheads : heads.Nodup) (hmem : ∀ a ∈ heads, a ∈ arrived)
    (hone : ∀ a ∈ heads, ∀ b ∈ heads, depth a.1 = depth b.1)
    (hnodup : ∀ a ∈ heads, (familyAmong arrived n a).Nodup) :
    (heads.flatMap (familyAmong arrived n)).Nodup := by
  rw [List.nodup_flatMap]
  refine ⟨hnodup, List.Nodup.pairwise_of_forall_ne hheads ?_⟩
  intro a ha b hb hab
  exact disjoint_familyAmong hkeys hd n (hmem a ha) (hmem b hb) hab (hone a ha b hb)

theorem nodup_familyAmong (hkeys : (arrived.map Prod.fst).Nodup) (hd : IsDepth arrived depth) (n : Nat)
    {a : Digest × Arrival} (ha : a ∈ arrived) : (familyAmong arrived n a).Nodup := by
  induction n generalizing a with
  | zero => exact List.nodup_nil
  | succ n ih =>
    have hchild (c : Digest × Arrival) (hc : c ∈ childrenAmong arrived a.1) :
        c ∈ arrived ∧ depth c.1 = depth a.1 + 1 := by
      obtain ⟨hc, hprev⟩ := mem_childrenAmong.1 hc
      exact ⟨hc, hd.of_parent ha hc hprev⟩
    rw [familyAmong, List.nodup_cons]
    constructor
    · intro hmem
      obtain ⟨c, hc, hac⟩ := List.mem_flatMap.1 hmem
      obtain ⟨k, -, hk⟩ := (mem_familyAmong n (hchild c hc).1).1 hac
      have h1 := hk.depth_eq hd
      have h2 := (hchild c hc).2
      omega
    · refine nodup_flatMap_familyAmong hkeys hd n (hkeys.of_map.filter _) (fun c hc => (hchild c hc).1) ?_
        (fun c hc => ih (hchild c hc).1)
      intro b hb c hc
      rw [(hchild b hb).2, (hchild c hc).2]

def families (arrived : List (Digest × Arrival)) : List (Digest × Arrival) :=
  (arrived.filter fun a => a.2.block.previous ∉ arrived.map Prod.fst).flatMap
    (familyAmong arrived arrived.length)

/-- **The families of a forest are its blocks**, each listed once. -/
theorem families_perm (hkeys : (arrived.map Prod.fst).Nodup) (hd : IsDepth arrived depth) :
    (families arrived).Perm arrived := by
  have hroot (a : Digest × Arrival)
      (ha : a ∈ arrived.filter fun a => a.2.block.previous ∉ arrived.map Prod.fst) :
      a ∈ arrived ∧ a.2.block.previous ∉ arrived.map Prod.fst ∧ depth a.1 = 0 := by
    rw [List.mem_filter, decide_eq_true_eq] at ha
    exact ⟨ha.1, ha.2, by rw [hd a ha.1, if_neg ha.2]⟩
  have hnodup : (families arrived).Nodup := by
    refine nodup_flatMap_familyAmong hkeys hd _ (hkeys.of_map.filter _) (fun a ha => (hroot a ha).1) ?_
      (fun a ha => nodup_familyAmong hkeys hd _ (hroot a ha).1)
    intro a ha b hb
    rw [(hroot a ha).2.2, (hroot b hb).2.2]
  rw [List.perm_ext_iff_of_nodup hnodup hkeys.of_map]
  intro x
  rw [families, List.mem_flatMap]
  constructor
  · rintro ⟨a, ha, hx⟩
    obtain ⟨k, -, hk⟩ := (mem_familyAmong _ (hroot a ha).1).1 hx
    exact hk.mem_right
  · intro hx
    obtain ⟨a, ha, hprev⟩ := exists_root hd _ hx rfl
    exact ⟨a, List.mem_filter.2 ⟨ha.mem_left, by simpa using hprev⟩,
      (mem_familyAmong _ ha.mem_left).2 ⟨_, depth_lt_length hd hx, ha⟩⟩

/-! ## Lines -/

def IsOnTopOf (a b : Digest × Arrival) : Prop := b.2.block.previous = a.1

/-- Along a line that the arrived blocks form, the depth grows. -/
theorem pairwise_depth_of_line (hd : IsDepth arrived depth) {line : List (Digest × Arrival)}
    (hperm : line.Perm arrived) (hline : line.IsChain IsOnTopOf) :
    line.Pairwise fun a b => depth a.1 < depth b.1 := by
  have hchain : line.IsChain fun a b => depth a.1 < depth b.1 := by
    refine List.IsChain.imp_of_mem_imp ?_ hline
    intro a b ha hb hab
    have := hd.of_parent (hperm.mem_iff.1 ha) (hperm.mem_iff.1 hb) hab
    omega
  have : Trans (fun a b : Digest × Arrival => depth a.1 < depth b.1)
      (fun a b : Digest × Arrival => depth a.1 < depth b.1)
      (fun a b : Digest × Arrival => depth a.1 < depth b.1) := ⟨fun h1 h2 => Nat.lt_trans h1 h2⟩
  exact List.isChain_iff_pairwise.1 hchain

/-- In a line, only the next block names a block as its parent. -/
theorem filter_child_of_line (hd : IsDepth arrived depth) {pre post : List (Digest × Arrival)} {a : Digest × Arrival}
    (hperm : (pre ++ a :: post).Perm arrived) (hline : (pre ++ a :: post).IsChain IsOnTopOf) :
    (pre ++ a :: post).filter (fun x => x.2.block.previous = a.1) = post.head?.toList := by
  have hpair := pairwise_depth_of_line hd hperm hline
  rw [List.pairwise_append, List.pairwise_cons] at hpair
  obtain ⟨-, ⟨hafter, hpost⟩, hbefore⟩ := hpair
  have ha : a ∈ arrived := hperm.mem_iff.1 (by simp)
  -- a child is one deeper than its parent, and along the line the depth grows
  have hchild (x : Digest × Arrival) (hx : x ∈ pre ++ a :: post) (hprev : x.2.block.previous = a.1) :
      depth x.1 = depth a.1 + 1 := hd.of_parent ha (hperm.mem_iff.1 hx) hprev
  have hpre : pre.filter (fun x => x.2.block.previous = a.1) = [] := by
    rw [List.filter_eq_nil_iff]
    intro x hx hprev
    have h1 := hchild x (by simp [hx]) (by simpa using hprev)
    have h2 := hbefore x hx a (by simp)
    omega
  have hself : ¬ a.2.block.previous = a.1 := fun hprev => by
    have := hchild a (by simp) hprev
    omega
  rw [List.filter_append, hpre, List.nil_append, List.filter_cons_of_neg (by simpa using hself)]
  cases post with
  | nil => rfl
  | cons b post =>
    have hba : b.2.block.previous = a.1 := by
      have := (List.isChain_append.1 hline).2.1
      rw [List.isChain_cons_cons] at this
      exact this.1
    have hrest : post.filter (fun x => x.2.block.previous = a.1) = [] := by
      rw [List.filter_eq_nil_iff]
      intro x hx hprev
      have h1 := hchild x (by simp [hx]) (by simpa using hprev)
      have h2 := hchild b (by simp) hba
      have h3 := List.rel_of_pairwise_cons hpost hx
      omega
    rw [List.filter_cons_of_pos (by simpa using hba), hrest]
    rfl

theorem childrenAmong_of_line (hd : IsDepth arrived depth) {pre post : List (Digest × Arrival)}
    {a : Digest × Arrival} (hperm : (pre ++ a :: post).Perm arrived) (hline : (pre ++ a :: post).IsChain IsOnTopOf) :
    childrenAmong arrived a.1 = post.head?.toList := by
  have hp : (childrenAmong arrived a.1).Perm post.head?.toList := by
    rw [← filter_child_of_line hd hperm hline]
    exact (hperm.filter _).symm
  cases post with
  | nil => exact hp.eq_nil
  | cons b post => exact hp.eq_singleton

theorem familyAmong_of_line (hd : IsDepth arrived depth) (n : Nat) (pre : List (Digest × Arrival))
    {post : List (Digest × Arrival)} {a : Digest × Arrival} (hperm : (pre ++ a :: post).Perm arrived)
    (hline : (pre ++ a :: post).IsChain IsOnTopOf) (hn : post.length < n) : familyAmong arrived n a = a :: post := by
  induction n generalizing pre a post with
  | zero => omega
  | succ n ih =>
    rw [familyAmong, childrenAmong_of_line hd hperm hline]
    cases post with
    | nil => rfl
    | cons b post =>
      have hb : familyAmong arrived n b = b :: post :=
        ih (pre ++ [a]) (by simpa using hperm) (by simpa using hline) (by simpa using hn)
      simp [hb]

/-- **Blocks that form a line are listed along it.** -/
theorem families_of_line (hd : IsDepth arrived depth) {line : List (Digest × Arrival)} (hperm : line.Perm arrived)
    (hline : line.IsChain IsOnTopOf) : families arrived = line := by
  cases line with
  | nil =>
    rw [hperm.symm.eq_nil]
    rfl
  | cons a rest =>
    have hpair := pairwise_depth_of_line hd hperm hline
    have hmem (x : Digest × Arrival) : x ∈ arrived ↔ x ∈ a :: rest := hperm.mem_iff.symm
    have hhead : a.2.block.previous ∉ arrived.map Prod.fst := by
      intro hprev
      obtain ⟨p, hp, hpa⟩ := List.mem_map.1 hprev
      have h1 := hd.of_parent hp ((hmem a).2 (by simp)) hpa.symm
      rcases List.mem_cons.1 ((hmem p).1 hp) with rfl | hp
      · omega
      · have := List.rel_of_pairwise_cons hpair hp
        omega
    have hrest : rest.filter (fun x => x.2.block.previous ∉ arrived.map Prod.fst) = [] := by
      rw [List.filter_eq_nil_iff]
      intro x hx hprev
      have hxmem : x ∈ arrived := (hmem x).2 (by simp [hx])
      have hdx : depth x.1 = 0 := by
        rw [hd x hxmem, if_neg (by simpa using hprev)]
      have := List.rel_of_pairwise_cons hpair hx
      omega
    have hroots : arrived.filter (fun x => x.2.block.previous ∉ arrived.map Prod.fst) = [a] := by
      have hp := hperm.symm.filter (fun x => x.2.block.previous ∉ arrived.map Prod.fst)
      rw [List.filter_cons_of_pos (by simpa using hhead), hrest] at hp
      exact hp.eq_singleton
    have hfamily := familyAmong_of_line hd arrived.length [] hperm hline
      (by rw [← hperm.length_eq]; simp)
    rw [families, hroots, List.flatMap_cons, List.flatMap_nil, List.append_nil, hfamily]

end Forest

/-! ## The arrived blocks of a round -/

/-- The arrived blocks have depths. -/
def IsForest (r : Requests) : Prop :=
  ∃ depth : Digest → Nat, ∀ hash a, r.blocks.get? hash = some a →
    depth hash = if r.hasBlock a.block.previous then depth a.block.previous + 1 else 0

/-- The arrived blocks can be put in a line, each on top of the one before. -/
def IsLinear (r : Requests) : Prop :=
  ∃ line : List (Digest × Arrival), line.Perm r.arrivals ∧ line.IsChain IsOnTopOf

theorem IsForest.empty : Requests.empty.IsForest := ⟨fun _ => 0, fun hash a h => by simp [Requests.empty] at h⟩

/-- A new block on no arrived block's way down keeps the forest. -/
theorem IsForest.receiveBlock {r : Requests} (hf : r.IsForest) {block : FilteredBlock}
    (hself : block.previous ≠ block.hash)
    (hparent : ∀ hash a, r.blocks.get? hash = some a → a.block.previous ≠ block.hash) (txids : List Digest) :
    (r.receiveBlock block txids).1.IsForest := by
  cases hb : r.isAwaitedBlock block.hash with
  | false =>
    rw [receiveBlock_of_not_awaited hb]
    exact hf
  | true =>
    rw [receiveBlock_of_awaited hb]
    obtain ⟨depth, hdepth⟩ := hf
    have hhas (x : Digest) (hx : x ≠ block.hash) :
        (r.blocks.insert block.hash ⟨block, txids⟩).contains x = r.blocks.contains x := by
      simp [Table.contains_insert, hx]
    refine ⟨fun x => if x = block.hash then (if r.hasBlock block.previous then depth block.previous + 1 else 0)
      else depth x, ?_⟩
    intro hash a ha
    simp only [hasBlock] at hdepth ⊢
    obtain ⟨rfl, rfl⟩ | ⟨hne, ha⟩ := Table.get?_insert_eq_some.1 ha
    · simp only [if_true, hself, if_false, hhas _ hself]
      rfl
    · simp only [hne, if_false, hparent hash a ha, hhas _ (hparent hash a ha)]
      exact hdepth hash a ha

theorem arrivals_keys (r : Requests) : r.arrivals.map Prod.fst = r.requested.filter r.hasBlock := by
  unfold arrivals hasBlock
  induction r.requested with
  | nil => rfl
  | cons hash rest ih =>
    rw [List.filterMap_cons, List.filter_cons, Table.contains]
    cases r.blocks.get? hash with
    | none => simpa using ih
    | some a => simpa using ih

theorem get?_of_mem_arrivals {r : Requests} {x : Digest × Arrival} (hx : x ∈ r.arrivals) :
    r.blocks.get? x.1 = some x.2 := by
  unfold arrivals at hx
  obtain ⟨hash, -, hx⟩ := List.mem_filterMap.1 hx
  obtain ⟨a, ha, rfl⟩ := Option.map_eq_some_iff.1 hx
  exact ha

theorem get?_of_mem_ordered {r : Requests} {x : Digest × Arrival} (hx : x ∈ r.ordered) :
    r.blocks.get? x.1 = some x.2 := by
  simp only [ordered] at hx
  obtain ⟨root, hroot, hx⟩ := List.mem_flatMap.1 hx
  obtain ⟨k, -, hdescends⟩ := (mem_familyAmong _ (List.mem_filter.1 hroot).1).1 hx
  exact get?_of_mem_arrivals hdescends.mem_right

section Consistent

variable {r : Requests} (h : r.Consistent)
include h

theorem mem_arrivals {x : Digest × Arrival} : x ∈ r.arrivals ↔ r.blocks.get? x.1 = some x.2 := by
  constructor
  · exact get?_of_mem_arrivals
  · intro hx
    refine List.mem_filterMap.2 ⟨x.1, (h.mem_requested _).2 (isTracked_iff.2 (Or.inr (Table.contains_of_get? hx))), ?_⟩
    rw [hx]
    rfl

theorem mem_arrivals_keys (hash : Digest) : hash ∈ r.arrivals.map Prod.fst ↔ r.hasBlock hash = true := by
  rw [arrivals_keys, List.mem_filter]
  exact ⟨fun hx => hx.2, fun hx => ⟨(h.mem_requested _).2 (isTracked_iff.2 (Or.inr hx)), hx⟩⟩

theorem nodup_arrivals_keys : (r.arrivals.map Prod.fst).Nodup := by
  rw [arrivals_keys]
  exact h.nodup_requested.filter _

theorem not_hasBlock_eq (hash : Digest) : (!r.hasBlock hash) = decide (hash ∉ r.arrivals.map Prod.fst) := by
  rw [Bool.eq_iff_iff, decide_eq_true_iff, mem_arrivals_keys h, Bool.not_eq_true', Bool.not_eq_true]

theorem ordered_eq_families : r.ordered = families r.arrivals := by
  simp only [ordered, families, not_hasBlock_eq h]

theorem IsForest.isDepth (hf : r.IsForest) : ∃ depth, IsDepth r.arrivals depth := by
  obtain ⟨depth, hdepth⟩ := hf
  refine ⟨depth, fun a ha => ?_⟩
  rw [hdepth a.1 a.2 ((mem_arrivals h).1 ha)]
  exact if_congr (mem_arrivals_keys h _).symm rfl rfl

theorem Consistent.isForest {depth : Digest → Nat} (hd : IsDepth r.arrivals depth) : r.IsForest := by
  refine ⟨depth, fun hash a hget => ?_⟩
  rw [hd (hash, a) ((mem_arrivals h).2 hget)]
  exact if_congr (mem_arrivals_keys h _) rfl rfl

/-- **The round lists every arrived block exactly once.** -/
theorem ordered_perm (hf : r.IsForest) : r.ordered.Perm r.arrivals := by
  obtain ⟨depth, hd⟩ := hf.isDepth h
  rw [ordered_eq_families h]
  exact families_perm (nodup_arrivals_keys h) hd

/-- **Arrived blocks that form a line are listed along it.** -/
theorem ordered_of_line (hf : r.IsForest) {line : List (Digest × Arrival)} (hperm : line.Perm r.arrivals)
    (hline : line.IsChain IsOnTopOf) : r.ordered = line := by
  obtain ⟨depth, hd⟩ := hf.isDepth h
  rw [ordered_eq_families h]
  exact families_of_line hd hperm hline

theorem isLinear_iff (hf : r.IsForest) : r.IsLinear ↔ r.ordered.IsChain IsOnTopOf := by
  constructor
  · rintro ⟨line, hperm, hline⟩
    rw [ordered_of_line h hf hperm hline]
    exact hline
  · exact fun hline => ⟨r.ordered, ordered_perm h hf, hline⟩

end Consistent

/-! ## The batch -/

section Batch

variable {r : Requests} (h : r.Consistent) (hf : r.IsForest)
include h hf

theorem mem_ordered {x : Digest × Arrival} : x ∈ r.ordered ↔ r.blocks.get? x.1 = some x.2 := by
  rw [(ordered_perm h hf).mem_iff, mem_arrivals h]

theorem hash_of_mem_ordered {x : Digest × Arrival} (hx : x ∈ r.ordered) : x.2.block.hash = x.1 :=
  h.block_hash ((mem_ordered h hf).1 hx)

theorem hashes_batch : (r.batch.map fun b => b.block.hash) = r.ordered.map Prod.fst := by
  rw [batch, List.map_map]
  exact List.map_congr_left fun x hx => hash_of_mem_ordered h hf hx

theorem nodup_batch : (r.batch.map fun b => b.block.hash).Nodup := by
  rw [hashes_batch h hf, ((ordered_perm h hf).map Prod.fst).nodup_iff]
  exact nodup_arrivals_keys h

end Batch

end Requests
end LightClient
