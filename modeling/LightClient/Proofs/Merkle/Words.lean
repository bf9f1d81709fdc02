import LightClient.Proofs.AddressFilter
import LightClient.Proofs.Merkle.Soundness
/-!
# Walking a proof in machine words

`walk` counts nodes and heights in natural numbers and takes its proof apart. Here a proof of any size is walked as a
machine does it: positions and widths are words of thirty-two bits, cut to that size wherever they grow, and a `Walker`
keeps how many flags and digests it has used and which nodes it has come to, also when it stops with an error.

A node at a position below the width of its level has its children at positions below the width of theirs, and no level
is wider than the number of leaves, which is a word. So no position is ever cut, the two walks come to the same
(`traverse_follows`, by induction on the height), and a proof is used up to its end at most
(`FilteredBlock.walk_bounded`).
-/
namespace LightClient
namespace Merkle

/-! ## Levels -/

/-- The number of nodes at a height, cut to a word; the sum before it is one of sixty-four bits. -/
def widthWord (total : UInt32) (height : Nat) : UInt32 :=
  ((total.toUInt64 + (1 <<< UInt64.ofNat height) - 1) >>> UInt64.ofNat height).toUInt32

/-- The search for the height: from level to level until a single node is left, in so many rounds at most. -/
def climb (total : UInt32) : (rounds height : Nat) → Option Nat
  | 0, _ => none
  | rounds + 1, height => if 1 < widthWord total height then climb total rounds (height + 1) else some height

theorem width_le (total h : Nat) : width total h ≤ total := by
  rw [← Nat.not_lt, lt_width_iff, Nat.not_lt]
  exact Nat.le_mul_of_pos_right total (Nat.two_pow_pos h)

/-- The width of a level that a tree can have is a word. -/
theorem toNat_widthWord (total : UInt32) {h : Nat} (hh : h ≤ 32) :
    (widthWord total h).toNat = width total.toNat h := by
  have hpow : 2 ^ h ≤ 2 ^ 32 := Nat.pow_le_pow_right (by decide) hh
  have hpos := Nat.two_pow_pos h
  have htotal := total.toNat_lt
  have hwidth := width_le total.toNat h
  have hheight : (UInt64.ofNat h).toNat % 64 = h := by
    rw [UInt64.toNat_ofNat']
    omega
  have hone : ((1 : UInt64) <<< UInt64.ofNat h).toNat = 2 ^ h := by
    rw [UInt64.toNat_shiftLeft, hheight, Nat.shiftLeft_eq]
    change 1 * 2 ^ h % 2 ^ 64 = 2 ^ h
    omega
  have hsum : (total.toUInt64 + (1 <<< UInt64.ofNat h) - 1).toNat = total.toNat + 2 ^ h - 1 := by
    have hadd : (total.toUInt64 + (1 <<< UInt64.ofNat h)).toNat = total.toNat + 2 ^ h := by
      rw [UInt64.toNat_add, hone, UInt32.toNat_toUInt64]
      omega
    rw [UInt64.toNat_sub_of_le _ _ (by rw [UInt64.le_iff_toNat_le, hadd]; change 1 ≤ _; omega), hadd]
    rfl
  rw [widthWord, UInt64.toNat_toUInt32, UInt64.toNat_shiftRight, hheight, hsum, Nat.shiftRight_eq_div_pow, ← width,
    Nat.mod_eq_of_lt (by omega)]

theorem height_le_of_lt {total : Nat} (h : total < 2 ^ 32) : height total ≤ 32 :=
  (height_le_iff total 32).2 ((width_le_one_iff total 32).2 (by omega))

/-- The search goes on below the height of the tree and ends there. -/
theorem climb_eq (total : UInt32) : ∀ {rounds h : Nat}, h ≤ height total.toNat → height total.toNat < h + rounds →
    climb total rounds h = some (height total.toNat)
  | 0, h, hle, hlt => absurd hlt (by omega)
  | rounds + 1, h, hle, hlt => by
    have hheight := height_le_of_lt total.toNat_lt
    have hword : 1 < widthWord total h ↔ 1 < width total.toNat h := by
      rw [UInt32.lt_iff_toNat_lt, toNat_widthWord total (by omega)]
      rfl
    rw [climb]
    rcases Nat.lt_or_eq_of_le hle with hbelow | rfl
    · have hwide : 1 < width total.toNat h := by
        rw [← Nat.not_le, ← height_le_iff]
        omega
      rw [if_pos (hword.2 hwide)]
      exact climb_eq total hbelow (by omega)
    · have hone := (height_le_iff total.toNat _).1 (Nat.le_refl _)
      rw [if_neg (by rw [hword]; omega)]

/-! ## Walking -/

/-- A call for a node: its height and position. -/
structure Call where
  height : Nat
  pos : UInt32
  deriving DecidableEq

/-- How far a proof has been used, what it has shown, and all calls so far. -/
structure Walker where
  bitsUsed : Nat
  hashesUsed : Nat
  leaves : List Digest
  calls : List Call

abbrev Walking := EStateM ProofError Walker

theorem Walking.get_apply (w : Walker) : (get : Walking Walker) w = .ok w w := rfl

namespace Walker

def start : Walker := ⟨0, 0, [], []⟩

/-- What is left of a proof. -/
def rest (p : Proof) (w : Walker) : Trail := ⟨p.trail.bits.drop w.bitsUsed, p.trail.hashes.drop w.hashesUsed⟩

end Walker

def nextBit (p : Proof) : Walking Bool := do
  match Bits.lookUp? p.flags (← get).bitsUsed with
  | none => throw (.exhausted .flagBits)
  | some bit =>
    modify fun w => { w with bitsUsed := w.bitsUsed + 1 }
    return bit

def nextHash (p : Proof) : Walking Digest := do
  match p.hashes[(← get).hashesUsed]? with
  | none => throw (.exhausted .hashes)
  | some hash =>
    modify fun w => { w with hashesUsed := w.hashesUsed + 1 }
    return hash

def traverse (p : Proof) : (height : Nat) → (pos : UInt32) → Walking Digest
  | 0, pos => do
    modify fun w => { w with calls := w.calls ++ [⟨0, pos⟩] }
    let flag ← nextBit p
    let hash ← nextHash p
    if flag then modify fun w => { w with leaves := w.leaves ++ [hash] }
    return hash
  | height + 1, pos => do
    modify fun w => { w with calls := w.calls ++ [⟨height + 1, pos⟩] }
    if ← nextBit p then
      let left ← traverse p height (pos * 2)
      if pos * 2 + 1 < widthWord p.total height then
        let right ← traverse p height (pos * 2 + 1)
        if right = left then throw .duplicateNode
        return Digest.join left right
      else
        return Digest.join left left
    else nextHash p

/-- The proved leaves of a proof. -/
def extract (p : Proof) (root : Digest) : Walking (List Digest) := do
  if p.total = 0 then throw .noTransactions
  else if p.total.toNat < p.hashes.length then throw (.tooManyHashes p.hashes.length p.total.toNat)
  else if p.flags.length * 8 < p.hashes.length then throw (.exhausted .flagBits)
  else
    let actual ← traverse p (height p.total.toNat) 0
    let w ← get
    if (w.bitsUsed + 7) / 8 ≠ p.flags.length then throw (.unconsumed .flagBytes)
    else if w.hashesUsed ≠ p.hashes.length then throw (.unconsumed .hashes)
    else if actual ≠ root then throw (.rootMismatch root actual)
    else return w.leaves

/-! ## One step -/

/-- The node is there in the tree, and so its children's positions are words. -/
structure Call.IsSafe (total : UInt32) (c : Call) : Prop where
  height_le : c.height ≤ 32
  lt_width : c.pos.toNat < width total.toNat c.height
  children : 0 < c.height → (c.pos * 2).toNat = 2 * c.pos.toNat ∧ (c.pos * 2 + 1).toNat = 2 * c.pos.toNat + 1

structure Walker.InBounds (p : Proof) (w : Walker) : Prop where
  bits : w.bitsUsed ≤ 8 * p.flags.length
  hashes : w.hashesUsed ≤ p.hashes.length
  calls : ∀ c ∈ w.calls, c.IsSafe p.total

theorem toNat_children {total pos : UInt32} {h : Nat} (hpos : pos.toNat < width total.toNat (h + 1)) :
    (pos * 2).toNat = 2 * pos.toNat ∧ (pos * 2 + 1).toNat = 2 * pos.toNat + 1 := by
  have hleft := left_lt_width hpos
  have hwidth := width_le total.toNat h
  have htotal := total.toNat_lt
  have hpow := Nat.two_pow_pos h
  -- twice the position is an even number below 2^32, so there is room for one more
  have hdouble : (pos * 2).toNat = 2 * pos.toNat := by
    rw [UInt32.toNat_mul]
    change pos.toNat * 2 % 2 ^ 32 = _
    omega
  refine ⟨hdouble, ?_⟩
  rw [UInt32.toNat_add, hdouble]
  change (2 * pos.toNat + 1) % 2 ^ 32 = _
  omega

theorem isSafe_of_lt_width {total pos : UInt32} {h : Nat} (hh : h ≤ 32) (hpos : pos.toNat < width total.toNat h) :
    Call.IsSafe total ⟨h, pos⟩ where
  height_le := hh
  lt_width := hpos
  children hlevel := by
    obtain ⟨below, rfl⟩ := Nat.exists_eq_succ_of_ne_zero (Nat.pos_iff_ne_zero.1 hlevel)
    exact toNat_children hpos

namespace Walker

variable {p : Proof} {w : Walker}

theorem InBounds.call (hw : w.InBounds p) {c : Call} (hc : c.IsSafe p.total) :
    InBounds p { w with calls := w.calls ++ [c] } where
  bits := hw.bits
  hashes := hw.hashes
  calls := by
    rw [List.forall_mem_append]
    exact ⟨hw.calls, fun d hd => List.mem_singleton.1 hd ▸ hc⟩

theorem nextBit_cases (hw : w.InBounds p) :
    (∃ hashes, w.rest p = ⟨[], hashes⟩ ∧ nextBit p w = .error (.exhausted .flagBits) w) ∨
      ∃ bit w', w.rest p = ⟨bit :: (w'.rest p).bits, (w'.rest p).hashes⟩ ∧ nextBit p w = .ok bit w' ∧
        w'.leaves = w.leaves ∧ w'.InBounds p := by
  have hread : nextBit p w = match (Bits.ofBytes p.flags)[w.bitsUsed]? with
      | none => .error (.exhausted .flagBits) w
      | some bit => .ok bit { w with bitsUsed := w.bitsUsed + 1 } := by
    rw [← Bits.lookUp?_eq]
    simp only [nextBit, bind, EStateM.bind, Walking.get_apply]
    cases Bits.lookUp? p.flags w.bitsUsed <;> rfl
  rw [hread]
  rcases Nat.lt_or_ge w.bitsUsed (Bits.ofBytes p.flags).length with hlt | hge
  · rw [List.getElem?_eq_getElem hlt]
    refine .inr ⟨_, { w with bitsUsed := w.bitsUsed + 1 }, ?_, rfl, rfl, ?_⟩
    · exact congrArg (Trail.mk · _) (List.drop_eq_getElem_cons hlt)
    · rw [Bits.length_ofBytes] at hlt
      exact ⟨hlt, hw.hashes, hw.calls⟩
  · rw [List.getElem?_eq_none hge]
    exact .inl ⟨_, congrArg (Trail.mk · _) (List.drop_eq_nil_of_le hge), rfl⟩

theorem nextHash_cases (hw : w.InBounds p) :
    (∃ bits, w.rest p = ⟨bits, []⟩ ∧ nextHash p w = .error (.exhausted .hashes) w) ∨
      ∃ hash w', w.rest p = ⟨(w'.rest p).bits, hash :: (w'.rest p).hashes⟩ ∧ nextHash p w = .ok hash w' ∧
        w'.leaves = w.leaves ∧ w'.InBounds p := by
  have hread : nextHash p w = match p.hashes[w.hashesUsed]? with
      | none => .error (.exhausted .hashes) w
      | some hash => .ok hash { w with hashesUsed := w.hashesUsed + 1 } := by
    simp only [nextHash, bind, EStateM.bind, Walking.get_apply]
    cases p.hashes[w.hashesUsed]? <;> rfl
  rw [hread]
  rcases Nat.lt_or_ge w.hashesUsed p.hashes.length with hlt | hge
  · rw [List.getElem?_eq_getElem hlt]
    refine .inr ⟨_, { w with hashesUsed := w.hashesUsed + 1 }, ?_, rfl, rfl, hw.bits, hlt, hw.calls⟩
    exact congrArg (Trail.mk _) (List.drop_eq_getElem_cons hlt)
  · rw [List.getElem?_eq_none hge]
    exact .inl ⟨_, congrArg (Trail.mk _) (List.drop_eq_nil_of_le hge), rfl⟩

end Walker

/-! ## The whole walk -/

/-- A walk in words that began at a walker, against the walk of what was left of the proof then. -/
inductive Follows (p : Proof) (w : Walker) :
    EStateM.Result ProofError Walker Digest → Except ProofError Visit → Prop where
  | ok {hash : Digest} {leaves : List Digest} {w' : Walker} : w'.InBounds p → w'.leaves = w.leaves ++ leaves →
      Follows p w (.ok hash w') (.ok ⟨hash, leaves, w'.rest p⟩)
  | error {e : ProofError} {w' : Walker} : w'.InBounds p → Follows p w (.error e w') (.error e)

/-- A walker that came to one more node. -/
def Walker.come (w : Walker) (height : Nat) (pos : UInt32) : Walker :=
  { w with calls := w.calls ++ [⟨height, pos⟩] }

theorem traverse_zero (p : Proof) (pos : UInt32) (w : Walker) :
    traverse p 0 pos w = match nextBit p (w.come 0 pos) with
      | .error e w => .error e w
      | .ok flag w => match nextHash p w with
        | .error e w => .error e w
        | .ok hash w => .ok hash (if flag then { w with leaves := w.leaves ++ [hash] } else w) := by
  have h : traverse p 0 pos w = (do
      let flag ← nextBit p
      let hash ← nextHash p
      if flag then modify fun w => { w with leaves := w.leaves ++ [hash] }
      return hash : Walking Digest) (w.come 0 pos) := rfl
  rw [h]
  simp only [bind, EStateM.bind]
  cases nextBit p (w.come 0 pos) with
  | error e w => rfl
  | ok flag w =>
    dsimp only
    cases nextHash p w with
    | error e w => rfl
    | ok hash w => cases flag <;> rfl

theorem traverse_succ (p : Proof) (height : Nat) (pos : UInt32) (w : Walker) :
    traverse p (height + 1) pos w = match nextBit p (w.come (height + 1) pos) with
      | .error e w => .error e w
      | .ok false w => nextHash p w
      | .ok true w => match traverse p height (pos * 2) w with
        | .error e w => .error e w
        | .ok left w =>
          if pos * 2 + 1 < widthWord p.total height then match traverse p height (pos * 2 + 1) w with
            | .error e w => .error e w
            | .ok right w => if right = left then .error .duplicateNode w else .ok (Digest.join left right) w
          else .ok (Digest.join left left) w := by
  have h : traverse p (height + 1) pos w = (do
      if ← nextBit p then
        let left ← traverse p height (pos * 2)
        if pos * 2 + 1 < widthWord p.total height then
          let right ← traverse p height (pos * 2 + 1)
          if right = left then throw .duplicateNode
          return Digest.join left right
        else
          return Digest.join left left
      else nextHash p : Walking Digest) (w.come (height + 1) pos) := rfl
  rw [h]
  simp only [bind, EStateM.bind]
  cases nextBit p (w.come (height + 1) pos) with
  | error e w => rfl
  | ok flag w =>
    cases flag with
    | false => rfl
    | true =>
      simp only [if_true, EStateM.bind]
      cases traverse p height (pos * 2) w with
      | error e w => rfl
      | ok left w =>
        dsimp only
        split
        · simp only [EStateM.bind]
          cases traverse p height (pos * 2 + 1) w with
          | error e w => rfl
          | ok right w =>
            dsimp only
            split <;> rfl
        · rfl

/-- **The walk in words is the walk.** It comes to the same digest and leaves, or to the same error, and leaves the same
rest; it has used no more than there is and come to no node that is not in the tree. -/
theorem traverse_follows (p : Proof) : ∀ {height : Nat} {pos : UInt32} {w : Walker}, height ≤ 32 →
    pos.toNat < width p.total.toNat height → w.InBounds p →
    Follows p w (traverse p height pos w) (walk p.total.toNat height pos.toNat (w.rest p))
  | 0, pos, w, hheight, hpos, hw => by
    have hcome : (w.come 0 pos).InBounds p := hw.call (isSafe_of_lt_width hheight hpos)
    have hrest : (w.come 0 pos).rest p = w.rest p := rfl
    rw [traverse_zero]
    rcases Walker.nextBit_cases hcome with ⟨hashes, hbits, hbit⟩ | ⟨flag, w₁, hbits, hbit, hleaves, hw₁⟩
    · rw [hbit, ← hrest, hbits]
      exact .error hcome
    rw [hbit, ← hrest, hbits]
    rcases Walker.nextHash_cases hw₁ with ⟨bits, hhashes, hhash⟩ | ⟨hash, w₂, hhashes, hhash, hleaves', hw₂⟩
    · simp only [hhash, hhashes]
      exact .error hw₁
    simp only [hhash, hhashes]
    have hkept : w₂.leaves = w.leaves := hleaves'.trans hleaves
    cases flag with
    | false => exact .ok hw₂ (hkept.trans (List.append_nil w.leaves).symm)
    | true =>
      have hshown : Walker.InBounds p { w₂ with leaves := w₂.leaves ++ [hash] } := ⟨hw₂.bits, hw₂.hashes, hw₂.calls⟩
      exact .ok hshown (congrArg (· ++ [hash]) hkept)
  | height + 1, pos, w, hheight, hpos, hw => by
    have hcome : (w.come (height + 1) pos).InBounds p := hw.call (isSafe_of_lt_width hheight hpos)
    have hrest : (w.come (height + 1) pos).rest p = w.rest p := rfl
    rw [traverse_succ]
    rcases Walker.nextBit_cases hcome with ⟨hashes, hbits, hbit⟩ | ⟨flag, w₁, hbits, hbit, hleaves, hw₁⟩
    · rw [hbit, ← hrest, hbits]
      exact .error hcome
    rw [hbit, ← hrest, hbits]
    cases flag with
    | false =>
      dsimp only
      rcases Walker.nextHash_cases hw₁ with ⟨bits, hhashes, hhash⟩ | ⟨hash, w₂, hhashes, hhash, hleaves', hw₂⟩
      · rw [hhash, hhashes]
        exact .error hw₁
      · rw [hhash, hhashes]
        exact .ok hw₂ ((hleaves'.trans hleaves).trans (List.append_nil _).symm)
    | true =>
      obtain ⟨hdouble, hnext⟩ := toNat_children hpos
      have hforked : pos * 2 + 1 < widthWord p.total height ↔ 2 * pos.toNat + 1 < width p.total.toNat height := by
        rw [UInt32.lt_iff_toNat_lt, toNat_widthWord p.total (by omega), hnext]
      have hleft := traverse_follows p (w := w₁) (by omega) (hdouble ▸ left_lt_width hpos) hw₁
      rw [hdouble] at hleft
      rw [walk_succ_true]
      dsimp only
      change Follows p w _ (walk p.total.toNat height (2 * pos.toNat) (w₁.rest p) >>= _)
      generalize traverse p height (pos * 2) w₁ = result at hleft ⊢
      generalize walk p.total.toNat height (2 * pos.toNat) (w₁.rest p) = expected at hleft ⊢
      cases hleft with
      | error hw₂ => exact .error hw₂
      | @ok left leftLeaves w₂ hw₂ hleaves₂ =>
        change Follows p w _ (if _ then _ else _)
        simp only [hforked]
        split
        · rename_i hwide
          have hright := traverse_follows p (w := w₂) (by omega) (hnext ▸ hwide) hw₂
          rw [hnext] at hright
          generalize traverse p height (pos * 2 + 1) w₂ = result at hright ⊢
          generalize walk p.total.toNat height (2 * pos.toNat + 1) (w₂.rest p) = expected at hright ⊢
          cases hright with
          | error hw₃ => exact .error hw₃
          | @ok right rightLeaves w₃ hw₃ hleaves₃ =>
            change Follows p w _ (if _ then _ else _)
            dsimp only
            split
            · exact .error hw₃
            · refine .ok hw₃ ?_
              rw [hleaves₃, hleaves₂, hleaves, List.append_assoc]
              rfl
        · refine .ok hw₂ ?_
          rw [hleaves₂, hleaves]
          rfl

/-! ## Proofs -/

/-- A result without the walker. -/
def outcome {α : Type} : EStateM.Result ProofError Walker α → Except ProofError α
  | .ok a _ => .ok a
  | .error e _ => .error e

/-- The walker where a walk stopped. -/
def stopped {α : Type} : EStateM.Result ProofError Walker α → Walker
  | .ok _ w => w
  | .error _ w => w

/-- The checks of a proof in words, one after the other. -/
theorem extract_eq (p : Proof) (root : Digest) (w : Walker) :
    extract p root w =
      if p.total = 0 then .error .noTransactions w
      else if p.total.toNat < p.hashes.length then .error (.tooManyHashes p.hashes.length p.total.toNat) w
      else if p.flags.length * 8 < p.hashes.length then .error (.exhausted .flagBits) w
      else match traverse p (height p.total.toNat) 0 w with
        | .error e w => .error e w
        | .ok actual w =>
          if (w.bitsUsed + 7) / 8 ≠ p.flags.length then .error (.unconsumed .flagBytes) w
          else if w.hashesUsed ≠ p.hashes.length then .error (.unconsumed .hashes) w
          else if actual ≠ root then .error (.rootMismatch root actual) w
          else .ok w.leaves w := by
  unfold extract
  split
  · rfl
  split
  · rfl
  split
  · rfl
  simp only [bind, EStateM.bind]
  cases traverse p (height p.total.toNat) 0 w with
  | error e w => rfl
  | ok actual w =>
    simp only [Walking.get_apply]
    split
    · rfl
    split
    · rfl
    split
    · rfl
    rfl

theorem Walker.inBounds_start (p : Proof) : start.InBounds p :=
  ⟨Nat.zero_le _, Nat.zero_le _, fun _ h => absurd h List.not_mem_nil⟩

/-- Less than a byte of flags is left exactly if the bytes of the flags used are all there are. -/
theorem Walker.InBounds.bytesUsed_iff {p : Proof} {w : Walker} (hw : w.InBounds p) :
    (w.bitsUsed + 7) / 8 ≠ p.flags.length ↔ 8 ≤ (w.rest p).bits.length := by
  have hbits := hw.bits
  rw [Walker.rest, List.length_drop, Proof.trail, Bits.length_ofBytes]
  omega

theorem Walker.InBounds.hashesUsed_iff {p : Proof} {w : Walker} (hw : w.InBounds p) :
    w.hashesUsed ≠ p.hashes.length ↔ (w.rest p).hashes ≠ [] := by
  have hhashes := hw.hashes
  have hrest : (w.rest p).hashes = p.hashes.drop w.hashesUsed := rfl
  rw [hrest, ne_eq, ne_eq, List.drop_eq_nil_iff]
  omega

/-- The walk in words comes to what the proof shows, and stops within the proof. -/
theorem extract_follows (p : Proof) (root : Digest) :
    outcome (extract p root .start) = p.provedLeaves root ∧ (stopped (extract p root .start)).InBounds p := by
  have hstart := Walker.inBounds_start p
  rw [extract_eq, Proof.provedLeaves_eq]
  by_cases htotal : p.total = 0
  · rw [if_pos htotal, if_pos (by rw [htotal]; rfl)]
    exact ⟨rfl, hstart⟩
  have hpos : 0 < p.total.toNat := Nat.pos_of_ne_zero fun h => htotal (UInt32.toNat.inj h)
  rw [if_neg htotal, if_neg (Nat.pos_iff_ne_zero.1 hpos)]
  split
  · exact ⟨rfl, hstart⟩
  split
  · exact ⟨rfl, hstart⟩
  have htop : (0 : UInt32).toNat < width p.total.toNat (height p.total.toNat) := by
    rw [width_height hpos]
    exact Nat.one_pos
  have hwalk : Follows p .start (traverse p (height p.total.toNat) 0 .start)
      (walk p.total.toNat (height p.total.toNat) 0 p.trail) :=
    traverse_follows p (height_le_of_lt p.total.toNat_lt) htop hstart
  generalize traverse p (height p.total.toNat) 0 .start = result at hwalk ⊢
  generalize walk p.total.toNat (height p.total.toNat) 0 p.trail = expected at hwalk ⊢
  cases hwalk with
  | error hw => exact ⟨rfl, hw⟩
  | @ok actual leaves w hw hleaves =>
    have hshown : w.leaves = leaves := hleaves
    change outcome (if _ then _ else _) = (if _ then _ else _) ∧ _
    simp only [hw.bytesUsed_iff, hw.hashesUsed_iff]
    split
    · exact ⟨rfl, hw⟩
    split
    · exact ⟨rfl, hw⟩
    split
    · exact ⟨rfl, hw⟩
    · exact ⟨congrArg Except.ok hshown, hw⟩

end Merkle

namespace FilteredBlock

open Merkle

/-- **A proof is walked within its bounds**, whatever it consists of. The search for the height of its tree ends within
thirty-three rounds, at a height of at most thirty-two. Walking a block's proof in machine words comes to what the block
shows. Wherever it stops, it has used no more flags and digests than there are, and every node it has come to lies at a
position below the width of its level, so that the positions of its children are words, too; and no width of a level is
cut. -/
theorem walk_bounded (b : FilteredBlock) :
    climb b.proof.total 33 0 = some (height b.proof.total.toNat) ∧ height b.proof.total.toNat ≤ 32 ∧
    outcome (extract b.proof b.header.merkleRoot .start) = b.provedTxids ∧
    (∀ h ≤ 32, (widthWord b.proof.total h).toNat = width b.proof.total.toNat h) ∧
    let w := stopped (extract b.proof b.header.merkleRoot .start)
    w.bitsUsed ≤ 8 * b.proof.flags.length ∧ w.hashesUsed ≤ b.proof.hashes.length ∧
    ∀ c ∈ w.calls, c.height ≤ 32 ∧ c.pos.toNat < width b.proof.total.toNat c.height ∧
      (0 < c.height → (c.pos * 2).toNat = 2 * c.pos.toNat ∧ (c.pos * 2 + 1).toNat = 2 * c.pos.toNat + 1) := by
  have hheight := height_le_of_lt b.proof.total.toNat_lt
  obtain ⟨houtcome, hw⟩ := extract_follows b.proof b.header.merkleRoot
  refine ⟨climb_eq b.proof.total (Nat.zero_le _) (by omega), hheight, houtcome,
    fun h hh => toNat_widthWord b.proof.total hh, hw.bits, hw.hashes, fun c hc => ?_⟩
  obtain ⟨hle, hlt, hchildren⟩ := hw.calls c hc
  exact ⟨hle, hlt, hchildren⟩

open Sample in
theorem walk_bounded_lastOfTwo :
    (stopped (extract lastOfTwo.proof lastOfTwo.header.merkleRoot .start)).calls = [⟨1, 0⟩, ⟨0, 0⟩, ⟨0, 1⟩] ∧
      (stopped (extract lastOfTwo.proof lastOfTwo.header.merkleRoot .start)).bitsUsed ≤ 8 ∧
      (1 : UInt32).toNat < width 2 0 ∧ ((0 : UInt32) * 2 + 1).toNat = 2 * (0 : UInt32).toNat + 1 := by
  have hcalls : (stopped (extract lastOfTwo.proof lastOfTwo.header.merkleRoot .start)).calls =
      [⟨1, 0⟩, ⟨0, 0⟩, ⟨0, 1⟩] := by decide +kernel
  obtain ⟨-, -, -, -, hbits, -, hsafe⟩ := walk_bounded lastOfTwo
  rw [hcalls] at hsafe
  obtain ⟨-, -, hchildren⟩ := hsafe ⟨1, 0⟩ (by decide)
  obtain ⟨-, hleaf, -⟩ := hsafe ⟨0, 1⟩ (by decide)
  exact ⟨hcalls, hbits, hleaf, (hchildren Nat.one_pos).2⟩

end FilteredBlock
end LightClient
