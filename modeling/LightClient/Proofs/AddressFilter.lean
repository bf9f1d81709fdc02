import LightClient.AddressFilter
import Mathlib.Data.List.Induction
import Mathlib.Data.List.Perm.Basic
import Mathlib.Data.Nat.Bitwise
/-!
# What the filter over the wallet's addresses holds

A filter is followed through every call on it, under any scheme: whatever numbers of bits and hashes
it answers, whatever the hashes are. A reload whose dimensions are accepted puts every address that is
watched by then into the filter, and no later call takes one out.

The filter that goes over the wire is read, and built, here on its bytes: each access names a byte and
a place in it, and one past the end of the bytes gives nothing. In that reading the rebuild goes
through, for every order of the addresses, and ends with the bytes of the load message.
-/
namespace LightClient

/-! ## Single bits of packed bytes -/

namespace Bits

/-- The bit at a place among bytes; there is none past their end. -/
def lookUp? (bytes : Bytes) (i : Nat) : Option Bool :=
  bytes[i / 8]?.map fun byte => byte &&& (1 <<< UInt8.ofNat (i % 8)) != 0

/-- The bytes with the bit at a place set; there is none to set past their end. -/
def mark? (bytes : Bytes) (i : Nat) : Option Bytes :=
  bytes[i / 8]?.map fun byte => bytes.set (i / 8) (byte ||| (1 <<< UInt8.ofNat (i % 8)))

theorem toNat_mask {k : Nat} (h : k < 8) : ((1 : UInt8) <<< UInt8.ofNat k).toNat = 2 ^ k := by
  revert h k
  decide

theorem masked_eq_testBit (byte : UInt8) {k : Nat} (h : k < 8) :
    (byte &&& (1 <<< UInt8.ofNat k) != 0) = byte.toNat.testBit k := by
  have hand : (byte &&& (1 <<< UInt8.ofNat k)).toNat = (byte.toNat.testBit k).toNat * 2 ^ k := by
    rw [UInt8.toNat_and, toNat_mask h, Nat.and_two_pow]
  rw [Bool.eq_iff_iff, bne_iff_ne, ne_eq, ← UInt8.toNat_inj, hand]
  cases byte.toNat.testBit k <;> simp

theorem testBit_marked (byte : UInt8) {k : Nat} (h : k < 8) (j : Nat) :
    (byte ||| (1 <<< UInt8.ofNat k)).toNat.testBit j = (byte.toNat.testBit j || decide (k = j)) := by
  rw [UInt8.toNat_or, toNat_mask h, Nat.testBit_or, Nat.testBit_two_pow]

theorem getElem?_ofByte (byte : UInt8) (k : Nat) :
    (ofByte byte)[k]? = if k < 8 then some (byte.toNat.testBit k) else none := by
  rw [ofByte, List.getElem?_map]
  split
  · rw [List.getElem?_range ‹_›, Option.map_some]
  · rw [List.getElem?_eq_none (by rw [List.length_range]; omega), Option.map_none]

theorem getElem?_ofBytes : ∀ (bytes : Bytes) (i : Nat),
    (ofBytes bytes)[i]? = bytes[i / 8]?.map fun byte => byte.toNat.testBit (i % 8)
  | [], i => by simp [ofBytes]
  | byte :: bytes, i => by
    have hlength : (ofByte byte).length = 8 := by simp [ofByte]
    rw [ofBytes, List.flatMap_cons, ← ofBytes]
    rcases Nat.lt_or_ge i 8 with hlt | hge
    · rw [List.getElem?_append_left (by omega), getElem?_ofByte, if_pos hlt, Nat.div_eq_of_lt hlt,
        Nat.mod_eq_of_lt hlt]
      rfl
    · rw [List.getElem?_append_right (by omega), hlength, getElem?_ofBytes bytes (i - 8),
        show i / 8 = (i - 8) / 8 + 1 by omega, show (i - 8) % 8 = i % 8 by omega]
      rfl

theorem lookUp?_eq (bytes : Bytes) (i : Nat) : lookUp? bytes i = (ofBytes bytes)[i]? := by
  rw [lookUp?, getElem?_ofBytes]
  congr 1
  funext byte
  exact masked_eq_testBit byte (Nat.mod_lt i (by decide))

theorem ofBytes_of_mark? {bytes marked : Bytes} {i : Nat} (h : mark? bytes i = some marked) :
    ofBytes marked = (ofBytes bytes).set i true := by
  obtain ⟨byte, hbyte, rfl⟩ := Option.map_eq_some_iff.1 h
  have hin : i / 8 < bytes.length := (List.getElem?_eq_some_iff.1 hbyte).1
  apply List.ext_getElem?
  intro j
  rw [getElem?_ofBytes, List.getElem?_set, List.getElem?_set, length_ofBytes, getElem?_ofBytes]
  by_cases hsame : i / 8 = j / 8
  · rw [if_pos hsame, if_pos (hsame ▸ hin), ← hsame, hbyte, Option.map_some, Option.map_some,
      testBit_marked byte (Nat.mod_lt i (by decide))]
    by_cases hj : i = j
    · rw [if_pos hj, if_pos (by omega), decide_eq_true (by omega), Bool.or_true]
    · rw [if_neg hj, decide_eq_false (by omega), Bool.or_false]
  · rw [if_neg hsame, if_neg (by rintro rfl; exact hsame rfl)]

theorem ofByte_injective : Function.Injective ofByte := by
  intro b c h
  refine UInt8.toNat_inj.1 (Nat.eq_of_testBit_eq fun k => ?_)
  rcases Nat.lt_or_ge k 8 with hlt | hge
  · have hk := congrArg (·[k]?) h
    simpa [getElem?_ofByte, hlt] using hk
  · have hpow : 2 ^ 8 ≤ 2 ^ k := Nat.pow_le_pow_right (by decide) hge
    rw [Nat.testBit_lt_two_pow (Nat.lt_of_lt_of_le b.toNat_lt hpow),
      Nat.testBit_lt_two_pow (Nat.lt_of_lt_of_le c.toNat_lt hpow)]

theorem ofBytes_injective : Function.Injective ofBytes
  | [], [], _ => rfl
  | [], c :: cs, h => by simpa using congrArg List.length h
  | b :: bs, [], h => by simpa using congrArg List.length h
  | b :: bs, c :: cs, h => by
    rw [ofBytes, ofBytes, List.flatMap_cons, List.flatMap_cons] at h
    obtain ⟨hfirst, hrest⟩ := List.append_inj h (by simp [ofByte])
    rw [ofByte_injective hfirst, ofBytes_injective hrest]

theorem ofBytes_pack_eq (bits : List Bool) :
    ofBytes (pack bits) = bits ++ List.replicate (8 * ((bits.length + 7) / 8) - bits.length) false :=
  ofBytes_packBytes _ (by omega)

/-- A place below the number of bits is among the packed bytes, also when they are not full. -/
theorem lookUp?_pack {bits : List Bool} {i : Nat} (h : i < bits.length) :
    lookUp? (pack bits) i = some bits[i] := by
  rw [lookUp?_eq, ofBytes_pack_eq, List.getElem?_append_left h, List.getElem?_eq_getElem h]

theorem mark?_pack {bits : List Bool} {i : Nat} (h : i < bits.length) :
    mark? (pack bits) i = some (pack (bits.set i true)) := by
  have hin : i / 8 < (pack bits).length := by
    rw [length_pack]
    omega
  obtain ⟨marked, hmarked⟩ : ∃ marked, mark? (pack bits) i = some marked :=
    ⟨_, by rw [mark?, List.getElem?_eq_getElem hin]; rfl⟩
  rw [hmarked]
  congr 1
  apply ofBytes_injective
  rw [ofBytes_of_mark? hmarked, ofBytes_pack_eq, ofBytes_pack_eq, List.length_set, List.set_append_left _ _ h]

theorem pack_replicate (size : Nat) :
    pack (List.replicate size false) = List.replicate ((size + 7) / 8) 0 := by
  apply ofBytes_injective
  rw [ofBytes_pack_eq, List.length_replicate, List.replicate_append_replicate]
  apply List.ext_getElem?
  intro i
  rw [getElem?_ofBytes, List.getElem?_replicate, List.getElem?_replicate]
  by_cases hin : i < 8 * ((size + 7) / 8)
  · rw [if_pos (by omega), if_pos (by omega), Option.map_some]
    simp
  · rw [if_neg (by omega), if_neg (by omega), Option.map_none]

end Bits

/-! ## What a Bloom filter holds -/

namespace Bloom

/-- Setting places one after another leaves on what was on, and turns on those places alone. -/
theorem getElem_foldl_set {n : Nat} (place : Nat → Fin n) (i : Fin n) : ∀ (ks : List Nat) (bits : Vector Bool n),
    (ks.foldl (fun bits k => bits.set (place k) true) bits)[i] = (bits[i] || ks.any fun k => place k == i)
  | [], bits => by rw [List.foldl_nil, List.any_nil, Bool.or_false]
  | k :: ks, bits => by
    rw [List.foldl_cons, getElem_foldl_set place i ks, List.any_cons, ← Bool.or_assoc]
    congr 1
    rw [Fin.getElem_fin, Fin.getElem_fin, Vector.getElem_set]
    by_cases h : place k = i
    · rw [if_pos (congrArg Fin.val h), beq_iff_eq.2 h, Bool.or_true]
    · rw [if_neg (fun hval => h (Fin.ext hval)), beq_eq_false_iff_ne.2 h, Bool.or_false]

section
variable (hashOf : UInt32 → Nat → Bytes → Nat)

theorem get_bits_addBy (b : Bloom) (data : Bytes) (i : Fin b.size) :
    (b.addBy hashOf data).bits.get i =
      (b.bits.get i || (List.range b.hashCount).any fun k => b.indexBy hashOf data k == i) :=
  getElem_foldl_set (b.indexBy hashOf data) i _ b.bits

theorem containsBy_iff {b : Bloom} {data : Bytes} :
    b.containsBy hashOf data = true ↔ ∀ k < b.hashCount, b.bits.get (b.indexBy hashOf data k) = true := by
  rw [containsBy, List.all_eq_true]
  exact forall_congr' fun k => imp_congr_left List.mem_range

/-- An element is held once it was added. -/
theorem containsBy_addBy (b : Bloom) (data : Bytes) : (b.addBy hashOf data).containsBy hashOf data = true := by
  rw [containsBy_iff]
  intro k hk
  refine (get_bits_addBy hashOf b data (b.indexBy hashOf data k)).trans ?_
  have hset : ((List.range b.hashCount).any fun j => b.indexBy hashOf data j == b.indexBy hashOf data k) = true :=
    List.any_eq_true.2 ⟨k, List.mem_range.2 hk, beq_self_eq_true _⟩
  rw [hset, Bool.or_true]

/-- An element stays held whatever is added after it. -/
theorem containsBy_addBy_of_containsBy {b : Bloom} {data : Bytes} (h : b.containsBy hashOf data = true)
    (other : Bytes) : (b.addBy hashOf other).containsBy hashOf data = true := by
  rw [containsBy_iff] at h ⊢
  intro k hk
  refine (get_bits_addBy hashOf b other (b.indexBy hashOf data k)).trans ?_
  rw [h k hk, Bool.true_or]

theorem containsBy_foldl_of_containsBy {data : Bytes} : ∀ (added : List Bytes) {b : Bloom},
    b.containsBy hashOf data = true → (added.foldl (addBy hashOf) b).containsBy hashOf data = true
  | [], _, h => h
  | other :: added, _, h =>
    containsBy_foldl_of_containsBy added (containsBy_addBy_of_containsBy hashOf h other)

/-- Every element that was added is held, wherever it stood among the others. -/
theorem containsBy_foldl {data : Bytes} {added : List Bytes} (h : data ∈ added) (b : Bloom) :
    (added.foldl (addBy hashOf) b).containsBy hashOf data = true := by
  obtain ⟨earlier, later, rfl⟩ := List.append_of_mem h
  rw [List.foldl_append, List.foldl_cons]
  exact containsBy_foldl_of_containsBy hashOf later (containsBy_addBy hashOf _ data)

/-- Two elements set the same bits in either order. -/
theorem addBy_comm (b : Bloom) (data other : Bytes) :
    (b.addBy hashOf data).addBy hashOf other = (b.addBy hashOf other).addBy hashOf data := by
  have hbits : ((b.addBy hashOf data).addBy hashOf other).bits = ((b.addBy hashOf other).addBy hashOf data).bits := by
    apply Vector.ext
    intro i hi
    refine (get_bits_addBy hashOf (b.addBy hashOf data) other ⟨i, hi⟩).trans ?_
    refine Eq.trans ?_ (get_bits_addBy hashOf (b.addBy hashOf other) data ⟨i, hi⟩).symm
    refine (congrArg (· || _) (get_bits_addBy hashOf b data ⟨i, hi⟩)).trans ?_
    refine Eq.trans ?_ (congrArg (· || _) (get_bits_addBy hashOf b other ⟨i, hi⟩)).symm
    exact Bool.or_right_comm _ _ _
  exact congrArg (fun bits => { b with bits, elements := b.elements + 1 + 1 }) hbits

theorem foldl_addBy_perm {added arranged : List Bytes} (h : arranged.Perm added) (b : Bloom) :
    arranged.foldl (addBy hashOf) b = added.foldl (addBy hashOf) b :=
  haveI : RightCommutative (addBy hashOf) := ⟨addBy_comm hashOf⟩
  h.foldl_eq b

end

end Bloom

/-! ## The filter on the wire -/

namespace FilterLoad

/-- A filter of zeros. -/
def zeros (size hashCount : Nat) (tweak : UInt32) : FilterLoad :=
  ⟨List.replicate ((size + 7) / 8) 0, size, hashCount, tweak⟩

section
variable (hashOf : UInt32 → Nat → Bytes → Nat)

/-- The place that a hash of an element selects. -/
def place (l : FilterLoad) (data : Bytes) (number : Nat) : Nat := hashOf l.tweak number data % l.bitCount

/-- Whether an element is held, read off the bytes. -/
def lookUp? (l : FilterLoad) (data : Bytes) : Option Bool :=
  (List.range l.hashCount).allM fun k => Bits.lookUp? l.filter (l.place hashOf data k)

/-- An element put into the bytes. -/
def add? (l : FilterLoad) (data : Bytes) : Option FilterLoad :=
  ((List.range l.hashCount).foldlM (fun bytes k => Bits.mark? bytes (l.place hashOf data k)) l.filter).map
    fun bytes => { l with filter := bytes }

theorem allM_eq_some {p : Nat → Option Bool} {q : Nat → Bool} (h : ∀ k, p k = some (q k)) :
    ∀ ks : List Nat, ks.allM p = some (ks.all q)
  | [] => rfl
  | k :: ks => by
    rw [List.allM, h k, List.all_cons]
    cases hq : q k with
    | false => rfl
    | true => exact allM_eq_some h ks

/-- No access of a look-up is past the bytes, and it finds what the filter holds. -/
theorem lookUp?_toLoad (b : Bloom) (data : Bytes) :
    b.toLoad.lookUp? hashOf data = some (b.containsBy hashOf data) := by
  refine allM_eq_some (fun k => ?_) (List.range b.hashCount)
  have hin : b.indexBy hashOf data k < b.bits.toList.length := by
    rw [Vector.length_toList]
    exact (b.indexBy hashOf data k).2
  exact (Bits.lookUp?_pack hin).trans (congrArg some (Vector.getElem_toList hin))

theorem foldlM_mark? {size : Nat} (place : Nat → Fin size) : ∀ (ks : List Nat) (bits : Vector Bool size),
    ks.foldlM (fun bytes k => Bits.mark? bytes (place k)) (Bits.pack bits.toList) =
      some (Bits.pack (ks.foldl (fun bits k => bits.set (place k) true) bits).toList)
  | [], _ => rfl
  | k :: ks, bits => by
    have hin : (place k).1 < bits.toList.length := by
      rw [Vector.length_toList]
      exact (place k).2
    rw [List.foldlM_cons, List.foldl_cons, Bits.mark?_pack hin, ← foldlM_mark? place ks, Vector.toList_set]
    rfl

/-- No access of an addition is past the bytes, and it ends with the bytes of the filter added to. -/
theorem add?_toLoad (b : Bloom) (data : Bytes) :
    b.toLoad.add? hashOf data = some (b.addBy hashOf data).toLoad := by
  have hbytes := foldlM_mark? (b.indexBy hashOf data) (List.range b.hashCount) b.bits
  exact congrArg (Option.map fun bytes => { b.toLoad with filter := bytes }) hbytes

theorem foldlM_add?_toLoad : ∀ (added : List Bytes) (b : Bloom),
    added.foldlM (add? hashOf) b.toLoad = some (added.foldl (Bloom.addBy hashOf) b).toLoad
  | [], _ => rfl
  | data :: added, b => by
    rw [List.foldlM_cons, add?_toLoad, List.foldl_cons, ← foldlM_add?_toLoad added]
    rfl

end

end FilterLoad

/-! ## Dimensions that a filter can have -/

namespace Bloom

def Scheme.Accepts (s : Scheme) (room : Nat) : Prop :=
  ∃ size hashCount, s.dimensions room = .ok (size, hashCount) ∧ 0 < size ∧ 0 < hashCount

theorem Scheme.blank_of_dimensions {s : Scheme} {room size hashCount : Nat}
    (hdimensions : s.dimensions room = .ok (size, hashCount)) (hsize : 0 < size) (hcount : 0 < hashCount)
    (tweak : UInt32) :
    ∃ b, s.blank room tweak = .ok b ∧ b.toLoad = FilterLoad.zeros size hashCount tweak := by
  refine ⟨⟨size, hashCount, tweak, hsize, hcount, Vector.replicate size false, 0⟩, ?_, ?_⟩
  · rw [blank, hdimensions]
    change ofSize size hashCount tweak = _
    rw [ofSize, dif_pos hsize, dif_pos hcount]
  · rw [toLoad, toBytes, Vector.toList_replicate, Bits.pack_replicate, FilterLoad.zeros]

end Bloom

/-! ## Calls on the filter over the addresses -/

namespace AddressFilter

inductive Call where
  | watch (address : Bytes)
  | reload
  deriving DecidableEq

/-- The addresses that calls let watch, each of them once. -/
def watched (calls : List Call) : List Bytes :=
  calls.foldl (fun known call => match call with
    | .watch address => known.insert address
    | .reload => known) []

/-- The number of elements that a reload after these calls makes room for. -/
def roomAfter (calls : List Call) : Nat := max (watched calls).length leastRoom

@[simp] theorem watched_nil : watched [] = [] := rfl

@[simp] theorem watched_append_watch (calls : List Call) (address : Bytes) :
    watched (calls ++ [.watch address]) = (watched calls).insert address := by
  simp [watched]

@[simp] theorem watched_append_reload (calls : List Call) : watched (calls ++ [.reload]) = watched calls := by
  simp [watched]

theorem mem_watched {address : Bytes} (calls : List Call) :
    address ∈ watched calls ↔ .watch address ∈ calls := by
  induction calls using List.reverseRecOn with
  | nil => simp
  | append_singleton calls call ih =>
    cases call with
    | watch other => simp [ih, or_comm]
    | reload => simp [ih]

section
variable (s : Bloom.Scheme)

def serve (f : AddressFilter) : Call → AddressFilter
  | .watch address => f.watch address
  | .reload => f.reloadBy s

def serveAll (f : AddressFilter) (calls : List Call) : AddressFilter := calls.foldl (serve s) f

/-- The filters that calls lead to, the setting up counted as calls of its own: over addresses, each of
them is watched and the filter reloaded. -/
inductive Serves (rate : Float) (tweaks : Nat → UInt32) : List Call → AddressFilter → Prop
  | bare {f : AddressFilter} (made : ofScheme s rate tweaks = .ok f) : Serves rate tweaks [] f
  | watching {initial : List Bytes} {f : AddressFilter} (made : ofAddressesBy s rate initial tweaks = .ok f) :
      Serves rate tweaks (initial.map .watch ++ [.reload]) f
  | call {calls : List Call} {f : AddressFilter} (served : Serves rate tweaks calls f) (call : Call) :
      Serves rate tweaks (calls ++ [call]) (f.serve s call)

end

section
variable {s : Bloom.Scheme} {rate : Float} {tweaks : Nat → UInt32} {calls before : List Call} {f : AddressFilter}

theorem serveAll_append (f : AddressFilter) (calls : List Call) (call : Call) :
    f.serveAll s (calls ++ [call]) = (f.serveAll s calls).serve s call := by
  rw [serveAll, List.foldl_append]
  rfl

theorem ofAddressesBy_eq (initial : List Bytes) :
    ofAddressesBy s rate initial tweaks =
      (ofScheme s rate tweaks).map fun f => f.serveAll s (initial.map .watch ++ [.reload]) := by
  have hwatch (f : AddressFilter) : initial.foldl watch f = (initial.map Call.watch).foldl (serve s) f := by
    rw [List.foldl_map]
    rfl
  rw [ofAddressesBy]
  congr 1
  funext f
  rw [serveAll, List.foldl_append, ← hwatch]
  rfl

/-- Both ways of setting up come down to calls on a filter over no address. -/
theorem Serves.replayed (served : Serves s rate tweaks calls f) :
    ∃ base, ofScheme s rate tweaks = .ok base ∧ f = base.serveAll s calls := by
  induction served with
  | bare made => exact ⟨_, made, rfl⟩
  | watching made =>
    rw [ofAddressesBy_eq] at made
    cases hbase : ofScheme s rate tweaks with
    | error e =>
      rw [hbase] at made
      cases made
    | ok base =>
      rw [hbase] at made
      exact ⟨base, rfl, (Except.ok.inj made).symm⟩
  | call _ call ih =>
    obtain ⟨base, hbase, rfl⟩ := ih
    exact ⟨base, hbase, (serveAll_append base _ call).symm⟩

theorem ofScheme_eq_ok (made : ofScheme s rate tweaks = .ok f) :
    ∃ blank, s.blank leastRoom (tweaks 0) = .ok blank ∧ f = ⟨rate, [], blank, tweaks, 1⟩ := by
  rw [ofScheme] at made
  cases hblank : s.blank leastRoom (tweaks 0) with
  | error e =>
    rw [hblank] at made
    cases made
  | ok blank =>
    rw [hblank] at made
    exact ⟨blank, rfl, (Except.ok.inj made).symm⟩

@[simp] theorem addresses_reloadBy (f : AddressFilter) : (f.reloadBy s).addresses = f.addresses := by
  rw [reloadBy]
  split <;> rfl

@[simp] theorem tweaks_reloadBy (f : AddressFilter) : (f.reloadBy s).tweaks = f.tweaks := by
  rw [reloadBy]
  split <;> rfl

@[simp] theorem rate_reloadBy (f : AddressFilter) : (f.reloadBy s).rate = f.rate := by
  rw [reloadBy]
  split <;> rfl

theorem addresses_serveAll (hempty : f.addresses = []) (calls : List Call) :
    (f.serveAll s calls).addresses = watched calls := by
  induction calls using List.reverseRecOn with
  | nil => exact hempty
  | append_singleton calls call ih =>
    rw [serveAll_append]
    cases call with
    | watch address => rw [watched_append_watch, ← ih]; rfl
    | reload => rw [watched_append_reload, ← ih]; exact addresses_reloadBy _

theorem tweaks_serveAll (f : AddressFilter) (calls : List Call) : (f.serveAll s calls).tweaks = f.tweaks := by
  induction calls using List.reverseRecOn with
  | nil => rfl
  | append_singleton calls call ih =>
    rw [serveAll_append]
    cases call with
    | watch address => exact ih
    | reload => exact (tweaks_reloadBy _).trans ih

/-! ## What a reload puts in, and what stays in -/

/-- The addresses are watched, and in the filter. -/
def Covers (s : Bloom.Scheme) (addresses : List Bytes) (f : AddressFilter) : Prop :=
  ∀ address ∈ addresses, address ∈ f.addresses ∧ f.filter.containsBy s.hashOf address = true

/-- An accepted reload builds its filter from zeros, with the addresses in any order. -/
theorem reloadBy_of_accepts (f : AddressFilter) (accepted : s.Accepts f.room) :
    ∃ size hashCount blank, s.dimensions f.room = .ok (size, hashCount) ∧
      blank.toLoad = FilterLoad.zeros size hashCount (f.tweaks f.drawn) ∧
      (f.reloadBy s).filter = f.addresses.foldl (Bloom.addBy s.hashOf) blank := by
  obtain ⟨size, hashCount, hdimensions, hsize, hcount⟩ := accepted
  obtain ⟨blank, hblank, hload⟩ := Bloom.Scheme.blank_of_dimensions hdimensions hsize hcount (f.tweaks f.drawn)
  refine ⟨size, hashCount, blank, hdimensions, hload, ?_⟩
  rw [reloadBy, hblank]

theorem covers_reloadBy (f : AddressFilter) (accepted : s.Accepts f.room) :
    Covers s f.addresses (f.reloadBy s) := by
  intro address hwatched
  obtain ⟨_, _, blank, -, -, hfilter⟩ := reloadBy_of_accepts f accepted
  rw [addresses_reloadBy, hfilter]
  exact ⟨hwatched, Bloom.containsBy_foldl s.hashOf hwatched blank⟩

/-- No call takes an address out: a watch leaves the filter alone, a refused reload does too, and an
accepted one puts every watched address into the next filter. -/
theorem Covers.serve {addresses : List Bytes} (h : Covers s addresses f) (call : Call) :
    Covers s addresses (f.serve s call) := by
  intro address haddress
  obtain ⟨hwatched, hheld⟩ := h address haddress
  cases call with
  | watch other => exact ⟨List.mem_insert_of_mem hwatched, hheld⟩
  | reload =>
    refine ⟨(addresses_reloadBy f).symm ▸ hwatched, ?_⟩
    rw [AddressFilter.serve, reloadBy]
    split
    · exact Bloom.containsBy_foldl s.hashOf hwatched _
    · exact hheld

theorem Covers.serveAll {addresses : List Bytes} (calls : List Call) (h : Covers s addresses f) :
    Covers s addresses (f.serveAll s calls) := by
  induction calls generalizing f with
  | nil => exact h
  | cons call calls ih => exact ih (h.serve call)

/-- **A loaded filter never misses a watched address.** Take any scheme, any tweaks and any calls that
end with a reload whose dimensions a filter can have. Whatever is called after it, every address that was
watched before it is held, by the filter and by the bytes of the load message alike. No look-up, at any
time, runs past those bytes, nor does building them from zeros, whatever order the addresses come in. -/
theorem watched_held (served : Serves s rate tweaks (before ++ [.reload]) f)
    (accepted : s.Accepts (roomAfter before)) (after : List Call) :
    (∀ address, .watch address ∈ before →
      (f.serveAll s after).filter.containsBy s.hashOf address = true ∧
      ∃ load, (f.serveAll s after).loadMessage = .filterLoad load ∧
        load.lookUp? s.hashOf address = some true) ∧
    (∀ calls g, Serves s rate tweaks calls g → ∀ data,
      g.filter.toLoad.lookUp? s.hashOf data = some (g.filter.containsBy s.hashOf data)) ∧
    ∀ arranged : List Bytes, arranged.Perm (watched before) → ∃ size hashCount drawn,
      s.dimensions (roomAfter before) = .ok (size, hashCount) ∧
      arranged.foldlM (FilterLoad.add? s.hashOf) (.zeros size hashCount (tweaks drawn)) =
        some f.filter.toLoad := by
  obtain ⟨base, hbase, rfl⟩ := served.replayed
  obtain ⟨_, -, hempty⟩ := ofScheme_eq_ok hbase
  have haddresses : (base.serveAll s before).addresses = watched before :=
    addresses_serveAll (congrArg addresses hempty) before
  have hroom : (base.serveAll s before).room = roomAfter before := by
    rw [room, haddresses, roomAfter]
  have htweaks : (base.serveAll s before).tweaks = tweaks :=
    (tweaks_serveAll base before).trans (congrArg AddressFilter.tweaks hempty)
  rw [← hroom] at accepted
  rw [serveAll_append]
  have hcovers : Covers s (watched before) (((base.serveAll s before).reloadBy s).serveAll s after) :=
    Covers.serveAll after (haddresses ▸ covers_reloadBy _ accepted)
  refine ⟨fun address hwatch => ?_, fun _ g _ => FilterLoad.lookUp?_toLoad s.hashOf g.filter,
    fun arranged hperm => ?_⟩
  · have hheld := (hcovers address ((mem_watched before).2 hwatch)).2
    exact ⟨hheld, _, rfl, (FilterLoad.lookUp?_toLoad s.hashOf _ address).trans (congrArg some hheld)⟩
  · obtain ⟨size, hashCount, blank, hdimensions, hzeros, hfilter⟩ := reloadBy_of_accepts _ accepted
    refine ⟨size, hashCount, (base.serveAll s before).drawn, hroom ▸ hdimensions, ?_⟩
    rw [← htweaks, ← hzeros, FilterLoad.foldlM_add?_toLoad, Bloom.foldl_addBy_perm s.hashOf hperm, ← haddresses]
    exact congrArg (fun filter => some filter.toLoad) hfilter.symm

end

end AddressFilter

namespace Sample

/-- Three hashes over bits that leave the last byte part empty: thirteen of them, or five more for each
address past the first sixteen. -/
def thirteenBits : Bloom.Scheme where
  dimensions room := .ok (13 + 5 * (room - AddressFilter.leastRoom), 3)
  hashOf := Bloom.hashOf

def tweakOf (drawn : Nat) : UInt32 := UInt32.ofNat (7 * drawn + 1)

def unwatched : AddressFilter :=
  ⟨0.01, [], ⟨13, 3, tweakOf 0, by decide, by decide, Vector.replicate 13 false, 0⟩, tweakOf, 1⟩

def wallet : List AddressFilter.Call := [.watch [1, 2], .reload, .watch [3], .watch [1, 2]]

def walletFilter : AddressFilter :=
  ((((unwatched.watch [1, 2]).reloadBy thirteenBits).watch [3]).watch [1, 2]).reloadBy thirteenBits

theorem serves_walletFilter :
    AddressFilter.Serves thirteenBits 0.01 tweakOf (wallet ++ [.reload]) walletFilter :=
  have hmade : AddressFilter.ofScheme thirteenBits 0.01 tweakOf = .ok unwatched := rfl
  (((((AddressFilter.Serves.bare hmade).call (.watch [1, 2])).call .reload).call (.watch [3])).call
    (.watch [1, 2])).call .reload

end Sample

namespace AddressFilter

open Sample in
theorem watched_held_thirteenBits :
    Serves thirteenBits 0.01 tweakOf (wallet ++ [.reload]) walletFilter ∧
      thirteenBits.Accepts (roomAfter wallet) ∧
      (walletFilter.serveAll thirteenBits [.watch [4]]).filter.containsBy thirteenBits.hashOf [3] = true ∧
      ∃ drawn, [[3], [1, 2]].foldlM (FilterLoad.add? thirteenBits.hashOf) (.zeros 13 3 (tweakOf drawn)) =
        some walletFilter.filter.toLoad := by
  have accepted : thirteenBits.Accepts (roomAfter wallet) := ⟨13, 3, rfl, by decide, by decide⟩
  obtain ⟨hheld, -, hbytes⟩ := watched_held serves_walletFilter accepted [.watch [4]]
  obtain ⟨size, hashCount, drawn, hdimensions, hbuilt⟩ := hbytes [[3], [1, 2]] (by decide)
  obtain ⟨rfl, rfl⟩ : 13 = size ∧ 3 = hashCount := by
    simpa using (Except.ok.inj hdimensions : (13, 3) = (size, hashCount))
  exact ⟨serves_walletFilter, accepted, (hheld [3] (by decide)).1, drawn, hbuilt⟩

open Sample in
example : walletFilter.filter.containsBy thirteenBits.hashOf [4] = false := by decide +kernel

/-! ## The running filter -/

def run (f : AddressFilter) : Call → AddressFilter
  | .watch address => f.watch address
  | .reload => f.reload

/-- The calls of a filter that goes by its rate are calls under the scheme of that rate. -/
theorem foldl_run_eq (f : AddressFilter) (calls : List Call) :
    calls.foldl run f = f.serveAll (.ofRate f.rate) calls := by
  induction calls generalizing f with
  | nil => rw [List.foldl_nil, serveAll, List.foldl_nil]
  | cons call calls ih =>
    rw [List.foldl_cons, ih, serveAll, serveAll, List.foldl_cons]
    cases call with
    | watch address => rw [run, serve, watch]
    | reload => rw [run, serve, reload, rate_reloadBy]

end AddressFilter
end LightClient
