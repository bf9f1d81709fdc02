import LightClient.Bloom
/-!
# The filter over the wallet's addresses

Peers forward the transactions that this filter holds. It is rebuilt from the watched addresses with
a fresh tweak, so that a transaction which the old filter let through by mistake stops passing. An
address that is added counts from the next rebuild on.
-/
namespace LightClient

structure AddressFilter where
  rate : Float
  addresses : List Bytes
  filter : Bloom
  /-- The tweaks of the filters to come. -/
  tweaks : Nat → UInt32
  drawn : Nat

namespace AddressFilter

def leastRoom : Nat := 16

def watch (f : AddressFilter) (address : Bytes) : AddressFilter :=
  { f with addresses := f.addresses.insert address }

/-- The number of elements that the next filter gets room for. -/
def room (f : AddressFilter) : Nat := max f.addresses.length leastRoom

/-! ## Under any scheme -/

section
variable (s : Bloom.Scheme)

/-- A filter over no address; its tweak is the first one drawn. -/
def ofScheme (rate : Float) (tweaks : Nat → UInt32) : Except FilterError AddressFilter :=
  (s.blank leastRoom (tweaks 0)).map fun filter => ⟨rate, [], filter, tweaks, 1⟩

/-- Rebuilds the filter from the watched addresses, under the next tweak. -/
def reloadBy (f : AddressFilter) : AddressFilter :=
  match s.blank f.room (f.tweaks f.drawn) with
  | .ok blank => { f with filter := f.addresses.foldl (Bloom.addBy s.hashOf) blank, drawn := f.drawn + 1 }
  | .error _ => f

def ofAddressesBy (rate : Float) (addresses : List Bytes) (tweaks : Nat → UInt32) :
    Except FilterError AddressFilter :=
  (ofScheme s rate tweaks).map fun f => (addresses.foldl watch f).reloadBy s

end

/-! ## Under the scheme of the rate -/

def ofRate (rate : Float) (tweaks : Nat → UInt32) : Except FilterError AddressFilter :=
  ofScheme (.ofRate rate) rate tweaks

def reload (f : AddressFilter) : AddressFilter := f.reloadBy (.ofRate f.rate)

def ofAddresses (rate : Float) (addresses : List Bytes) (tweaks : Nat → UInt32) :
    Except FilterError AddressFilter :=
  ofAddressesBy (.ofRate rate) rate addresses tweaks

def contains (f : AddressFilter) (address : Bytes) : Bool := f.filter.contains address

def tweak (f : AddressFilter) : UInt32 := f.filter.tweak

def loadMessage (f : AddressFilter) : Message := .filterLoad f.filter.toLoad

end AddressFilter
end LightClient
