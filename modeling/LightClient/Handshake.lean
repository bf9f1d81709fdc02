import LightClient.Message
import LightClient.Settings
/-!
# The handshake

Only peers that speak a recent version and serve filtered blocks are admitted.
-/
namespace LightClient

/-- The bit by which a node says that it serves filtered blocks. -/
def filterService : UInt64 := 4

/-- What we announce about ourselves: no service, and no wish for unfiltered transactions. -/
def Settings.localVersion (s : Settings) (height : Nat) (timestamp : UInt64) : Version where
  version := protocolVersion
  services := 0
  timestamp := timestamp
  port := s.network.clientPort
  nonce := s.network.clientId
  height := height
  relay := false

def Version.check (v : Version) (least : UInt32) : Except Fault Unit :=
  if v.version < least then
    .error (.incompatiblePeer
      ("peer version " ++ toString v.version.toNat ++ " is below required " ++ toString least.toNat))
  else if v.services &&& filterService = 0 then
    .error (.incompatiblePeer "SPV service not enabled on connected peer")
  else .ok ()

end LightClient
