import LightClient.Proofs.Toml.Layers
import LightClient.Settings.Load
/-!
# Saved settings are loaded again

Every setting has its entry in the saved file, so that nothing below it shows through (`Settings.ofValue?_addLayer`),
and the file is read as it was written (`Settings.parse_save`). All that is lost is what a span has beyond whole seconds
(`Settings.truncated`).

Loading checks what it has read once more. Only one span has to be positive, and it may have become zero: settings that
look for news more often than once a second are valid and can be saved, but they are not loaded again
(`Settings.load_save`).
-/
namespace LightClient

open Toml (Value overlayAll entryValue)

/-! ## Reading settings back -/

/-- Settings as they are kept in a file, where spans are whole seconds. -/
def SyncSettings.truncated (s : SyncSettings) : SyncSettings :=
  { s with
    updateInterval := s.updateInterval / second * second
    orphanLifetime := s.orphanLifetime / second * second
    falsePositiveWindow := s.falsePositiveWindow / second * second
    faultCooldown := s.faultCooldown / second * second }

def Settings.truncated (s : Settings) : Settings := { s with sync := s.sync.truncated }

def NetworkSettings.keys : List String :=
  ["magic", "seed_list", "spv_server_port", "spv_client_port", "min_protocol_version", "client_id"]

theorem NetworkSettings.keys_fields (s : NetworkSettings) : s.fields.map Prod.fst = keys := rfl

theorem NetworkSettings.nodup_keys (s : NetworkSettings) : (s.fields.map Prod.fst).Nodup := by
  rw [keys_fields]
  decide

theorem NetworkSettings.ofValue?_overlayAll (s : NetworkSettings) (old : Value) :
    NetworkSettings.ofValue? (overlayAll old (s.fields.map entryValue)) = some s := by
  have hcount := Toml.countAt?_overlayAll_fields s.nodup_keys old
  have hmagic := hcount "magic" s.magic.toNat (by simp [fields]) 0
  have hseeds := Toml.setting?_overlayAll_fields s.nodup_keys old "seed_list" (.strings s.seeds) (by simp [fields]) 1
  have hserver := hcount "spv_server_port" s.serverPort.toNat (by simp [fields]) 2
  have hclient := hcount "spv_client_port" s.clientPort.toNat (by simp [fields]) 3
  have hversion := hcount "min_protocol_version" s.minVersion.toNat (by simp [fields]) 4
  have hid := hcount "client_id" s.clientId.toNat (by simp [fields]) 5
  simp only [ofValue?, hmagic, hseeds, hserver, hclient, hversion, hid, Toml.texts?_strings, Option.bind_eq_bind,
    Option.bind_some, UInt16.ofNat_toNat, UInt32.ofNat_toNat, UInt64.ofNat_toNat]
  rfl

def SyncSettings.keys : List String :=
  ["info_update_interval", "keep_alive_multiplier", "max_orphans", "orphan_ttl", "tx_cache_size",
    "false_positive_threshold", "false_positive_window", "peer_fault_cooldown"]

theorem SyncSettings.keys_fields (s : SyncSettings) : s.fields.map Prod.fst = keys := rfl

theorem SyncSettings.nodup_keys (s : SyncSettings) : (s.fields.map Prod.fst).Nodup := by
  rw [keys_fields]
  decide

theorem SyncSettings.ofValue?_overlayAll (s : SyncSettings) (old : Value) :
    SyncSettings.ofValue? (overlayAll old (s.fields.map entryValue)) = some s.truncated := by
  have hcount := Toml.countAt?_overlayAll_fields s.nodup_keys old
  have hinterval := hcount "info_update_interval" (s.updateInterval / second) (by simp [fields]) 0
  have hmultiplier := hcount "keep_alive_multiplier" s.keepAliveMultiplier.toNat (by simp [fields]) 1
  have horphans := hcount "max_orphans" s.maxOrphans.toNat (by simp [fields]) 2
  have hlifetime := hcount "orphan_ttl" (s.orphanLifetime / second) (by simp [fields]) 3
  have hcache := hcount "tx_cache_size" s.txCacheSize.toNat (by simp [fields]) 4
  have hthreshold := hcount "false_positive_threshold" s.falsePositiveThreshold.toNat (by simp [fields]) 5
  have hwindow := hcount "false_positive_window" (s.falsePositiveWindow / second) (by simp [fields]) 6
  have hcooldown := hcount "peer_fault_cooldown" (s.faultCooldown / second) (by simp [fields]) 7
  simp only [ofValue?, hinterval, hmultiplier, horphans, hlifetime, hcache, hthreshold, hwindow, hcooldown,
    Option.bind_eq_bind, Option.bind_some, UInt32.ofNat_toNat, UInt64.ofNat_toNat]
  rfl

theorem Settings.layer_eq (s : Settings) :
    s.layer =
      [("network", .table (s.network.fields.map entryValue)), ("sync", .table (s.sync.fields.map entryValue))] :=
  rfl

/-- Settings laid over any value can be read from it. -/
theorem Settings.ofValue?_addLayer (s : Settings) (under : Value) :
    Settings.ofValue? (Toml.addLayer under s.layer) = some s.truncated := by
  have hplaces : ∀ e ∈ s.layer, Toml.placeOf e.1 = [.key e.1] := by
    have hnetwork : Toml.placeOf "network" = [.key "network"] := by decide
    have hsync : Toml.placeOf "sync" = [.key "sync"] := by decide
    rw [s.layer_eq, List.forall_mem_cons, List.forall_mem_singleton]
    exact ⟨hnetwork, hsync⟩
  have hkeys : (s.layer.map Prod.fst).Nodup := by
    show ["network", "sync"].Nodup
    decide
  have hnetwork := Toml.get?_overlayAll "network" hkeys under
  have hsync := Toml.get?_overlayAll "sync" hkeys under
  have hfirst : (Value.table s.layer).get? "network" = some (.table (s.network.fields.map entryValue)) := rfl
  have hlast : (Value.table s.layer).get? "sync" = some (.table (s.sync.fields.map entryValue)) := rfl
  rw [hfirst] at hnetwork
  rw [hlast] at hsync
  simp only [Toml.overlay] at hnetwork hsync
  rw [Toml.addLayer_eq_overlayAll hplaces, Settings.ofValue?, hnetwork, hsync]
  simp only [Option.bind_eq_bind, Option.bind_some, NetworkSettings.ofValue?_overlayAll,
    SyncSettings.ofValue?_overlayAll]
  rfl

/-! ## Saving -/

theorem Settings.arePlain_sections (s : Settings) : Toml.ArePlain s.sections where
  bare := by
    have hnames : Toml.IsBare "network" ∧ Toml.IsBare "sync" := by decide
    have hnetwork : ∀ key ∈ NetworkSettings.keys, Toml.IsBare key := by decide
    have hsync : ∀ key ∈ SyncSettings.keys, Toml.IsBare key := by decide
    rw [← s.network.keys_fields, List.forall_mem_map] at hnetwork
    rw [← s.sync.keys_fields, List.forall_mem_map] at hsync
    rw [sections, List.forall_mem_cons, List.forall_mem_singleton]
    exact ⟨⟨hnames.1, hnetwork⟩, ⟨hnames.2, hsync⟩⟩
  names := by
    show ["network", "sync"].Nodup
    decide
  keys := by
    rw [sections, List.forall_mem_cons, List.forall_mem_singleton]
    exact ⟨s.network.nodup_keys, s.sync.nodup_keys⟩

theorem Settings.parse_save {s : Settings} {text : String} (h : s.save = .ok text) :
    Toml.parse text = some s.layer := by
  unfold save at h
  split at h
  · rename_i hwrite
    obtain rfl := Except.ok.inj h
    exact Toml.parse_write s.arePlain_sections hwrite
  · cases h

/-! ## Loading -/

theorem SyncSettings.validate_truncated {s : SyncSettings} (h : s.validate = .ok ()) :
    s.truncated.validate =
      if s.updateInterval < second then .error (mustBePositive "info_update_interval") else .ok () := by
  have hcut : s.updateInterval / second * second = 0 ↔ s.updateInterval < second := by
    rw [Nat.mul_eq_zero, Nat.div_eq_zero_iff]
    simp [second]
  by_cases hshort : s.updateInterval < second
  · rw [if_pos hshort, validate]
    exact if_pos (hcut.2 hshort)
  · have hlong : s.truncated.updateInterval ≠ 0 := fun hzero => hshort (hcut.1 hzero)
    unfold validate at h
    split at h
    · cases h
    · rw [if_neg hshort, validate, if_neg hlong]
      exact h

theorem Environment.layer_eq_nil {vars : List (String × String)} (h : ∀ v ∈ vars, keyOf? v.1 = none) :
    layer vars = [] := by
  rw [layer, List.filterMap_eq_nil_iff]
  intro v hv
  rw [h v hv]
  rfl

theorem Settings.validate_iff {s : Settings} :
    s.validate = .ok () ↔ s.network.validate = .ok () ∧ s.sync.validate = .ok () := by
  unfold validate
  cases s.network.validate with
  | error e => simp [bind, Except.bind]
  | ok u => simp [bind, Except.bind]

/-- **Saved settings are loaded again, with their spans cut to whole seconds, unless the first of these becomes zero.**
What lies below them does not matter, as the file has every setting. -/
theorem Settings.load_save {s : Settings} {text : String} (hvalid : s.validate = .ok ()) (hsave : s.save = .ok text)
    (defaults : Settings) {vars : List (String × String)} (hvars : ∀ v ∈ vars, Environment.keyOf? v.1 = none) :
    load defaults (.text text) vars =
      if s.sync.updateInterval < SyncSettings.second then .error (SyncSettings.mustBePositive "info_update_interval")
      else .ok s.truncated := by
  have hlayers : Settings.ofValue? ([defaults.layer, s.layer, []].foldl Toml.addLayer (.table [])) = some s.truncated :=
    s.ofValue?_addLayer _
  have hvalidate : s.truncated.validate = s.sync.truncated.validate := by
    have hnetwork : s.truncated.network.validate = .ok () := (validate_iff.1 hvalid).1
    rw [validate, hnetwork]
    rfl
  simp only [load, SettingsFile.layer?, parse_save hsave, Environment.layer_eq_nil hvars, hlayers, hvalidate,
    SyncSettings.validate_truncated (validate_iff.1 hvalid).2]
  split <;> rfl

/-- Valid settings that look for news every half second. -/
def Settings.hasty : Settings where
  network := { NetworkSettings.default 7 with seeds := ["[::1]:20338", "a\"b"] }
  sync := { SyncSettings.default with updateInterval := 500 }

def Settings.hastyText : String :=
  String.ofList <| List.flatMap (·.toList ++ ['\n'])
    ["[network]", "magic = 7630401", "seed_list = [", "    \"[::1]:20338\",", "    'a\"b',", "]",
      "spv_server_port = 20866", "spv_client_port = 20867", "min_protocol_version = 1", "client_id = 7", "",
      "[sync]", "info_update_interval = 0", "keep_alive_multiplier = 3", "max_orphans = 1024", "orphan_ttl = 1800",
      "tx_cache_size = 4096", "false_positive_threshold = 7", "false_positive_window = 600",
      "peer_fault_cooldown = 600"]

theorem Settings.load_save_hasty :
    hasty.validate = .ok () ∧ hasty.save = .ok hastyText ∧ Environment.keyOf? "PATH" = none ∧
      load (.default 8) (.text hastyText) [("PATH", "/bin")] =
        .error (.invalidValue "sync.info_update_interval must be greater than 0") := by
  have hvalid : hasty.validate = .ok () := rfl
  have hwrite : Toml.write hasty.sections = some hastyText := by
    refine congrArg (fun cs => some (String.ofList cs)) ?_
    decide +kernel
  have hsave : hasty.save = .ok hastyText := by rw [save, hwrite]
  have hpath : ∀ v ∈ [("PATH", "/bin")], Environment.keyOf? v.1 = none := by decide
  exact ⟨hvalid, hsave, hpath _ (List.mem_singleton.2 rfl), load_save hvalid hsave (.default 8) hpath⟩

end LightClient
