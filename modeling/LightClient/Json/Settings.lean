import LightClient.Config
import LightClient.Json.Form

/-! JSON forms of schemas and settings. -/

namespace LightClient

open Json

def Schema.form : Form Schema where
  toJson s := record
    [("service_id", Form.u16.toJson s.serviceId),
      ("service_name", Form.string.toJson s.serviceName),
      ("create_account_message_id", Form.u16.toJson s.createAccountId),
      ("transfer_message_id", Form.u16.toJson s.transferId),
      ("issue_message_id", Form.u16.toJson s.issueId)]
  ofJson? json := do
    let r ← record?
      ["service_id", "service_name", "create_account_message_id", "transfer_message_id",
        "issue_message_id"] json
    return ⟨← r.get .u16 "service_id", ← r.get .string "service_name",
      ← r.get .u16 "create_account_message_id", ← r.get .u16 "transfer_message_id",
      ← r.get .u16 "issue_message_id"⟩

def Config.form : Form Config where
  toJson c := record
    [("network_id", Form.u8.toJson c.networkId),
      ("protocol_version", Form.u8.toJson c.protocolVersion),
      ("schema", Schema.form.toJson c.schema), ("table_index", Form.u16.toJson c.tableIndex),
      ("max_attempts", Form.u32.toJson c.maxAttempts),
      ("poll_interval", Form.u64.toJson c.pollInterval),
      ("node_url", Form.string.toJson c.nodeUrl),
      ("request_timeout", Form.u64.toJson c.requestTimeout)]
  ofJson? json := do
    let r ← record?
      ["network_id", "protocol_version", "schema", "table_index", "max_attempts",
        "poll_interval", "node_url", "request_timeout"] json
    return ⟨← r.get .u8 "network_id", ← r.get .u8 "protocol_version", ← r.get Schema.form "schema",
      ← r.get .u16 "table_index", ← r.get .u32 "max_attempts", ← r.get .u64 "poll_interval",
      ← r.get .string "node_url", ← r.get .u64 "request_timeout"⟩

end LightClient
