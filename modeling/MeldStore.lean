import MeldStore.Library.Checked
import MeldStore.Library.Keyed
import MeldStore.Library.Json
import MeldStore.Library.Json.Decode
import MeldStore.Catalog.Effects
import MeldStore.Deletion
import MeldStore.Query.Paging
import MeldStore.Readiness
import MeldStore.Migrations.ExactlyOnce
import MeldStore.Migrations.DryRun
import MeldStore.Resolution
import MeldStore.Identity
import MeldStore.Creation.ExactlyOnce
import MeldStore.Updates
import MeldStore.Guards
import MeldStore.Backup.Manifest
import MeldStore.Creation.Retry
import MeldStore.Maintenance.Cleanup
import MeldStore.Payload
import MeldStore.Upload
import MeldStore.Exporting
import MeldStore.S3Storage
import MeldStore.Timestamp.Calendar
import MeldStore.Codecs
import MeldStore.Names
import MeldStore.Rebuild
import MeldStore.Installation.Idempotence
import MeldStore.Quoting.Exactness
import MeldStore.Installation.Canonical
import MeldStore.Gate
import MeldStore.Scope.Outcomes
import MeldStore.Access.Exclusion
