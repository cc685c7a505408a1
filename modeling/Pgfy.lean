import Pgfy.Calls
import Pgfy.Framework.Calendar
import Pgfy.Framework.Concurrent
import Pgfy.Framework.Program
import Pgfy.Framework.Series
import Pgfy.Framework.Table
import Pgfy.Framework.Text
import Pgfy.Framework.Json
import Pgfy.Framework.Netip
import Pgfy.Framework.NetipText
import Pgfy.Jobs.Alone
import Pgfy.Jobs.Deletes
import Pgfy.Jobs.History
import Pgfy.Jobs.NewestKept
import Pgfy.Jobs.Provenance
import Pgfy.Jobs.Queue
import Pgfy.Jobs.Recording
import Pgfy.Jobs.Removals
import Pgfy.Jobs.Retention
import Pgfy.Jobs.Select
import Pgfy.Jobs.View
import Pgfy.Jobs.World
import Pgfy.Storage.Client
import Pgfy.Storage.Layout
import Pgfy.Storage.Listing
import Pgfy.Store.Auth
import Pgfy.Security.Totp
import Pgfy.Store.Backups
import Pgfy.Store.Copies
import Pgfy.Store.Migrations
import Pgfy.Store.Deletion
import Pgfy.Store.Jobs
import Pgfy.Store.Projects
import Pgfy.Store.Schema
import Pgfy.Site.State
import Pgfy.Site.History
import Pgfy.Httpapi.Auth
import Pgfy.SignIn.Steps
import Pgfy.SignIn.Effects
import Pgfy.SignIn.Codes
import Pgfy.SignIn.Sessions
import Pgfy.SignIn.Journals
import Pgfy.SignIn.Lockout
import Pgfy.SignIn.Reset
import Pgfy.Jobs.Kept
import Pgfy.Storage.Publication
import Pgfy.Storage.ManifestSize
import Pgfy.Postgres.Management
import Pgfy.Hba
import Pgfy.Store.Alerts
import Pgfy.Alerts.Engine
import Pgfy.Alerts.Messages
import Pgfy.Alerts.Receivers
import Pgfy.Store.Schedule
import Pgfy.Jobs.Schedule
import Pgfy.Jobs.Fairness
import Pgfy.Jobs.Fresh
import Pgfy.Jobs.Directories
import Pgfy.Jobs.Replaced
import Pgfy.Jobs.Backoff
import Pgfy.Jobs.Cached
import Pgfy.SignIn.Lineage
import Pgfy.SignIn.Enrolment
import Pgfy.Jobs.Tool
import Pgfy.Jobs.Restore
import Pgfy.Jobs.Diagnostics
import Pgfy.Httpapi.Frozen
import Pgfy.Framework.Ownership
import Pgfy.Provision.Apply
import Pgfy.Provision.Provisioner
import Pgfy.Provision.Limits
import Pgfy.Provision.LimitRuns
import Pgfy.Provision.LimitNotes
import Pgfy.Provision.Overrides
import Pgfy.Framework.Triple
import Pgfy.Framework.Window
import Pgfy.Httpapi.Limiter
import Pgfy.Deploy.Host
import Pgfy.Deploy.Installer
import Pgfy.Deploy.Standing
import Pgfy.Deploy.Rollback
import Pgfy.Deploy.Update
import Pgfy.Deploy.Killed
import Pgfy.Deploy.Outcome
import Pgfy.Deploy.Versions
import Pgfy.Deploy.Access
import Pgfy.Storage.Classification
import Pgfy.Storage.Target
import Pgfy.Httpapi.Paging
import Pgfy.Httpapi.Backups
import Pgfy.Httpapi.Allowlist
