import Ngcorion.Text
import Ngcorion.Dict
import Ngcorion.UnifiedDiff
import Ngcorion.Backup.ConfigTree
import Ngcorion.Backup.FileBundle
import Ngcorion.Backup.FortiOS
import Ngcorion.Backup.FortiDevice
import Ngcorion.Backup.FortiRestore
import Ngcorion.Backup.Changes
import Ngcorion.Nginx.Commit
import Ngcorion.Backup.RestoreSafety
import Ngcorion.Backup.CiscoDevice
import Ngcorion.Backup.CiscoCompare
import Ngcorion.Backup.CiscoRestore
import Ngcorion.Backup.CiscoKept
import Ngcorion.Backup.CiscoConverge
import Ngcorion.Hardening.ParamSecurity
import Ngcorion.Hardening.CliParameters
import Ngcorion.Hardening.CliSafety
import Ngcorion.Shell
import Ngcorion.ShellFill
import Ngcorion.Hardening.LinuxParameters
import Ngcorion.Hardening.ShellParameters
import Ngcorion.Advisories.DebVersions
import Ngcorion.Advisories.RpmVersions
import Ngcorion.Backup.CiscoOrder
import Ngcorion.Backup.FortiPrint
import Ngcorion.Octets
import Ngcorion.Sysbackup.Container
import Ngcorion.Sysbackup.Written
import Ngcorion.Sysbackup.RoundTrip
import Ngcorion.Sysbackup.TamperEvident
import Ngcorion.Auth.ResetCodes
import Ngcorion.Refusal
import Ngcorion.Users.Accounts
import Ngcorion.Users.Delegation
import Ngcorion.Advisories.OsvRecords
import Ngcorion.Advisories.OsvSync
import Ngcorion.Advisories.OsvCurrent
import Ngcorion.Auth.Sessions
import Ngcorion.Auth.SessionWorth
import Ngcorion.Auth.Totp
import Ngcorion.Auth.TwoStep
import Ngcorion.Users.LastAdmin
import Ngcorion.Auth.Throttle
import Ngcorion.Core.TlsPins
import Ngcorion.Core.Singleton
import Ngcorion.Remediation.Items
import Ngcorion.Remediation.Evidence
import Ngcorion.Remediation.Acceptances
import Ngcorion.AuditPolicy.Scoring
import Ngcorion.AuditPolicy.Settling
import Ngcorion.AuditPolicy.Settled
import Ngcorion.Faults
import Ngcorion.Sysbackup.SelfRestore
import Ngcorion.Noc.Links
import Ngcorion.Noc.Sweeps
import Ngcorion.Noc.Again
import Ngcorion.Noc.Cables
import Ngcorion.Sed
import Ngcorion.Hardening.ServiceParameters
import Ngcorion.Alerts.SendPending
import Ngcorion.Core.HostKeys
import Ngcorion.Scheduling.Recurrence
import Ngcorion.Scheduling.Claims
import Ngcorion.Scheduling.Reschedule
import Ngcorion.Grouping
import Ngcorion.Noc.Rollups
import Ngcorion.Cve.CveStore
import Ngcorion.Cve.Convergence
import Ngcorion.Cve.NvdUpdate
import Ngcorion.License.Entitlement
import Ngcorion.License.Rejection
import Ngcorion.Remediation.AuditRisk
import Ngcorion.Cve.OfflineFollows
import Ngcorion.Alerts.Matched
import Ngcorion.License.AssetLimit
import Ngcorion.Syslog.Intake
import Ngcorion.Syslog.NothingLost
import Ngcorion.Syslog.RateLimit
import Ngcorion.AssetGroups.GroupRuns
import Ngcorion.AssetGroups.StopFinal
import Ngcorion.Syslog.ChangesBackedUp
import Ngcorion.Advisories.OsvRanges
import Ngcorion.BlockGrammar
import Ngcorion.Cve.CpeVersions
import Ngcorion.Nginx.Conf
import Ngcorion.Nginx.Grammar
import Ngcorion.Nginx.Render
import Ngcorion.Nginx.LineEdits
import Ngcorion.Backup.BundleRevert
import Ngcorion.Core.KnownHosts
import Ngcorion.Advisories.DebOrder
import Ngcorion.Advisories.PackageVersions
import Ngcorion.Cve.Recommend
import Ngcorion.Cve.StepVersions
import Ngcorion.Advisories.AdvisoryUpgrade
import Ngcorion.Json
import Ngcorion.Cve.EpssCsv
import Ngcorion.Cve.PackageFile
import Ngcorion.Cve.PackageGenuine
import Ngcorion.Hardening.HardenAll
import Ngcorion.Gregorian
import Ngcorion.LocalTime
import Ngcorion.Selection
import Ngcorion.Sysbackup.Schedule
import Ngcorion.Sysbackup.Retention
import Ngcorion.Backup.RestorablePaths
import Ngcorion.Reports.Calendar
import Ngcorion.Reports.Periods
import Ngcorion.ZoneInfo
import Ngcorion.Alerts.SmsLimit
import Ngcorion.Csv
import Ngcorion.IsoTime
import Ngcorion.AuditTrail.AuditArchive
import Ngcorion.Backup.CiscoBanners
import Ngcorion.Backup.Fingerprint
import Ngcorion.Backup.BannerRestore
import Ngcorion.Noc.Lldp
import Ngcorion.Noc.LostLinks
import Ngcorion.Remediation.Resync
import Ngcorion.Syslog.YearGuess
import Ngcorion.Hardening.BenchmarkFixes
import Ngcorion.Hardening.WindowsParameters
import Ngcorion.Noc.Whereabouts
import Ngcorion.Architecture.Unfiltered
import Ngcorion.Architecture.CutOff
