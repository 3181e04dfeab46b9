import Ngcorion.Hardening.ParamSecurity

/-!
# The hardening templates for Windows Server

The PowerShell statements that fix a check and those that verify it. Those of the registry checks are made
from the table that the audit reads, too; the others are declared one by one.
-/
namespace WindowsTemplates

open Text ParamSecurity

structure WindowsHardeningTemplate where
  check_id : Str
  statements : List Str
  verify_statements : List Str

def checkId (number : Str) : Str := lit "WIN-2025-" ++ number

/-! ## Registry checks -/

inductive SetValue where
  | dword (n : Int)
  | string (s : Str)

/-- A row of `REGISTRY_CHECKS` that can be fixed -/
structure RegistryCheck where
  section_number : Str
  path : Str
  prop : Str
  set : SetValue

def _LSA : Str := lit "HKLM:\\SYSTEM\\CurrentControlSet\\Control\\Lsa"

def _MSV : Str := lit "HKLM:\\SYSTEM\\CurrentControlSet\\Control\\Lsa\\MSV1_0"

def _NETLOGON : Str := lit "HKLM:\\SYSTEM\\CurrentControlSet\\Services\\Netlogon\\Parameters"

def _WKSTA : Str := lit "HKLM:\\SYSTEM\\CurrentControlSet\\Services\\LanmanWorkstation\\Parameters"

def _SRV : Str := lit "HKLM:\\SYSTEM\\CurrentControlSet\\Services\\LanManServer\\Parameters"

def _POLSYS : Str := lit "HKLM:\\SOFTWARE\\Microsoft\\Windows\\CurrentVersion\\Policies\\System"

def _WINLOGON : Str := lit "HKLM:\\SOFTWARE\\Microsoft\\Windows NT\\CurrentVersion\\Winlogon"

def _TS : Str := lit "HKLM:\\SOFTWARE\\Policies\\Microsoft\\Windows NT\\Terminal Services"

def _DEFENDER : Str := lit "HKLM:\\SOFTWARE\\Policies\\Microsoft\\Windows Defender"

def _WINRM_C : Str := lit "HKLM:\\SOFTWARE\\Policies\\Microsoft\\Windows\\WinRM\\Client"

def _WINRM_S : Str := lit "HKLM:\\SOFTWARE\\Policies\\Microsoft\\Windows\\WinRM\\Service"

def REGISTRY_CHECKS : List RegistryCheck :=
  [⟨lit "1.1.6", lit "HKLM:\\SYSTEM\\CurrentControlSet\\Control\\SAM",
      lit "RelaxMinimumPasswordLengthLimits", .dword 1⟩,
    ⟨lit "2.3.1.2", _LSA, lit "LimitBlankPasswordUse", .dword 1⟩,
    ⟨lit "2.3.2.1", _LSA, lit "SCENoApplyLegacyAuditPolicy", .dword 1⟩,
    ⟨lit "2.3.2.2", _LSA, lit "CrashOnAuditFail", .dword 0⟩,
    ⟨lit "2.3.4.1", lit "HKLM:\\SYSTEM\\CurrentControlSet\\Control\\Print\\Providers\\LanMan Print Services\\Servers",
      lit "AddPrinterDrivers", .dword 1⟩,
    ⟨lit "2.3.5.3", lit "HKLM:\\SYSTEM\\CurrentControlSet\\Services\\NTDS\\Parameters",
      lit "LdapEnforceChannelBinding", .dword 2⟩,
    ⟨lit "2.3.5.4", lit "HKLM:\\SYSTEM\\CurrentControlSet\\Services\\NTDS\\Parameters",
      lit "ldapserverintegrity", .dword 2⟩,
    ⟨lit "2.3.5.6", _NETLOGON, lit "RefusePasswordChange", .dword 0⟩,
    ⟨lit "2.3.6.1", _NETLOGON, lit "RequireSignOrSeal", .dword 1⟩,
    ⟨lit "2.3.6.2", _NETLOGON, lit "SealSecureChannel", .dword 1⟩,
    ⟨lit "2.3.6.3", _NETLOGON, lit "SignSecureChannel", .dword 1⟩,
    ⟨lit "2.3.6.4", _NETLOGON, lit "DisablePasswordChange", .dword 0⟩,
    ⟨lit "2.3.6.5", _NETLOGON, lit "MaximumPasswordAge", .dword 30⟩,
    ⟨lit "2.3.6.6", _NETLOGON, lit "RequireStrongKey", .dword 1⟩,
    ⟨lit "2.3.7.1", _POLSYS, lit "DisableCAD", .dword 0⟩,
    ⟨lit "2.3.7.2", _POLSYS, lit "DontDisplayLastUserName", .dword 1⟩,
    ⟨lit "2.3.7.3", _POLSYS, lit "InactivityTimeoutSecs", .dword 900⟩,
    ⟨lit "2.3.7.6", _WINLOGON, lit "CachedLogonsCount", .string (lit "4")⟩,
    ⟨lit "2.3.7.7", _WINLOGON, lit "PasswordExpiryWarning", .dword 14⟩,
    ⟨lit "2.3.7.8", _WINLOGON, lit "ForceUnlockLogon", .dword 1⟩,
    ⟨lit "2.3.7.9", _WINLOGON, lit "ScRemoveOption", .string (lit "1")⟩,
    ⟨lit "2.3.8.1", _WKSTA, lit "RequireSecuritySignature", .dword 1⟩,
    ⟨lit "2.3.8.2", _WKSTA, lit "EnableSecuritySignature", .dword 1⟩,
    ⟨lit "2.3.8.3", _WKSTA, lit "EnablePlainTextPassword", .dword 0⟩,
    ⟨lit "2.3.9.1", _SRV, lit "AutoDisconnect", .dword 15⟩,
    ⟨lit "2.3.9.2", _SRV, lit "RequireSecuritySignature", .dword 1⟩,
    ⟨lit "2.3.9.3", _SRV, lit "EnableSecuritySignature", .dword 1⟩,
    ⟨lit "2.3.9.4", _SRV, lit "EnableForcedLogOff", .dword 1⟩,
    ⟨lit "2.3.9.5", _SRV, lit "SMBServerNameHardeningLevel", .dword 1⟩,
    ⟨lit "2.3.10.1", _LSA, lit "TurnOffAnonymousBlock", .dword 0⟩,
    ⟨lit "2.3.10.2", _LSA, lit "RestrictAnonymousSAM", .dword 1⟩,
    ⟨lit "2.3.10.3", _LSA, lit "RestrictAnonymous", .dword 1⟩,
    ⟨lit "2.3.10.4", _LSA, lit "DisableDomainCreds", .dword 1⟩,
    ⟨lit "2.3.10.5", _LSA, lit "EveryoneIncludesAnonymous", .dword 0⟩,
    ⟨lit "2.3.10.10", _SRV, lit "RestrictNullSessAccess", .dword 1⟩,
    ⟨lit "2.3.10.13", _LSA, lit "ForceGuest", .dword 0⟩, ⟨lit "2.3.11.1", _LSA, lit "UseMachineId", .dword 1⟩,
    ⟨lit "2.3.11.2", _MSV, lit "allownullsessionfallback", .dword 0⟩,
    ⟨lit "2.3.11.3", lit "HKLM:\\SYSTEM\\CurrentControlSet\\Control\\Lsa\\pku2u", lit "AllowOnlineID", .dword 0⟩,
    ⟨lit "2.3.11.4", lit "HKLM:\\SOFTWARE\\Microsoft\\Windows\\CurrentVersion\\Policies\\System\\Kerberos\\Parameters",
      lit "SupportedEncryptionTypes", .dword 2147483640⟩,
    ⟨lit "2.3.11.5", _LSA, lit "NoLMHash", .dword 1⟩, ⟨lit "2.3.11.7", _LSA, lit "LmCompatibilityLevel", .dword 5⟩,
    ⟨lit "2.3.11.8", lit "HKLM:\\SYSTEM\\CurrentControlSet\\Services\\ldap", lit "LDAPClientIntegrity", .dword 1⟩,
    ⟨lit "2.3.11.10", _MSV, lit "NTLMMinClientSec", .dword 537395200⟩,
    ⟨lit "2.3.11.11", _MSV, lit "NTLMMinServerSec", .dword 537395200⟩,
    ⟨lit "2.3.11.12", _MSV, lit "AuditReceivingNTLMTraffic", .dword 2⟩,
    ⟨lit "2.3.11.13", _NETLOGON, lit "AuditNTLMInDomain", .dword 7⟩,
    ⟨lit "2.3.11.14", _MSV, lit "RestrictSendingNTLMTraffic", .dword 1⟩,
    ⟨lit "2.3.13.1", _POLSYS, lit "ShutdownWithoutLogon", .dword 0⟩,
    ⟨lit "2.3.15.1", lit "HKLM:\\SYSTEM\\CurrentControlSet\\Control\\Session Manager\\Kernel",
      lit "ObCaseInsensitive", .dword 1⟩,
    ⟨lit "2.3.15.2", lit "HKLM:\\SYSTEM\\CurrentControlSet\\Control\\Session Manager",
      lit "ProtectionMode", .dword 1⟩,
    ⟨lit "2.3.17.1", _POLSYS, lit "FilterAdministratorToken", .dword 1⟩,
    ⟨lit "2.3.17.2", _POLSYS, lit "ConsentPromptBehaviorAdmin", .dword 2⟩,
    ⟨lit "2.3.17.3", _POLSYS, lit "ConsentPromptBehaviorUser", .dword 0⟩,
    ⟨lit "2.3.17.4", _POLSYS, lit "EnableInstallerDetection", .dword 1⟩,
    ⟨lit "2.3.17.5", _POLSYS, lit "ValidateAdminCodeSignatures", .dword 0⟩,
    ⟨lit "2.3.17.7", _POLSYS, lit "PromptOnSecureDesktop", .dword 1⟩,
    ⟨lit "2.3.17.8", _POLSYS, lit "EnableVirtualization", .dword 1⟩,
    ⟨lit "18.1.1.1", lit "HKLM:\\SOFTWARE\\Policies\\Microsoft\\Windows\\Personalization",
      lit "NoLockScreenCamera", .dword 1⟩,
    ⟨lit "18.1.1.2", lit "HKLM:\\SOFTWARE\\Policies\\Microsoft\\Windows\\Personalization",
      lit "NoLockScreenSlideshow", .dword 1⟩,
    ⟨lit "18.1.2.2", lit "HKLM:\\SOFTWARE\\Policies\\Microsoft\\InputPersonalization",
      lit "AllowInputPersonalization", .dword 0⟩,
    ⟨lit "18.4.1", _POLSYS, lit "LocalAccountTokenFilterPolicy", .dword 0⟩,
    ⟨lit "18.4.2", lit "HKLM:\\SYSTEM\\CurrentControlSet\\Services\\mrxsmb10", lit "Start", .dword 4⟩,
    ⟨lit "18.4.3", lit "HKLM:\\SYSTEM\\CurrentControlSet\\Services\\LanmanServer\\Parameters", lit "SMB1", .dword 0⟩,
    ⟨lit "18.4.5", lit "HKLM:\\SYSTEM\\CurrentControlSet\\Control\\Session Manager\\kernel",
      lit "DisableExceptionChainValidation", .dword 0⟩,
    ⟨lit "18.4.7", lit "HKLM:\\SYSTEM\\CurrentControlSet\\Control\\SecurityProviders\\WDigest",
      lit "UseLogonCredential", .dword 0⟩,
    ⟨lit "18.5.1", _WINLOGON, lit "AutoAdminLogon", .string (lit "0")⟩,
    ⟨lit "18.5.2", lit "HKLM:\\SYSTEM\\CurrentControlSet\\Services\\Tcpip6\\Parameters",
      lit "DisableIPSourceRouting", .dword 2⟩,
    ⟨lit "18.5.3", lit "HKLM:\\SYSTEM\\CurrentControlSet\\Services\\Tcpip\\Parameters",
      lit "DisableIPSourceRouting", .dword 2⟩,
    ⟨lit "18.5.6", lit "HKLM:\\SYSTEM\\CurrentControlSet\\Services\\NetBT\\Parameters",
      lit "NoNameReleaseOnDemand", .dword 1⟩,
    ⟨lit "18.5.8", lit "HKLM:\\SYSTEM\\CurrentControlSet\\Control\\Session Manager",
      lit "SafeDllSearchMode", .dword 1⟩,
    ⟨lit "18.5.9", _WINLOGON, lit "ScreenSaverGracePeriod", .string (lit "5")⟩,
    ⟨lit "18.5.12", lit "HKLM:\\SYSTEM\\CurrentControlSet\\Services\\Eventlog\\Security",
      lit "WarningLevel", .dword 90⟩,
    ⟨lit "18.6.4.1", lit "HKLM:\\SOFTWARE\\Policies\\Microsoft\\Windows NT\\DNSClient",
      lit "EnableMulticast", .dword 0⟩,
    ⟨lit "18.6.4.4", lit "HKLM:\\SOFTWARE\\Policies\\Microsoft\\Windows NT\\DNSClient",
      lit "EnableMulticast", .dword 0⟩,
    ⟨lit "18.6.7.4", lit "HKLM:\\SYSTEM\\CurrentControlSet\\Services\\LanmanServer\\Parameters",
      lit "EnableMailslots", .dword 0⟩,
    ⟨lit "18.6.8.5", lit "HKLM:\\SOFTWARE\\Policies\\Microsoft\\Windows\\LanmanWorkstation",
      lit "AllowInsecureGuestAuth", .dword 0⟩,
    ⟨lit "18.6.11.2", lit "HKLM:\\SOFTWARE\\Policies\\Microsoft\\Windows\\Network Connections",
      lit "NC_AllowNetBridge_NLA", .dword 0⟩,
    ⟨lit "18.6.11.3", lit "HKLM:\\SOFTWARE\\Policies\\Microsoft\\Windows\\Network Connections",
      lit "NC_ShowSharedAccessUI", .dword 0⟩,
    ⟨lit "18.7.1", lit "HKLM:\\SOFTWARE\\Policies\\Microsoft\\Windows NT\\Printers",
      lit "RegisterSpoolerRemoteRpcEndPoint", .dword 2⟩,
    ⟨lit "18.7.10", lit "HKLM:\\SOFTWARE\\Policies\\Microsoft\\Windows NT\\Printers\\PointAndPrint",
      lit "RestrictDriverInstallationToAdministrators", .dword 1⟩,
    ⟨lit "18.9.4.1", lit "HKLM:\\SOFTWARE\\Microsoft\\Windows\\CurrentVersion\\Policies\\System\\CredSSP\\Parameters",
      lit "AllowEncryptionOracle", .dword 0⟩,
    ⟨lit "18.9.4.2", lit "HKLM:\\SOFTWARE\\Policies\\Microsoft\\Windows\\CredentialsDelegation",
      lit "AllowProtectedCreds", .dword 1⟩,
    ⟨lit "18.9.13.1", lit "HKLM:\\SYSTEM\\CurrentControlSet\\Policies\\EarlyLaunch",
      lit "DriverLoadPolicy", .dword 3⟩,
    ⟨lit "18.9.19.2", lit "HKLM:\\SOFTWARE\\Policies\\Microsoft\\Windows\\Group Policy\\\x7b35378EAC-683F-11D2-A89A-00C04FBBCFA2\x7d",
      lit "NoBackgroundPolicy", .dword 0⟩,
    ⟨lit "18.9.19.3", lit "HKLM:\\SOFTWARE\\Policies\\Microsoft\\Windows\\Group Policy\\\x7b35378EAC-683F-11D2-A89A-00C04FBBCFA2\x7d",
      lit "NoGPOListChanges", .dword 0⟩,
    ⟨lit "18.10.8.2", lit "HKLM:\\SOFTWARE\\Microsoft\\Windows\\CurrentVersion\\Policies\\Explorer",
      lit "NoAutorun", .dword 1⟩,
    ⟨lit "18.10.8.3", lit "HKLM:\\SOFTWARE\\Microsoft\\Windows\\CurrentVersion\\Policies\\Explorer",
      lit "NoDriveTypeAutoRun", .dword 255⟩,
    ⟨lit "18.10.13.1", lit "HKLM:\\SOFTWARE\\Policies\\Microsoft\\Windows\\CloudContent",
      lit "DisableConsumerAccountStateContent", .dword 1⟩,
    ⟨lit "18.10.13.3", lit "HKLM:\\SOFTWARE\\Policies\\Microsoft\\Windows\\CloudContent",
      lit "DisableWindowsConsumerFeatures", .dword 1⟩,
    ⟨lit "18.10.15.1", lit "HKLM:\\SOFTWARE\\Policies\\Microsoft\\Windows\\CredUI",
      lit "DisablePasswordReveal", .dword 1⟩,
    ⟨lit "18.10.15.2", lit "HKLM:\\SOFTWARE\\Microsoft\\Windows\\CurrentVersion\\Policies\\CredUI",
      lit "EnumerateAdministrators", .dword 0⟩,
    ⟨lit "18.10.16.1", lit "HKLM:\\SOFTWARE\\Policies\\Microsoft\\Windows\\DataCollection",
      lit "AllowTelemetry", .dword 1⟩,
    ⟨lit "18.10.26.1.1", lit "HKLM:\\SOFTWARE\\Policies\\Microsoft\\Windows\\EventLog\\Application",
      lit "Retention", .string (lit "0")⟩,
    ⟨lit "18.10.26.1.2", lit "HKLM:\\SOFTWARE\\Policies\\Microsoft\\Windows\\EventLog\\Application",
      lit "MaxSize", .dword 32768⟩,
    ⟨lit "18.10.26.2.1", lit "HKLM:\\SOFTWARE\\Policies\\Microsoft\\Windows\\EventLog\\Security",
      lit "Retention", .string (lit "0")⟩,
    ⟨lit "18.10.26.2.2", lit "HKLM:\\SOFTWARE\\Policies\\Microsoft\\Windows\\EventLog\\Security",
      lit "MaxSize", .dword 196608⟩,
    ⟨lit "18.10.26.3.1", lit "HKLM:\\SOFTWARE\\Policies\\Microsoft\\Windows\\EventLog\\Setup",
      lit "Retention", .string (lit "0")⟩,
    ⟨lit "18.10.26.3.2", lit "HKLM:\\SOFTWARE\\Policies\\Microsoft\\Windows\\EventLog\\Setup",
      lit "MaxSize", .dword 32768⟩,
    ⟨lit "18.10.26.4.1", lit "HKLM:\\SOFTWARE\\Policies\\Microsoft\\Windows\\EventLog\\System",
      lit "Retention", .string (lit "0")⟩,
    ⟨lit "18.10.26.4.2", lit "HKLM:\\SOFTWARE\\Policies\\Microsoft\\Windows\\EventLog\\System",
      lit "MaxSize", .dword 32768⟩,
    ⟨lit "18.10.29.2", lit "HKLM:\\SOFTWARE\\Policies\\Microsoft\\Windows\\Attachment Manager",
      lit "ScanWithAntiVirus", .dword 3⟩,
    ⟨lit "18.10.29.3", lit "HKLM:\\SOFTWARE\\Policies\\Microsoft\\Windows\\Explorer",
      lit "NoDataExecutionPrevention", .dword 0⟩,
    ⟨lit "18.10.29.4", lit "HKLM:\\SOFTWARE\\Policies\\Microsoft\\Windows\\Explorer",
      lit "NoHeapTerminationOnCorruption", .dword 0⟩,
    ⟨lit "18.10.29.5", lit "HKLM:\\SOFTWARE\\Microsoft\\Windows\\CurrentVersion\\Policies\\Explorer",
      lit "PreXPSP2ShellProtocolBehavior", .dword 0⟩,
    ⟨lit "18.10.42.1", lit "HKLM:\\SOFTWARE\\Policies\\Microsoft\\MicrosoftAccount",
      lit "DisableUserAuth", .dword 1⟩,
    ⟨lit "18.10.43.5.1", lit "HKLM:\\SOFTWARE\\Policies\\Microsoft\\Windows Defender\\Spynet",
      lit "LocalSettingOverrideSpynetReporting", .dword 0⟩,
    ⟨lit "18.10.43.6.1.1", lit "HKLM:\\SOFTWARE\\Policies\\Microsoft\\Windows Defender\\Windows Defender Exploit Guard\\ASR",
      lit "ExploitGuard_ASR_Rules", .dword 1⟩,
    ⟨lit "18.10.43.6.3.1", lit "HKLM:\\SOFTWARE\\Policies\\Microsoft\\Windows Defender\\Windows Defender Exploit Guard\\Network Protection",
      lit "EnableNetworkProtection", .dword 1⟩,
    ⟨lit "18.10.43.7.1", lit "HKLM:\\SOFTWARE\\Policies\\Microsoft\\Windows Defender\\MpEngine",
      lit "EnableFileHashComputation", .dword 1⟩,
    ⟨lit "18.10.43.10.2", lit "HKLM:\\SOFTWARE\\Policies\\Microsoft\\Windows Defender\\Real-Time Protection",
      lit "DisableIOAVProtection", .dword 0⟩,
    ⟨lit "18.10.43.10.3", lit "HKLM:\\SOFTWARE\\Policies\\Microsoft\\Windows Defender\\Real-Time Protection",
      lit "DisableRealtimeMonitoring", .dword 0⟩,
    ⟨lit "18.10.43.10.4", lit "HKLM:\\SOFTWARE\\Policies\\Microsoft\\Windows Defender\\Real-Time Protection",
      lit "DisableBehaviorMonitoring", .dword 0⟩,
    ⟨lit "18.10.43.16", _DEFENDER, lit "PUAProtection", .dword 1⟩,
    ⟨lit "18.10.51.1", lit "HKLM:\\SOFTWARE\\Policies\\Microsoft\\Windows\\OneDrive",
      lit "DisableFileSyncNGSC", .dword 1⟩,
    ⟨lit "18.10.57.2.2", _TS, lit "DisablePasswordSaving", .dword 1⟩,
    ⟨lit "18.10.57.3.3.3", _TS, lit "fDisableCdm", .dword 1⟩,
    ⟨lit "18.10.57.3.9.1", _TS, lit "fPromptForPassword", .dword 1⟩,
    ⟨lit "18.10.57.3.9.2", _TS, lit "fEncryptRPCTraffic", .dword 1⟩,
    ⟨lit "18.10.57.3.9.3", _TS, lit "SecurityLayer", .dword 2⟩,
    ⟨lit "18.10.57.3.9.4", _TS, lit "UserAuthentication", .dword 1⟩,
    ⟨lit "18.10.57.3.9.5", _TS, lit "MinEncryptionLevel", .dword 3⟩,
    ⟨lit "18.10.58.1", lit "HKLM:\\SOFTWARE\\Policies\\Microsoft\\Internet Explorer\\Feeds",
      lit "DisableEnclosureDownload", .dword 1⟩,
    ⟨lit "18.10.59.3", lit "HKLM:\\SOFTWARE\\Policies\\Microsoft\\Windows\\Windows Search",
      lit "AllowIndexingEncryptedStoresOrItems", .dword 0⟩,
    ⟨lit "18.10.76.2.1", lit "HKLM:\\SOFTWARE\\Policies\\Microsoft\\Windows\\System",
      lit "EnableSmartScreen", .dword 1⟩,
    ⟨lit "18.10.80.2", lit "HKLM:\\SOFTWARE\\Policies\\Microsoft\\WindowsInkWorkspace",
      lit "AllowWindowsInkWorkspace", .dword 1⟩,
    ⟨lit "18.10.81.1", lit "HKLM:\\SOFTWARE\\Policies\\Microsoft\\Windows\\Installer",
      lit "EnableUserControl", .dword 0⟩,
    ⟨lit "18.10.81.2", lit "HKLM:\\SOFTWARE\\Policies\\Microsoft\\Windows\\Installer",
      lit "AlwaysInstallElevated", .dword 0⟩,
    ⟨lit "18.10.82.1", lit "HKLM:\\SOFTWARE\\Policies\\Microsoft\\Windows\\System",
      lit "EnableMPRNotifications", .dword 0⟩,
    ⟨lit "18.10.82.2", _POLSYS, lit "DisableAutomaticRestartSignOn", .dword 1⟩,
    ⟨lit "18.10.89.1.1", _WINRM_C, lit "AllowBasic", .dword 0⟩,
    ⟨lit "18.10.89.1.2", _WINRM_C, lit "AllowUnencryptedTraffic", .dword 0⟩,
    ⟨lit "18.10.89.1.3", _WINRM_C, lit "AllowDigest", .dword 0⟩,
    ⟨lit "18.10.89.2.1", _WINRM_S, lit "AllowBasic", .dword 0⟩,
    ⟨lit "18.10.89.2.3", _WINRM_S, lit "AllowUnencryptedTraffic", .dword 0⟩,
    ⟨lit "18.10.89.2.4", _WINRM_S, lit "DisableRunAs", .dword 1⟩,
    ⟨lit "18.10.93.2.1", lit "HKLM:\\SOFTWARE\\Policies\\Microsoft\\Windows\\WindowsUpdate\\AU",
      lit "NoAutoUpdate", .dword 0⟩,
    ⟨lit "18.10.93.2.2", lit "HKLM:\\SOFTWARE\\Policies\\Microsoft\\Windows\\WindowsUpdate\\AU",
      lit "ScheduledInstallDay", .dword 0⟩]

def _reg_set_statement (path prop : Str) (set : SetValue) : Str :=
  let value := match set with
    | .dword n => intText n ++ lit " -Type DWord -Force"
    | .string s => '\'' :: Placeholder.replace ['\''] ['\'', '\''] s ++ lit "' -Type String -Force"
  lit "if (-not (Test-Path -LiteralPath '" ++ path ++ lit "')) \x7b New-Item -Path '" ++ path ++
    (lit "' -Force | Out-Null \x7d; Set-ItemProperty -LiteralPath '" ++ path ++ lit "' -Name '" ++ prop ++
      (lit "' -Value " ++ value))

def _reg_verify_statement (path prop : Str) (set : SetValue) : Str :=
  let value := match set with
    | .dword n => intText n
    | .string s => '\'' :: s ++ ['\'']
  lit "if ((Get-ItemProperty -LiteralPath '" ++ path ++ lit "' -Name '" ++ prop ++
    (lit "' -ErrorAction SilentlyContinue).'" ++ prop ++ lit "' -eq " ++ value ++
      lit ") \x7b 'PASS' \x7d else \x7b 'FAIL' \x7d")

def registryTemplate (c : RegistryCheck) : WindowsHardeningTemplate where
  check_id := checkId c.section_number
  statements := [_reg_set_statement c.path c.prop c.set]
  verify_statements := [_reg_verify_statement c.path c.prop c.set]

/-! ## Account policy -/

/-- A setting of `net accounts`, which a number in its output shows -/
def accountPolicy (number set label test : Str) : WindowsHardeningTemplate where
  check_id := checkId number
  statements := [lit "net accounts /" ++ set]
  verify_statements :=
    [lit "net accounts | Select-String '" ++ label ++ lit "' | ForEach-Object \x7b if ($_ -match '(\\d+)') \x7b if (" ++ test ++
      lit ") \x7b 'PASS' \x7d else \x7b 'FAIL' \x7d \x7d else \x7b 'FAIL' \x7d \x7d"]

def accountPolicies : List WindowsHardeningTemplate :=
  [accountPolicy (lit "1.1.1") (lit "uniquepw:24") (lit "password history") (lit "[int]$Matches[1] -ge 24"),
    accountPolicy (lit "1.1.2") (lit "maxpwage:\x7bMAX_PASSWORD_AGE\x7d") (lit "Maximum password age")
      (lit "[int]$Matches[1] -le 365 -and [int]$Matches[1] -gt 0"),
    accountPolicy (lit "1.1.3") (lit "minpwage:1") (lit "Minimum password age") (lit "[int]$Matches[1] -ge 1"),
    accountPolicy (lit "1.1.4") (lit "minpwlen:14") (lit "Minimum password length") (lit "[int]$Matches[1] -ge 14"),
    accountPolicy (lit "1.2.1") (lit "lockoutduration:\x7bLOCKOUT_DURATION\x7d") (lit "Lockout duration") (lit "[int]$Matches[1] -ge 15"),
    accountPolicy (lit "1.2.2") (lit "lockoutthreshold:\x7bLOCKOUT_THRESHOLD\x7d") (lit "Lockout threshold")
      (lit "[int]$Matches[1] -le 5 -and [int]$Matches[1] -gt 0"),
    accountPolicy (lit "1.2.4") (lit "lockoutwindow:\x7bLOCKOUT_WINDOW\x7d") (lit "Lockout observation") (lit "[int]$Matches[1] -ge 15")]

/-! ## Accounts -/

/-- A statement that prints PASS under a condition, and FAIL otherwise. -/
def passIf (condition : Str) : Str := lit "if (" ++ condition ++ lit ") \x7b 'PASS' \x7d else \x7b 'FAIL' \x7d"

def disableGuest : WindowsHardeningTemplate where
  check_id := checkId (lit "2.3.1.1")
  statements := [lit "Disable-LocalUser -Name Guest -ErrorAction SilentlyContinue"]
  verify_statements := [passIf (lit "(Get-LocalUser -Name Guest -ErrorAction SilentlyContinue).Enabled -eq $false")]

/-- The account whose SID ends so. -/
def accountOf (sid : Str) : Str := lit "(Get-LocalUser | Where-Object \x7b $_.SID -like '*-" ++ sid ++ lit "' \x7d).Name"

def renameAccount (number sid parameter builtin : Str) : WindowsHardeningTemplate where
  check_id := checkId number
  statements :=
    [lit "Rename-LocalUser -Name " ++ accountOf sid ++ (lit " -NewName '" ++ ('{' :: parameter ++ lit "\x7d' -ErrorAction Stop"))]
  verify_statements := [passIf (accountOf sid ++ lit " -ne '" ++ builtin ++ ['\''])]

def renameAdministrator : WindowsHardeningTemplate :=
  renameAccount (lit "2.3.1.3") (lit "500") (lit "NEW_ADMIN_NAME") (lit "Administrator")

def renameGuest : WindowsHardeningTemplate := renameAccount (lit "2.3.1.4") (lit "501") (lit "NEW_GUEST_NAME") (lit "Guest")

/-! ## Firewall -/

def _fw (number profile set_stmt verify_expr : Str) : WindowsHardeningTemplate where
  check_id := checkId number
  statements := [lit "Set-NetFirewallProfile -Profile " ++ profile ++ ' ' :: set_stmt]
  verify_statements := [passIf (lit "(Get-NetFirewallProfile -Profile " ++ profile ++ ')' :: verify_expr)]

/-- The fixes of a profile that do not stand between the others. -/
def profileFixes (profile base logfile : Str) (numbers : Str × Str × Str × Str) : List WindowsHardeningTemplate :=
  [_fw (base ++ lit ".1") profile (lit "-Enabled True") (lit ".Enabled"),
    _fw (base ++ lit ".2") profile (lit "-DefaultInboundAction Block") (lit ".DefaultInboundAction -eq 'Block'"),
    _fw (base ++ lit ".3") profile (lit "-NotifyOnListen False") (lit ".NotifyOnListen -eq $false"),
    _fw numbers.1 profile (lit "-LogFileName '%systemroot%\\system32\\logfiles\\firewall\\" ++ logfile ++ ['\''])
      (lit ".LogFileName -like '*" ++ logfile ++ ['\'']),
    _fw numbers.2.1 profile (lit "-LogMaxSizeKilobytes 16384") (lit ".LogMaxSizeKilobytes -ge 16384"),
    _fw numbers.2.2.1 profile (lit "-LogBlocked True") (lit ".LogBlocked -eq $true"),
    _fw numbers.2.2.2 profile (lit "-LogAllowed True") (lit ".LogAllowed -eq $true")]

def firewall : List WindowsHardeningTemplate :=
  profileFixes (lit "Domain") (lit "9.1") (lit "domainfw.log") (lit "9.1.4", lit "9.1.5", lit "9.1.6", lit "9.1.7") ++
    profileFixes (lit "Private") (lit "9.2") (lit "privatefw.log") (lit "9.2.4", lit "9.2.5", lit "9.2.6", lit "9.2.7") ++
    profileFixes (lit "Public") (lit "9.3") (lit "publicfw.log") (lit "9.3.6", lit "9.3.7", lit "9.3.8", lit "9.3.9") ++
    [_fw (lit "9.3.4") (lit "Public") (lit "-AllowLocalFirewallRules False") (lit ".AllowLocalFirewallRules -eq $false"),
      _fw (lit "9.3.5") (lit "Public") (lit "-AllowLocalIPsecRules False") (lit ".AllowLocalIPsecRules -eq $false")]

/-! ## Audit policy -/

inductive AuditFlag where
  | both | success | failure

def AuditFlag.set : AuditFlag → Str
  | .both => lit "/success:enable /failure:enable"
  | .success => lit "/success:enable /failure:disable"
  | .failure => lit "/success:disable /failure:enable"

def AuditFlag.condition : AuditFlag → Str
  | .both => lit "$s -match 'Success' -and $s -match 'Failure'"
  | .success => lit "$s -match 'Success'"
  | .failure => lit "$s -match 'Failure'"

def auditFix (number subcategory : Str) (flag : AuditFlag) : WindowsHardeningTemplate where
  check_id := checkId number
  statements := [lit "auditpol /set /subcategory:\"" ++ subcategory ++ lit "\" " ++ flag.set]
  verify_statements :=
    [lit "$r = auditpol /get /subcategory:\"" ++ subcategory ++
      lit "\" /r | ConvertFrom-Csv; $s = $r.'Inclusion Setting'; " ++ passIf flag.condition]

/-- `_AUDIT_FIXES` -/
def auditFixes : List (Str × Str × AuditFlag) :=
  [(lit "17.1.1", lit "Credential Validation", .both),
    (lit "17.1.2", lit "Kerberos Authentication Service", .both),
    (lit "17.1.3", lit "Kerberos Service Ticket Operations", .both),
    (lit "17.2.1", lit "Application Group Management", .both),
    (lit "17.2.2", lit "Computer Account Management", .success),
    (lit "17.2.3", lit "Distribution Group Management", .success),
    (lit "17.2.4", lit "Other Account Management Events", .success),
    (lit "17.2.5", lit "Security Group Management", .success),
    (lit "17.2.6", lit "User Account Management", .both),
    (lit "17.3.1", lit "Plug and Play Events", .success),
    (lit "17.3.2", lit "Process Creation", .success),
    (lit "17.4.1", lit "Directory Service Access", .failure),
    (lit "17.4.2", lit "Directory Service Changes", .success),
    (lit "17.5.1", lit "Account Lockout", .failure),
    (lit "17.5.2", lit "Group Membership", .success),
    (lit "17.5.3", lit "Logoff", .success),
    (lit "17.5.4", lit "Logon", .both),
    (lit "17.5.5", lit "Other Logon/Logoff Events", .both),
    (lit "17.5.6", lit "Special Logon", .success),
    (lit "17.6.1", lit "Detailed File Share", .failure),
    (lit "17.6.2", lit "File Share", .both),
    (lit "17.6.3", lit "Other Object Access Events", .both),
    (lit "17.6.4", lit "Removable Storage", .both),
    (lit "17.7.1", lit "Audit Policy Change", .success),
    (lit "17.7.2", lit "Authentication Policy Change", .success),
    (lit "17.7.3", lit "Authorization Policy Change", .success),
    (lit "17.7.4", lit "MPSSVC Rule-Level Policy Change", .both),
    (lit "17.7.5", lit "Other Policy Change Events", .failure),
    (lit "17.8.1", lit "Sensitive Privilege Use", .both),
    (lit "17.9.1", lit "IPsec Driver", .both),
    (lit "17.9.2", lit "Other System Events", .both),
    (lit "17.9.3", lit "Security State Change", .success),
    (lit "17.9.4", lit "Security System Extension", .success),
    (lit "17.9.5", lit "System Integrity", .both)]

/-! ## Checks without an automatic fix -/

def manualChecks : List Str :=
  [lit "1.1.5", lit "1.1.7", lit "1.2.3", lit "2.3.7.4", lit "2.3.7.5", lit "2.3.10.7", lit "2.3.10.12"]

def manual (number : Str) : WindowsHardeningTemplate := ⟨checkId number, [], []⟩

/-- All templates in the order in which they are registered; a later one replaces one with its id. -/
def WINDOWS_HARDENING_TEMPLATES : List WindowsHardeningTemplate :=
  REGISTRY_CHECKS.map registryTemplate ++ accountPolicies ++ [disableGuest, renameAdministrator, renameGuest] ++ firewall ++
    auditFixes.map (fun f => auditFix f.1 f.2.1 f.2.2) ++ manualChecks.map manual

def get_windows_hardening_template (check_id : Str) : Option WindowsHardeningTemplate :=
  WINDOWS_HARDENING_TEMPLATES.reverse.find? (fun t => t.check_id = check_id)

end WindowsTemplates
