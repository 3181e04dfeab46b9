import Ngcorion.Text

/-!
# The command templates of the device families

The commands of the Cisco IOS and FortiGate hardening checks, as they are before
the operator's values are put in.
-/
namespace CliTemplates

open Text

/-- `COMMAND_TEMPLATES` -/
def commandTemplates : List (Str × List Str) :=
  [(lit "IOS-L1-001", [lit "configure terminal", lit "no enable password",
     lit "enable secret {STRONG_SECRET}", lit "end", lit "write memory"]),
   (lit "IOS-L1-002", [lit "configure terminal", lit "line console 0",
     lit "exec-timeout {TIMEOUT_MIN} {TIMEOUT_SEC}", lit "exit", lit "line vty 0 15",
     lit "exec-timeout {TIMEOUT_MIN} {TIMEOUT_SEC}", lit "end", lit "write memory"]),
   (lit "IOS-L1-003", [lit "configure terminal", lit "line vty 0 15", lit "access-class {ACL_NAME} in",
     lit "end", lit "write memory"]),
   (lit "IOS-L1-004", [lit "configure terminal", lit "line vty 0 15", lit "transport input ssh", lit "end",
     lit "write memory"]),
   (lit "IOS-L1-005", [lit "configure terminal", lit "banner motd ^{BANNER_TEXT}^", lit "end",
     lit "write memory"]),
   (lit "IOS-L1-006", [lit "configure terminal", lit "banner login ^{BANNER_TEXT}^", lit "end",
     lit "write memory"]),
   (lit "IOS-L1-0051", [lit "configure terminal", lit "banner login ^{BANNER_TEXT}^", lit "end",
     lit "write memory"]),
   (lit "IOS-L1-007", [lit "configure terminal", lit "ip ssh version 2", lit "end", lit "write memory"]),
   (lit "IOS-L1-008", [lit "configure terminal", lit "ip ssh time-out {TIMEOUT_SEC}", lit "end",
     lit "write memory"]),
   (lit "IOS-L1-009", [lit "configure terminal", lit "ip ssh authentication-retries {RETRIES}", lit "end",
     lit "write memory"]),
   (lit "IOS-L1-010", [lit "configure terminal", lit "service password-encryption", lit "end",
     lit "write memory"]),
   (lit "IOS-L1-011", [lit "configure terminal", lit "no ip http server", lit "no ip http secure-server",
     lit "end", lit "write memory"]),
   (lit "IOS-L1-012", [lit "configure terminal", lit "aaa new-model", lit "end", lit "write memory"]),
   (lit "IOS-L1-013", [lit "configure terminal", lit "aaa authentication login {METHOD_NAME} {METHOD_TYPE}",
     lit "line vty 0 15", lit "login authentication {METHOD_NAME}", lit "end", lit "write memory"]),
   (lit "IOS-L1-014", [lit "configure terminal", lit "logging host {SYSLOG_SERVER}", lit "end",
     lit "write memory"]),
   (lit "IOS-L1-015", [lit "configure terminal", lit "logging buffered {SIZE}", lit "end",
     lit "write memory"]),
   (lit "IOS-L1-016", [lit "configure terminal",
     lit "service timestamps log datetime localtime show-timezone", lit "end", lit "write memory"]),
   (lit "IOS-L1-017", [lit "configure terminal", lit "ntp server {NTP_SERVER}", lit "end",
     lit "write memory"]),
   (lit "IOS-L1-018", [lit "configure terminal", lit "no cdp run", lit "end", lit "write memory"]),
   (lit "IOS-L1-019", [lit "configure terminal", lit "no ip source-route", lit "end", lit "write memory"]),
   (lit "IOS-L1-0010", [lit "configure terminal", lit "hostname {HOSTNAME}", lit "end", lit "write memory"]),
   (lit "IOS-L1-0011", [lit "configure terminal", lit "ip domain-name {DOMAIN_NAME}", lit "end",
     lit "write memory"]),
   (lit "IOS-L1-0012", [lit "configure terminal", lit "no ip domain-lookup", lit "end", lit "write memory"]),
   (lit "IOS-L1-020", [lit "configure terminal", lit "no ip bootp server", lit "end", lit "write memory"]),
   (lit "IOS-L1-021", [lit "configure terminal", lit "service tcp-keepalives-in", lit "end",
     lit "write memory"]),
   (lit "IOS-L1-022", [lit "configure terminal", lit "no service pad", lit "end", lit "write memory"]),
   (lit "IOS-L1-023", [lit "configure terminal", lit "no ip identd", lit "end", lit "write memory"]),
   (lit "IOS-L1-0112", [lit "configure terminal", lit "ip ssh timeout {TIMEOUT_SEC}", lit "end",
     lit "write memory"]),
   (lit "IOS-L1-0120", [lit "configure terminal", lit "crypto key generate rsa modulus {MODULUS}", lit "end",
     lit "write memory"]),
   (lit "IOS-L1-0131", [lit "configure terminal", lit "login on-failure log", lit "login on-success log",
     lit "end", lit "write memory"]),
   (lit "IOS-L1-0244", [lit "configure terminal", lit "archive", lit "log config", lit "logging enable",
     lit "end", lit "write memory"]),
   (lit "IOS-L1-090", [lit "configure terminal", lit "config-register 0x2102", lit "end", lit "write memory"]),
   (lit "IOS-L2-091", [lit "configure terminal", lit "secure boot-image", lit "secure boot-config",
     lit "end", lit "write memory"]),
   (lit "IOS-L2-110", [lit "configure terminal", lit "ip access-list extended ACL-COPP-MGMT",
     lit "permit tcp any any eq 22", lit "permit tcp any any eq 443", lit "exit",
     lit "class-map match-any COPP-MGMT", lit "match access-group name ACL-COPP-MGMT", lit "exit",
     lit "policy-map type control-plane COPP-POLICY", lit "class COPP-MGMT", lit "police rate 1000 pps",
     lit "exit", lit "exit", lit "control-plane", lit "service-policy input COPP-POLICY", lit "end",
     lit "write memory"]),
   (lit "IOS-L1-080", [lit "configure terminal", lit "ntp authenticate",
     lit "ntp authentication-key {NTP_KEY_ID} md5 {NTP_KEY}", lit "ntp trusted-key {NTP_KEY_ID}", lit "end",
     lit "write memory"]),
   (lit "IOS-L1-030B", [lit "configure terminal",
     lit "snmp-server community {COMMUNITY_STRING} RO {ACL_NAME}", lit "end", lit "write memory"]),
   (lit "IOS-L1-071", [lit "configure terminal", lit "no username {OLD_USERNAME}",
     lit "username {OLD_USERNAME} privilege 15 secret {NEW_SECRET}", lit "end", lit "write memory"]),
   (lit "IOS-L1-061", [lit "configure terminal", lit "interface {INTERFACE_NAME}",
     lit "ip access-group {ACL_NAME} in", lit "end", lit "write memory"]),
   (lit "IOS-L1-0211", [lit "configure terminal", lit "aaa authentication enable default enable", lit "end",
     lit "write memory"]),
   (lit "IOS-L1-0212", [lit "configure terminal", lit "line console 0",
     lit "login authentication {AAA_LIST}", lit "end", lit "write memory"]),
   (lit "IOS-L1-0213", [lit "configure terminal", lit "line tty 0 4", lit "login authentication {AAA_LIST}",
     lit "end", lit "write memory"]),
   (lit "IOS-L1-0221", [lit "configure terminal",
     lit "aaa accounting connection default start-stop group {ACCT_GROUP}", lit "end", lit "write memory"]),
   (lit "IOS-L1-0222", [lit "configure terminal",
     lit "aaa accounting exec default start-stop group {ACCT_GROUP}", lit "end", lit "write memory"]),
   (lit "IOS-L1-0223", [lit "configure terminal",
     lit "aaa accounting network default start-stop group {ACCT_GROUP}", lit "end", lit "write memory"]),
   (lit "IOS-L1-0224", [lit "configure terminal",
     lit "aaa accounting system default start-stop group {ACCT_GROUP}", lit "end", lit "write memory"]),
   (lit "IOS-L1-0061", [lit "configure terminal", lit "username {USERNAME} privilege 1 secret {USER_SECRET}",
     lit "end", lit "write memory"]),
   (lit "IOS-L1-0031", [lit "configure terminal", lit "ip access-list standard {VTY_ACL_NAME}",
     lit "permit {MGMT_HOST_OR_NET}", lit "deny any log", lit "end", lit "write memory"]),
   (lit "IOS-L1-0052", [lit "configure terminal", lit "banner exec ^{BANNER_TEXT}^", lit "end",
     lit "write memory"]),
   (lit "IOS-L1-070", [lit "configure terminal", lit "service password-encryption", lit "end",
     lit "write memory"]),
   (lit "IOS-L1-0301", [lit "configure terminal", lit "no snmp-server", lit "end", lit "write memory"]),
   (lit "IOS-L1-0302", [lit "configure terminal", lit "no snmp-server community private", lit "end",
     lit "write memory"]),
   (lit "IOS-L1-0303", [lit "configure terminal", lit "no snmp-server community public", lit "end",
     lit "write memory"]),
   (lit "IOS-L1-0304", [lit "configure terminal", lit "no snmp-server community {RW_COMMUNITY} RW",
     lit "end", lit "write memory"]),
   (lit "IOS-L1-0305", [lit "configure terminal", lit "ip access-list standard {SNMP_ACL_NAME}",
     lit "permit {NMS_HOST_OR_NET}", lit "deny any log", lit "end", lit "write memory"]),
   (lit "IOS-L1-0306", [lit "configure terminal", lit "snmp-server host {NMS_IP} {SNMP_COMMUNITY}",
     lit "end", lit "write memory"]),
   (lit "IOS-L1-0307", [lit "configure terminal",
     lit "snmp-server enable traps snmp authentication linkdown linkup coldstart warmstart", lit "end",
     lit "write memory"]),
   (lit "IOS-L1-030A", [lit "configure terminal", lit "snmp-server group {SNMP_GROUP} v3 priv", lit "end",
     lit "write memory"]),
   (lit "IOS-L1-0308", [lit "configure terminal",
     lit "snmp-server user {SNMP_USER} {SNMP_GROUP} v3 auth sha {AUTH_PASSWORD} priv aes 128 {PRIV_PASSWORD}",
     lit "end", lit "write memory"]),
   (lit "IOS-L1-0113", [lit "configure terminal", lit "ip ssh authentication-retries {SSH_RETRIES}",
     lit "end", lit "write memory"]),
   (lit "IOS-L1-081", [lit "configure terminal", lit "no ip bootp server", lit "end", lit "write memory"]),
   (lit "IOS-L1-082", [lit "configure terminal", lit "no service dhcp", lit "end", lit "write memory"]),
   (lit "IOS-L1-083", [lit "configure terminal", lit "no ip identd", lit "end", lit "write memory"]),
   (lit "IOS-L1-084", [lit "configure terminal", lit "service tcp-keepalives-in", lit "end",
     lit "write memory"]),
   (lit "IOS-L1-085", [lit "configure terminal", lit "no service pad", lit "end", lit "write memory"]),
   (lit "IOS-L1-0240", [lit "configure terminal", lit "logging on", lit "end", lit "write memory"]),
   (lit "IOS-L1-0242", [lit "configure terminal", lit "logging buffered {BUFFER_SIZE}", lit "end",
     lit "write memory"]),
   (lit "IOS-L1-0245", [lit "configure terminal", lit "logging console critical", lit "end",
     lit "write memory"]),
   (lit "IOS-L1-024", [lit "configure terminal", lit "logging host {SYSLOG_IP}", lit "end",
     lit "write memory"]),
   (lit "IOS-L1-0243", [lit "configure terminal", lit "logging trap informational", lit "end",
     lit "write memory"]),
   (lit "IOS-L1-0241", [lit "configure terminal", lit "service timestamps debug datetime msec show-timezone",
     lit "service timestamps log datetime msec show-timezone", lit "end", lit "write memory"]),
   (lit "IOS-L1-0246", [lit "configure terminal", lit "logging source-interface {SOURCE_INTERFACE}",
     lit "end", lit "write memory"]),
   (lit "IOS-L1-0611", [lit "configure terminal",
     lit "ntp authentication-key {NTP_KEY_ID} md5 {NTP_KEY_STRING}", lit "end", lit "write memory"]),
   (lit "IOS-L1-0612", [lit "configure terminal", lit "ntp trusted-key {NTP_KEY_ID}", lit "end",
     lit "write memory"]),
   (lit "IOS-L1-0613", [lit "configure terminal", lit "ntp server {NTP_SERVER_IP} key {NTP_KEY_ID}",
     lit "end", lit "write memory"]),
   (lit "IOS-L2-1101", [lit "configure terminal", lit "ip radius source-interface {LOOPBACK_INTERFACE}",
     lit "ip tacacs source-interface {LOOPBACK_INTERFACE}", lit "end", lit "write memory"]),
   (lit "IOS-L2-1102", [lit "configure terminal", lit "ntp source {LOOPBACK_INTERFACE}", lit "end",
     lit "write memory"]),
   (lit "IOS-L2-1103", [lit "configure terminal", lit "ip tftp source-interface {LOOPBACK_INTERFACE}",
     lit "end", lit "write memory"]),
   (lit "IOS-L1-091", [lit "configure terminal", lit "interface {INTERFACE_NAME}", lit "no ip proxy-arp",
     lit "end", lit "write memory"]),
   (lit "IOS-L1-092", [lit "configure terminal", lit "no interface Tunnel{TUNNEL_NUMBER}", lit "end",
     lit "write memory"]),
   (lit "IOS-L1-093", [lit "configure terminal", lit "interface {INTERFACE_NAME}",
     lit "ip verify unicast source reachable-via rx", lit "end", lit "write memory"]),
   (lit "IOS-L1-094", [lit "configure terminal", lit "ip access-list extended {ACL_NAME}",
     lit "deny ip 10.0.0.0 0.255.255.255 any log", lit "deny ip 172.16.0.0 0.15.255.255 any log",
     lit "deny ip 192.168.0.0 0.0.255.255 any log", lit "deny ip 127.0.0.0 0.255.255.255 any log",
     lit "permit ip any any", lit "end", lit "write memory"]),
   (lit "IOS-L1-095", [lit "configure terminal", lit "interface {INTERFACE_NAME}",
     lit "ip access-group {ACL_NAME} in", lit "end", lit "write memory"]),
   (lit "IOS-L2-100", [lit "configure terminal", lit "key chain {KEY_CHAIN_NAME}", lit "key {KEY_ID}",
     lit "key-string {KEY_STRING}", lit "end", lit "write memory"]),
   (lit "IOS-L2-1001", [lit "configure terminal", lit "key chain {KEY_CHAIN_NAME}", lit "key {KEY_ID}",
     lit "end", lit "write memory"]),
   (lit "IOS-L2-1002", [lit "configure terminal", lit "key chain {KEY_CHAIN_NAME}", lit "key {KEY_ID}",
     lit "key-string {KEY_STRING}", lit "end", lit "write memory"]),
   (lit "IOS-L2-1003", [lit "configure terminal", lit "router eigrp {EIGRP_NAME}",
     lit "address-family ipv4 autonomous-system {AS_NUMBER}", lit "end", lit "write memory"]),
   (lit "IOS-L2-1004", [lit "configure terminal", lit "router eigrp {EIGRP_NAME}",
     lit "address-family ipv4 autonomous-system {AS_NUMBER}", lit "af-interface default",
     lit "authentication mode md5", lit "authentication key-chain {KEY_CHAIN_NAME}", lit "end",
     lit "write memory"]),
   (lit "IOS-L2-1005", [lit "configure terminal", lit "router eigrp {EIGRP_NAME}",
     lit "address-family ipv4 autonomous-system {AS_NUMBER}", lit "af-interface default",
     lit "authentication key-chain {KEY_CHAIN_NAME}", lit "end", lit "write memory"]),
   (lit "IOS-L2-1006", [lit "configure terminal", lit "router eigrp {EIGRP_NAME}",
     lit "address-family ipv4 autonomous-system {AS_NUMBER}", lit "af-interface default",
     lit "authentication mode md5", lit "end", lit "write memory"]),
   (lit "IOS-L2-1007", [lit "configure terminal", lit "interface {INTERFACE_NAME}",
     lit "ip authentication key-chain eigrp {AS_NUMBER} {KEY_CHAIN_NAME}", lit "end", lit "write memory"]),
   (lit "IOS-L2-1008", [lit "configure terminal", lit "interface {INTERFACE_NAME}",
     lit "ip authentication mode eigrp {AS_NUMBER} md5", lit "end", lit "write memory"]),
   (lit "IOS-L2-101", [lit "configure terminal", lit "router ospf {OSPF_PROCESS_ID}",
     lit "area {OSPF_AREA} authentication message-digest", lit "end", lit "write memory"]),
   (lit "IOS-L2-1011", [lit "configure terminal", lit "interface {INTERFACE_NAME}",
     lit "ip ospf message-digest-key {KEY_ID} md5 {KEY_STRING}", lit "end", lit "write memory"]),
   (lit "IOS-L2-102", [lit "configure terminal", lit "key chain {KEY_CHAIN_NAME}", lit "key {KEY_ID}",
     lit "key-string {KEY_STRING}", lit "end", lit "write memory"]),
   (lit "IOS-L2-1021", [lit "configure terminal", lit "key chain {KEY_CHAIN_NAME}", lit "key {KEY_ID}",
     lit "end", lit "write memory"]),
   (lit "IOS-L2-1022", [lit "configure terminal", lit "key chain {KEY_CHAIN_NAME}", lit "key {KEY_ID}",
     lit "key-string {KEY_STRING}", lit "end", lit "write memory"]),
   (lit "IOS-L2-1023", [lit "configure terminal", lit "interface {INTERFACE_NAME}",
     lit "ip rip authentication key-chain {KEY_CHAIN_NAME}", lit "end", lit "write memory"]),
   (lit "IOS-L2-1024", [lit "configure terminal", lit "interface {INTERFACE_NAME}",
     lit "ip rip authentication mode md5", lit "end", lit "write memory"]),
   (lit "IOS-L1-0225", [lit "configure terminal",
     lit "aaa accounting commands 15 default start-stop group {ACCT_GROUP}", lit "end", lit "write memory"]),
   (lit "IOS-L1-0033", [lit "configure terminal", lit "line vty 0 4", lit "transport input ssh",
     lit "line vty 5 15", lit "transport input ssh", lit "end", lit "write memory"]),
   (lit "IOS-L1-0062", [lit "configure terminal", lit "username {USERNAME} secret {USER_SECRET}", lit "end",
     lit "write memory"]),
   (lit "IOS-L1-0248", [lit "configure terminal", lit "interface Loopback{LOOPBACK_NUMBER}",
     lit "ip address {LOOPBACK_IP} {LOOPBACK_MASK}", lit "no shutdown", lit "end", lit "write memory"]),
   (lit "IOS-L2-103", [lit "configure terminal", lit "router bgp {AS_NUMBER}",
     lit "neighbor {NEIGHBOR_IP} password {BGP_PASSWORD}", lit "end", lit "write memory"]),
   (lit "IOS-L2-0114", [lit "configure terminal",
     lit "ip ssh server algorithm encryption aes256-ctr aes192-ctr aes128-ctr",
     lit "ip ssh server algorithm mac hmac-sha2-256 hmac-sha1", lit "end", lit "write memory"])]

/-- `FORTIGATE_COMMAND_TEMPLATES` -/
def fortigateCommandTemplates : List (Str × List Str) :=
  [(lit "FG-BL-043", [lit "config system dns", lit "set primary {DNS_PRIMARY}", lit "end"]),
   (lit "FG-BL-092", [lit "config system global", lit "set pre-login-banner enable", lit "end"]),
   (lit "FG-SYS-001", [lit "config system global", lit "set post-login-banner enable", lit "end"]),
   (lit "FG-BL-040", [lit "config system ntp", lit "set ntpsync enable", lit "set type custom",
     lit "config ntpserver", lit "edit 1", lit "set server {NTP_SERVER_1}", lit "next", lit "edit 2",
     lit "set server {NTP_SERVER_2}", lit "next", lit "end", lit "end"]),
   (lit "FG-SYS-003", [lit "config system global", lit "set hostname {HOSTNAME}", lit "end"]),
   (lit "FG-SYS-005", [lit "config system auto-install", lit "set auto-install-config disable",
     lit "set auto-install-image disable", lit "end"]),
   (lit "FG-SYS-006", [lit "config system global", lit "set ssl-static-key-ciphers disable", lit "end"]),
   (lit "FG-BL-090", [lit "config system global", lit "set strong-crypto enable", lit "end"]),
   (lit "FG-BL-030", [lit "config system password-policy", lit "set status enable", lit "end"]),
   (lit "FG-PW-001", [lit "config system global",
     lit "set admin-lockout-threshold {ADMIN_LOCKOUT_THRESHOLD}",
     lit "set admin-lockout-duration {ADMIN_LOCKOUT_DURATION}", lit "end"]),
   (lit "FG-BL-004", [lit "config system global", lit "set admintimeout {ADMIN_TIMEOUT}", lit "end"]),
   (lit "FG-BL-002", []),
   (lit "FG-HA-005", [lit "config system ha", lit "set monitor {HA_MONITOR_INTERFACE}", lit "end"]),
   (lit "FG-AV-003", [lit "config antivirus settings", lit "set machine-learning-detection enable",
     lit "end", lit "config antivirus heuristic", lit "set mode pass", lit "end"]),
   (lit "FG-AV-004", [lit "config antivirus settings", lit "set grayware enable", lit "end"]),
   (lit "FG-DNS-001", [lit "config dnsfilter profile", lit "edit {DNSFILTER_PROFILE}",
     lit "set block-botnet enable", lit "next", lit "end"]),
   (lit "FG-USER-001", [lit "config user setting", lit "set auth-lockout-threshold {AUTH_LOCKOUT_THRESHOLD}",
     lit "set auth-lockout-duration {AUTH_LOCKOUT_DURATION}", lit "end"]),
   (lit "FG-LOG-001", [lit "config log eventfilter", lit "set event enable", lit "end"]),
   (lit "FG-LOG-002", [lit "config log fortianalyzer setting", lit "set reliable enable",
     lit "set enc-algorithm high", lit "end"]),
   (lit "FG-FAZ-001", [lit "config log fortianalyzer setting", lit "set status enable",
     lit "set server {FAZ_SERVER}", lit "end"])]

end CliTemplates
