import SuBinary.Magiskpolicy.Operations

/-! # Built-in rules

`sepol_min_rules` of `rules.c`: calls of the operations, some of them only if a
type exists or for a version of the policy.
-/

namespace SuBinary.Magiskpolicy

open SuBinary Sepol

/-- `POLICYDB_VERSION_XPERMS_IOCTL` -/
def versionXpermsIoctl : Nat := 30

inductive BuiltinStep
  | call (call : PolicyCall)
  | ifExists (source : CString) (calls : List PolicyCall)
  | unlessExists (source : CString) (calls : List PolicyCall)
  | ifVersion (policyvers : Nat) (calls : List PolicyCall)

def BuiltinStep.selected (p : Policy) : BuiltinStep → List PolicyCall
  | .call only => [only]
  | .ifExists source calls => if sepolExists p source then calls else []
  | .unlessExists source calls => if sepolExists p source then [] else calls
  | .ifVersion policyvers calls => if policyvers ≤ p.policyvers then calls else []

/-- The results of the calls are not looked at. -/
def BuiltinStep.run (stale : UInt16 × UInt16) (step : BuiltinStep) (p : Policy) :
    Option Policy :=
  runCalls ((step.selected p).map fun call => { call, stale }) p

/-! ## The calls -/

def allow (s t c : String) (perm : Option String) : PolicyCall :=
  .rule .allow (some (ascii s)) (some (ascii t)) (some (ascii c)) (perm.map ascii)

def deny (s t c perm : String) : PolicyCall :=
  .rule .deny (some (ascii s)) (some (ascii t)) (some (ascii c)) (some (ascii perm))

def allowxperm (s t c range : String) : PolicyCall :=
  .xperm .allowxperm (some (ascii s)) (some (ascii t)) (some (ascii c)) (some (ascii range))

def create (s : String) : PolicyCall :=
  .typeState .create (some (ascii s))

def permissive (s : String) : PolicyCall :=
  .typeState .permissive (some (ascii s))

def attradd (s a : String) : PolicyCall :=
  .attradd (some (ascii s)) (some (ascii a))

/-- The same four calls for each type, in this order. -/
def samsung : List PolicyCall :=
  deny "init" "kernel" "security" "load_policy" ::
    ["policyloader_app", "system_server", "system_app", "installd", "init", "ueventd",
      "runas", "drsd", "debuggerd", "vold", "zygote", "auditd", "servicemanager", "itsonbs",
      "commonplatformappdomain"].flatMap fun s =>
      [deny s "security_spota_file" "dir" "read",
        deny s "security_spota_file" "dir" "write",
        deny s "security_spota_file" "file" "read",
        deny s "security_spota_file" "file" "write"]

def minRules : List BuiltinStep :=
  [.unlessExists (ascii "su") [create "su"],
    .unlessExists (ascii "su_device") [create "su_device"],
    .call (permissive "su"),
    .call (permissive "init"),
    .call (attradd "su" "mlstrustedsubject"),
    .call (attradd "su_device" "mlstrustedobject"),
    -- Let init run stuffs in su context
    .call (allow "kernel" "su" "fd" (some "use")),
    .call (allow "init" "su" "process" none),
    .call (allow "init" "system_file" "dir" none),
    .call (allow "init" "system_file" "lnk_file" none),
    .call (allow "init" "system_file" "file" none),
    -- Samsung specific
    -- Prevent system from loading policy
    .ifExists (ascii "knox_system_app") samsung,
    -- Shell, prop management, simple su rights, logs
    .call (allow "su" "property_socket" "sock_file" (some "write")),
    .call (allow "su" "properties_device" "file" (some "write")),
    .ifExists (ascii "default_prop")
      [allow "su" "default_prop" "property_service" (some "set"),
        allow "su" "default_prop" "file" (some "write")],
    .ifExists (ascii "properties_serial") [allow "su" "properties_serial" "file" (some "write")],
    .call (allow "su" "init" "unix_stream_socket" (some "connectto")),
    .call (allow "su" "rootfs" "file" (some "entrypoint")),
    .call (allow "su" "rootfs" "file" (some "getattr")),
    .call (allow "su" "rootfs" "file" (some "read")),
    .call (allow "su" "rootfs" "filesystem" (some "remount")),
    .call (allow "su" "devpts" "chr_file" none),
    .call (allow "su" "untrusted_app_devpts" "chr_file" none),
    .call (allow "su" "su_device" "dir" none),
    .call (allow "su" "su_device" "sock_file" none),
    .call (allow "su" "zygote_exec" "file" none),
    .call (allow "su" "zygote_exec" "lnk_file" none),
    .call (allow "su" "app_data_file" "dir" none),
    .call (allow "su" "app_data_file" "file" none),
    .call (allow "su" "shell_exec" "file" none),
    .call (allow "su" "su" "unix_dgram_socket" none),
    .call (allow "su" "su" "unix_stream_socket" none),
    .call (allow "su" "su" "process" none),
    .call (allow "su" "su" "capability" none),
    .call (allow "su" "su" "file" none),
    .call (allow "su" "su" "fifo_file" none),
    .call (allow "su" "su" "lnk_file" none),
    .call (allow "su" "su" "dir" none),
    .ifExists (ascii "toolbox_exec") [allow "su" "toolbox_exec" "file" none],
    .ifExists (ascii "logdr_socket") [allow "su" "logdr_socket" "sock_file" (some "write")],
    .ifExists (ascii "logd") [allow "su" "logd" "unix_stream_socket" (some "connectto")],
    .call (allow "su_device" "tmpfs" "filesystem" (some "associate")),
    -- For sepolicy live patching
    .call (allow "su" "kernel" "security" (some "read_policy")),
    .call (allow "su" "kernel" "security" (some "load_policy")),
    .call (allow "su" "selinuxfs" "file" (some "read")),
    .call (allow "su" "selinuxfs" "file" (some "open")),
    .call (allow "su" "selinuxfs" "file" (some "write")),
    -- For mounting loop devices and mirrors
    .call (allow "su" "kernel" "process" (some "setsched")),
    .call (allow "su" "labeledfs" "filesystem" (some "mount")),
    .call (allow "su" "labeledfs" "filesystem" (some "unmount")),
    .call (allow "kernel" "system_data_file" "file" (some "read")),
    -- For changing attributes
    .call (allow "rootfs" "tmpfs" "filesystem" (some "associate")),
    -- Xposed
    .call (allow "untrusted_app" "untrusted_app" "capability" (some "setgid")),
    .call (allow "system_server" "dex2oat_exec" "file" none),
    -- xperms
    .ifVersion versionXpermsIoctl
      [allowxperm "domain" "devpts" "chr_file" "0x5400-0x54FF"]]

def sepolMinRules (stale : UInt16 × UInt16) (p : Policy) : Option Policy :=
  runSteps (BuiltinStep.run stale) minRules p

end SuBinary.Magiskpolicy
