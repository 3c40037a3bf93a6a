import LensX.Model.Attach

/-! # Section names

How libbpf finds the type of a program from the name of its section, and how it would
attach the program by that name alone.
-/

namespace LensX

/-- The program types of `section_defs`. -/
inductive ProgType where
  | socketFilter | skReuseport | kprobe | schedCls | schedAct | tracepoint | rawTracepoint
  | rawTracepointWritable | tracing | ext | lsm | syscall | xdp | perfEvent | lwtIn | lwtOut
  | lwtXmit | lwtSeg6local | sockOps | skSkb | skMsg | lircMode2 | flowDissector | cgroupSkb
  | cgroupSock | cgroupSockAddr | cgroupSysctl | cgroupSockopt | cgroupDevice | structOps
  | skLookup
  deriving DecidableEq, Repr

/-- The functions `attach_kprobe` and so on, which attach a program by its section. -/
inductive AttachFn where
  | kprobe | uprobe | kprobeMulti | ksyscall | usdt | tp | rawTp | trace | lsm | iter
  deriving DecidableEq, Repr

structure SecDef where
  sec : String
  progType : ProgType
  attachFn : Option AttachFn
  deriving DecidableEq, Repr

def sectionDefs : List SecDef :=
  [⟨"socket", .socketFilter, none⟩, ⟨"sk_reuseport/migrate", .skReuseport, none⟩,
    ⟨"sk_reuseport", .skReuseport, none⟩, ⟨"kprobe+", .kprobe, some .kprobe⟩,
    ⟨"uprobe+", .kprobe, some .uprobe⟩, ⟨"uprobe.s+", .kprobe, some .uprobe⟩,
    ⟨"kretprobe+", .kprobe, some .kprobe⟩, ⟨"uretprobe+", .kprobe, some .uprobe⟩,
    ⟨"uretprobe.s+", .kprobe, some .uprobe⟩, ⟨"kprobe.multi+", .kprobe, some .kprobeMulti⟩,
    ⟨"kretprobe.multi+", .kprobe, some .kprobeMulti⟩, ⟨"ksyscall+", .kprobe, some .ksyscall⟩,
    ⟨"kretsyscall+", .kprobe, some .ksyscall⟩, ⟨"usdt+", .kprobe, some .usdt⟩,
    ⟨"tc", .schedCls, none⟩, ⟨"classifier", .schedCls, none⟩, ⟨"action", .schedAct, none⟩,
    ⟨"tracepoint+", .tracepoint, some .tp⟩, ⟨"tp+", .tracepoint, some .tp⟩,
    ⟨"raw_tracepoint+", .rawTracepoint, some .rawTp⟩, ⟨"raw_tp+", .rawTracepoint, some .rawTp⟩,
    ⟨"raw_tracepoint.w+", .rawTracepointWritable, some .rawTp⟩,
    ⟨"raw_tp.w+", .rawTracepointWritable, some .rawTp⟩, ⟨"tp_btf+", .tracing, some .trace⟩,
    ⟨"fentry+", .tracing, some .trace⟩, ⟨"fmod_ret+", .tracing, some .trace⟩,
    ⟨"fexit+", .tracing, some .trace⟩, ⟨"fentry.s+", .tracing, some .trace⟩,
    ⟨"fmod_ret.s+", .tracing, some .trace⟩, ⟨"fexit.s+", .tracing, some .trace⟩,
    ⟨"freplace+", .ext, some .trace⟩, ⟨"lsm+", .lsm, some .lsm⟩, ⟨"lsm.s+", .lsm, some .lsm⟩,
    ⟨"lsm_cgroup+", .lsm, none⟩, ⟨"iter+", .tracing, some .iter⟩,
    ⟨"iter.s+", .tracing, some .iter⟩, ⟨"syscall", .syscall, none⟩,
    ⟨"xdp.frags/devmap", .xdp, none⟩, ⟨"xdp/devmap", .xdp, none⟩,
    ⟨"xdp.frags/cpumap", .xdp, none⟩, ⟨"xdp/cpumap", .xdp, none⟩, ⟨"xdp.frags", .xdp, none⟩,
    ⟨"xdp", .xdp, none⟩, ⟨"perf_event", .perfEvent, none⟩, ⟨"lwt_in", .lwtIn, none⟩,
    ⟨"lwt_out", .lwtOut, none⟩, ⟨"lwt_xmit", .lwtXmit, none⟩,
    ⟨"lwt_seg6local", .lwtSeg6local, none⟩, ⟨"sockops", .sockOps, none⟩,
    ⟨"sk_skb/stream_parser", .skSkb, none⟩, ⟨"sk_skb/stream_verdict", .skSkb, none⟩,
    ⟨"sk_skb", .skSkb, none⟩, ⟨"sk_msg", .skMsg, none⟩, ⟨"lirc_mode2", .lircMode2, none⟩,
    ⟨"flow_dissector", .flowDissector, none⟩, ⟨"cgroup_skb/ingress", .cgroupSkb, none⟩,
    ⟨"cgroup_skb/egress", .cgroupSkb, none⟩, ⟨"cgroup/skb", .cgroupSkb, none⟩,
    ⟨"cgroup/sock_create", .cgroupSock, none⟩, ⟨"cgroup/sock_release", .cgroupSock, none⟩,
    ⟨"cgroup/sock", .cgroupSock, none⟩, ⟨"cgroup/post_bind4", .cgroupSock, none⟩,
    ⟨"cgroup/post_bind6", .cgroupSock, none⟩, ⟨"cgroup/bind4", .cgroupSockAddr, none⟩,
    ⟨"cgroup/bind6", .cgroupSockAddr, none⟩, ⟨"cgroup/connect4", .cgroupSockAddr, none⟩,
    ⟨"cgroup/connect6", .cgroupSockAddr, none⟩, ⟨"cgroup/sendmsg4", .cgroupSockAddr, none⟩,
    ⟨"cgroup/sendmsg6", .cgroupSockAddr, none⟩, ⟨"cgroup/recvmsg4", .cgroupSockAddr, none⟩,
    ⟨"cgroup/recvmsg6", .cgroupSockAddr, none⟩, ⟨"cgroup/getpeername4", .cgroupSockAddr, none⟩,
    ⟨"cgroup/getpeername6", .cgroupSockAddr, none⟩,
    ⟨"cgroup/getsockname4", .cgroupSockAddr, none⟩,
    ⟨"cgroup/getsockname6", .cgroupSockAddr, none⟩, ⟨"cgroup/sysctl", .cgroupSysctl, none⟩,
    ⟨"cgroup/getsockopt", .cgroupSockopt, none⟩, ⟨"cgroup/setsockopt", .cgroupSockopt, none⟩,
    ⟨"cgroup/dev", .cgroupDevice, none⟩, ⟨"struct_ops+", .structOps, none⟩,
    ⟨"sk_lookup", .skLookup, none⟩]

/-- The definition is for the section of this name. -/
def secDefMatches (d : SecDef) (secName : String) : Bool :=
  let sec := d.sec.toList
  if sec.getLast? = some '/' then sec.isPrefixOf secName.toList
  else if sec.getLast? = some '+' then
    -- the name itself, or the name and a slash
    sec.dropLast.isPrefixOf secName.toList &&
      (secName.toList.drop sec.dropLast.length).head?.elim true (· == '/')
  else secName.toList == sec

/-- The handlers that a program has registered come first, and its fallback last. -/
def findSecDef (custom : List SecDef) (fallback : Option SecDef) (secName : String) :
    Option SecDef :=
  ((custom.find? (secDefMatches · secName)).or
    (sectionDefs.find? (secDefMatches · secName))).or fallback

/-- The function of libbpf that a call belongs to. -/
def AttachCall.attachFn : AttachCall → AttachFn
  | .uprobe _ => .uprobe
  | .kprobe _ _ => .kprobe
  | .tracepoint _ _ => .tp

/-- The type that the kernel asks of a program behind such a link. -/
def AttachCall.progType : AttachCall → ProgType
  | .uprobe _ => .kprobe
  | .kprobe _ _ => .kprobe
  | .tracepoint _ _ => .tracepoint

/-- The characters of `%m[a-zA-Z0-9_.]`. -/
def inScanset (c : Char) : Bool := c.isAlphanum || c == '_' || c == '.'

/-- A call with its options, as a function of the library for a section makes it. -/
inductive OptsCall where
  | kprobe (retprobe : Bool) (funcName : String) (offset : ℤ)
  | uprobe (retprobe : Bool) (binaryPath funcName : String) (offset : ℤ)
  | tracepoint (category name : String)
  deriving DecidableEq, Repr

/-- What a call of the loop passes on. The library has neither the process nor the offset of a
uprobe from its section. -/
def AttachCall.opts : AttachCall → Option OptsCall
  | .uprobe _ => none
  | .kprobe retprobe symbol => some (.kprobe retprobe symbol 0)
  | .tracepoint category name => some (.tracepoint category name)

section AutoAttach

variable (scanLong : List Char → Option ℤ)

/-- `%m[a-zA-Z0-9_.]+%li`, the offset being zero at first; `scanLong` is the last part. -/
def scanFunc (l : List Char) : Option (String × ℤ) :=
  let func := l.takeWhile inScanset
  if func = [] then none
  else some (.ofList func, match l.dropWhile inScanset with
    | '+' :: rest => (scanLong rest).getD 0
    | _ => 0)

def attachKprobe (secName : String) : Option OptsCall :=
  if secName = "kprobe" ∨ secName = "kretprobe" then none
  else
    let retprobe := "kretprobe/".toList.isPrefixOf secName.toList
    let funcName := secName.toList.drop
      (if retprobe then "kretprobe/".toList.length else "kprobe/".toList.length)
    match scanFunc scanLong funcName with
    | none => none
    | some (func, offset) =>
      if retprobe && offset != 0 then none else some (.kprobe retprobe func offset)

def attachUprobe (secName : String) : Option OptsCall :=
  let probeType := secName.toList.takeWhile (· ≠ '/')
  match secName.toList.dropWhile (· ≠ '/') with
  | [] => none
  | _ :: path =>
    match path.dropWhile (· ≠ ':') with
    | [] => none
    | _ :: func =>
      match scanFunc scanLong func with
      | none => none
      | some (func, offset) =>
        let retprobe := probeType == "uretprobe".toList || probeType == "uretprobe.s".toList
        if probeType = [] ∨ path.takeWhile (· ≠ ':') = [] ∨ retprobe && offset != 0 then none
        else some (.uprobe retprobe (.ofList (path.takeWhile (· ≠ ':'))) func offset)

def attachTp (secName : String) : Option OptsCall :=
  if secName = "tp" ∨ secName = "tracepoint" then none
  else
    let tpCat := secName.toList.drop (if "tp/".toList.isPrefixOf secName.toList
      then "tp/".toList.length else "tracepoint/".toList.length)
    match tpCat.dropWhile (· ≠ '/') with
    | [] => none
    | _ :: tpName => some (.tracepoint (.ofList (tpCat.takeWhile (· ≠ '/'))) (.ofList tpName))

/-- `bpf_program__attach`: the call that it makes for a section, unless it fails before. The other
functions are not modelled. -/
def programAttach (other : AttachFn → String → Option OptsCall) (secName : String) :
    Option OptsCall :=
  match (findSecDef [] none secName).bind SecDef.attachFn with
  | none => none
  | some .kprobe => attachKprobe scanLong secName
  | some .uprobe => attachUprobe scanLong secName
  | some .tp => attachTp secName
  | some fn => other fn secName

end AutoAttach

end LensX
