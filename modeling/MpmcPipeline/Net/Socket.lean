import Mathlib.Logic.Function.Basic
import MpmcPipeline.Machine.Program
import MpmcPipeline.Proto.Message

/-!
# `UdpMulticastSocket`

A `UdpMulticastSocket` (`udp_multicast.hpp`, `udp_multicast.cpp`) owns one descriptor: `fd_` is
negative or a descriptor that `::socket` has given and that is still open. `open_receiver` and
`open_sender` close what there was, ask for a descriptor and set it up, and give it back when
anything of this fails.

The methods are programs over `Sys`: accesses to the members of a socket, by its name in `κ`, and
system calls. `Table.exec` is what these do to the objects and to the open descriptors, with a
`Reply` for all that the operating system decides; it may fail any call, and of the descriptors
it gives nothing is known but that they are not open.
-/

namespace Hft

namespace Net

/-- `MulticastEndpoint` -/
structure MulticastEndpoint where
  group : Option String := none
  port : BitVec 16 := 0
  ttl : BitVec 8 := 1

/-- `UdpMulticastSocket` -/
structure UdpMulticastSocket where
  fd : Int := -1
  endpoint : MulticastEndpoint := {}

/-- The address 127.0.0.1. -/
def loopbackAddress : BitVec 32 := 0x7F000001

/-- `INADDR_ANY` -/
def anyAddress : BitVec 32 := 0

/-- What `setsockopt` is called with. -/
inductive SocketOption
  /-- `SO_REUSEADDR` -/
  | reuseaddr (yes : BitVec 32)
  /-- `IP_MULTICAST_LOOP` -/
  | multicastLoop (loop : BitVec 8)
  /-- `IP_MULTICAST_TTL` -/
  | multicastTtl (value : BitVec 8)
  /-- `IP_ADD_MEMBERSHIP` -/
  | addMembership (multiaddr interface : BitVec 32)
  /-- `IP_MULTICAST_IF` -/
  | multicastIf (iface : BitVec 32)

/-- What the methods of a socket ask for. -/
inductive Sys (κ : Type*)
  /-- `fd_` -/
  | fd (k : κ)
  /-- `fd_ = fd` -/
  | setFd (k : κ) (fd : Int)
  /-- `endpoint_` -/
  | endpoint (k : κ)
  /-- `endpoint_ = endpoint` -/
  | setEndpoint (k : κ) (endpoint : MulticastEndpoint)
  /-- `::socket(AF_INET, SOCK_DGRAM, 0)` -/
  | socket
  | setsockopt (fd : Int) (option : SocketOption)
  | bind (fd : Int) (address : BitVec 32) (port : BitVec 16)
  /-- `::recvfrom(fd, buffer, capacity, 0, nullptr, nullptr)`, called by the socket `k`. -/
  | recvfrom (k : κ) (fd : Int) (capacity : ℕ)
  /-- `::sendto(fd, buffer, length, 0, …)`, called by the socket `k`. -/
  | sendto (k : κ) (fd : Int) (buffer : List Byte) (address : BitVec 32) (port : BitVec 16)
  | close (fd : Int)

/-- The answers. For `recvfrom` and `sendto` it is `none` for −1, else the bytes and the number of
bytes. -/
def Sys.Answer {κ : Type*} : Sys κ → Type
  | fd _ | socket => Int
  | endpoint _ => MulticastEndpoint
  | setFd _ _ | setEndpoint _ _ | close _ => Unit
  | setsockopt _ _ | bind _ _ _ => Bool
  | recvfrom _ _ _ => Option (List Byte)
  | sendto _ _ _ _ _ => Option ℕ

/-- The code of a method. -/
abbrev SysCode (κ : Type*) (α : Type) := Program (Sys κ) Sys.Answer α

namespace Code

variable {κ : Type*}

/-- `fd_` -/
def fd (k : κ) : SysCode κ Int := .perform (Sys.fd k)

def setFd (k : κ) (fd : Int) : SysCode κ Unit := .perform (Sys.setFd k fd)

/-- `endpoint_` -/
def endpoint (k : κ) : SysCode κ MulticastEndpoint := .perform (Sys.endpoint k)

def setEndpoint (k : κ) (endpoint : MulticastEndpoint) : SysCode κ Unit :=
  .perform (Sys.setEndpoint k endpoint)

def socket : SysCode κ Int := .perform Sys.socket

def setsockopt (fd : Int) (option : SocketOption) : SysCode κ Bool :=
  .perform (Sys.setsockopt fd option)

def bind (fd : Int) (address : BitVec 32) (port : BitVec 16) : SysCode κ Bool :=
  .perform (Sys.bind fd address port)

def recvfrom (k : κ) (fd : Int) (capacity : ℕ) : SysCode κ (Option (List Byte)) :=
  .perform (Sys.recvfrom k fd capacity)

def sendto (k : κ) (fd : Int) (buffer : List Byte) (address : BitVec 32) (port : BitVec 16) :
    SysCode κ (Option ℕ) := .perform (Sys.sendto k fd buffer address port)

def sysClose (fd : Int) : SysCode κ Unit := .perform (Sys.close fd)

/-! ### Setting a descriptor up -/

/-- `set_reuseaddr` -/
def setReuseaddr (fd : Int) : SysCode κ Bool := setsockopt fd (.reuseaddr 1)

/-- `set_loopback` -/
def setLoopback (fd : Int) (enabled : Bool) : SysCode κ Bool :=
  setsockopt fd (.multicastLoop (if enabled then 1 else 0))

/-- `set_ttl` -/
def setTtl (fd : Int) (ttl : BitVec 8) : SysCode κ Bool := setsockopt fd (.multicastTtl ttl)

/-- `join_group`; `inetPton` is `inet_pton(AF_INET, …)`. A null group, for which `inet_pton` is
undefined, does not occur. -/
def joinGroup (inetPton : String → Option (BitVec 32)) (fd : Int) (group : Option String)
    (loopback : Bool) : SysCode κ Bool :=
  match group.bind inetPton with
  | none => pure false
  | some multiaddr =>
    setsockopt fd (.addMembership multiaddr (if loopback then loopbackAddress else anyAddress))

/-- `bind_port` -/
def bindPort (fd : Int) (port : BitVec 16) : SysCode κ Bool := bind fd anyAddress port

/-- `set_multicast_if` -/
def setMulticastIf (fd : Int) (loopback : Bool) : SysCode κ Bool :=
  setsockopt fd (.multicastIf (if loopback then loopbackAddress else anyAddress))

/-! ### The methods -/

/-- `UdpMulticastSocket::close` -/
def close (k : κ) : SysCode κ Unit := do
  let fd ← fd k
  if 0 ≤ fd then do
    sysClose fd
    setFd k (-1)
  else pure ()

/-- The common text of `open_receiver` and `open_sender`: `setUp` is what is done to the
descriptor. -/
def openWith (k : κ) (endpoint : MulticastEndpoint) (setUp : Int → List (SysCode κ Bool)) :
    SysCode κ Bool := do
  close k
  setEndpoint k endpoint
  let fd ← socket
  if fd < 0 then pure false
  else do
    if ← .allOf (setUp fd) then do
      setFd k fd
      pure true
    else do
      -- nobody else has it: it is given back
      sysClose fd
      pure false

/-- `UdpMulticastSocket::open_receiver` -/
def openReceiver (inetPton : String → Option (BitVec 32)) (k : κ) (endpoint : MulticastEndpoint)
    (loopback : Bool) : SysCode κ Bool :=
  openWith k endpoint fun fd => [setReuseaddr fd, bindPort fd endpoint.port,
    joinGroup inetPton fd endpoint.group loopback, setLoopback fd loopback]

/-- `UdpMulticastSocket::open_sender` -/
def openSender (k : κ) (endpoint : MulticastEndpoint) (loopback : Bool) : SysCode κ Bool :=
  openWith k endpoint fun fd => [setTtl fd endpoint.ttl, setLoopback fd loopback,
    setMulticastIf fd loopback]

/-- `UdpMulticastSocket::recv`, with `none` for −1; `buffer` is not null. -/
def recv (k : κ) (capacity : ℕ) : SysCode κ (Option (List Byte)) := do
  let fd ← fd k
  if fd < 0 ∨ capacity = 0 then pure none else recvfrom k fd capacity

/-- `UdpMulticastSocket::send`, with `none` for −1; `buffer` is not null. -/
def send (inetPton : String → Option (BitVec 32)) (k : κ) (buffer : List Byte) :
    SysCode κ (Option ℕ) := do
  let fd ← fd k
  let endpoint ← endpoint k
  if fd < 0 ∨ buffer = [] ∨ endpoint.group = none ∨ endpoint.port = 0 then pure none
  else
    match endpoint.group.bind inetPton with
    | none => pure none
    | some address => sendto k fd buffer address endpoint.port

end Code

/-! ### What the commands do -/

/-- The sockets, and the descriptors that have been given and not been closed. -/
structure Table (κ : Type*) where
  socket : κ → UdpMulticastSocket
  opened : List Int

/-- Sockets as they are constructed. -/
def Table.fresh (κ : Type*) : Table κ := ⟨fun _ => {}, []⟩

/-- What the operating system decides. -/
structure Reply where
  /-- `::socket` -/
  fd : Int := -1
  /-- `setsockopt` and `bind` -/
  ok : Bool := true
  /-- `::recvfrom` -/
  received : Option (List Byte) := none
  /-- `::sendto` -/
  sent : Option ℕ := none

/-- A command. A descriptor that is given is not open, and what is received fits the buffer. -/
def Table.exec {κ : Type*} [DecidableEq κ] (reply : Reply) (t : Table κ) :
    (c : Sys κ) → Option (Table κ × c.Answer)
  | .fd k => some (t, (t.socket k).fd)
  | .setFd k fd =>
    some ({ t with socket := Function.update t.socket k { t.socket k with fd } }, ())
  | .endpoint k => some (t, (t.socket k).endpoint)
  | .setEndpoint k endpoint =>
    some ({ t with socket := Function.update t.socket k { t.socket k with endpoint } }, ())
  | .socket =>
    if reply.fd < 0 then some (t, reply.fd)
    else if reply.fd ∈ t.opened then none
    else some ({ t with opened := reply.fd :: t.opened }, reply.fd)
  | .setsockopt _ _ | .bind _ _ _ => some (t, reply.ok)
  | .recvfrom _ _ capacity =>
    if (reply.received.getD []).length ≤ capacity then some (t, reply.received) else none
  | .sendto _ _ _ _ _ => some (t, reply.sent)
  | .close fd => some ({ t with opened := t.opened.erase fd }, ())

/-- The descriptor of a system call. -/
def Sys.target {κ : Type*} : Sys κ → Option Int
  | fd _ | setFd _ _ | endpoint _ | setEndpoint _ _ | socket => none
  | setsockopt d _ | bind d _ _ | recvfrom _ d _ | sendto _ d _ _ _ | close d => some d

end Net

end Hft
