import FooCoin.Crypto

/-!
# Network addresses

The classes of addresses in `netbase.cpp` and the group of an address, from which `CAddrMan`
computes its buckets.
-/

namespace FooCoin

/-- `CNetAddr`: an IPv6 address, or an IPv4 address mapped into one. -/
structure CNetAddr where
  /-- The bytes in network order. -/
  ip : Vector UInt8 16
deriving DecidableEq

/-- The prefix of mapped IPv4 addresses. -/
def pchIPv4 : List UInt8 := [0, 0, 0, 0, 0, 0, 0, 0, 0, 0, 0xff, 0xff]

def pchOnionCat : List UInt8 := [0xfd, 0x87, 0xd8, 0x7e, 0xeb, 0x43]

def pchGarliCat : List UInt8 := [0xfd, 0x60, 0xdb, 0x4d, 0xdd, 0xb5]

/-- `enum Network`. -/
inductive Network
  | unroutable
  | ipv4
  | ipv6
  | tor
  | i2p
deriving DecidableEq

/-- The number of a network in a group. -/
def Network.toUInt8 : Network → UInt8
  | .unroutable => 0
  | .ipv4 => 1
  | .ipv6 => 2
  | .tor => 3
  | .i2p => 4

namespace CNetAddr

/-- A byte, counted from the last one. -/
def getByte (addr : CNetAddr) (n : Nat) : UInt8 := addr.ip[15 - n]

/-- `memcmp` of the first bytes. -/
def startsWith (addr : CNetAddr) (bytes : List UInt8) : Bool :=
  addr.ip.toList.take bytes.length = bytes

def isIPv4 (addr : CNetAddr) : Bool := addr.startsWith pchIPv4

def isRFC1918 (addr : CNetAddr) : Bool :=
  addr.isIPv4 && (addr.getByte 3 == 10 || addr.getByte 3 == 192 && addr.getByte 2 == 168 ||
    addr.getByte 3 == 172 && (16 ≤ addr.getByte 2 && addr.getByte 2 ≤ 31))

def isRFC3927 (addr : CNetAddr) : Bool :=
  addr.isIPv4 && (addr.getByte 3 == 169 && addr.getByte 2 == 254)

def isRFC3849 (addr : CNetAddr) : Bool :=
  addr.getByte 15 == 0x20 && addr.getByte 14 == 0x01 && addr.getByte 13 == 0x0d &&
    addr.getByte 12 == 0xb8

def isRFC3964 (addr : CNetAddr) : Bool := addr.getByte 15 == 0x20 && addr.getByte 14 == 0x02

def isRFC6052 (addr : CNetAddr) : Bool :=
  addr.startsWith [0, 0x64, 0xff, 0x9b, 0, 0, 0, 0, 0, 0, 0, 0]

def isRFC4380 (addr : CNetAddr) : Bool :=
  addr.getByte 15 == 0x20 && addr.getByte 14 == 0x01 && addr.getByte 13 == 0 &&
    addr.getByte 12 == 0

def isRFC4862 (addr : CNetAddr) : Bool := addr.startsWith [0xfe, 0x80, 0, 0, 0, 0, 0, 0]

def isRFC4193 (addr : CNetAddr) : Bool := addr.getByte 15 &&& 0xfe == 0xfc

def isRFC6145 (addr : CNetAddr) : Bool :=
  addr.startsWith [0, 0, 0, 0, 0, 0, 0, 0, 0xff, 0xff, 0, 0]

def isRFC4843 (addr : CNetAddr) : Bool :=
  addr.getByte 15 == 0x20 && addr.getByte 14 == 0x01 && addr.getByte 13 == 0x00 &&
    addr.getByte 12 &&& 0xf0 == 0x10

def isTor (addr : CNetAddr) : Bool := addr.startsWith pchOnionCat

def isI2P (addr : CNetAddr) : Bool := addr.startsWith pchGarliCat

def isLocal (addr : CNetAddr) : Bool :=
  addr.isIPv4 && (addr.getByte 3 == 127 || addr.getByte 3 == 0) ||
    addr.startsWith [0, 0, 0, 0, 0, 0, 0, 0, 0, 0, 0, 0, 0, 0, 0, 1]

def isValid (addr : CNetAddr) : Bool :=
  -- what is left of a mapped address that was read three bytes too late
  !addr.startsWith (pchIPv4.drop 3) && !addr.startsWith (List.replicate 16 0) &&
    !addr.isRFC3849 && !(addr.isIPv4 && (addr.ip.toList.drop 12 == [0xff, 0xff, 0xff, 0xff] ||
      addr.ip.toList.drop 12 == [0, 0, 0, 0]))

def isRoutable (addr : CNetAddr) : Bool :=
  addr.isValid && !(addr.isRFC1918 || addr.isRFC3927 || addr.isRFC4862 ||
    addr.isRFC4193 && !addr.isTor && !addr.isI2P || addr.isRFC4843 || addr.isLocal)

/-- `GetNetwork`. -/
def getNetwork (addr : CNetAddr) : Network :=
  if !addr.isRoutable then .unroutable
  else if addr.isIPv4 then .ipv4
  else if addr.isTor then .tor
  else if addr.isI2P then .i2p
  else .ipv6

/-- The class and the first `nBits` bits from a byte on. -/
def groupOf (addr : CNetAddr) (nClass : UInt8) (nStartByte nBits : Nat) : List UInt8 :=
  nClass :: ((List.range (nBits / 8)).map fun i => addr.getByte (15 - (nStartByte + i))) ++
    if 0 < nBits % 8 then
      [addr.getByte (15 - (nStartByte + nBits / 8)) ||| UInt8.ofNat (2 ^ (nBits % 8) - 1)]
    else []

/-- `GetGroup`. -/
def getGroup (addr : CNetAddr) : List UInt8 :=
  let (nClass, nBits) := if addr.isLocal then (255, 0) else (Network.ipv6.toUInt8, 16)
  if !addr.isRoutable then addr.groupOf Network.unroutable.toUInt8 0 0
  else if addr.isIPv4 || addr.isRFC6145 || addr.isRFC6052 then
    addr.groupOf Network.ipv4.toUInt8 12 nBits
  else if addr.isRFC3964 then addr.groupOf Network.ipv4.toUInt8 2 nBits
  else if addr.isRFC4380 then
    [Network.ipv4.toUInt8, addr.getByte 3 ^^^ 0xff, addr.getByte 2 ^^^ 0xff]
  else if addr.isTor then addr.groupOf Network.tor.toUInt8 6 4
  else if addr.isI2P then addr.groupOf Network.i2p.toUInt8 6 4
  else if addr.getByte 15 == 0x20 && addr.getByte 14 == 0x11 && addr.getByte 13 == 0x04 &&
      addr.getByte 12 == 0x70 then
    addr.groupOf nClass 0 36
  else addr.groupOf nClass 0 32

end CNetAddr

/-- `CService`: an address and a port. -/
structure CService extends CNetAddr where
  port : UInt16
deriving DecidableEq

/-- The bytes that tell a service from others. -/
def CService.getKey (service : CService) : List UInt8 :=
  service.ip.toList ++ [(service.port / 0x100).toUInt8, (service.port &&& 0x0ff).toUInt8]

end FooCoin
