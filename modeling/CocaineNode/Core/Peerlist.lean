/-!
# Peer Lists

The white and the gray list of `peerlist_manager` in `p2p/net_peerlist.h`. A
container with an index by address and one by time is a list in the order of the
times in which an address occurs once.
-/

namespace CocaineNode

/-- `network_address::interface`, as far as the lists ask it. -/
class AddressInterface (α : Type) where
  isSameHost : α → α → Bool
  isLoopback : α → Bool
  isLocal : α → Bool
  isSameHost_comm : ∀ a b, isSameHost a b = isSameHost b a

/-- `peerlist_entry`. -/
structure PeerlistEntry (α : Type) where
  adr : α
  id : UInt64
  lastSeen : Int
  pruningSeed : UInt32
  rpcPort : UInt16
  rpcCreditsPerHash : UInt32
  deriving DecidableEq, Repr

/-- `peers_indexed`. -/
structure PeersIndexed (α : Type) where
  entries : List (PeerlistEntry α)
  unique : (entries.map PeerlistEntry.adr).Nodup

namespace PeersIndexed

variable {α : Type} [DecidableEq α]

def empty : PeersIndexed α :=
  ⟨[], List.nodup_nil⟩

/-- The entry at a place of the index by time. -/
def placeAt (k : Nat) (e : PeerlistEntry α) (l : List (PeerlistEntry α)) : List (PeerlistEntry α) :=
  l.take k ++ e :: l.drop k

omit [DecidableEq α] in
theorem placeAt_perm (k : Nat) (e : PeerlistEntry α) (l : List (PeerlistEntry α)) :
    (placeAt k e l).Perm (e :: l) := by
  have h := @List.perm_middle _ e (l.take k) (l.drop k)
  rwa [List.take_append_drop] at h

/-- Its place among the others: after those of the same time. -/
def timeIndex (e : PeerlistEntry α) (l : List (PeerlistEntry α)) : Nat :=
  (l.takeWhile fun f => f.lastSeen ≤ e.lastSeen).length

def find (l : PeersIndexed α) (adr : α) : Option (PeerlistEntry α) :=
  l.entries.find? fun e => e.adr = adr

/-- The entries for which `f` holds are erased. -/
def eraseIf (l : PeersIndexed α) (f : PeerlistEntry α → Bool) : PeersIndexed α :=
  ⟨l.entries.filter fun e => !f e, l.unique.sublist (List.filter_sublist.map _)⟩

def erase (l : PeersIndexed α) (adr : α) : PeersIndexed α :=
  l.eraseIf fun e => e.adr = adr

/-- The entry at a place, instead of one with its address. -/
def put (l : PeersIndexed α) (k : Nat) (e : PeerlistEntry α) : PeersIndexed α where
  entries := placeAt k e (l.erase e.adr).entries
  unique := by
    refine ((placeAt_perm k e _).map _).nodup_iff.mpr
      (List.nodup_cons.mpr ⟨?_, (l.erase e.adr).unique⟩)
    simp [erase, eraseIf]

/-- `insert`, which does nothing for an address that is there. -/
def insert (l : PeersIndexed α) (e : PeerlistEntry α) : PeersIndexed α :=
  if (l.find e.adr).isSome then l else l.put (timeIndex e l.entries) e

/-- `replace` by an entry with the same address. It stays where it is if the order of the times
    allows that. -/
def replace (l : PeersIndexed α) (e : PeerlistEntry α) : PeersIndexed α :=
  let others := (l.erase e.adr).entries
  let k := (l.entries.takeWhile fun f => f.adr ≠ e.adr).length
  let inPlace := (others.take k).getLast?.all (fun f => f.lastSeen ≤ e.lastSeen) &&
    (others.drop k).head?.all fun f => e.lastSeen ≤ f.lastSeen
  l.put (if inPlace then k else timeIndex e others) e

/-- The oldest entries are erased until at most `limit` are left. -/
def trim (l : PeersIndexed α) (limit : Nat) : PeersIndexed α :=
  ⟨l.entries.drop (l.entries.length - limit), l.unique.sublist ((List.drop_sublist _ _).map _)⟩

end PeersIndexed

/-- `peerlist_manager`. -/
structure PeerlistManager (α : Type) where
  allowLocalIp : Bool
  peersGray : PeersIndexed α
  peersWhite : PeersIndexed α

namespace PeerlistManager

variable {α : Type} [DecidableEq α] [AddressInterface α]

open AddressInterface

/-- `P2P_LOCAL_WHITE_PEERLIST_LIMIT`. -/
def localWhitePeerlistLimit : Nat := 1000

/-- `P2P_LOCAL_GRAY_PEERLIST_LIMIT`. -/
def localGrayPeerlistLimit : Nat := 5000

def isHostAllowed (p : PeerlistManager α) (address : α) : Bool :=
  if isLoopback address then false
  else if !p.allowLocalIp && isLocal address then false
  else true

omit [DecidableEq α] [AddressInterface α] in
/-- `filter`: how many entries it has erased, and the lists it leaves. -/
def filter (p : PeerlistManager α) (white : Bool) (f : PeerlistEntry α → Bool) :
    Nat × PeerlistManager α :=
  if white then (p.peersGray.entries.countP f, { p with peersGray := p.peersGray.eraseIf f })
  else (p.peersWhite.entries.countP f, { p with peersWhite := p.peersWhite.eraseIf f })

/-- `evict_host_from_peerlist`. -/
def evictHostFromPeerlist (p : PeerlistManager α) (useWhite : Bool) (pr : PeerlistEntry α) :
    PeerlistManager α :=
  (p.filter useWhite fun pe => isSameHost pe.adr pr.adr).2

/-- A known entry with what a peer says about it. What an older node does not pass around is kept,
    and so is the time, unless it can be trusted. -/
def updated (old ple : PeerlistEntry α) (trustLastSeen : Bool) : PeerlistEntry α :=
  { ple with
    pruningSeed := if old.pruningSeed ≠ 0 ∧ ple.pruningSeed = 0 then old.pruningSeed
      else ple.pruningSeed
    rpcPort := if old.rpcPort ≠ 0 ∧ ple.rpcPort = 0 then old.rpcPort else ple.rpcPort
    lastSeen := if trustLastSeen then ple.lastSeen else old.lastSeen }

/-- `append_with_peer_white`. -/
def appendWithPeerWhite (p : PeerlistManager α) (ple : PeerlistEntry α) (trustLastSeen : Bool) :
    PeerlistManager α :=
  if !p.isHostAllowed ple.adr then p
  else
    let q := match p.peersWhite.find ple.adr with
      | none =>
        let q := p.evictHostFromPeerlist true ple
        { q with peersWhite := (q.peersWhite.insert ple).trim localWhitePeerlistLimit }
      | some old => { p with peersWhite := p.peersWhite.replace (updated old ple trustLastSeen) }
    { q with peersGray := q.peersGray.erase ple.adr }

/-- `append_with_peer_gray`. -/
def appendWithPeerGray (p : PeerlistManager α) (ple : PeerlistEntry α) : PeerlistManager α :=
  if !p.isHostAllowed ple.adr || (p.peersWhite.find ple.adr).isSome then p
  else
    match p.peersGray.find ple.adr with
    | none => { p with peersGray := (p.peersGray.insert ple).trim localGrayPeerlistLimit }
    | some old => { p with peersGray := p.peersGray.replace (updated old ple false) }

/-- `merge_peerlist`, where `f` says which entries are wanted. -/
def mergePeerlist (p : PeerlistManager α) (outerBs : List (PeerlistEntry α))
    (f : PeerlistEntry α → Bool) : PeerlistManager α :=
  let q := (outerBs.filter f).foldl appendWithPeerGray p
  { q with peersGray := q.peersGray.trim localGrayPeerlistLimit }

/-- `set_peer_just_seen` at a time. -/
def setPeerJustSeen (p : PeerlistManager α) (peer : UInt64) (addr : α) (pruningSeed : UInt32)
    (rpcPort : UInt16) (rpcCreditsPerHash : UInt32) (time : Int) : PeerlistManager α :=
  p.appendWithPeerWhite ⟨addr, peer, time, pruningSeed, rpcPort, rpcCreditsPerHash⟩ true

/-- `remove_from_peer_white`. -/
def removeFromPeerWhite (p : PeerlistManager α) (pe : PeerlistEntry α) : PeerlistManager α :=
  { p with peersWhite := p.peersWhite.erase pe.adr }

/-- `remove_from_peer_gray`. -/
def removeFromPeerGray (p : PeerlistManager α) (pe : PeerlistEntry α) : PeerlistManager α :=
  { p with peersGray := p.peersGray.erase pe.adr }

end PeerlistManager

/-- `ipv4_network_address`: an ip, the first byte of it lowest, and a port. -/
structure Ipv4NetworkAddress where
  ip : UInt32
  port : UInt16
  deriving DecidableEq, Repr

/-- The addresses from 10.0.0.0, 192.168.0.0 and 172.16.0.0 to 172.31.255.255 on. -/
def isIpLocal (ip : UInt32) : Bool :=
  if (ip ||| 0xffffff00) = 0xffffff0a then true
  else if (ip ||| 0xffff0000) = 0xffffa8c0 then true
  else
    let second := (ip >>> 8) &&& 0xff
    (ip ||| 0xffffff00) = 0xffffffac && (second ≥ 16 && second ≤ 31)

instance : AddressInterface Ipv4NetworkAddress where
  isSameHost a b := a.ip = b.ip
  isLoopback a := (a.ip ||| 0xffffff00) = 0xffffff7f
  isLocal a := isIpLocal a.ip
  isSameHost_comm a b := by simp only [eq_comm]

end CocaineNode
