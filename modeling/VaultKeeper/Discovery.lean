import Mathlib.Data.List.Basic

/-!
# Bootstrap Addresses

`p2p/src/discovery.rs`: the loop that adds the bootstrap nodes of a configuration to the routing
table. An address without a peer id is skipped, and an address that does not parse ends the loop
with an error, although the test of the module says that it is skipped; what was added before
stays added, and what comes after is not.

`libp2p` is a parameter: how it reads an address, and what the routing table is.

## Main results

* `addBootstrapNodes_of_parses`: while the addresses parse, those with a peer id are added and
  counted.
* `addBootstrapNodes_of_error`: what the first address that does not parse leaves behind.
* `addBootstrapNodes_eq_iff`: all addresses with a peer id are added, and counted, exactly when
  every address parses.
-/

namespace VaultKeeper

/-- A component of a multiaddress. -/
inductive Protocol (PeerId : Type)
  | p2p (peerId : PeerId)
  | other (text : String)

/-- `libp2p::Multiaddr`. -/
abbrev Multiaddr (PeerId : Type) := List (Protocol PeerId)

/-- What the loop uses of `libp2p`: `Multiaddr::from_str`, whose errors are texts here, and
`Kademlia::add_address`. -/
structure Libp2p (Kademlia PeerId : Type) where
  parse : String → Except String (Multiaddr PeerId)
  addAddress : Kademlia → PeerId → Multiaddr PeerId → Kademlia

/-- The first peer id of an address. -/
def Multiaddr.peerId? {PeerId : Type} : Multiaddr PeerId → Option PeerId
  | [] => none
  | .p2p peerId :: _ => some peerId
  | .other _ :: rest => Multiaddr.peerId? rest

namespace Libp2p

variable {Kademlia PeerId : Type} (p : Libp2p Kademlia PeerId)

/-- The loop over the addresses, with the number of nodes added so far. -/
def addLoop (kademlia : Kademlia) (added : ℕ) :
    List String → Kademlia × Except String ℕ
  | [] => (kademlia, .ok added)
  | addrStr :: rest =>
      match p.parse addrStr with
      | .error e =>
          (kademlia, .error ("Failed to parse bootstrap addr '" ++ addrStr ++ "': " ++ e))
      | .ok addr =>
          match Multiaddr.peerId? addr with
          | none => addLoop kademlia added rest
          | some peerId => addLoop (p.addAddress kademlia peerId addr) (added + 1) rest

/-- Add bootstrap nodes to the routing table. -/
def addBootstrapNodes (kademlia : Kademlia) (bootstrapAddrs : List String) :
    Kademlia × Except String ℕ :=
  p.addLoop kademlia 0 bootstrapAddrs

/-- An address that parses and has a peer id, with the id. -/
def dialable (addrStr : String) : Option (PeerId × Multiaddr PeerId) :=
  match p.parse addrStr with
  | .error _ => none
  | .ok addr => (Multiaddr.peerId? addr).map fun peerId => (peerId, addr)

/-- The routing table with some nodes added in order. -/
def addAll (kademlia : Kademlia) (nodes : List (PeerId × Multiaddr PeerId)) : Kademlia :=
  nodes.foldl (fun kademlia node => p.addAddress kademlia node.1 node.2) kademlia

/-! ### The loop -/

/-- **The step**: over addresses that parse, the loop adds the nodes of those with a peer id and
goes on with the rest. -/
theorem addLoop_append {front : List String} (hfront : ∀ s ∈ front, ∃ addr, p.parse s = .ok addr)
    (kademlia : Kademlia) (added : ℕ) (rest : List String) :
    p.addLoop kademlia added (front ++ rest) =
      p.addLoop (p.addAll kademlia (front.filterMap p.dialable))
        (added + (front.filterMap p.dialable).length) rest := by
  induction front generalizing kademlia added with
  | nil => rfl
  | cons s front ih =>
      obtain ⟨⟨addr, haddr⟩, hrest⟩ := List.forall_mem_cons.mp hfront
      rw [List.cons_append]
      cases hpeer : Multiaddr.peerId? addr with
      | none =>
          have hskip : p.dialable s = none := by
            simp only [dialable, haddr, hpeer, Option.map_none]
          rw [List.filterMap_cons_none hskip, ← ih hrest, addLoop]
          simp only [haddr, hpeer]
      | some peerId =>
          have hadd : p.dialable s = some (peerId, addr) := by
            simp only [dialable, haddr, hpeer, Option.map_some]
          rw [List.filterMap_cons_some hadd, List.length_cons, Nat.add_comm _ 1, ← Nat.add_assoc,
            addLoop]
          simp only [haddr, hpeer]
          rw [ih hrest]
          rfl

/-- Addresses that parse: those with a peer id are added and counted. -/
theorem addBootstrapNodes_of_parses {addrs : List String}
    (h : ∀ s ∈ addrs, ∃ addr, p.parse s = .ok addr) (kademlia : Kademlia) :
    p.addBootstrapNodes kademlia addrs =
      (p.addAll kademlia (addrs.filterMap p.dialable),
        .ok (addrs.filterMap p.dialable).length) := by
  rw [addBootstrapNodes, ← List.append_nil addrs, p.addLoop_append h, List.append_nil,
    Nat.zero_add, addLoop]

/-- **The abort**: the first address that does not parse ends the loop. The nodes before it have
been added, those after it are not looked at, and the count is lost. -/
theorem addBootstrapNodes_of_error {front : List String}
    (hfront : ∀ s ∈ front, ∃ addr, p.parse s = .ok addr) {s e : String}
    (hs : p.parse s = .error e) (rest : List String) (kademlia : Kademlia) :
    p.addBootstrapNodes kademlia (front ++ s :: rest) =
      (p.addAll kademlia (front.filterMap p.dialable),
        .error ("Failed to parse bootstrap addr '" ++ s ++ "': " ++ e)) := by
  rw [addBootstrapNodes, p.addLoop_append hfront, addLoop]
  simp only [hs]

/-- Addresses that do not all parse have a first that does not. -/
theorem exists_first_error {addrs : List String}
    (h : ¬ ∀ s ∈ addrs, ∃ addr, p.parse s = .ok addr) :
    ∃ front s e rest, addrs = front ++ s :: rest ∧ p.parse s = .error e ∧
      ∀ s ∈ front, ∃ addr, p.parse s = .ok addr := by
  induction addrs with
  | nil => exact absurd (by simp) h
  | cons s addrs ih =>
      cases hs : p.parse s with
      | error e => exact ⟨[], s, e, addrs, rfl, hs, by simp⟩
      | ok addr =>
          have hrest : ¬ ∀ s ∈ addrs, ∃ addr, p.parse s = .ok addr := fun hall =>
            h (List.forall_mem_cons.mpr ⟨⟨addr, hs⟩, hall⟩)
          obtain ⟨front, s', e, rest, rfl, hs', hfront⟩ := ih hrest
          exact ⟨s :: front, s', e, rest, rfl, hs',
            List.forall_mem_cons.mpr ⟨⟨addr, hs⟩, hfront⟩⟩

/-- **When bad addresses cost nothing**: every address that parses and has a peer id is added, and
their number is returned, exactly when every address parses. -/
theorem addBootstrapNodes_eq_iff {Kademlia PeerId : Type} (p : Libp2p Kademlia PeerId)
    (kademlia : Kademlia) (addrs : List String) :
    p.addBootstrapNodes kademlia addrs =
        (p.addAll kademlia (addrs.filterMap p.dialable),
          .ok (addrs.filterMap p.dialable).length) ↔
      ∀ s ∈ addrs, ∃ addr, p.parse s = .ok addr := by
  constructor
  · intro hadded
    by_contra hbad
    obtain ⟨front, s, e, rest, rfl, hs, hfront⟩ := p.exists_first_error hbad
    rw [p.addBootstrapNodes_of_error hfront hs] at hadded
    cases (Prod.mk.inj hadded).2
  · intro hall
    exact p.addBootstrapNodes_of_parses hall kademlia

/-- How `libp2p` reads two addresses, and a routing table that lists what it was given. -/
def twoAddresses : Libp2p (List (String × Multiaddr String)) String where
  parse s :=
    if s = "/ip4/10.0.0.1/tcp/9444/p2p/QmYyQSo1c1Ym7orWxLYvCrM2EmxFTANf8wXmmE7DWjhx5N" then
      .ok [.other "/ip4/10.0.0.1", .other "/tcp/9444",
        .p2p "QmYyQSo1c1Ym7orWxLYvCrM2EmxFTANf8wXmmE7DWjhx5N"]
    else .error "unknown protocol string: invalid-address"
  addAddress kademlia peerId addr := kademlia ++ [(peerId, addr)]

/-- A bad address before a good one: an error, and nothing is added. -/
theorem bad_address_costs_the_next :
    ¬ ∀ addrs : List String, twoAddresses.addBootstrapNodes [] addrs =
      (twoAddresses.addAll [] (addrs.filterMap twoAddresses.dialable),
        .ok (addrs.filterMap twoAddresses.dialable).length) := by
  intro hall
  have hadded := hall ["/invalid-address",
    "/ip4/10.0.0.1/tcp/9444/p2p/QmYyQSo1c1Ym7orWxLYvCrM2EmxFTANf8wXmmE7DWjhx5N"]
  have herror : twoAddresses.parse "/invalid-address" =
      .error "unknown protocol string: invalid-address" := rfl
  have habort := twoAddresses.addBootstrapNodes_of_error (List.forall_mem_nil _) herror
    ["/ip4/10.0.0.1/tcp/9444/p2p/QmYyQSo1c1Ym7orWxLYvCrM2EmxFTANf8wXmmE7DWjhx5N"] []
  rw [List.nil_append, hadded] at habort
  cases (Prod.mk.inj habort).2

end Libp2p

end VaultKeeper
