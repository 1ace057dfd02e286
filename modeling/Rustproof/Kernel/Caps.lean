/-
Authority: what a capability space holds, and what each role is granted.

Every predicate of the source that asks "does this space hold a capability for X" is one search, `holdsCap`, with the
type, object and rights it looks for; every one that resolves a presented capability is `capNamed`.
-/
import Rustproof.Kernel.State

namespace Rustproof.Kernel

open Lib CapRights

/-! ## Holding -/

/-- some live capability of the space satisfies `p` -/
def holdsCap (caps : Caps) (p : Capabilities.CapSlot → Bool) : Bool :=
  anyIdx CAP_SLOTS fun i => (caps.lookup i).elim false p

/-- a capability of type `t` for `object` with `needed` -/
def forObject (t : CapType) (object : ℕ) (needed : CapRights) (s : Capabilities.CapSlot) : Bool :=
  s.capType == t && s.object == object && s.rights.contains needed

def capsHoldIrq (caps : Caps) (line : ℕ) : Bool := holdsCap caps (forObject .irq line READ)

def capsHoldMmio (caps : Caps) : Bool := holdsCap caps fun s => s.capType == .mmio && s.rights.contains READ

def capsHoldEndpoint (caps : Caps) (ep : ℕ) (needed : CapRights) : Bool := holdsCap caps (forObject .endpoint ep needed)

def capsHoldRegion (caps : Caps) (id : ℕ) (needed : CapRights) : Bool := holdsCap caps (forObject .region id needed)

def capsHoldDomain (caps : Caps) (domain : ℕ) (needed : CapRights) : Bool :=
  holdsCap caps (forObject .iommuDomain domain needed)

/-! ## Resolving a presented capability -/

/-- the capability in slot `cap`, if it has type `t` and carries `needed` -/
def capNamed (caps : Caps) (t : CapType) (cap : ℕ) (needed : CapRights) : Option Capabilities.CapSlot :=
  match caps.lookup cap with
  | some s => if s.capType = t ∧ s.rights.contains needed = true then some s else none
  | none => none

def capsIrqLine (caps : Caps) (cap : ℕ) : Option ℕ := (capNamed caps .irq cap READ).map (·.object)

def capsRegion (caps : Caps) (cap : ℕ) (needed : CapRights) : Option (ℕ × CapRights) :=
  (capNamed caps .region cap needed).map fun s => (s.object, s.rights)

def capsIommuDomain (caps : Caps) (cap : ℕ) (needed : CapRights) : Option ℕ :=
  (capNamed caps .iommuDomain cap needed).map (·.object)

def capsEndpointObject (caps : Caps) (cap : ℕ) (needed : CapRights) : Option ℕ :=
  (capNamed caps .endpoint cap needed).map (·.object)

/-- a type something can be created from -/
def isMintSource (t : CapType) : Bool := t == .untyped

/-- an `Untyped` carrying WRITE in slot `cap`: what `SPAWN` and `MAKE_REGION` ask for -/
def capsMint (caps : Caps) (cap : ℕ) : Option Capabilities.CapSlot :=
  match caps.lookup cap with
  | some s => if isMintSource s.capType = true ∧ s.rights.contains WRITE = true then some s else none
  | none => none

/-! ## Interrupt lines -/

/-- the lines the kernel delivers -/
def deliversIrq (line : ℕ) : Bool := line == IRQ_TIMER || line == IRQ_CONSOLE

/-- a wait by `proc` on `line` can be answered -/
def creditable (s : KState) (proc line : ℕ) : Bool := deliversIrq line && capsHoldIrq (s.procs proc).caps line

/-! ## Roles -/

/-- grant-table selector of the bounded device's real registers -/
def MMIO_DEVICE_BAR : ℕ := 1

/-- a slot that exists and confers nothing -/
def NO_AUTHORITY : CapType × CapRights × ℕ := (.endpoint, NONE, 0)

/-- the capability set this kernel grants each role, by position -/
def ROLE_GRANTS : Role → List (CapType × CapRights × ℕ)
  | .producer => [(.endpoint, WRITE, 0)]
  | .consumer => [(.endpoint, READ, 0)]
  | .worker =>
    [NO_AUTHORITY,
      (.mmio, ALL, 0xE0000000),
      (.untyped, ALL, 0),
      (.endpoint, READ, 1),
      (.untyped, READ, 0),
      (.mmio, WRITE, 0xE0000000),
      (.irq, READ, IRQ_TIMER),
      (.irq, READ, IRQ_CONSOLE),
      (.iommuDomain, ALL, 1),
      (.iommuDomain, READ, 1),
      (.iommuDomain, ALL, 3),
      (.iommuDomain, ALL, 2),
      (.mmio, ALL, MMIO_DEVICE_BAR)]
  | .child => []

/-- the capability set granted to each role: a child starts with nothing -/
def grantsFor (C : Config) : Role → List (CapType × CapRights × ℕ)
  | .child => []
  | role => C.grants role

/-- the role of the `i`th initial process -/
def bootRole : ℕ → Role
  | 0 => .producer
  | 1 => .consumer
  | _ => .worker

/-- the object an `Mmio` grant resolves to; 0 for a window this machine does not have -/
def resolveMmio (A : Arch) (C : Config) (object : ℕ) : ℕ :=
  if A.iommu = true ∧ object = MMIO_DEVICE_BAR then
    if (C.domainSlots 0).id ≠ 0 then C.deviceBar else 0
  else C.devicePhys

/-- one grant of the table as it is minted: `Mmio` objects resolved, missing windows replaced by no authority -/
def resolveGrant (A : Arch) (C : Config) (g : CapType × CapRights × ℕ) : CapType × CapRights × ℕ :=
  if g.1 = .mmio then
    if resolveMmio A C g.2.2 = 0 then NO_AUTHORITY else (g.1, g.2.1, resolveMmio A C g.2.2)
  else g

/-- insert the grants in order into a fresh space -/
def mintGrants (A : Arch) (C : Config) (role : Role) : Caps :=
  (grantsFor C role).foldl (fun caps g =>
    let g := resolveGrant A C g
    (caps.insert g.1 g.2.1 g.2.2).elim caps Prod.snd) Capabilities.CapSpace.new

end Rustproof.Kernel
