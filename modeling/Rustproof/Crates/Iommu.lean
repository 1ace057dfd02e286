/-
The containment model behind a DMA domain (`crates/iommu`): which frames the domain's capabilities authorize, and which
it currently translates.

`Domain G M` has `G` grants and `M` mappings. A grant that goes away, or narrows, takes the mappings it no longer covers.
-/
import Rustproof.Abi
import Rustproof.Lib.Table

namespace Rustproof.Iommu

open Lib

/-- a frame the domain's capabilities authorize, and the rights they confer -/
structure Grant where
  live : Bool
  frame : ℕ
  rights : CapRights
deriving DecidableEq, Repr

def Grant.EMPTY : Grant := ⟨false, 0, CapRights.NONE⟩

/-- an address the I/O page tables translate for the device -/
structure Mapping where
  live : Bool
  iova : ℕ
  frame : ℕ
  rights : CapRights
deriving DecidableEq, Repr

def Mapping.EMPTY : Mapping := ⟨false, 0, 0, CapRights.NONE⟩

inductive MapErr where
  | notGranted
  | rightsExceedGrant
  | iovaInUse
  | full
deriving DecidableEq, Repr

structure Domain (G M : ℕ) where
  grants : Table Grant
  maps : Table Mapping

namespace Domain

variable {G M : ℕ}

def new : Domain G M := ⟨fun _ => Grant.EMPTY, fun _ => Mapping.EMPTY⟩

/-- index of the live grant on `frame` -/
def grantIdx (d : Domain G M) (frame : ℕ) : Option ℕ :=
  firstIdx G fun i => (d.grants i).live && (d.grants i).frame == frame

/-- the rights a live grant confers on `frame` -/
def granted (d : Domain G M) (frame : ℕ) : Option CapRights := (d.grantIdx frame).map fun i => (d.grants i).rights

/-- withdraw the mappings of `frame` that `rights` does not cover -/
def withdrawUncovered (d : Domain G M) (frame : ℕ) (rights : CapRights) : Domain G M :=
  { d with maps := fun i =>
      if i < M ∧ (d.maps i).live ∧ (d.maps i).frame = frame ∧ rights.contains (d.maps i).rights = false
      then Mapping.EMPTY else d.maps i }

/-- authorize `frame`; an existing grant is replaced, and mappings wider than the new rights are withdrawn -/
def grant (d : Domain G M) (frame : ℕ) (rights : CapRights) : Bool × Domain G M :=
  match d.grantIdx frame with
  | some i => (true, withdrawUncovered { d with grants := d.grants.put i { d.grants i with rights := rights } } frame rights)
  | none =>
    match firstIdx G fun i => !(d.grants i).live with
    | some i => (true, { d with grants := d.grants.put i ⟨true, frame, rights⟩ })
    | none => (false, d)

/-- withdraw the authorization for `frame`, its mappings first -/
def revoke (d : Domain G M) (frame : ℕ) : Domain G M :=
  { grants := fun i => if i < G ∧ (d.grants i).live ∧ (d.grants i).frame = frame then Grant.EMPTY else d.grants i
    maps := fun i => if i < M ∧ (d.maps i).live ∧ (d.maps i).frame = frame then Mapping.EMPTY else d.maps i }

/-- install a translation, if a grant authorizes it -/
def map (d : Domain G M) (iova frame : ℕ) (rights : CapRights) : Except MapErr (Domain G M) :=
  match d.granted frame with
  | none => .error .notGranted
  | some have_ =>
    if have_.contains rights = false then .error .rightsExceedGrant
    else if anyIdx M fun i => (d.maps i).live && (d.maps i).iova == iova then .error .iovaInUse
    else
      match firstIdx M fun i => !(d.maps i).live with
      | some i => .ok { d with maps := d.maps.put i ⟨true, iova, frame, rights⟩ }
      | none => .error .full

/-- remove a translation; removing what is not there is a no-op -/
def unmap (d : Domain G M) (iova : ℕ) : Domain G M :=
  match firstIdx M fun i => (d.maps i).live && (d.maps i).iova == iova with
  | some i => { d with maps := d.maps.put i Mapping.EMPTY }
  | none => d

/-- every live mapping -/
def reachable (d : Domain G M) : List Mapping := ((List.range M).map d.maps).filter (·.live)

/-- every live grant -/
def liveGrants (d : Domain G M) : List Grant := ((List.range G).map d.grants).filter (·.live)

/-- every mapping is covered by a grant no narrower than it -/
def contained (d : Domain G M) : Bool :=
  d.reachable.all fun m => (d.granted m.frame).elim false fun r => r.contains m.rights

end Domain

end Rustproof.Iommu
