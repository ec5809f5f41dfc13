import Bamboo.Replica

/-!
# A deployment of four nodes

A configuration in which everything can be computed, for concrete runs: four nodes, one leader for each
view, a block's id is its view, and a signature spells out the key and the signed data.
-/

namespace Bamboo

namespace FourNodes

/-- The node ids. -/
def members : List NodeID := ["1", "2", "3", "4"]

/-- The configuration with the given leaders. -/
def config (leader : ℤ → NodeID) : Config where
  n := 4
  elec := ⟨fun id view => decide (leader view = id), leader⟩
  fork := false
  makeID := fun b => b.view.toNat
  makePID := fun b => b.view.toNat
  genesisID := 999
  ecdsaSign := fun k data => (List.replicate k 0, List.replicate data 0)
  ecdsaVerify := fun k data r s => decide (r.length = k ∧ s.length = data)
  rangeVotes := id
  rangeVotes_perm := fun l => List.Perm.refl l

theorem consistent (leader : ℤ → NodeID) (ids : List NodeID) : (config leader).elec.Consistent ids := by
  intro id _ view
  simp [config]

theorem signaturesVerify (leader : ℤ → NodeID) : (config leader).SignaturesVerify := by
  intro k data
  simp [config]

/-- The next view event of a node, with nothing to propose. -/
def newView (i : NodeID) : Net.System.Sched NodeID Event := .fire i (.newView [] ⟨[]⟩)

/-- Node 2 where node 1 leads all views. -/
def second : Node := (config fun _ => "1").honest "2"

/-- A signature under the key with index `k`. -/
def signature (k data : ℕ) : Signature := [List.replicate k 0, List.replicate data 0]

/-- The certificate that node 1 builds from the votes of nodes 1, 3 and 4 for the block of a view. -/
def certificate (view : ℤ) : QC :=
  ⟨"1", view, view.toNat, ["1", "3", "4"],
    [signature 0 view.toNat, signature 2 view.toNat, signature 3 view.toNat], []⟩

/-- The block that node 1 proposes in a view on a certificate. -/
def block (view : ℤ) (qc : QC) : Block :=
  ⟨view, some qc, "1", [], qc.blockID, signature 0 view.toNat, view.toNat, none⟩

/-- A transaction that writes one byte. -/
def write (id : String) (value : UInt8) : Transaction := ⟨id, ⟨1, some [value], "", 0⟩⟩

end FourNodes

end Bamboo
