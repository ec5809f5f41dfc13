import Bamboo.FourNodes

/-!
# What the id of a block fixes

Signatures and votes are for the id of a block, which is the hash of an encoding of the block.  Of the payload
`makeID` encodes the transaction ids only, and these are the request paths that clients choose.

* `BlockArgs`: the arguments of `MakeBlock`;
* `id_eq_iff`: when two blocks have one id, if the hash has no collisions;
* `ids_bind_contents_iff`: when this makes the arguments equal, and `same_ids_other_commands`, where it does not.
-/

namespace Bamboo

/-- The arguments of `MakeBlock`; the certificate may be `nil`. -/
structure BlockArgs where
  view : ℤ
  qc : Option QC
  prevID : ℕ
  payload : List Transaction
  proposer : NodeID

variable {cf : Config}

namespace BlockArgs

/-- `MakeBlock`. -/
def make (cf : Config) (a : BlockArgs) : Except Fault Block := do
  let b : Block := ⟨a.view, a.qc, a.proposer, a.payload, a.prevID, [], zeroID, none⟩
  let id := cf.makeID b.raw
  return { b with id := id, sig := ← privSign cf id a.proposer }

-- with a certificate it is the `makeBlock` of the proposals
example (view : ℤ) (qc : QC) (prevID : ℕ) (payload : List Transaction) (proposer : NodeID) :
    makeBlock cf view qc prevID payload proposer = make cf ⟨view, some qc, prevID, payload, proposer⟩ := rfl

/-- The ids of the transactions in the payload. -/
def txnIDs (a : BlockArgs) : List String := a.payload.map Transaction.id

variable {a a₁ a₂ : BlockArgs} {b b₁ b₂ : Block}

theorem make_eq_ok (h : make cf a = .ok b) :
    b.id = cf.makeID ⟨a.view, a.qc, a.proposer, a.txnIDs, a.prevID⟩ := by
  unfold make at h
  simp only [bind, Except.bind, pure, Except.pure] at h
  split at h
  · cases h
  · cases h
    rfl

/-- **Two blocks have one id** exactly if they agree in everything but the commands of their transactions. -/
theorem id_eq_iff (hid : Function.Injective cf.makeID) (h₁ : make cf a₁ = .ok b₁) (h₂ : make cf a₂ = .ok b₂) :
    b₁.id = b₂.id ↔ a₁.view = a₂.view ∧ a₁.qc = a₂.qc ∧ a₁.prevID = a₂.prevID ∧ a₁.proposer = a₂.proposer ∧
      a₁.txnIDs = a₂.txnIDs := by
  rw [make_eq_ok h₁, make_eq_ok h₂, hid.eq_iff, RawBlock.mk.injEq]
  exact ⟨fun ⟨hv, hq, hp, hi, hr⟩ => ⟨hv, hq, hr, hp, hi⟩, fun ⟨hv, hq, hr, hp, hi⟩ => ⟨hv, hq, hp, hi, hr⟩⟩

/-- If the arguments agree in everything else, transactions with the same ids in the same order are the same. -/
def IDsBindCommands (a₁ a₂ : BlockArgs) : Prop :=
  a₁.view = a₂.view → a₁.qc = a₂.qc → a₁.prevID = a₂.prevID → a₁.proposer = a₂.proposer →
    a₁.txnIDs = a₂.txnIDs → a₁.payload = a₂.payload

/-- **The id of a block fixes what it was made from**, if the hash has no collisions, exactly if the transaction
ids fix the transactions. -/
theorem ids_bind_contents_iff (cf : Config) (hid : Function.Injective cf.makeID) (a₁ a₂ : BlockArgs)
    (b₁ b₂ : Block) (h₁ : make cf a₁ = .ok b₁) (h₂ : make cf a₂ = .ok b₂) :
    (b₁.id = b₂.id → a₁.view = a₂.view ∧ a₁.qc = a₂.qc ∧ a₁.prevID = a₂.prevID ∧ a₁.proposer = a₂.proposer ∧
      a₁.payload = a₂.payload) ↔ IDsBindCommands a₁ a₂ := by
  rw [id_eq_iff hid h₁ h₂]
  constructor
  · intro h hv hq hp hr hi
    exact (h ⟨hv, hq, hp, hr, hi⟩).2.2.2.2
  · rintro h ⟨hv, hq, hp, hr, hi⟩
    exact ⟨hv, hq, hp, hr, h hv hq hp hr hi⟩

end BlockArgs

/-! ### A hash without collisions -/

section Countable

instance instCountableChar : Countable Char :=
  Function.Injective.countable (f := Char.toNat) fun _ _ h => Char.toNat_inj.1 h

instance instCountableString : Countable String :=
  Function.Injective.countable (f := String.toList) fun _ _ h => String.toList_inj.1 h

deriving instance Countable for QC

deriving instance Countable for RawBlock

end Countable

/-- There is one, as there are countably many blocks. -/
theorem exists_injective_makeID : ∃ cf : Config, cf.n = 4 ∧ Function.Injective cf.makeID := by
  obtain ⟨f, hf⟩ := exists_injective_nat RawBlock
  exact ⟨{ FourNodes.config (fun _ => "1") with makeID := f }, rfl, hf⟩

/-- Of four nodes, node 1 can sign. -/
theorem exists_make (hn : cf.n = 4) (view : ℤ) (qc : Option QC) (prevID : ℕ) (payload : List Transaction) :
    ∃ b, BlockArgs.make cf ⟨view, qc, prevID, payload, "1"⟩ = .ok b := by
  have hk : keyIndex cf "1" = .ok 0 := by
    unfold keyIndex
    rw [hn]
    decide
  unfold BlockArgs.make privSign
  simp only [hk]
  exact ⟨_, rfl⟩

open FourNodes (write)

/-- Payloads with different transaction ids. -/
theorem ids_bind_contents_iff_twoPaths :
    ∃ (cf : Config) (b₁ b₂ : Block), Function.Injective cf.makeID ∧
      BlockArgs.make cf ⟨1, some .initial, 0, [write "/a" 7], "1"⟩ = .ok b₁ ∧
      BlockArgs.make cf ⟨1, some .initial, 0, [write "/b" 8], "1"⟩ = .ok b₂ ∧ b₁.id ≠ b₂.id := by
  obtain ⟨cf, hn, hid⟩ := exists_injective_makeID
  obtain ⟨b₁, h₁⟩ := exists_make hn 1 (some .initial) 0 [write "/a" 7]
  obtain ⟨b₂, h₂⟩ := exists_make hn 1 (some .initial) 0 [write "/b" 8]
  refine ⟨cf, b₁, b₂, hid, h₁, h₂, fun he => ?_⟩
  have hbound := (BlockArgs.ids_bind_contents_iff cf hid _ _ b₁ b₂ h₁ h₂).2 fun _ _ _ _ hids =>
    absurd hids (by decide)
  exact absurd (hbound he).2.2.2.2 (by decide)

/-- **Blocks with different commands and one id**: a client may send two commands to one path. -/
theorem same_ids_other_commands :
    ∃ (cf : Config) (b₁ b₂ : Block), Function.Injective cf.makeID ∧
      BlockArgs.make cf ⟨1, some .initial, 0, [write "/a" 7], "1"⟩ = .ok b₁ ∧
      BlockArgs.make cf ⟨1, some .initial, 0, [write "/a" 8], "1"⟩ = .ok b₂ ∧ b₁.id = b₂.id ∧
      [write "/a" 7] ≠ [write "/a" 8] := by
  obtain ⟨cf, hn, hid⟩ := exists_injective_makeID
  obtain ⟨b₁, h₁⟩ := exists_make hn 1 (some .initial) 0 [write "/a" 7]
  obtain ⟨b₂, h₂⟩ := exists_make hn 1 (some .initial) 0 [write "/a" 8]
  exact ⟨cf, b₁, b₂, hid, h₁, h₂, (BlockArgs.id_eq_iff hid h₁ h₂).2 ⟨rfl, rfl, rfl, rfl, rfl⟩, by decide⟩

end Bamboo
