import Bamboo.Lib.Interleave
import Bamboo.Types

/-!
# The key-value store

`Execute` answers with the value that a key had and then writes, unless the command is a read.

* `Database.execute`, `conflict`, `conflictBatch`: as in the source;
* `Database.Same`: databases that cannot be told apart, whatever the order of their map entries;
* `independent_of_not_conflict`: what the conflict test is for;
* `batches_commute`: **batches that do not conflict may be interleaved**.
-/

namespace Bamboo

namespace Command

/-- `Command.IsRead`. -/
def isRead (c : Command) : Bool := c.value.isNone

end Command

/-- `db.database`. -/
structure Database where
  data : GoMap ℤ (List UInt8)
  version : ℤ
  multiversion : Bool
  history : GoMap ℤ (List (List UInt8))

namespace Database

/-- `database.put`; a `nil` value is not written. -/
def put (d : Database) (k : ℤ) (v : Option (List UInt8)) : Database :=
  match v with
  | none => d
  | some v =>
    { d with
      data := d.data.insert k v
      version := int64 (d.version + 1)
      history := if d.multiversion then d.history.insert k ((d.history.lookup k).getD [] ++ [v]) else d.history }

/-- `database.Execute`. -/
def execute (c : Command) (d : Database) : Option (List UInt8) × Database :=
  (d.data.lookup c.key, d.put c.key c.value)

end Database

/-- `Conflict`. -/
def conflict (gamma delta : Command) : Bool := gamma.key == delta.key && (!gamma.isRead || !delta.isRead)

/-- `ConflictBatch`. -/
def conflictBatch (batch1 batch2 : List Command) : Bool :=
  batch1.any fun gamma => batch2.any fun delta => conflict gamma delta

namespace Database

/-- The databases have the same data, version and histories. -/
structure Same (d e : Database) : Prop where
  data : ∀ k, d.data.lookup k = e.data.lookup k
  version : d.version = e.version
  multiversion : d.multiversion = e.multiversion
  history : ∀ k, d.history.lookup k = e.history.lookup k

/-- Databases up to the order of their map entries. -/
def same : Setoid Database where
  r := Same
  iseqv :=
    { refl := fun _ => ⟨fun _ => rfl, rfl, rfl, fun _ => rfl⟩
      symm := fun h => ⟨fun k => (h.data k).symm, h.version.symm, h.multiversion.symm, fun k => (h.history k).symm⟩
      trans := fun h h' => ⟨fun k => (h.data k).trans (h'.data k), h.version.trans h'.version,
        h.multiversion.trans h'.multiversion, fun k => (h.history k).trans (h'.history k)⟩ }

variable {d e : Database}

theorem lookup_insert_congr {ν : Type} {m m' : GoMap ℤ ν} (h : ∀ k, m.lookup k = m'.lookup k) (k : ℤ) (v : ν)
    (j : ℤ) : (m.insert k v).lookup j = (m'.insert k v).lookup j := by
  by_cases hj : j = k
  · subst hj
    rw [AList.lookup_insert, AList.lookup_insert]
  · rw [AList.lookup_insert_ne hj, AList.lookup_insert_ne hj, h]

theorem Same.put (h : Same d e) (k : ℤ) (v : Option (List UInt8)) : Same (d.put k v) (e.put k v) := by
  cases v with
  | none => exact h
  | some v =>
    refine ⟨lookup_insert_congr h.data k v, ?_, h.multiversion, fun j => ?_⟩
    · show int64 (d.version + 1) = int64 (e.version + 1)
      rw [h.version]
    · show AList.lookup j (if d.multiversion then _ else _) = AList.lookup j (if e.multiversion then _ else _)
      rw [h.multiversion, h.history k]
      split_ifs
      · exact lookup_insert_congr h.history k _ j
      · exact h.history j

/-- The store as a machine that answers commands. -/
def stepper : Stepper Database Command (Option (List UInt8)) where
  step := execute
  same := same
  congr := fun c _ _ h => ⟨h.data c.key, h.put c.key c.value⟩

/-- Writes to different keys. -/
theorem same_put_put {k k' : ℤ} (h : k ≠ k') (v v' : Option (List UInt8)) (d : Database) :
    Same ((d.put k v).put k' v') ((d.put k' v').put k v) := by
  cases v with
  | none => exact same.refl _
  | some v =>
    cases v' with
    | none => exact same.refl _
    | some v' =>
      refine ⟨fun j => AList.perm_lookup (AList.insert_insert_of_ne _ h), rfl, rfl, fun j => ?_⟩
      show AList.lookup j (if d.multiversion then _ else _) = AList.lookup j (if d.multiversion then _ else _)
      split_ifs with hm
      · simp only [put, hm, if_true]
        rw [AList.lookup_insert_ne h.symm, AList.lookup_insert_ne h]
        exact AList.perm_lookup (AList.insert_insert_of_ne _ h)
      · simp only [put, hm]
        rfl

theorem lookup_put_ne {k j : ℤ} (h : j ≠ k) (v : Option (List UInt8)) (d : Database) :
    (d.put k v).data.lookup j = d.data.lookup j := by
  cases v with
  | none => rfl
  | some v => exact AList.lookup_insert_ne h

/-- **Commands that do not conflict are independent.** -/
theorem independent_of_not_conflict {c c' : Command} (h : conflict c c' = false) : stepper.Independent c c' := by
  intro d
  show (d.put c'.key c'.value).data.lookup c.key = d.data.lookup c.key ∧
    (d.put c.key c.value).data.lookup c'.key = d.data.lookup c'.key ∧
    Same ((d.put c'.key c'.value).put c.key c.value) ((d.put c.key c.value).put c'.key c'.value)
  by_cases hkey : c.key = c'.key
  · -- both are reads, and change nothing
    have hreads : c.value = none ∧ c'.value = none := by
      simpa [conflict, hkey, Command.isRead] using h
    rw [hreads.1, hreads.2]
    exact ⟨rfl, rfl, same.refl _⟩
  · exact ⟨lookup_put_ne hkey _ _, lookup_put_ne (Ne.symm hkey) _ _, same_put_put (Ne.symm hkey) _ _ _⟩

/-- **Batches that do not conflict commute.**  In any interleaving `w` of the two, all commands are answered as if
the second batch came after the first, and the database is left the same. -/
theorem batches_commute (d : Database) (batch1 batch2 : List Command) (h : conflictBatch batch1 batch2 = false)
    (w : List (Command ⊕ Command)) (h1 : Stepper.lefts w = batch1) (h2 : Stepper.rights w = batch2) :
    Stepper.lefts (stepper.runBoth w d).1 = (stepper.run batch1 d).1 ∧
    Stepper.rights (stepper.runBoth w d).1 = (stepper.run batch2 (stepper.run batch1 d).2).1 ∧
    Same (stepper.runBoth w d).2 (stepper.run batch2 (stepper.run batch1 d).2).2 := by
  subst h1 h2
  apply Stepper.interleave
  intro c hc c' hc'
  apply independent_of_not_conflict
  simp only [conflictBatch, List.any_eq_false, Bool.not_eq_true] at h
  exact h c hc c' hc'

/-- A write and a read of key 1 with a write of key 2 between them. -/
theorem batches_commute_twoKeys :
    ∃ d : Database, conflictBatch [⟨1, some [7], "", 0⟩, ⟨1, none, "", 1⟩] [⟨2, some [8], "", 0⟩] = false ∧
      Stepper.lefts (stepper.runBoth [.inl ⟨1, some [7], "", 0⟩, .inr ⟨2, some [8], "", 0⟩,
        .inl ⟨1, none, "", 1⟩] d).1 = [none, some [7]] :=
  ⟨⟨∅, 0, true, ∅⟩, by decide, (batches_commute ⟨∅, 0, true, ∅⟩ _ _ (by decide) _ rfl rfl).1.trans rfl⟩

end Database

end Bamboo
