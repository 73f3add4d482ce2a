import Sourced.EventRecord

/-!
# The snapshot store

One snapshot per aggregate id, the latest saved one (`snapshot/store.rs`,
`snapshot/in_memory.rs`). The store of `HashMapRepository` is the in-memory
one; nothing panics while its lock is held, so none of its operations fails.
-/

/-- **`SnapshotRecord`.** -/
structure SnapshotRecord where
  aggregateId : String
  version : ℕ
  data : Bytes
deriving DecidableEq

/-- **`InMemorySnapshotStore`.** -/
structure SnapshotStore where
  storage : Finmap (fun _ : String => SnapshotRecord)

namespace SnapshotStore

/-- `InMemorySnapshotStore::new`. -/
def new : SnapshotStore := ⟨∅⟩

/-- `get_snapshot`. -/
def getSnapshot (s : SnapshotStore) (id : String) : Option SnapshotRecord :=
  s.storage.lookup id

/-- `save_snapshot`: whatever was saved under the id is replaced. -/
def saveSnapshot (s : SnapshotStore) (record : SnapshotRecord) : SnapshotStore :=
  ⟨s.storage.insert record.aggregateId record⟩

/-- `delete_snapshot`: whether there was one. -/
def deleteSnapshot (s : SnapshotStore) (id : String) : Bool × SnapshotStore :=
  ((s.storage.lookup id).isSome, ⟨s.storage.erase id⟩)

/-- After a save the id has the saved record, and every other id what it
had. -/
theorem getSnapshot_saveSnapshot (s : SnapshotStore) (record : SnapshotRecord) (id : String) :
    (s.saveSnapshot record).getSnapshot id
      = if id = record.aggregateId then some record else s.getSnapshot id := by
  unfold getSnapshot saveSnapshot
  by_cases h : id = record.aggregateId
  · subst h
    rw [if_pos rfl]
    exact Finmap.lookup_insert _
  · rw [if_neg h]
    exact Finmap.lookup_insert_of_ne _ h

theorem getSnapshot_deleteSnapshot {s : SnapshotStore} {id id' : String} {r : SnapshotRecord}
    (h : (s.deleteSnapshot id).2.getSnapshot id' = some r) : s.getSnapshot id' = some r := by
  by_cases hid : id' = id
  · subst hid
    have : (s.deleteSnapshot id').2.getSnapshot id' = none := Finmap.lookup_erase _ _
    rw [this] at h
    cases h
  · exact (Finmap.lookup_erase_ne hid).symm.trans h

end SnapshotStore
