import Sourced.EventRecord

/-!
# Events on the bus

What publishers and senders are handed (`bus/publisher.rs`).
-/

/-- **An event on the bus.** -/
structure Event where
  id : String
  eventType : String
  payload : Bytes
  metadata : Option (List (String × String))
deriving DecidableEq

namespace Event

/-- `Event::new`. -/
def new (id eventType : String) (payload : Bytes) : Event := ⟨id, eventType, payload, none⟩

/-- `with_metadata`. -/
def withMetadata (e : Event) (key value : String) : Event :=
  { e with metadata := some (e.metadata.getD [] ++ [(key, value)]) }

@[simp] theorem id_withMetadata (e : Event) (key value : String) :
    (e.withMetadata key value).id = e.id := rfl

/-- An event with the entries of a map, in an order of iteration. -/
def withAll (e : Event) (entries : List (String × String)) : Event :=
  entries.foldl (fun e kv => e.withMetadata kv.1 kv.2) e

@[simp] theorem id_withAll (e : Event) (entries : List (String × String)) :
    (e.withAll entries).id = e.id := by
  induction entries generalizing e with
  | nil => rfl
  | cons kv entries ih => exact (ih _).trans (id_withMetadata e kv.1 kv.2)

/-- `payload_str`: the payload as text, where it is UTF-8. -/
def payloadStr (e : Event) : Option String := String.fromUTF8? ⟨e.payload.toArray⟩

end Event
